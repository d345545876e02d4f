import Amalgam.Proofs.FileSystem.Access
import Amalgam.Proofs.Text.Pieces
import Mathlib.Data.List.Basic

/-!
# Names on the way

A walk goes from a directory to an entry in it by a name, and a path goes there
by joining the name to it. The two agree:

* `Walks.append`: a walk that ends in a directory goes on from there;
* `Enters.join`, `Enters.leadsTo`: where a path enters a directory, the path
  joined with a name leads to the entry of that name;
* `components_join`: a name that is joined to a path is one more component of
  it;
* `WritesTo.named`: a write goes to a location with names that entries can
  have, if the current directory has such names.
-/

namespace Amalgam.FileSystem

/-! ## Names -/

/-- A piece of a path that asks for a name. -/
structure IsPiece (text : String) : Prop where
  step : Segment.ofPiece? text = some (.name text)
  noSlash : '/' ∉ text.toList

/-- A name that an entry can have. -/
structure IsName (text : String) : Prop extends IsPiece text where
  fits : text.utf8ByteSize ≤ nameLimit

instance (text : String) : Decidable (IsPiece text) :=
  decidable_of_iff (Segment.ofPiece? text = some (.name text) ∧ '/' ∉ text.toList)
    ⟨fun h => ⟨h.1, h.2⟩, fun h => ⟨h.step, h.noSlash⟩⟩

/-- The names that a route asks for are pieces of paths. -/
def Spelled (route : List Segment) : Prop :=
  ∀ text, .name text ∈ route → IsPiece text

/-- The names on the way to a location are names that entries can have. -/
def Named (l : Location) : Prop :=
  ∀ name ∈ l, IsName name

variable {fs : FileSystem} {intent : Intent} {dir d l : Location} {route rest : List Segment}
  {p : Path} {links : Nat} {t : Target} {r : Progress} {name : String}

theorem IsPiece.ne_empty (h : IsPiece name) : name ≠ "" := by
  rintro rfl
  cases h.step

theorem Named.dropLast (h : Named l) : Named l.dropLast :=
  fun name hm => h name (List.dropLast_subset l hm)

theorem Named.concat (h : Named l) (hn : IsName name) : Named (l ++ [name]) := by
  intro text hm
  rcases List.mem_append.mp hm with hm | hm
  · exact h text hm
  · rwa [List.mem_singleton.mp hm]

theorem Named.startOf (h : Named dir) (p : Path) : Named (FileSystem.startOf p dir) := by
  unfold FileSystem.startOf
  split
  · exact fun _ hm => absurd hm List.not_mem_nil
  · exact h

/-! ## The steps of a path -/

/-- Only a name asks for a name. -/
theorem eq_of_ofPiece?_eq_name {piece text : String} (h : Segment.ofPiece? piece = some (.name text)) :
    piece = text := by
  unfold Segment.ofPiece? at h
  split at h
  · cases h
  · cases h
  · cases h
  · exact Segment.name.inj (Option.some.inj h)

/-- The steps that a path asks for, but for a slash at its end. -/
def steps (p : Path) : List Segment :=
  p.pieces.filterMap Segment.ofPiece?

theorem segments_eq (p : Path) :
    segments p = steps p ++ if p.text.toList.getLast? = some '/' then [.slash] else [] :=
  rfl

theorem spelled_segments (p : Path) : Spelled (segments p) := by
  intro text hm
  have hsteps : .name text ∈ steps p := by
    rw [segments_eq] at hm
    rcases List.mem_append.mp hm with hm | hm
    · exact hm
    · split at hm <;> simp at hm
  obtain ⟨piece, hpiece, hstep⟩ := List.mem_filterMap.mp hsteps
  obtain rfl := eq_of_ofPiece?_eq_name hstep
  exact ⟨hstep, Text.not_mem_of_mem_pieces hpiece⟩

/-! ## Joining a name -/

theorem not_isAbsolute (h : IsPiece name) : Path.isAbsolute ⟨name⟩ = false := by
  have hhead : name.toList.head? ≠ some '/' := fun e => h.noSlash (List.mem_of_mem_head? e)
  simpa [Path.isAbsolute] using hhead

/-- A name is joined to a path behind a slash, unless the path is empty. -/
theorem join_cases (h : IsPiece name) (p : Path) : p.text = "" ∧ p.join ⟨name⟩ = ⟨name⟩ ∨
    ∃ front, p.join ⟨name⟩ = ⟨front ++ "/" ++ name⟩ ∧
      (p.text = front ++ "/" ∨ p.text = front ∧ front ≠ "") := by
  unfold Path.join
  rw [if_neg (by simp [not_isAbsolute h])]
  by_cases hempty : p.text = ""
  · exact .inl ⟨hempty, by simp [hempty]⟩
  refine .inr ?_
  by_cases hslash : p.text.toList.getLast? = some '/'
  · obtain ⟨front, hfront⟩ := List.getLast?_eq_some_iff.mp hslash
    have htext : p.text = String.ofList front ++ "/" := by
      rw [← String.toList_inj, hfront]
      simp
    exact ⟨String.ofList front, by rw [if_pos (.inr hslash), htext], .inl htext⟩
  · exact ⟨p.text, by rw [if_neg (by simp [hempty, hslash])], .inr ⟨rfl, hempty⟩⟩

theorem pieces_slash (front back : String) :
    Path.pieces ⟨front ++ "/" ++ back⟩ = Path.pieces ⟨front⟩ ++ Path.pieces ⟨back⟩ :=
  Text.pieces_append '/' front back

theorem pieces_name (h : IsPiece name) : Path.pieces ⟨name⟩ = [name] :=
  Text.pieces_eq_singleton h.noSlash

theorem steps_slash (front back : String) :
    steps ⟨front ++ "/" ++ back⟩ = steps ⟨front⟩ ++ steps ⟨back⟩ := by
  rw [steps, pieces_slash, List.filterMap_append]
  rfl

theorem steps_name (h : IsPiece name) : steps ⟨name⟩ = [.name name] := by
  simp [steps, pieces_name h, h.step]

theorem steps_final_slash (front : String) : steps ⟨front ++ "/"⟩ = steps ⟨front⟩ := by
  rw [← String.append_empty (s := front ++ "/"), steps_slash]
  exact List.append_nil _

theorem steps_join (h : IsPiece name) (p : Path) : steps (p.join ⟨name⟩) = steps p ++ [.name name] := by
  obtain ⟨text⟩ := p
  rcases join_cases h ⟨text⟩ with ⟨rfl, hjoin⟩ | ⟨front, hjoin, rfl | ⟨rfl, -⟩⟩
  · rw [hjoin, steps_name h]
    rfl
  · rw [hjoin, steps_slash, steps_name h, steps_final_slash]
  · rw [hjoin, steps_slash, steps_name h]

theorem segments_join (h : IsPiece name) (p : Path) :
    segments (p.join ⟨name⟩) = steps p ++ [.name name] := by
  have hlast : (p.join ⟨name⟩).text.toList.getLast? ≠ some '/' := by
    have hname : name.toList ≠ [] := by simpa using h.ne_empty
    intro hlast
    refine h.noSlash (List.mem_of_mem_getLast? (a := '/') ?_)
    rcases join_cases h p with ⟨-, hjoin⟩ | ⟨front, hjoin, -⟩
    · rwa [hjoin] at hlast
    · rwa [hjoin, String.toList_append, List.getLast?_append_of_ne_nil _ hname] at hlast
  rw [segments_eq, steps_join h, if_neg hlast, List.append_nil]

theorem isAbsolute_join (h : IsPiece name) (p : Path) : (p.join ⟨name⟩).isAbsolute = p.isAbsolute := by
  obtain ⟨text⟩ := p
  rcases join_cases h ⟨text⟩ with ⟨rfl, hjoin⟩ | ⟨front, hjoin, rfl | ⟨rfl, hne⟩⟩
  · rw [hjoin, not_isAbsolute h]
    rfl
  · rw [hjoin]
    simp [Path.isAbsolute]
  · rw [hjoin]
    have hfront : text.toList ≠ [] := by simpa using hne
    simp [Path.isAbsolute, List.head?_append_of_ne_nil _ hfront]

theorem startOf_join (h : IsPiece name) (p : Path) (dir : Location) :
    startOf (p.join ⟨name⟩) dir = startOf p dir := by
  rw [startOf, startOf, isAbsolute_join h]

/-! ## Components of a joined name -/

theorem IsPiece.component (h : IsPiece name) : Path.Component.ofPiece? name = some (.name name) := by
  have hstep := h.step
  unfold Segment.ofPiece? at hstep
  unfold Path.Component.ofPiece?
  split at hstep <;> simp_all

theorem IsPiece.ne_here (h : IsPiece name) : name ≠ "." := by
  rintro rfl
  cases h.step

theorem pieces_ne_nil (p : Path) : p.pieces ≠ [] :=
  Text.pieces_ne_nil '/' p.text

/-- The pieces of a path go on with a name that is joined to it, in the place
of an empty last piece. -/
theorem pieces_join (h : IsPiece name) (p : Path) : ∃ front,
    (p.pieces = front ++ [""] ∨ p.pieces = front) ∧ (p.join ⟨name⟩).pieces = front ++ [name] := by
  obtain ⟨text⟩ := p
  rcases join_cases h ⟨text⟩ with ⟨rfl, hjoin⟩ | ⟨front, hjoin, rfl | ⟨rfl, -⟩⟩
  · exact ⟨[], .inl rfl, by rw [hjoin, pieces_name h]; rfl⟩
  · refine ⟨Path.pieces ⟨front⟩, .inl ?_, by rw [hjoin, pieces_slash, pieces_name h]⟩
    rw [← String.append_empty (s := front ++ "/"), pieces_slash]
    rfl
  · exact ⟨Path.pieces ⟨text⟩, .inr rfl, by rw [hjoin, pieces_slash, pieces_name h]⟩

/-- A name that is joined to a path is one more component of it. -/
theorem components_join (h : IsPiece name) (p : Path) :
    (p.join ⟨name⟩).components = p.components ++ [.name name] := by
  obtain ⟨front, hfront, hjoin⟩ := pieces_join h p
  have hname : [name].filterMap Path.Component.ofPiece? = [.name name] := by simp [h.component]
  have hrest : (p.join ⟨name⟩).pieces.filterMap Path.Component.ofPiece? =
      p.pieces.filterMap Path.Component.ofPiece? ++ [.name name] := by
    rw [hjoin, List.filterMap_append, hname]
    rcases hfront with hfront | hfront <;> simp [hfront, Path.Component.ofPiece?]
  have hhead : (p.join ⟨name⟩).pieces.head? = some "." ↔ p.pieces.head? = some "." := by
    rw [hjoin]
    rcases hfront with hfront | hfront
    · rw [hfront]
      cases front with
      | nil => simp [h.ne_here]
      | cons first front => rfl
    · rw [← hfront, List.head?_append_of_ne_nil _ (pieces_ne_nil p)]
  simp only [Path.components, isAbsolute_join h, hhead, hrest]
  split
  · rfl
  · split <;> rfl

/-! ## Walks that go on -/

theorem passable_follow (h : name.utf8ByteSize ≤ nameLimit) (rest : List Segment) :
    Passable .follow name rest :=
  ⟨fun hc => Intent.noConfusion hc.1, h⟩

/-- A stretch of a walk that ends in a directory goes on from there. -/
theorem Advances.append (h : Advances fs .follow dir route r) (hr : r = .arrived (.found d .directory))
    {r' : Progress} (hrest : Advances fs .follow d rest r') :
    Advances fs .follow dir (route ++ rest) r' := by
  induction h with
  | stop dir =>
    obtain rfl : dir = d := by simpa using hr
    exact hrest
  | here _ ih => exact .here (ih hr)
  | slash _ ih => exact .slash (ih hr)
  | up _ ih => exact .up (ih hr)
  | enter hp he _ ih => exact .enter (passable_follow hp.fits _) he (ih hr)
  | _ => simp at hr

/-- A stretch of a walk that ends at a link leaves more to do if more was asked
for. -/
theorem Advances.append_atLink {origin : Location} {target : Path} {left : List Segment}
    (h : Advances fs .follow dir route r) (hr : r = .atLink origin target left)
    (rest : List Segment) :
    Advances fs .follow dir (route ++ rest) (.atLink origin target (left ++ rest)) := by
  induction h with
  | here _ ih => exact .here (ih hr)
  | slash _ ih => exact .slash (ih hr)
  | up _ ih => exact .up (ih hr)
  | enter hp he _ ih => exact .enter (passable_follow hp.fits _) he (ih hr)
  | link hp hi he =>
    cases hr
    exact .link (passable_follow hp.fits _) (fun hc => Intent.noConfusion hc.2) he
  | _ => cases hr

/-- A walk that ends in a directory goes on from there. -/
theorem Walks.append (h : Walks fs .follow (.found d .directory) links dir route)
    (hrest : Advances fs .follow d rest (.arrived t)) :
    Walks fs .follow t links dir (route ++ rest) := by
  induction h with
  | arrive ha => exact .arrive (ha.append rfl hrest)
  | follow ha _ ih =>
    refine .follow (ha.append_atLink rfl rest) ?_
    rwa [← List.append_assoc]

/-- A slash at the end of a route makes a walk fail or is left for later.
Otherwise it changes nothing. -/
theorem Advances.of_slash (h : Advances fs .follow dir (route ++ [.slash]) r) :
    ∃ r', Advances fs .follow dir route r' ∧ (r = r' ∨ (∃ fault, r = .failed fault) ∨
      ∃ origin target left, r' = .atLink origin target left ∧
        r = .atLink origin target (left ++ [.slash])) := by
  induction route generalizing dir with
  | nil =>
    cases h with
    | slash ha => exact ⟨r, ha, .inl rfl⟩
  | cons segment route ih =>
    cases segment with
    | here =>
      cases h with
      | here ha => exact (ih ha).imp fun r' hr' => ⟨.here hr'.1, hr'.2⟩
    | slash =>
      cases h with
      | slash ha => exact (ih ha).imp fun r' hr' => ⟨.slash hr'.1, hr'.2⟩
    | up =>
      cases h with
      | up ha => exact (ih ha).imp fun r' hr' => ⟨.up hr'.1, hr'.2⟩
    | name text =>
      rw [List.cons_append] at h
      generalize hrest : route ++ [.slash] = rest at h
      cases h with
      | enter hp he ha =>
        subst hrest
        exact (ih ha).imp fun r' hr' => ⟨.enter (passable_follow hp.fits _) he hr'.1, hr'.2⟩
      | link hp hi he =>
        subst hrest
        exact ⟨_, .link (passable_follow hp.fits _) (fun hc => Intent.noConfusion hc.2) he,
          .inr (.inr ⟨_, _, _, rfl, rfl⟩)⟩
      | vacant | file | lastLink => simp at hrest
      | refused | tooLong | missing | blocked =>
        exact ⟨_, advances fs .follow dir _, .inr (.inl ⟨_, rfl⟩)⟩

theorem Walks.of_slash {route' : List Segment} (h : Walks fs .follow t links dir route')
    (hroute : route' = route ++ [.slash]) : Walks fs .follow t links dir route := by
  induction h generalizing route with
  | arrive ha =>
    subst hroute
    obtain ⟨r', ha', rfl | ⟨fault, hr⟩ | ⟨origin, target, left, -, hr⟩⟩ := ha.of_slash
    · exact .arrive ha'
    · cases hr
    · cases hr
  | follow ha hw ih =>
    subst hroute
    obtain ⟨r', ha', rfl | ⟨fault, hr⟩ | ⟨origin, target, left, rfl, hr⟩⟩ := ha.of_slash
    · exact .follow ha' hw
    · cases hr
    · cases hr
      exact .follow ha' (ih (List.append_assoc ..).symm)

/-! ## Directories and what is in them -/

/-- The path leads to the directory at `dir`, however long it is. -/
def Enters (fs : FileSystem) (p : Path) (dir : Location) : Prop :=
  Walks fs .follow (.found dir .directory) linkLimit (startOf p fs.current) (steps p)

theorem enters_of_lookup (h : fs.lookup intent p = .ok (dir, .directory)) : fs.Enters p dir := by
  have hw := (walks_of_resolve (lookup_eq_ok_iff.mp h)).toFollow fun _ _ => by simp
  rw [segments_eq] at hw
  split at hw
  · exact hw.of_slash rfl
  · rwa [List.append_nil] at hw

/-- In a directory that a path enters, the path joined with a name enters the
directory of that name. -/
theorem Enters.join (h : fs.Enters p dir) (hn : IsName name)
    (he : fs.entry? (dir ++ [name]) = some .directory) : fs.Enters (p.join ⟨name⟩) (dir ++ [name]) := by
  unfold Enters
  rw [steps_join hn.toIsPiece, startOf_join hn.toIsPiece]
  exact Walks.append h (.enter (passable_follow hn.fits _) he (.stop _))

/-- In a directory that a path enters, the path joined with a name leads to the
file of that name. -/
theorem Enters.leadsTo {content : ByteArray} (h : fs.Enters p dir) (hn : IsName name)
    (he : fs.entry? (dir ++ [name]) = some (.file content)) :
    fs.LeadsTo (p.join ⟨name⟩) (dir ++ [name]) := by
  refine ⟨.file content, ?_⟩
  rw [segments_join hn.toIsPiece, startOf_join hn.toIsPiece]
  exact Walks.append h (.file (passable_follow hn.fits _) he)

/-! ## The names on the way of a walk -/

/-- The location at which a walk ends. -/
def Target.location : Target → Location
  | .found l _ => l
  | .vacant l => l

/-- Where a walk has got to, and what is left of it, has names that entries can
have. -/
def Progress.Named : Progress → Prop
  | .arrived t => FileSystem.Named t.location
  | .failed _ => True
  | .atLink dir _ rest => FileSystem.Named dir ∧ Spelled rest

theorem Spelled.tail {segment : Segment} (h : Spelled (segment :: route)) : Spelled route :=
  fun text hm => h text (List.mem_cons_of_mem _ hm)

theorem Spelled.isName (h : Spelled (.name name :: route)) (hp : Passable intent name rest) : IsName name :=
  ⟨h name (List.mem_cons_self ..), hp.fits⟩

theorem Advances.named (h : Advances fs intent dir route r) (hdir : Named dir) (hroute : Spelled route) :
    r.Named := by
  induction h with
  | stop dir => exact hdir
  | here _ ih | slash _ ih => exact ih hdir hroute.tail
  | up _ ih => exact ih hdir.dropLast hroute.tail
  | enter hp _ _ ih => exact ih (hdir.concat (hroute.isName hp)) hroute.tail
  | vacant hp _ | file hp _ | lastLink hp _ _ => exact hdir.concat (hroute.isName hp)
  | link _ _ _ => exact ⟨hdir, hroute.tail⟩
  | refused _ | tooLong _ _ | missing _ _ _ | blocked _ _ _ => trivial

theorem Walks.named (h : Walks fs intent t links dir route) (hdir : Named dir) (hroute : Spelled route) :
    Named t.location := by
  induction h with
  | arrive ha => exact ha.named hdir hroute
  | @follow links dir route origin target rest ha _ ih =>
    obtain ⟨horigin, hrest⟩ := ha.named hdir hroute
    exact ih (horigin.startOf target) fun text hm =>
      (List.mem_append.mp hm).elim (spelled_segments target text) (hrest text)

/-- A write goes to a location whose names entries can have, if the current
directory has such names. -/
theorem WritesTo.named (h : fs.WritesTo p l) (hcurrent : Named fs.current) : Named l := by
  rcases h with h | ⟨old, h⟩
  · exact (walks_of_resolve h).named (hcurrent.startOf p) (spelled_segments p)
  · exact (walks_of_resolve h).named (hcurrent.startOf p) (spelled_segments p)

end Amalgam.FileSystem
