import Amalgam.FileSystem.Make
import Amalgam.Proofs.FileSystem.Names
import Mathlib.Data.List.Induction

/-!
# Trees of entries

The entries of a file system form a tree: each lies in a directory. Making an
entry by its path keeps this, because a walk goes from directory to directory,
so it holds of every file system that is made in this way.

An entry can also be created at a location, with the directories above it. A
tree is made again by creating its entries in any order, whether or not the
directories above them are among them.

* `WellFormed.entry?_of_lookup`: what a path leads to stands there;
* `wellFormed_ofEntries`: a file system with entries that were made by path is
  a tree;
* `createAll_eq_of_lists`: the order in which the entries of a tree were
  created does not matter.
-/

namespace Amalgam.FileSystem

variable {fs fs' : FileSystem} {intent : Intent} {l m x dir : Location} {e e' : Entry} {p : Path}
  {names : List String} {current : Location} {route : List Segment} {links : Nat} {t : Target}
  {r : Progress} {content : ByteArray}

/-! ## What stands at a location -/

theorem eq_of_getElem? (hcurrent : fs.current = fs'.current)
    (h : ∀ x : Location, fs.entries[x]? = fs'.entries[x]?) : fs = fs' := by
  obtain ⟨entries, current⟩ := fs
  obtain ⟨entries', current'⟩ := fs'
  obtain rfl : current = current' := hcurrent
  obtain rfl : entries = entries' := Std.ExtTreeMap.ext_getElem? h
  rfl

theorem getElem?_put (fs : FileSystem) (l : Location) (e : Entry) (x : Location) :
    (fs.put l e).entries[x]? = if x = l then some e else fs.entries[x]? := by
  change (fs.entries.insert l e)[x]? = _
  rw [Std.ExtTreeMap.getElem?_insert]
  simp only [Std.compare_eq_iff_eq, eq_comm (a := l)]

/-- The directory that is made at `x` on the way from `dir` along the given
names, if there is one. -/
def made? (dir : Location) : List String → Location → Option Entry
  | [], _ => none
  | name :: names, x => if x = dir ++ [name] then some .directory else made? (dir ++ [name]) names x

theorem made?_eq_some (h : made? dir names x = some e) :
    e = .directory ∧ x ≠ [] ∧ x <+: dir ++ names := by
  induction names generalizing dir with
  | nil => cases h
  | cons name names ih =>
    rw [List.append_cons]
    rw [made?] at h
    split at h
    next hx =>
      subst hx
      exact ⟨(Option.some.inj h).symm, by simp, List.prefix_append ..⟩
    next => exact ih h

theorem made?_append {front : List String} (hfront : front <+: names) (hne : front ≠ []) :
    made? dir names (dir ++ front) = some .directory := by
  induction names generalizing dir front with
  | nil => exact absurd (List.prefix_nil.mp hfront) hne
  | cons name names ih =>
    obtain ⟨first, front, rfl⟩ := List.exists_cons_of_ne_nil hne
    obtain ⟨rfl, hrest⟩ := List.cons_prefix_cons.mp hfront
    rw [made?]
    split
    · rfl
    next hlast =>
      rw [List.append_cons dir first front]
      refine ih hrest ?_
      rintro rfl
      exact hlast rfl

theorem getElem?_ensureDirectories (fs : FileSystem) (dir : Location) (names : List String) (x : Location) :
    (fs.ensureDirectories dir names).entries[x]? = fs.entries[x]?.or (made? dir names x) := by
  induction names generalizing fs dir with
  | nil => exact Option.or_none.symm
  | cons name names ih =>
    have hentry : fs.entry? (dir ++ [name]) = fs.entries[dir ++ [name]]? := if_neg (by simp)
    rw [ensureDirectories, ih, made?, hentry]
    by_cases hx : x = dir ++ [name]
    · subst hx
      cases h : fs.entries[dir ++ [name]]? <;> simp [h, getElem?_put]
    · split <;> simp [hx, getElem?_put]

theorem current_ensureDirectories (fs : FileSystem) (dir : Location) (names : List String) :
    (fs.ensureDirectories dir names).current = fs.current := by
  induction names generalizing fs dir with
  | nil => rfl
  | cons name names ih =>
    rw [ensureDirectories, ih]
    split <;> rfl

/-! ## File systems that are trees -/

/-- The entries form a tree: none takes the place of the root, the names on the
way to them are ones that a path can spell, and what lies above them are
directories, as is the directory that relative paths start from. -/
structure WellFormed (fs : FileSystem) : Prop where
  ne_root : ∀ (l : Location) (e : Entry), fs.entries[l]? = some e → l ≠ []
  named : ∀ (l : Location) (e : Entry), fs.entries[l]? = some e → ∀ name ∈ l, IsPiece name
  parents : ∀ (l : Location) (e : Entry), fs.entry? l = some e → fs.entry? l.dropLast = some .directory
  current : fs.entry? fs.current = some .directory

instance (fs : FileSystem) (l : Location) : Decidable (fs.entry? l = some .directory) :=
  match fs.entry? l with
  | some .directory => .isTrue rfl
  | some (.file _) => .isFalse (by simp)
  | some (.link _) => .isFalse (by simp)
  | none => .isFalse (by simp)

theorem wellFormed_iff : fs.WellFormed ↔
    (∀ entry ∈ fs.entries.toList, entry.1 ≠ [] ∧ (∀ name ∈ entry.1, IsPiece name) ∧
      fs.entry? entry.1.dropLast = some .directory) ∧ fs.entry? fs.current = some .directory := by
  constructor
  · intro hfs
    refine ⟨fun ⟨l, e⟩ hm => ?_, hfs.current⟩
    have hl := Std.ExtTreeMap.mem_toList_iff_getElem?_eq_some.mp hm
    have hroot := hfs.ne_root l e hl
    exact ⟨hroot, hfs.named l e hl, hfs.parents l e ((if_neg hroot).trans hl)⟩
  · rintro ⟨hentries, hcurrent⟩
    have hentry {l : Location} {e : Entry} (hl : fs.entries[l]? = some e) :=
      hentries (l, e) (Std.ExtTreeMap.mem_toList_iff_getElem?_eq_some.mpr hl)
    refine ⟨fun l e hl => (hentry hl).1, fun l e hl => (hentry hl).2.1, fun l e hl => ?_, hcurrent⟩
    unfold entry? at hl
    split at hl
    next hroot => rw [hroot]; rfl
    next => exact (hentry hl).2.2

instance (fs : FileSystem) : Decidable fs.WellFormed :=
  decidable_of_iff _ wellFormed_iff.symm

/-- What a walk has come to stands there, or is free and lies in a
directory. -/
def Progress.Grounded (fs : FileSystem) : Progress → Prop
  | .arrived (.found l e) => fs.entry? l = some e
  | .arrived (.vacant l) => fs.entry? l = none ∧ fs.entry? l.dropLast = some .directory
  | .failed _ => True
  | .atLink dir _ _ => fs.entry? dir = some .directory

theorem Advances.grounded (h : Advances fs intent dir route r) (hfs : fs.WellFormed)
    (hdir : fs.entry? dir = some .directory) : r.Grounded fs := by
  induction h with
  | stop dir => exact hdir
  | here _ ih | slash _ ih => exact ih hdir
  | up _ ih => exact ih (hfs.parents _ _ hdir)
  | enter _ he _ ih => exact ih he
  | vacant _ he => exact ⟨he, by rwa [List.dropLast_concat]⟩
  | file _ he | lastLink _ _ he => exact he
  | link _ _ _ => exact hdir
  | refused _ | tooLong _ _ | missing _ _ _ | blocked _ _ _ => trivial

theorem entry?_startOf (hdir : fs.entry? dir = some .directory) (p : Path) :
    fs.entry? (startOf p dir) = some .directory := by
  unfold startOf
  split
  · rfl
  · exact hdir

theorem Walks.grounded (h : Walks fs intent t links dir route) (hfs : fs.WellFormed)
    (hdir : fs.entry? dir = some .directory) : (Progress.arrived t).Grounded fs := by
  induction h with
  | arrive ha => exact ha.grounded hfs hdir
  | @follow links dir route origin target rest ha _ ih =>
    have horigin : fs.entry? origin = some .directory := ha.grounded hfs hdir
    exact ih (entry?_startOf horigin target)

theorem WellFormed.resolve (hfs : fs.WellFormed) (h : fs.resolve intent p = .ok t) :
    (Progress.arrived t).Grounded fs :=
  (walks_of_resolve h).grounded hfs (entry?_startOf hfs.current p)

/-- What a path leads to stands there. -/
theorem WellFormed.entry?_of_lookup (hfs : fs.WellFormed) (h : fs.lookup intent p = .ok (l, e)) :
    fs.entry? l = some e :=
  hfs.resolve (lookup_eq_ok_iff.mp h)

/-! ## File systems that are made by path -/

/-- An entry that is put into a directory keeps a file system a tree, unless it
takes the place of a directory. -/
theorem WellFormed.put (hfs : fs.WellFormed) (hnamed : ∀ name ∈ l, IsPiece name)
    (hparent : fs.entry? l.dropLast = some .directory) (hplace : fs.entry? l ≠ some .directory) (e : Entry) :
    (fs.put l e).WellFormed := by
  have hkept {x : Location} (hx : fs.entry? x = some .directory) :
      entry? (fs.put l e) x = some .directory := by
    rwa [entry?_put_of_ne]
    rintro rfl
    exact hplace hx
  have hne : l ≠ [] := by
    rintro rfl
    exact hplace rfl
  refine ⟨fun x e' hx => ?_, fun x e' hx => ?_, fun x e' hx => ?_, hkept hfs.current⟩
  · rw [getElem?_put] at hx
    split at hx
    next hxl => exact hxl ▸ hne
    next => exact hfs.ne_root x e' hx
  · rw [getElem?_put] at hx
    split at hx
    next hxl => exact hxl ▸ hnamed
    next => exact hfs.named x e' hx
  · by_cases hxl : x = l
    · exact hkept (hxl ▸ hparent)
    · rw [entry?_put_of_ne hxl] at hx
      exact hkept (hfs.parents x e' hx)

/-- A tree whose current directory has names that entries can have. -/
structure Grown (fs : FileSystem) : Prop extends WellFormed fs where
  namedCurrent : Named fs.current

theorem Grown.put_vacant (h : fs.Grown) (hvacant : fs.resolve intent p = .ok (.vacant l)) (e : Entry) :
    (fs.put l e).Grown := by
  have hnamed : Named l :=
    (walks_of_resolve hvacant).named (h.namedCurrent.startOf p) (spelled_segments p)
  obtain ⟨hnone, hparent⟩ := h.toWellFormed.resolve hvacant
  have hplace : fs.entry? l ≠ some .directory := by simp [hnone]
  exact ⟨h.toWellFormed.put (fun name hm => (hnamed name hm).toIsPiece) hparent hplace e, h.namedCurrent⟩

theorem Grown.write (h : fs.Grown) (hwrite : fs.write p content = .ok fs') : fs'.Grown := by
  obtain ⟨l, hl, rfl⟩ := write_eq_ok_iff.mp hwrite
  rcases hl with hvacant | ⟨old, hfound⟩
  · exact h.put_vacant hvacant _
  · have hnamed : Named l := WritesTo.named (.inr ⟨old, hfound⟩) h.namedCurrent
    have hfile : fs.entry? l = some (.file old) := h.toWellFormed.resolve hfound
    have hplace : fs.entry? l ≠ some .directory := by simp [hfile]
    exact ⟨h.toWellFormed.put (fun name hm => (hnamed name hm).toIsPiece) (h.parents l _ hfile) hplace _,
      h.namedCurrent⟩

theorem Grown.makeDirectory (h : fs.Grown) (hmake : fs.makeDirectory p = .ok fs') : fs'.Grown := by
  unfold FileSystem.makeDirectory at hmake
  split at hmake
  · obtain rfl := Except.ok.inj hmake
    exact h
  split at hmake
  next => cases hmake
  next => cases hmake
  next l hvacant =>
    obtain rfl := Except.ok.inj hmake
    exact h.put_vacant hvacant _

theorem Grown.makeLink {target : Path} (h : fs.Grown) (hmake : fs.makeLink p target = .ok fs') :
    fs'.Grown := by
  unfold FileSystem.makeLink at hmake
  split at hmake
  next => cases hmake
  next => cases hmake
  next l hvacant =>
    obtain rfl := Except.ok.inj hmake
    exact h.put_vacant hvacant _

theorem exists_of_bind_eq_ok {α : Type} {a : Except Fault α} {f : α → Except Fault FileSystem}
    (h : a >>= f = .ok fs) : ∃ next, a = .ok next ∧ f next = .ok fs := by
  cases a with
  | error fault => cases h
  | ok next => exact ⟨next, rfl, h⟩

/-- What every step keeps is kept by the steps for a list of things to make. -/
theorem Grown.foldlM {α : Type} {step : FileSystem → α → Except Fault FileSystem}
    (hstep : ∀ {fs fs'} {a : α}, Grown fs → step fs a = .ok fs' → Grown fs') {as : List α} (h : fs.Grown)
    (hmake : as.foldlM step fs = .ok fs') : fs'.Grown := by
  induction as generalizing fs with
  | nil =>
    obtain rfl := Except.ok.inj hmake
    exact h
  | cons a as ih =>
    rw [List.foldlM_cons] at hmake
    obtain ⟨next, hfirst, hrest⟩ := exists_of_bind_eq_ok hmake
    exact ih (hstep h hfirst) hrest

theorem Grown.makeEntry (h : fs.Grown) (hmake : fs.makeEntry p e = .ok fs') : fs'.Grown := by
  have hdirectories {paths : List Path} {next : FileSystem}
      (hnext : fs.makeDirectories paths = .ok next) : next.Grown :=
    Grown.foldlM Grown.makeDirectory h hnext
  cases e with
  | directory => exact hdirectories hmake
  | file content =>
    obtain ⟨next, hnext, hwrite⟩ := exists_of_bind_eq_ok hmake
    exact (hdirectories hnext).write hwrite
  | link target =>
    obtain ⟨next, hnext, hlink⟩ := exists_of_bind_eq_ok hmake
    exact (hdirectories hnext).makeLink hlink

theorem getElem?_empty (current x : Location) : (empty current).entries[x]? = made? [] current x := by
  rw [empty, getElem?_ensureDirectories, Std.ExtTreeMap.getElem?_empty, Option.none_or]

/-- A file system that holds nothing else holds the directories on the way to
the current one. -/
theorem entry?_empty (current x : Location) :
    entry? (empty current) x = if x <+: current then some .directory else none := by
  unfold entry?
  split
  next hroot => simp [hroot]
  next hroot =>
    rw [getElem?_empty]
    split
    next hx => exact made?_append hx hroot
    next hx =>
      cases hmade : made? [] current x with
      | none => rfl
      | some e => exact absurd (made?_eq_some hmade).2.2 hx

theorem grown_empty (h : Named current) : (empty current).Grown := by
  have hcurrent : (empty current).current = current := current_ensureDirectories _ [] current
  refine ⟨⟨fun x e hx => ?_, fun x e hx => ?_, fun x e hx => ?_, ?_⟩, ?_⟩
  · rw [getElem?_empty] at hx
    exact (made?_eq_some hx).2.1
  · rw [getElem?_empty] at hx
    exact fun name hm => (h name ((made?_eq_some hx).2.2.subset hm)).toIsPiece
  · rw [entry?_empty] at hx ⊢
    split at hx
    next hway => exact if_pos ((List.dropLast_prefix x).trans hway)
    next => cases hx
  · rw [hcurrent, entry?_empty, if_pos (List.prefix_refl _)]
  · rwa [hcurrent]

/-- A file system with entries that were made by path is a tree. -/
theorem wellFormed_ofEntries {entries : List (Path × Entry)} (hcurrent : Named current)
    (h : ofEntries current entries = .ok fs) : fs.WellFormed :=
  (Grown.foldlM Grown.makeEntry (grown_empty hcurrent) h).toWellFormed

/-! ## Entries in any order -/

theorem current_create (fs : FileSystem) (l : Location) (e : Entry) :
    (fs.create l e).current = fs.current :=
  current_ensureDirectories fs [] l.dropLast

/-- What stands at a location after an entry was created: the entry, what stood
there before, or a directory that was missing. -/
theorem getElem?_create (fs : FileSystem) (l : Location) (e : Entry) (x : Location) :
    (fs.create l e).entries[x]? =
      if x = l then some e else fs.entries[x]?.or (made? [] l.dropLast x) := by
  rw [create, getElem?_put, getElem?_ensureDirectories]

/-- Creates the given entries in order. -/
def createAll (fs : FileSystem) (entries : List (Location × Entry)) : FileSystem :=
  entries.foldl (fun fs entry => fs.create entry.1 entry.2) fs

/-- The entries are those of the file system. Directories above them, or above
the current directory, may be left out. -/
structure Lists (fs : FileSystem) (entries : List (Location × Entry)) : Prop where
  sound : ∀ l e, (l, e) ∈ entries → fs.entries[l]? = some e
  complete : ∀ (l : Location) (e : Entry), fs.entries[l]? = some e →
    l <+: fs.current ∨ ∃ entry ∈ entries, l <+: entry.1

/-- The entries of the first file system are also in the second. -/
def Within (fs fs' : FileSystem) : Prop :=
  ∀ (x : Location) (e : Entry), fs.entries[x]? = some e → fs'.entries[x]? = some e

theorem WellFormed.entry?_of_prefix (hfs : fs.WellFormed) (hl : fs.entry? l = some .directory)
    (hx : x <+: l) : fs.entry? x = some .directory := by
  induction l using List.reverseRecOn with
  | nil => rwa [List.prefix_nil.mp hx]
  | append_singleton l name ih =>
    rcases List.prefix_concat_iff.mp hx with rfl | hx
    · exact hl
    · have hparent := hfs.parents _ _ hl
      rw [List.dropLast_concat] at hparent
      exact ih hparent hx

theorem WellFormed.getElem?_of_made (hfs : fs.WellFormed) (hl : fs.entry? l = some .directory)
    (hx : made? [] l x = some e) : fs.entries[x]? = some e := by
  obtain ⟨rfl, hne, hway⟩ := made?_eq_some hx
  exact (if_neg hne).symm.trans (hfs.entry?_of_prefix hl hway)

theorem Within.create (h : fs'.Within fs) (hfs : fs.WellFormed) (hl : fs.entries[l]? = some e) :
    (fs'.create l e).Within fs := by
  intro x e' hx
  rw [getElem?_create] at hx
  split at hx
  next hxl => rwa [hxl, ← Option.some.inj hx]
  next =>
    rcases Option.or_eq_some_iff.mp hx with hx | ⟨-, hx⟩
    · exact h x e' hx
    · have hentry : fs.entry? l = some e := (if_neg (hfs.ne_root l e hl)).trans hl
      exact hfs.getElem?_of_made (hfs.parents l e hentry) hx

theorem isSome_create (hne : x ≠ []) (hx : fs.entries[x]?.isSome ∨ x <+: l) (e : Entry) :
    (fs.create l e).entries[x]?.isSome := by
  rw [getElem?_create]
  split
  · rfl
  next hxl =>
    rcases hx with hx | hx
    · simp [hx]
    · have hfront : x <+: l.dropLast := by
        rcases List.eq_nil_or_concat' l with rfl | ⟨front, name, rfl⟩
        · exact absurd (List.prefix_nil.mp hx) hne
        · rw [List.dropLast_concat]
          exact (List.prefix_concat_iff.mp hx).resolve_left hxl
      have hmade : made? [] l.dropLast x = some .directory := made?_append hfront hne
      simp [hmade]

theorem current_createAll (fs : FileSystem) (entries : List (Location × Entry)) :
    (fs.createAll entries).current = fs.current := by
  induction entries generalizing fs with
  | nil => rfl
  | cons entry entries ih => exact (ih _).trans (current_create fs entry.1 entry.2)

theorem Within.createAll {entries : List (Location × Entry)} (h : fs'.Within fs) (hfs : fs.WellFormed)
    (hentries : ∀ l e, (l, e) ∈ entries → fs.entries[l]? = some e) : (fs'.createAll entries).Within fs := by
  induction entries generalizing fs' with
  | nil => exact h
  | cons entry entries ih =>
    have hfirst := h.create hfs (hentries entry.1 entry.2 (List.mem_cons_self ..))
    exact ih hfirst fun l e hm => hentries l e (List.mem_cons_of_mem _ hm)

theorem isSome_createAll {entries : List (Location × Entry)} (hne : x ≠ [])
    (hx : fs.entries[x]?.isSome ∨ ∃ entry ∈ entries, x <+: entry.1) :
    (fs.createAll entries).entries[x]?.isSome := by
  induction entries generalizing fs with
  | nil => exact hx.resolve_right (by simp)
  | cons entry entries ih =>
    refine ih ?_
    rcases hx with hx | ⟨other, hm, hx⟩
    · exact .inl (isSome_create hne (.inl hx) entry.2)
    rcases List.mem_cons.mp hm with rfl | hm
    · exact .inl (isSome_create hne (.inr hx) other.2)
    · exact .inr ⟨other, hm, hx⟩

/-- The entries of a tree can be created in any order. -/
theorem createAll_eq_of_lists {entries : List (Location × Entry)} (hfs : fs.WellFormed)
    (h : fs.Lists entries) : (empty fs.current).createAll entries = fs := by
  have hempty : (empty fs.current).Within fs := by
    intro x e hx
    rw [getElem?_empty] at hx
    exact hfs.getElem?_of_made hfs.current hx
  have hwithin := hempty.createAll hfs h.sound
  refine eq_of_getElem? ?_ fun x => ?_
  · rw [current_createAll]
    exact current_ensureDirectories _ [] fs.current
  cases hx : fs.entries[x]? with
  | none => exact Option.eq_none_iff_forall_ne_some.mpr fun e he => by simp [hwithin x e he] at hx
  | some e =>
    have hne : x ≠ [] := hfs.ne_root x e hx
    have hsome : ((empty fs.current).createAll entries).entries[x]?.isSome := by
      refine isSome_createAll hne ((h.complete x e hx).imp_left fun hcurrent => ?_)
      rw [getElem?_empty, show made? [] fs.current x = _ from made?_append hcurrent hne]
      rfl
    obtain ⟨e', he'⟩ := Option.isSome_iff_exists.mp hsome
    rw [he', ← hwithin x e' he', hx]

end Amalgam.FileSystem
