import Amalgam.FileSystem.Access

/-!
# What a write changes

A write puts one file at one location, where nothing or another file stood. A
walk along a path goes by directories and links only, so it takes the same way
before and after the write; it can differ only in what it finds at that one
location (`resolve_put`). From this follow:

* `read_of_write`: a path that was written to has the content that was written;
* `read_put_of_not_leadsTo`: a path that could be read gives the same content
  as before, unless it leads to the file that was written;
* `readText_put_of_file`: new content for a file makes no difference to the
  paths that do not lead to it.

What a walk can do up to its first link is listed once, in `Advances`.
`FileSystem.LeadsTo` says where a path leads, however long it is, and
`FileSystem.SameFile` that two paths lead to the same place.
-/

namespace Amalgam

/-- The entry after its content was replaced, if it has any. -/
def Entry.withContent (content : ByteArray) : Entry → Entry
  | .file _ => .file content
  | e => e

namespace FileSystem

/-! ## Walks, case by case -/

/-- The name can be looked up on a walk that goes on with `rest`. -/
structure Passable (intent : Intent) (text : String) (rest : List Segment) : Prop where
  noSlash : ¬(intent = .create ∧ rest = [.slash])
  fits : text.utf8ByteSize ≤ nameLimit

/-- How far a walk gets by itself, case by case. -/
inductive Advances (fs : FileSystem) (intent : Intent) : Location → List Segment → Progress → Prop
  | stop (dir : Location) : Advances fs intent dir [] (.arrived (.found dir .directory))
  | here {dir rest r} : Advances fs intent dir rest r → Advances fs intent dir (.here :: rest) r
  | slash {dir rest r} : Advances fs intent dir rest r → Advances fs intent dir (.slash :: rest) r
  | up {dir rest r} : Advances fs intent dir.dropLast rest r → Advances fs intent dir (.up :: rest) r
  /-- A file is to be written whose path ends in a slash. -/
  | refused {dir text} : intent = .create →
    Advances fs intent dir [.name text, .slash] (.failed .isDirectory)
  | tooLong {dir text rest} : ¬(intent = .create ∧ rest = [.slash]) → nameLimit < text.utf8ByteSize →
    Advances fs intent dir (.name text :: rest) (.failed .nameTooLong)
  | vacant {dir text} : Passable intent text [] → fs.entry? (dir ++ [text]) = none →
    Advances fs intent dir [.name text] (.arrived (.vacant (dir ++ [text])))
  | missing {dir text rest} : Passable intent text rest → fs.entry? (dir ++ [text]) = none →
    rest ≠ [] → Advances fs intent dir (.name text :: rest) (.failed .notFound)
  | enter {dir text rest r} : Passable intent text rest →
    fs.entry? (dir ++ [text]) = some .directory → Advances fs intent (dir ++ [text]) rest r →
    Advances fs intent dir (.name text :: rest) r
  | file {dir text content} : Passable intent text [] →
    fs.entry? (dir ++ [text]) = some (.file content) →
    Advances fs intent dir [.name text] (.arrived (.found (dir ++ [text]) (.file content)))
  /-- A file stands where a directory is needed. -/
  | blocked {dir text rest content} : Passable intent text rest →
    fs.entry? (dir ++ [text]) = some (.file content) → rest ≠ [] →
    Advances fs intent dir (.name text :: rest) (.failed .notDirectory)
  | lastLink {dir text target} : Passable intent text [] → intent = .inspect →
    fs.entry? (dir ++ [text]) = some (.link target) →
    Advances fs intent dir [.name text] (.arrived (.found (dir ++ [text]) (.link target)))
  | link {dir text rest target} : Passable intent text rest → ¬(rest = [] ∧ intent = .inspect) →
    fs.entry? (dir ++ [text]) = some (.link target) →
    Advances fs intent dir (.name text :: rest) (.atLink dir target rest)

/-- A walk that ends at `t`, following at most the given number of links. -/
inductive Walks (fs : FileSystem) (intent : Intent) (t : Target) :
    Nat → Location → List Segment → Prop
  | arrive {links dir route} : Advances fs intent dir route (.arrived t) →
    Walks fs intent t links dir route
  | follow {links dir route origin target rest} :
    Advances fs intent dir route (.atLink origin target rest) →
    Walks fs intent t links (startOf target origin) (segments target ++ rest) →
    Walks fs intent t (links + 1) dir route

variable {fs : FileSystem} {intent : Intent} {dir l m : Location} {route rest : List Segment}
  {p target : Path} {content : ByteArray} {links : Nat} {e : Entry} {t : Target} {r : Progress}

/-! ## One stretch of a walk -/

/-- A name that can be looked up leads on by the entry that has it. -/
theorem Passable.advance_eq {text : String} (h : Passable intent text rest) :
    fs.advance intent dir (.name text :: rest) =
      match fs.entry? (dir ++ [text]) with
      | none => if rest = [] then .arrived (.vacant (dir ++ [text])) else .failed .notFound
      | some .directory => fs.advance intent (dir ++ [text]) rest
      | some (.file content) =>
        if rest = [] then .arrived (.found (dir ++ [text]) (.file content)) else .failed .notDirectory
      | some (.link target) =>
        if rest = [] ∧ intent = .inspect then .arrived (.found (dir ++ [text]) (.link target))
        else .atLink dir target rest := by
  rw [advance]
  exact (if_neg h.noSlash).trans (if_neg (Nat.not_lt.mpr h.fits))

theorem Advances.eq (h : Advances fs intent dir route r) : fs.advance intent dir route = r := by
  induction h with
  | stop dir => rw [advance]
  | here _ ih => rw [advance, ih]
  | slash _ ih => rw [advance, ih]
  | up _ ih => rw [advance, ih]
  | refused hi => rw [advance, if_pos ⟨hi, rfl⟩]
  | tooLong hs hl => rw [advance, if_neg hs, if_pos hl]
  | vacant hp he => rw [hp.advance_eq, he]; rfl
  | missing hp he hr => rw [hp.advance_eq, he]; exact if_neg hr
  | enter hp he _ ih => rw [hp.advance_eq, he]; exact ih
  | file hp he => rw [hp.advance_eq, he]; rfl
  | blocked hp he hr => rw [hp.advance_eq, he]; exact if_neg hr
  | lastLink hp hi he => rw [hp.advance_eq, he]; exact if_pos ⟨rfl, hi⟩
  | link hp hi he => rw [hp.advance_eq, he]; exact if_neg hi

/-- The cases are all there are. -/
theorem exists_advances (fs : FileSystem) (intent : Intent) (dir : Location) (route : List Segment) :
    ∃ r, Advances fs intent dir route r := by
  induction route generalizing dir with
  | nil => exact ⟨_, .stop dir⟩
  | cons segment rest ih =>
    cases segment with
    | here => exact (ih dir).imp fun _ => .here
    | slash => exact (ih dir).imp fun _ => .slash
    | up => exact (ih dir.dropLast).imp fun _ => .up
    | name text =>
      by_cases hs : intent = .create ∧ rest = [.slash]
      · obtain ⟨hi, rfl⟩ := hs
        exact ⟨_, .refused hi⟩
      by_cases hl : nameLimit < text.utf8ByteSize
      · exact ⟨_, .tooLong hs hl⟩
      have hp : Passable intent text rest := ⟨hs, Nat.not_lt.mp hl⟩
      cases he : fs.entry? (dir ++ [text]) with
      | none =>
        by_cases hr : rest = []
        · subst hr
          exact ⟨_, .vacant hp he⟩
        · exact ⟨_, .missing hp he hr⟩
      | some e =>
        cases e with
        | directory => exact (ih (dir ++ [text])).imp fun _ => .enter hp he
        | file content =>
          by_cases hr : rest = []
          · subst hr
            exact ⟨_, .file hp he⟩
          · exact ⟨_, .blocked hp he hr⟩
        | link target =>
          by_cases hi : rest = [] ∧ intent = .inspect
          · obtain ⟨rfl, hi⟩ := hi
            exact ⟨_, .lastLink hp hi he⟩
          · exact ⟨_, .link hp hi he⟩

theorem advances (fs : FileSystem) (intent : Intent) (dir : Location) (route : List Segment) :
    Advances fs intent dir route (fs.advance intent dir route) := by
  obtain ⟨r, h⟩ := exists_advances fs intent dir route
  rwa [h.eq]

theorem advance_eq_iff : fs.advance intent dir route = r ↔ Advances fs intent dir route r :=
  ⟨fun h => h ▸ advances fs intent dir route, Advances.eq⟩

/-! ## Whole walks -/

theorem walk_of_arrived (h : fs.advance intent dir route = .arrived t) :
    fs.walk intent links dir route = .ok t := by
  rw [walk.eq_def, h]

theorem walk_of_atLink {origin : Location}
    (h : fs.advance intent dir route = .atLink origin target rest) :
    fs.walk intent (links + 1) dir route =
      fs.walk intent links (startOf target origin) (segments target ++ rest) := by
  rw [walk.eq_def, h]

theorem walk_eq_ok_iff : fs.walk intent links dir route = .ok t ↔ Walks fs intent t links dir route := by
  constructor
  · intro h
    induction links generalizing dir route with
    | zero =>
      cases ha : fs.advance intent dir route with
      | arrived t' =>
        rw [walk_of_arrived ha, Except.ok.injEq] at h
        exact .arrive (advance_eq_iff.mp (h ▸ ha))
      | failed fault => rw [walk.eq_def, ha] at h; cases h
      | atLink origin target rest => rw [walk.eq_def, ha] at h; cases h
    | succ links ih =>
      cases ha : fs.advance intent dir route with
      | arrived t' =>
        rw [walk_of_arrived ha, Except.ok.injEq] at h
        exact .arrive (advance_eq_iff.mp (h ▸ ha))
      | failed fault => rw [walk.eq_def, ha] at h; cases h
      | atLink origin target rest =>
        rw [walk_of_atLink ha] at h
        exact .follow (advance_eq_iff.mp ha) (ih h)
  · intro h
    induction h with
    | arrive ha => exact walk_of_arrived ha.eq
    | follow ha _ ih => rw [walk_of_atLink ha.eq, ih]

/-- What a walk found at its end stands there. The directory that it ends in
may be the one that it started from, which is not looked up. -/
def Target.Stands (fs : FileSystem) (intent : Intent) : Target → Prop
  | .found _ .directory => True
  | .found m (.file content) => m ≠ [] ∧ fs.entry? m = some (.file content)
  | .found _ (.link _) => intent = .inspect
  | .vacant m => m ≠ [] ∧ fs.entry? m = none

theorem Advances.stands (h : Advances fs intent dir route r) :
    ∀ {t}, r = .arrived t → t.Stands fs intent := by
  induction h with
  | stop dir => rintro t ⟨⟩; trivial
  | here _ ih | slash _ ih | up _ ih | enter _ _ _ ih => exact ih
  | vacant _ he => rintro t ⟨⟩; exact ⟨by simp, he⟩
  | file _ he => rintro t ⟨⟩; exact ⟨by simp, he⟩
  | lastLink _ hi _ => rintro t ⟨⟩; exact hi
  | _ => rintro t ⟨⟩

theorem Walks.stands (h : Walks fs intent t links dir route) : t.Stands fs intent := by
  induction h with
  | arrive ha => exact ha.stands rfl
  | follow _ _ ih => exact ih

/-- Where a walk does not end at a link, it does not matter what it is for. -/
theorem Advances.toFollow (h : Advances fs intent dir route r) (hr : ∀ fault, r ≠ .failed fault)
    (hlink : ∀ m target, r ≠ .arrived (.found m (.link target))) :
    Advances fs .follow dir route r := by
  have pass {text : String} {rest : List Segment} (hp : Passable intent text rest) :
      Passable .follow text rest := ⟨fun hc => Intent.noConfusion hc.1, hp.fits⟩
  induction h with
  | stop dir => exact .stop dir
  | here _ ih => exact .here (ih hr hlink)
  | slash _ ih => exact .slash (ih hr hlink)
  | up _ ih => exact .up (ih hr hlink)
  | enter hp he _ ih => exact .enter (pass hp) he (ih hr hlink)
  | vacant hp he => exact .vacant (pass hp) he
  | file hp he => exact .file (pass hp) he
  | link hp _ he => exact .link (pass hp) (fun hc => Intent.noConfusion hc.2) he
  | lastLink _ _ _ => exact absurd rfl (hlink _ _)
  | refused _ | tooLong _ _ | missing _ _ _ | blocked _ _ _ => exact absurd rfl (hr _)

theorem Walks.toFollow (h : Walks fs intent t links dir route)
    (hlink : ∀ m target, t ≠ .found m (.link target)) : Walks fs .follow t links dir route := by
  induction h with
  | arrive ha =>
    exact .arrive (ha.toFollow (fun _ => Progress.noConfusion) fun m target he =>
      hlink m target (Progress.arrived.inj he))
  | follow ha _ ih =>
    exact .follow (ha.toFollow (fun _ => Progress.noConfusion) fun _ _ => Progress.noConfusion) ih

/-! ## Walks after a write -/

theorem entry?_put_self (h : l ≠ []) : entry? (fs.put l e) l = some e := by
  unfold entry? put
  simp [h]

theorem entry?_put_of_ne (h : m ≠ l) : entry? (fs.put l e) m = fs.entry? m := by
  unfold entry? put
  simp [Std.ExtTreeMap.getElem?_insert, Ne.symm h]

/-- A location at which a file can be written: what stands there, if anything,
is a file. -/
structure Writable (fs : FileSystem) (l : Location) : Prop where
  ne_root : l ≠ []
  isFile : ∀ {e}, fs.entry? l = some e → ∃ content, e = .file content

/-- What a walk finds once a file with the given content is at `l`. -/
def Target.afterWrite (l : Location) (content : ByteArray) : Target → Target
  | .found m e => .found m (if m = l then e.withContent content else e)
  | .vacant m => if m = l then .found l (.file content) else .vacant m

/-- How far a walk gets once a file with the given content is at `l`. -/
def Progress.afterWrite (l : Location) (content : ByteArray) : Progress → Progress
  | .arrived t => .arrived (t.afterWrite l content)
  | r => r

@[simp] theorem Target.afterWrite_directory (l m : Location) (content : ByteArray) :
    (Target.found m .directory).afterWrite l content = .found m .directory := by
  simp [Target.afterWrite, Entry.withContent]

theorem Target.afterWrite_found_of_ne (h : m ≠ l) (e : Entry) (content : ByteArray) :
    (Target.found m e).afterWrite l content = .found m e := by
  rw [Target.afterWrite, if_neg h]

/-- After a write a walk goes the same way. Only if it fails because nothing is
where the file has been written, it fails because of that file instead. -/
theorem Advances.put (h : fs.Writable l) (content : ByteArray) (ha : Advances fs intent dir route r) :
    Advances (fs.put l (.file content)) intent dir route (r.afterWrite l content) ∨
      fs.entry? l = none ∧ r = .failed .notFound ∧
        Advances (fs.put l (.file content)) intent dir route (.failed .notDirectory) := by
  have written {m : Location} (hm : m = l) :
      entry? (fs.put l (.file content)) m = some (.file content) := hm ▸ entry?_put_self (hm ▸ h.ne_root)
  -- directories and links stand elsewhere, and are as before
  have other {m : Location} {e : Entry} (he : fs.entry? m = some e) (hf : ∀ c, e ≠ .file c) :
      entry? (fs.put l (.file content)) m = some e := by
    rw [entry?_put_of_ne, he]
    rintro rfl
    obtain ⟨c, hc⟩ := h.isFile he
    exact hf c hc
  induction ha with
  | stop dir =>
    refine .inl ?_
    rw [Progress.afterWrite, Target.afterWrite_directory]
    exact .stop dir
  | here _ ih => exact ih.imp .here fun ⟨hn, hr, ha⟩ => ⟨hn, hr, .here ha⟩
  | slash _ ih => exact ih.imp .slash fun ⟨hn, hr, ha⟩ => ⟨hn, hr, .slash ha⟩
  | up _ ih => exact ih.imp .up fun ⟨hn, hr, ha⟩ => ⟨hn, hr, .up ha⟩
  | refused hi => exact .inl (.refused hi)
  | tooLong hs hl => exact .inl (.tooLong hs hl)
  | @vacant dir text hp he =>
    refine .inl ?_
    by_cases hm : dir ++ [text] = l
    · subst hm
      rw [Progress.afterWrite, Target.afterWrite, if_pos rfl]
      exact .file hp (written rfl)
    · rw [Progress.afterWrite, Target.afterWrite, if_neg hm]
      exact .vacant hp (by rw [entry?_put_of_ne hm, he])
  | @missing dir text rest hp he hr =>
    by_cases hm : dir ++ [text] = l
    · exact .inr ⟨hm ▸ he, rfl, .blocked hp (written hm) hr⟩
    · exact .inl (.missing hp (by rw [entry?_put_of_ne hm, he]) hr)
  | enter hp he _ ih =>
    have hd := other he fun _ => Entry.noConfusion
    exact ih.imp (.enter hp hd) fun ⟨hn, hr, ha⟩ => ⟨hn, hr, .enter hp hd ha⟩
  | @file dir text old hp he =>
    refine .inl ?_
    by_cases hm : dir ++ [text] = l
    · rw [Progress.afterWrite, Target.afterWrite, if_pos hm]
      exact .file hp (written hm)
    · rw [Progress.afterWrite, Target.afterWrite_found_of_ne hm]
      exact .file hp (by rw [entry?_put_of_ne hm, he])
  | @blocked dir text rest old hp he hr =>
    refine .inl ?_
    by_cases hm : dir ++ [text] = l
    · exact .blocked hp (written hm) hr
    · exact .blocked hp (by rw [entry?_put_of_ne hm, he]) hr
  | @lastLink dir text target hp hi he =>
    refine .inl ?_
    rw [Progress.afterWrite, Target.afterWrite_found_of_ne]
    · exact .lastLink hp hi (other he fun _ => Entry.noConfusion)
    · rintro rfl
      obtain ⟨c, hc⟩ := h.isFile he
      cases hc
  | link hp hi he => exact .inl (.link hp hi (other he fun _ => Entry.noConfusion))

/-- How the end of a walk differs once a file with the given content is at
`l`. -/
def Rewritten (fs : FileSystem) (l : Location) (content : ByteArray)
    (before after : Except Fault Target) : Prop :=
  after = before.map (Target.afterWrite l content) ∨
    fs.entry? l = none ∧ before = .error .notFound ∧ after = .error .notDirectory

theorem walk_put (h : fs.Writable l) (content : ByteArray) (intent : Intent) (links : Nat)
    (dir : Location) (route : List Segment) :
    fs.Rewritten l content (fs.walk intent links dir route)
      ((fs.put l (.file content)).walk intent links dir route) := by
  induction links generalizing dir route with
  | zero =>
    rcases (advances fs intent dir route).put h content with ha | ⟨hn, hr, ha⟩
    · refine .inl ?_
      rw [walk.eq_def, ha.eq, walk.eq_def]
      cases fs.advance intent dir route <;> rfl
    · refine .inr ⟨hn, ?_, ?_⟩
      · rw [walk.eq_def, hr]
      · rw [walk.eq_def, ha.eq]
  | succ links ih =>
    rcases (advances fs intent dir route).put h content with ha | ⟨hn, hr, ha⟩
    · rw [walk.eq_def, walk.eq_def (fs.put l _), ha.eq]
      cases fs.advance intent dir route with
      | arrived t => exact .inl rfl
      | failed fault => exact .inl rfl
      | atLink origin target rest => exact ih _ _
    · refine .inr ⟨hn, ?_, ?_⟩
      · rw [walk.eq_def, hr]
      · rw [walk.eq_def, ha.eq]

/-- After a write a path leads where it led before. -/
theorem resolve_put (h : fs.Writable l) (content : ByteArray) (intent : Intent) (p : Path) :
    fs.Rewritten l content (fs.resolve intent p) ((fs.put l (.file content)).resolve intent p) := by
  unfold resolve
  split
  · exact .inl rfl
  split
  · exact .inl rfl
  split
  · exact .inl rfl
  exact walk_put h content intent linkLimit _ _

/-! ## Files after a write -/

/-- A write to the path goes to `l`. -/
def WritesTo (fs : FileSystem) (p : Path) (l : Location) : Prop :=
  fs.resolve .create p = .ok (.vacant l) ∨
    ∃ old, fs.resolve .create p = .ok (.found l (.file old))

/-- Where a path leads, however long it is. -/
def LeadsTo (fs : FileSystem) (p : Path) (l : Location) : Prop :=
  ∃ e, Walks fs .follow (.found l e) linkLimit (startOf p fs.current) (segments p)

/-- A path that can be looked up at all. -/
structure Accessible (p : Path) : Prop where
  noNul : '\x00' ∉ p.text.toList
  ne_empty : p.text ≠ ""
  fits : p.text.utf8ByteSize ≤ pathLimit

theorem resolve_eq_ok_iff : fs.resolve intent p = .ok t ↔
    Accessible p ∧ Walks fs intent t linkLimit (startOf p fs.current) (segments p) := by
  rw [← walk_eq_ok_iff]
  unfold resolve
  constructor
  · intro h
    split at h
    · cases h
    split at h
    · cases h
    split at h
    · cases h
    rename_i hnul hempty hlong
    exact ⟨⟨hnul, hempty, Nat.not_lt.mp hlong⟩, h⟩
  · rintro ⟨hp, hwalk⟩
    rw [if_neg hp.noNul, if_neg hp.ne_empty, if_neg (Nat.not_lt.mpr hp.fits), hwalk]

theorem walks_of_resolve (h : fs.resolve intent p = .ok t) :
    Walks fs intent t linkLimit (startOf p fs.current) (segments p) :=
  (resolve_eq_ok_iff.mp h).2

/-- A path that is used for something else leads to the same place as a path
that is followed. -/
theorem resolve_follow (h : fs.resolve intent p = .ok t)
    (hlink : ∀ m target, t ≠ .found m (.link target)) : fs.resolve .follow p = .ok t := by
  obtain ⟨hp, hwalk⟩ := resolve_eq_ok_iff.mp h
  exact resolve_eq_ok_iff.mpr ⟨hp, hwalk.toFollow hlink⟩

theorem lookup_eq_ok_iff : fs.lookup intent p = .ok (l, e) ↔ fs.resolve intent p = .ok (.found l e) := by
  unfold lookup
  cases fs.resolve intent p with
  | error fault => simp
  | ok t => cases t <;> simp

theorem leadsTo_of_lookup (h : fs.lookup .follow p = .ok (l, e)) : fs.LeadsTo p l :=
  ⟨e, walks_of_resolve (lookup_eq_ok_iff.mp h)⟩

/-- The place that a path leads to, however long it is. -/
def destination? (fs : FileSystem) (p : Path) : Option Location :=
  match fs.walk .follow linkLimit (startOf p fs.current) (segments p) with
  | .ok (.found l _) => some l
  | _ => none

theorem leadsTo_iff : fs.LeadsTo p l ↔ fs.destination? p = some l := by
  simp only [LeadsTo, ← walk_eq_ok_iff, destination?]
  rcases fs.walk .follow linkLimit (startOf p fs.current) (segments p) with fault | ⟨m, e⟩ | m <;> simp

/-- A path leads to one place only. -/
theorem LeadsTo.unique (h : fs.LeadsTo p l) (h' : fs.LeadsTo p m) : l = m :=
  Option.some.inj ((leadsTo_iff.mp h).symm.trans (leadsTo_iff.mp h'))

/-- The two paths lead to the same place. -/
def SameFile (fs : FileSystem) (p q : Path) : Prop :=
  ∃ l, fs.LeadsTo p l ∧ fs.LeadsTo q l

theorem sameFile_iff {q : Path} : fs.SameFile p q ↔
    (fs.destination? p).isSome ∧ fs.destination? q = fs.destination? p := by
  simp only [SameFile, leadsTo_iff]
  cases fs.destination? p <;> simp

instance (fs : FileSystem) (p q : Path) : Decidable (fs.SameFile p q) :=
  decidable_of_iff _ sameFile_iff.symm

theorem WritesTo.writable (h : fs.WritesTo p l) : fs.Writable l := by
  rcases h with h | ⟨old, h⟩
  · obtain ⟨hne, hnone⟩ := (walks_of_resolve h).stands
    exact ⟨hne, fun he => by rw [hnone] at he; cases he⟩
  · obtain ⟨hne, hfile⟩ := (walks_of_resolve h).stands
    exact ⟨hne, fun he => ⟨old, by rw [hfile, Option.some.injEq] at he; exact he.symm⟩⟩

/-- A write puts the content where it goes. -/
theorem write_eq_ok_iff {fs' : FileSystem} : fs.write p content = .ok fs' ↔
    ∃ l, fs.WritesTo p l ∧ fs' = fs.put l (.file content) := by
  unfold write WritesTo
  cases h : fs.resolve .create p with
  | error fault => simp
  | ok t =>
    have hs := (walks_of_resolve h).stands
    cases t with
    | vacant l => simp [eq_comm]
    | found l e =>
      cases e with
      | directory => simp
      | file old => simp [eq_comm]
      | link target => exact Intent.noConfusion hs

/-- Once a path has been written to, it leads to the file with that content. -/
theorem WritesTo.resolve_put (h : fs.WritesTo p l) (content : ByteArray) :
    (fs.put l (.file content)).resolve .create p = .ok (.found l (.file content)) := by
  rcases FileSystem.resolve_put h.writable content .create p with hr | ⟨-, hr, -⟩
  · rcases h with h | ⟨old, h⟩
    · rw [hr, h]
      simp [Except.map, Target.afterWrite]
    · rw [hr, h]
      simp [Except.map, Target.afterWrite, Entry.withContent]
  · rcases h with h | ⟨old, h⟩
    · rw [h] at hr; cases hr
    · rw [h] at hr; cases hr

theorem WritesTo.put (h : fs.WritesTo p l) (content : ByteArray) :
    (fs.put l (.file content)).WritesTo p l :=
  .inr ⟨content, h.resolve_put content⟩

theorem WritesTo.lookup_put (h : fs.WritesTo p l) (content : ByteArray) :
    (fs.put l (.file content)).lookup .follow p = .ok (l, .file content) :=
  lookup_eq_ok_iff.mpr (resolve_follow (h.resolve_put content) fun _ _ => by simp)

/-- A path that was written to has the content that was written. -/
theorem read_of_write {fs' : FileSystem} (h : fs.write p content = .ok fs') :
    fs'.read p = .ok content := by
  obtain ⟨l, hl, rfl⟩ := write_eq_ok_iff.mp h
  rw [read, hl.lookup_put content]

/-- What a path leads to is found again after a write, with new content if that
was written there. -/
theorem lookup_put (h : fs.Writable l) (content : ByteArray)
    (hp : fs.lookup intent p = .ok (m, e)) : (fs.put l (.file content)).lookup intent p =
      .ok (m, if m = l then e.withContent content else e) := by
  have hr := lookup_eq_ok_iff.mp hp
  rcases resolve_put h content intent p with ha | ⟨-, hn, -⟩
  · rw [hr] at ha
    exact lookup_eq_ok_iff.mpr ha
  · rw [hr] at hn
    cases hn

theorem read_eq_ok_iff {old : ByteArray} :
    fs.read p = .ok old ↔ ∃ l, fs.lookup .follow p = .ok (l, .file old) := by
  unfold read
  rcases fs.lookup .follow p with fault | ⟨l, e⟩
  · simp
  · cases e <;> simp

/-- A path gives the content of the file that it leads to, if it can be read at
all. -/
theorem LeadsTo.read_eq {old : ByteArray} (h : fs.LeadsTo p l) (hl : fs.entry? l = some (.file content))
    (hp : fs.read p = .ok old) : old = content := by
  obtain ⟨m, hm⟩ := read_eq_ok_iff.mp hp
  obtain rfl : m = l := (leadsTo_of_lookup hm).unique h
  have hs := (walks_of_resolve (lookup_eq_ok_iff.mp hm)).stands
  rw [hs.2, Option.some.injEq, Entry.file.injEq] at hl
  exact hl

/-- A path that could be read gives the same content as before, unless it leads
to the file that was written. -/
theorem read_put_of_not_leadsTo (h : fs.Writable l) {old : ByteArray} (hp : fs.read p = .ok old)
    (hl : ¬(fs.put l (.file content)).LeadsTo p l) : (fs.put l (.file content)).read p = .ok old := by
  obtain ⟨m, hm⟩ := read_eq_ok_iff.mp hp
  have hlookup := lookup_put h content hm
  have hml : m ≠ l := by
    rintro rfl
    exact hl (leadsTo_of_lookup hlookup)
  rw [if_neg hml] at hlookup
  exact read_eq_ok_iff.mpr ⟨m, hlookup⟩

/-! ## Texts -/

/-- A text is read back from its bytes. -/
theorem readText_of_read {text : String} (h : fs.read p = .ok text.toUTF8) :
    fs.readText p = .ok text := by
  have hvalid : String.fromUTF8? text.toUTF8 = some text := dif_pos text.isValidUTF8
  simp only [readText, h, hvalid]

theorem read_of_readText {text : String} (h : fs.readText p = .ok text) :
    ∃ bytes, fs.read p = .ok bytes ∧ String.fromUTF8? bytes = some text := by
  unfold readText at h
  cases hr : fs.read p with
  | error fault => rw [hr] at h; cases h
  | ok bytes =>
    refine ⟨bytes, rfl, ?_⟩
    rw [hr] at h
    cases hu : String.fromUTF8? bytes with
    | none => simp [hu] at h
    | some text' => simpa [hu] using h

/-- A path gives the text of the file that it leads to, if it can be read at
all. -/
theorem LeadsTo.readText_eq {text : String} (h : fs.LeadsTo p l)
    (hl : fs.entry? l = some (.file text.toUTF8)) (hp : (fs.readText p).isOk) :
    fs.readText p = .ok text := by
  cases hr : fs.readText p with
  | error fault => rw [hr] at hp; cases hp
  | ok old =>
    obtain ⟨bytes, hread, -⟩ := read_of_readText hr
    obtain rfl := h.read_eq hl hread
    rw [← hr, readText_of_read hread]

/-- A text that could be read is the same as before, unless its path leads to
the file that was written. -/
theorem readText_put_of_not_leadsTo {text : String} (h : fs.Writable l) (hp : fs.readText p = .ok text)
    (hl : ¬(fs.put l (.file content)).LeadsTo p l) :
    (fs.put l (.file content)).readText p = .ok text := by
  obtain ⟨bytes, hread, htext⟩ := read_of_readText hp
  simp only [readText, read_put_of_not_leadsTo h hread hl, htext]

/-- New content for a file makes no difference to the paths that do not lead to
it, whether they can be read or not. -/
theorem readText_put_of_file {old : ByteArray} (h : fs.entry? l = some (.file old))
    (content : ByteArray) (hl : ¬fs.LeadsTo p l) :
    (fs.put l (.file content)).readText p = fs.readText p := by
  have hw : fs.Writable l := by
    refine ⟨?_, fun he => ⟨old, (Option.some.inj (h.symm.trans he)).symm⟩⟩
    rintro rfl
    cases h
  suffices hlookup : (fs.put l (.file content)).lookup .follow p = fs.lookup .follow p by
    rw [readText, readText, read, read, hlookup]
  rcases resolve_put hw content .follow p with hr | ⟨hn, -⟩
  · rw [lookup, lookup, hr]
    cases hp : fs.resolve .follow p with
    | error fault => rfl
    | ok t =>
      have hs := (walks_of_resolve hp).stands
      cases t with
      | found m e =>
        have hml : m ≠ l := fun he => hl ⟨e, he ▸ walks_of_resolve hp⟩
        simp [Except.map, Target.afterWrite, hml]
      | vacant m =>
        have hml : m ≠ l := by
          rintro rfl
          rw [hs.2] at h
          cases h
        simp [Except.map, Target.afterWrite, hml]
  · rw [h] at hn
    cases hn

end FileSystem

end Amalgam
