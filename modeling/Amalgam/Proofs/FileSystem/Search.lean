import Amalgam.FileSystem.Search
import Amalgam.Proofs.FileSystem.Names
import Mathlib.Data.List.Perm.Basic

/-!
# Searches after a write

A write changes one entry, so a search meets the same files in the same order
as before, except that it may meet the file that was written where it met
nothing (`Gains`). The entries of a directory are kept in order, so this is
first shown for the list of all entries, then for the names in a directory and
from there, level by level, for the visits of a search.

* `exists_toList_insert`: an entry is added to the list of all entries, or
  replaced, in one place;
* `visitsBelow_congr`: the number of levels does not matter to a search that
  reaches the deepest entry;
* `visits_put`: a search meets the same files after a write, but for the one
  that was written;
* `sources_put`: a search that could be completed still can be.
-/

namespace Amalgam

/-! ## Lists with something added -/

/-- The second list is the first with elements added that satisfy `P`. -/
inductive Gains {α : Type} (P : α → Prop) : List α → List α → Prop
  | done : Gains P [] []
  | keep (x : α) {xs ys : List α} : Gains P xs ys → Gains P (x :: xs) (x :: ys)
  | gain {y : α} {xs ys : List α} : P y → Gains P xs ys → Gains P xs (y :: ys)

namespace Gains

variable {α β : Type} {P : α → Prop} {xs ys xs' ys' : List α}

theorem refl (P : α → Prop) (xs : List α) : Gains P xs xs := by
  induction xs with
  | nil => exact .done
  | cons x xs ih => exact .keep x ih

theorem append (h : Gains P xs ys) (h' : Gains P xs' ys') : Gains P (xs ++ xs') (ys ++ ys') := by
  induction h with
  | done => exact h'
  | keep x _ ih => exact .keep x ih
  | gain hy _ ih => exact .gain hy ih

theorem flatMap {f g : β → List α} {zs : List β} (h : ∀ z ∈ zs, Gains P (f z) (g z)) :
    Gains P (zs.flatMap f) (zs.flatMap g) := by
  induction zs with
  | nil => exact .done
  | cons z zs ih =>
    rw [List.flatMap_cons, List.flatMap_cons]
    exact (h z (List.mem_cons_self ..)).append (ih fun z hz => h z (List.mem_cons_of_mem _ hz))

/-- If nothing can have been added, nothing has. -/
theorem eq_of_forall_not (h : Gains P xs ys) (hn : ∀ y ∈ ys, ¬P y) : ys = xs := by
  induction h with
  | done => rfl
  | keep x _ ih => rw [ih fun y hy => hn y (List.mem_cons_of_mem _ hy)]
  | gain hy _ _ => exact absurd hy (hn _ (List.mem_cons_self ..))

theorem mem_or (h : Gains P xs ys) : ∀ y ∈ ys, y ∈ xs ∨ P y := by
  induction h with
  | done => exact fun _ hm => absurd hm List.not_mem_nil
  | keep x _ ih =>
    rintro y (_ | ⟨_, hm⟩)
    · exact .inl (List.mem_cons_self ..)
    · exact (ih y hm).imp_left (List.mem_cons_of_mem _)
  | gain hy _ ih =>
    rintro y (_ | ⟨_, hm⟩)
    · exact .inr hy
    · exact ih y hm

/-- A list of images stays one if only images are added. -/
theorem exists_map {Q : β → Prop} {f : β → α} {zs : List β} (h : Gains P xs ys) (hx : xs = zs.map f)
    (hf : ∀ y, P y → ∃ z, y = f z ∧ Q z) : ∃ zs', ys = zs'.map f ∧ Gains Q zs zs' := by
  induction h generalizing zs with
  | done =>
    obtain rfl : zs = [] := List.map_eq_nil_iff.mp hx.symm
    exact ⟨[], rfl, .done⟩
  | keep x _ ih =>
    obtain ⟨z, zs, rfl, rfl, htail⟩ := List.map_eq_cons_iff.mp hx.symm
    obtain ⟨zs', rfl, hgains⟩ := ih htail.symm
    exact ⟨z :: zs', rfl, .keep z hgains⟩
  | gain hy _ ih =>
    obtain ⟨z, rfl, hz⟩ := hf _ hy
    obtain ⟨zs', rfl, hgains⟩ := ih hx
    exact ⟨z :: zs', rfl, .gain hz hgains⟩

end Gains

namespace FileSystem

variable {fs : FileSystem} {l m dir : Location} {content : ByteArray} {e : Entry} {s : Search}
  {p : Path} {name : String} {levels levels' : Nat}

/-! ## Entries in order -/

/-- Entries in order, each location once. -/
def Ordered (xs : List (Location × Entry)) : Prop :=
  xs.Pairwise fun a b => compare a.1 b.1 = .lt

/-- Ordered lists with the same entries are equal. -/
theorem Ordered.eq_of_mem {xs ys : List (Location × Entry)} (hx : Ordered xs) (hy : Ordered ys)
    (h : ∀ a, a ∈ xs ↔ a ∈ ys) : xs = ys := by
  have nodup {zs : List (Location × Entry)} (hz : Ordered zs) : zs.Nodup := by
    refine hz.imp fun {a b} hlt he => ?_
    rw [he, Std.compare_self] at hlt
    cases hlt
  refine List.Perm.eq_of_pairwise (fun a b _ _ hab hba => ?_) hx hy
    ((List.perm_ext_iff_of_nodup (nodup hx) (nodup hy)).mpr h)
  rw [Std.OrientedOrd.eq_swap, hba] at hab
  cases hab

/-- An entry that is inserted is added in one place, or replaces the one that
stood there. -/
theorem exists_toList_insert (t : Std.ExtTreeMap Location Entry) (k : Location) (v : Entry) :
    ∃ front back, (t.insert k v).toList = front ++ [(k, v)] ++ back ∧
      t.toList = front ++ (t[k]?.map (Prod.mk k)).toList ++ back := by
  have hself : (k, v) ∈ (t.insert k v).toList := by
    rw [Std.ExtTreeMap.mem_toList_iff_getElem?_eq_some]
    simp
  obtain ⟨front, back, hsplit⟩ := List.append_of_mem hself
  have hordered : Ordered (front ++ (k, v) :: back) := hsplit ▸ Std.ExtTreeMap.ordered_keys_toList
  obtain ⟨hfront, hback, hacross⟩ := List.pairwise_append.mp hordered
  obtain ⟨hafter, hback⟩ := List.pairwise_cons.mp hback
  refine ⟨front, back, by rw [hsplit, List.append_assoc]; rfl,
    Ordered.eq_of_mem Std.ExtTreeMap.ordered_keys_toList ?_ ?_⟩
  · rw [List.append_assoc]
    cases t[k]? with
    | none => exact hordered.sublist ((List.sublist_cons_self ..).append_left front)
    | some w =>
      refine List.pairwise_append.mpr ⟨hfront, List.pairwise_cons.mpr ⟨hafter, hback⟩, ?_⟩
      rintro a ha b (_ | ⟨_, hb⟩)
      · exact hacross a ha (k, v) (List.mem_cons_self ..)
      · exact hacross a ha b (List.mem_cons_of_mem _ hb)
  · rintro ⟨a, w⟩
    have hmem : (a, w) ∈ front ++ (k, v) :: back ↔ (t.insert k v)[a]? = some w := by
      rw [← hsplit, Std.ExtTreeMap.mem_toList_iff_getElem?_eq_some]
    rw [Std.ExtTreeMap.mem_toList_iff_getElem?_eq_some]
    by_cases hak : a = k
    · -- the key stands nowhere else
      subst hak
      have hnf : (a, w) ∉ front := fun hm => by simpa using hacross _ hm _ (List.mem_cons_self ..)
      have hnb : (a, w) ∉ back := fun hm => by simpa using hafter _ hm
      simp [hnf, hnb]
    · rw [Std.ExtTreeMap.getElem?_insert] at hmem
      simp only [List.mem_append, List.mem_cons, Prod.mk.injEq, hak, false_and, false_or,
        Std.compare_eq_iff_eq, Ne.symm hak, if_false] at hmem
      simp [← hmem, Ne.symm hak]

/-! ## The names in a directory -/

/-- The name of an entry and the entry, if it stands in the directory at
`dir`. -/
def childOf? (dir : Location) (entry : Location × Entry) : Option (String × Entry) :=
  match dir.isPrefixOf? entry.1 with
  | some [name] => some (name, entry.2)
  | _ => none

theorem children_eq (fs : FileSystem) (dir : Location) :
    fs.children dir = fs.entries.toList.filterMap (childOf? dir) :=
  rfl

theorem childOf?_eq_some_iff {child : String × Entry} :
    childOf? dir (l, e) = some child ↔ l = dir ++ [child.1] ∧ e = child.2 := by
  unfold childOf?
  constructor
  · intro h
    split at h
    · rename_i name hrest
      obtain rfl := Option.some.inj h
      exact ⟨(List.isPrefixOf?_eq_some_iff_append_eq.mp hrest).symm, rfl⟩
    · cases h
  · rintro ⟨rfl, rfl⟩
    have hrest : dir.isPrefixOf? (dir ++ [child.1]) = some [child.1] :=
      List.isPrefixOf?_eq_some_iff_append_eq.mpr rfl
    simp only [hrest]

theorem getElem?_of_mem_children (h : (name, e) ∈ fs.children dir) :
    fs.entries[dir ++ [name]]? = some e := by
  rw [children_eq] at h
  obtain ⟨⟨l, e'⟩, hm, hchild⟩ := List.mem_filterMap.mp h
  obtain ⟨rfl, rfl⟩ := childOf?_eq_some_iff.mp hchild
  exact Std.ExtTreeMap.mem_toList_iff_getElem?_eq_some.mp hm

theorem entry?_of_mem_children (h : (name, e) ∈ fs.children dir) :
    fs.entry? (dir ++ [name]) = some e := by
  unfold entry?
  rw [if_neg (by simp), getElem?_of_mem_children h]

/-- The names in a directory after an entry was put somewhere. -/
theorem exists_children_put (fs : FileSystem) (l : Location) (e : Entry) (dir : Location) :
    ∃ front back, (fs.put l e).children dir = front ++ (childOf? dir (l, e)).toList ++ back ∧
      fs.children dir =
        front ++ (fs.entries[l]?.bind fun old => childOf? dir (l, old)).toList ++ back := by
  obtain ⟨front, back, hafter, hbefore⟩ := exists_toList_insert fs.entries l e
  refine ⟨front.filterMap (childOf? dir), back.filterMap (childOf? dir), ?_, ?_⟩
  · rw [children_eq]
    change (fs.entries.insert l e).toList.filterMap _ = _
    rw [hafter, List.filterMap_append, List.filterMap_append]
    cases h : childOf? dir (l, e) <;> simp [h]
  · rw [children_eq, hbefore, List.filterMap_append, List.filterMap_append]
    cases fs.entries[l]? with
    | none => rfl
    | some old => cases h : childOf? dir (l, old) <;> simp [h]

/-! ## Levels -/

theorem le_foldl_length (xs : List (Location × Entry)) (h : Nat) :
    h ≤ xs.foldl (fun h (l, _) => max h l.length) h ∧
      ∀ entry ∈ xs, entry.1.length ≤ xs.foldl (fun h (l, _) => max h l.length) h := by
  induction xs generalizing h with
  | nil => simp
  | cons x xs ih =>
    obtain ⟨hle, hall⟩ := ih (max h x.1.length)
    rw [List.foldl_cons]
    refine ⟨Nat.le_trans (Nat.le_max_left ..) hle, ?_⟩
    rintro entry (_ | ⟨_, hm⟩)
    · exact Nat.le_trans (Nat.le_max_right ..) hle
    · exact hall entry hm

theorem length_le_height (h : fs.entries[l]? = some e) : l.length ≤ fs.height :=
  (le_foldl_length _ 0).2 (l, e) (Std.ExtTreeMap.mem_toList_iff_getElem?_eq_some.mpr h)

/-- The visits that one name in a directory with the path `p` gives rise to. -/
def childVisits (fs : FileSystem) (s : Search) (levels : Nat) (dir : Location) (p : Path)
    (child : String × Entry) : List (Except SearchFault Path) :=
  match child.2 with
  | .directory =>
    if s.excludes (p.join ⟨child.1⟩) then []
    else fs.visitsBelow s levels (dir ++ [child.1]) (p.join ⟨child.1⟩)
  | .file _ => if s.admits (p.join ⟨child.1⟩) then [.ok (p.join ⟨child.1⟩)] else []
  | .link _ => []

theorem visitsBelow_succ (fs : FileSystem) (s : Search) (levels : Nat) (dir : Location) (p : Path) :
    fs.visitsBelow s (levels + 1) dir p =
      if p.text.utf8ByteSize > pathLimit then [.error ⟨p, .nameTooLong⟩]
      else (fs.children dir).flatMap (fs.childVisits s levels dir p) := by
  rw [visitsBelow]
  rfl

/-- Searches that may go down to the deepest entry are the same, whatever the
number of levels. -/
theorem visitsBelow_congr (h : fs.height < levels + dir.length) (h' : fs.height < levels' + dir.length)
    (hpos : 0 < levels) (hpos' : 0 < levels') (p : Path) :
    fs.visitsBelow s levels dir p = fs.visitsBelow s levels' dir p := by
  induction levels generalizing levels' dir p with
  | zero => exact absurd hpos (Nat.lt_irrefl 0)
  | succ n ih =>
    obtain ⟨n', rfl⟩ : ∃ n', levels' = n' + 1 := ⟨levels' - 1, by omega⟩
    rw [visitsBelow_succ, visitsBelow_succ]
    split
    · rfl
    refine List.flatMap_congr fun child hchild => ?_
    obtain ⟨name, e⟩ := child
    have hheight := length_le_height (getElem?_of_mem_children hchild)
    rw [List.length_append, List.length_singleton] at hheight
    cases e with
    | file content => rfl
    | link target => rfl
    | directory =>
      simp only [childVisits]
      split
      · rfl
      · exact ih (by simp; omega) (by simp; omega) (by omega) (by omega) _

/-! ## Visits after a write -/

/-- A visit to the file at `l`. -/
def VisitTo (fs : FileSystem) (l : Location) (visit : Except SearchFault Path) : Prop :=
  ∃ q, visit = .ok q ∧ fs.LeadsTo q l

/-- What one name in a directory gives rise to after a write, if this holds of
the directories below. -/
theorem childVisits_put {child : String × Entry}
    (hchild : child ∈ (fs.put l (.file content)).children dir) (hl : Named l)
    (hdir : dir <+: l → (fs.put l (.file content)).Enters p dir)
    (ih : ∀ dir p, (dir <+: l → (fs.put l (.file content)).Enters p dir) →
      Gains ((fs.put l (.file content)).VisitTo l) (fs.visitsBelow s levels dir p)
        ((fs.put l (.file content)).visitsBelow s levels dir p)) :
    Gains ((fs.put l (.file content)).VisitTo l) (fs.childVisits s levels dir p child)
      ((fs.put l (.file content)).childVisits s levels dir p child) := by
  obtain ⟨name, e⟩ := child
  cases e with
  | file old => exact .refl _ _
  | link target => exact .refl _ _
  | directory =>
    simp only [childVisits]
    split
    · exact .done
    refine ih _ _ fun hbelow => ?_
    -- the names on the way to `l` are the only ones that matter
    have hname : IsName name := hl name (hbelow.subset (by simp))
    exact (hdir ((List.prefix_append ..).trans hbelow)).join hname (entry?_of_mem_children hchild)

/-- What the file that was written gives rise to in its directory. -/
theorem childVisits_put_self (h : fs.Writable l) (hl : Named l)
    (hdir : dir <+: l → (fs.put l (.file content)).Enters p dir) :
    Gains ((fs.put l (.file content)).VisitTo l)
      ((fs.entries[l]?.bind fun old => childOf? dir (l, old)).toList.flatMap
        (fs.childVisits s levels dir p))
      ((childOf? dir (l, .file content)).toList.flatMap
        ((fs.put l (.file content)).childVisits s levels dir p)) := by
  by_cases hname : ∃ name, l = dir ++ [name]
  · obtain ⟨name, rfl⟩ := hname
    have hchild (e : Entry) : childOf? dir (dir ++ [name], e) = some (name, e) :=
      childOf?_eq_some_iff.mpr ⟨rfl, rfl⟩
    have hentry : fs.entry? (dir ++ [name]) = fs.entries[dir ++ [name]]? := if_neg h.ne_root
    simp only [hchild, Option.toList_some, List.flatMap_singleton]
    cases hold : fs.entries[dir ++ [name]]? with
    | none =>
      have hlead := (hdir (List.prefix_append ..)).leadsTo (hl name (by simp)) (entry?_put_self h.ne_root)
      simp only [childVisits]
      split
      · exact .gain ⟨_, rfl, hlead⟩ .done
      · exact .done
    | some old =>
      obtain ⟨bytes, rfl⟩ := h.isFile (hentry.trans hold)
      rw [Option.bind_some, Option.toList_some, List.flatMap_singleton]
      exact .refl _ _
  · have hchild (e : Entry) : childOf? dir (l, e) = none := by
      rw [Option.eq_none_iff_forall_ne_some]
      exact fun child hc => hname ⟨_, (childOf?_eq_some_iff.mp hc).1⟩
    simp only [hchild, Option.bind_fun_none]
    exact .done

/-- A search below a directory after a write. -/
theorem visitsBelow_put (h : fs.Writable l) (hl : Named l) (content : ByteArray) (s : Search)
    (levels : Nat) (dir : Location) (p : Path)
    (hdir : dir <+: l → (fs.put l (.file content)).Enters p dir) :
    Gains ((fs.put l (.file content)).VisitTo l) (fs.visitsBelow s levels dir p)
      ((fs.put l (.file content)).visitsBelow s levels dir p) := by
  induction levels generalizing dir p with
  | zero => exact .done
  | succ levels ih =>
    rw [visitsBelow_succ, visitsBelow_succ]
    split
    · exact .refl _ _
    obtain ⟨front, back, hafter, hbefore⟩ := exists_children_put fs l (.file content) dir
    have others (children : List (String × Entry))
        (hsub : ∀ child ∈ children, child ∈ (fs.put l (.file content)).children dir) :
        Gains ((fs.put l (.file content)).VisitTo l)
          (children.flatMap (fs.childVisits s levels dir p))
          (children.flatMap ((fs.put l (.file content)).childVisits s levels dir p)) :=
      .flatMap fun child hchild => childVisits_put (hsub child hchild) hl hdir ih
    have hfront := others front fun child hm => by simp [hafter, hm]
    have hback := others back fun child hm => by simp [hafter, hm]
    rw [hafter, hbefore]
    simp only [List.flatMap_append]
    exact (hfront.append (childVisits_put_self h hl hdir)).append hback

/-- The visits below the root of a search after a write. -/
theorem visitsBelow_height_put (h : fs.Writable l) (hl : Named l) (content : ByteArray) (s : Search)
    (hroot : (fs.put l (.file content)).Enters p dir) :
    Gains ((fs.put l (.file content)).VisitTo l) (fs.visitsBelow s (fs.height + 1) dir p)
      ((fs.put l (.file content)).visitsBelow s ((fs.put l (.file content)).height + 1) dir p) := by
  generalize hfs : fs.put l (.file content) = fs' at hroot ⊢
  have hbefore : fs.visitsBelow s (fs.height + 1) dir p =
      fs.visitsBelow s (max fs.height fs'.height + 1) dir p :=
    visitsBelow_congr (by omega) (by omega) (by omega) (by omega) p
  have hafter : fs'.visitsBelow s (fs'.height + 1) dir p =
      fs'.visitsBelow s (max fs.height fs'.height + 1) dir p :=
    visitsBelow_congr (by omega) (by omega) (by omega) (by omega) p
  rw [hbefore, hafter]
  subst hfs
  exact visitsBelow_put h hl content s _ dir p fun _ => hroot

/-- A search that meets no fault meets the same files after a write, but for
the one that was written. -/
theorem visits_put {paths : List Path} (h : fs.Writable l) (hl : Named l) (content : ByteArray)
    (hvisits : fs.visits s = paths.map .ok) :
    Gains ((fs.put l (.file content)).VisitTo l) (fs.visits s) ((fs.put l (.file content)).visits s) := by
  have nofault {fault : SearchFault} :
      [.error fault] ≠ (paths.map .ok : List (Except SearchFault Path)) := by
    cases paths <;> simp
  unfold visits at hvisits ⊢
  rcases hinspect : fs.lookup .inspect s.root with fault | ⟨m, e⟩
  · rw [hinspect] at hvisits
    exact absurd hvisits nofault
  have hafter := lookup_put h content hinspect
  cases e with
  | directory =>
    simp only [Entry.withContent, ite_self] at hafter
    rw [hafter]
    dsimp only
    split
    · exact .done
    · exact visitsBelow_height_put h hl content s (enters_of_lookup hafter)
  | file old =>
    rw [hafter]
    by_cases hm : m = l <;> simp only [hm, if_true, if_false, Entry.withContent] <;> exact .refl _ _
  | link target =>
    simp only [Entry.withContent, ite_self] at hafter
    rw [hafter]
    rw [hinspect] at hvisits
    dsimp only at hvisits ⊢
    rcases hfollow : fs.lookup .follow s.root with fault | ⟨m, e⟩
    · rw [hfollow] at hvisits
      exact absurd hvisits nofault
    have hafter := lookup_put h content hfollow
    cases e with
    | directory =>
      simp only [Entry.withContent, ite_self] at hafter
      rw [hafter]
      exact visitsBelow_height_put h hl content s (enters_of_lookup hafter)
    | file old =>
      rw [hafter]
      by_cases hm : m = l <;> simp only [hm, if_true, if_false, Entry.withContent] <;> exact .done
    | link target =>
      simp only [Entry.withContent, ite_self] at hafter
      rw [hafter]
      exact .done

/-! ## Findings after a write -/

theorem paths_of_complete {findings : Findings} {paths : List Path} (h : findings.complete = .ok paths) :
    findings.paths = paths := by
  unfold Findings.complete at h
  split at h
  · cases h
  · exact Except.ok.inj h

theorem complete_ofVisits_cons (path : Path) (visits : List (Except SearchFault Path)) :
    (Findings.ofVisits (.ok path :: visits)).complete =
      (Findings.ofVisits visits).complete.map (path :: ·) := by
  simp only [Findings.ofVisits, Findings.complete]
  cases (Findings.ofVisits visits).fault? <;> rfl

/-- A search is complete if it meets no fault, and then it finds all that it
meets. -/
theorem complete_ofVisits_eq_ok_iff {visits : List (Except SearchFault Path)} {paths : List Path} :
    (Findings.ofVisits visits).complete = .ok paths ↔ visits = paths.map .ok := by
  induction visits generalizing paths with
  | nil => cases paths <;> simp [Findings.ofVisits, Findings.complete]
  | cons visit visits ih =>
    cases visit with
    | error fault => cases paths <;> simp [Findings.ofVisits, Findings.complete]
    | ok path =>
      rw [complete_ofVisits_cons]
      cases paths with
      | nil => cases (Findings.ofVisits visits).complete <;> simp [Except.map]
      | cons first paths =>
        rw [List.map_cons, List.cons.injEq, Except.ok.injEq, ← ih]
        cases (Findings.ofVisits visits).complete <;> simp [Except.map]

/-- A search that is complete is so again after a write, and finds the same
files, but for the one that was written. -/
theorem sources_put {paths : List Path} (h : fs.Writable l) (hl : Named l) (content : ByteArray)
    (hpaths : (fs.sources s).complete = .ok paths) :
    ∃ paths', ((fs.put l (.file content)).sources s).complete = .ok paths' ∧
      Gains (fun q => (fs.put l (.file content)).LeadsTo q l) paths paths' := by
  have hvisits : fs.visits s = paths.map .ok := complete_ofVisits_eq_ok_iff.mp hpaths
  obtain ⟨paths', hafter, hgains⟩ := (visits_put h hl content hvisits).exists_map hvisits fun _ hq => hq
  exact ⟨paths', complete_ofVisits_eq_ok_iff.mpr hafter, hgains⟩

end FileSystem

end Amalgam
