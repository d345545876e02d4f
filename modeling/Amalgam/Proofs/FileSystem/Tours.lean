import Amalgam.Proofs.FileSystem.Search
import Mathlib.Data.List.Induction

/-!
# The stops of a search

A search goes down from its root level by level, leaves out what is excluded
and looks at the names in each directory in order. It stops at the files that
are searched for and at directories whose path is too long. Each stop is
described by the names on the way to it from the root, and what the search
visits by its stops.

* `mem_tour_succ_iff`: how a search goes on from a directory;
* `visits_eq_map`: a search visits what lies at its stops;
* `mem_stops_iff`: the stops are the files that are searched for and the
  directories that are too long, provided that all directories before them can
  be entered;
* `pairwise_stops`: the stops come in the order of the names on the way to
  them.
-/

namespace Amalgam

/-! ## Paths below a root -/

/-- The path that leads from `p` along the given names. -/
def Path.below (p : Path) (names : List String) : Path :=
  names.foldl (fun p name => p.join ⟨name⟩) p

@[simp] theorem Path.below_nil (p : Path) : p.below [] = p :=
  rfl

theorem Path.below_concat (p : Path) (names : List String) (name : String) :
    p.below (names ++ [name]) = (p.below names).join ⟨name⟩ := by
  simp [Path.below]

/-- No excluded name, seen from the root, is this path. -/
def Search.Spares (s : Search) (p : Path) : Prop :=
  ∀ name ∈ s.excluded, ¬p.Same (s.root.join ⟨name⟩)

theorem Search.excludes_eq_false_iff {s : Search} {p : Path} : s.excludes p = false ↔ s.Spares p := by
  simp [Search.excludes, Search.Spares]

theorem Search.admits_iff {s : Search} {p : Path} :
    s.admits p ↔ s.Spares p ∧ p.extension? = some s.extension := by
  simp [Search.admits, Search.carriesExtension, Search.excludes_eq_false_iff]

namespace FileSystem

variable {fs : FileSystem} {s : Search} {dir : Location} {p : Path} {name : String} {e : Entry}
  {names front : List String} {levels : Nat}

theorem components_below (h : ∀ name ∈ names, IsPiece name) (p : Path) :
    (p.below names).components = p.components ++ names.map .name := by
  induction names generalizing p with
  | nil => simp
  | cons name names ih =>
    have hname : IsPiece name := h name (List.mem_cons_self ..)
    change ((p.join ⟨name⟩).below names).components = _
    rw [ih fun n hn => h n (List.mem_cons_of_mem _ hn), components_join hname, List.append_assoc]
    rfl

/-- A directory with this path can be entered. -/
def Fits (p : Path) : Prop :=
  p.text.utf8ByteSize ≤ pathLimit

instance (p : Path) : Decidable (Fits p) :=
  inferInstanceAs (Decidable (_ ≤ _))

/-! ## Directories and files on the way -/

/-- The names lead to a directory that a search from the directory at `dir` is
to enter: they pass through directories only, and nothing on the way is
excluded. -/
structure IsEntered (fs : FileSystem) (s : Search) (dir : Location) (names : List String) : Prop where
  directories : ∀ front, front <+: names → fs.entry? (dir ++ front) = some .directory
  spared : ∀ front, front <+: names → s.Spares (s.root.below front)

/-- The names lead to a file that a search from the directory at `dir` is to
find: they pass through directories only, nothing on the way is excluded, and
the file carries the extension. -/
structure IsSource (fs : FileSystem) (s : Search) (dir : Location) (names : List String) : Prop where
  file : ∃ content, fs.entry? (dir ++ names) = some (.file content)
  directories : ∀ front, front <+: names → front ≠ names → fs.entry? (dir ++ front) = some .directory
  spared : ∀ front, front <+: names → s.Spares (s.root.below front)
  extension : (s.root.below names).extension? = some s.extension

theorem IsEntered.of_prefix (h : fs.IsEntered s dir names) (hfront : front <+: names) :
    fs.IsEntered s dir front :=
  ⟨fun mid hmid => h.directories mid (hmid.trans hfront), fun mid hmid => h.spared mid (hmid.trans hfront)⟩

theorem IsSource.entered (h : fs.IsSource s dir names) (hfront : front <+: names) (hne : front ≠ names) :
    fs.IsEntered s dir front := by
  refine ⟨fun mid hmid => h.directories mid (hmid.trans hfront) ?_,
    fun mid hmid => h.spared mid (hmid.trans hfront)⟩
  rintro rfl
  exact hne (hfront.eq_of_length_le hmid.length_le)

theorem IsEntered.not_isSource (h : fs.IsEntered s dir names) : ¬fs.IsSource s dir names := by
  intro hsource
  obtain ⟨content, hfile⟩ := hsource.file
  rw [h.directories names (List.prefix_refl _)] at hfile
  cases hfile

theorem isEntered_nil_iff :
    fs.IsEntered s dir [] ↔ fs.entry? dir = some .directory ∧ s.Spares s.root := by
  constructor
  · rintro ⟨hdirectories, hspared⟩
    have hdir := hdirectories [] List.nil_prefix
    rw [List.append_nil] at hdir
    exact ⟨hdir, hspared [] List.nil_prefix⟩
  · rintro ⟨hdir, hspared⟩
    refine ⟨fun front hfront => ?_, fun front hfront => ?_⟩
    · rwa [List.prefix_nil.mp hfront, List.append_nil]
    · rwa [List.prefix_nil.mp hfront]

theorem forall_prefix_concat {P : List String → Prop} : (∀ mid, mid <+: front ++ [name] → P mid) ↔
    (∀ mid, mid <+: front → P mid) ∧ P (front ++ [name]) := by
  simp [List.prefix_concat_iff, or_imp, forall_and, and_comm]

theorem isEntered_concat_iff : fs.IsEntered s dir (front ++ [name]) ↔
    fs.IsEntered s dir front ∧ fs.entry? (dir ++ front ++ [name]) = some .directory ∧
      s.Spares (s.root.below (front ++ [name])) := by
  rw [List.append_assoc]
  constructor
  · rintro ⟨hdirectories, hspared⟩
    obtain ⟨hdirectories, hentry⟩ := forall_prefix_concat.mp hdirectories
    obtain ⟨hspared, hlast⟩ := forall_prefix_concat.mp hspared
    exact ⟨⟨hdirectories, hspared⟩, hentry, hlast⟩
  · rintro ⟨⟨hdirectories, hspared⟩, hentry, hlast⟩
    exact ⟨forall_prefix_concat.mpr ⟨hdirectories, hentry⟩, forall_prefix_concat.mpr ⟨hspared, hlast⟩⟩

theorem isSource_concat_iff : fs.IsSource s dir (front ++ [name]) ↔
    fs.IsEntered s dir front ∧ (∃ content, fs.entry? (dir ++ front ++ [name]) = some (.file content)) ∧
      s.admits (s.root.below (front ++ [name])) := by
  rw [Search.admits_iff, List.append_assoc]
  constructor
  · intro h
    have hfront : fs.IsEntered s dir front := h.entered (List.prefix_append ..) (by simp)
    exact ⟨hfront, h.file, h.spared _ (List.prefix_refl _), h.extension⟩
  · rintro ⟨⟨hdirectories, hspared⟩, hfile, hlast, hextension⟩
    refine ⟨hfile, fun mid hmid hne => ?_, forall_prefix_concat.mpr ⟨hspared, hlast⟩, hextension⟩
    exact hdirectories mid ((List.prefix_concat_iff.mp hmid).resolve_left hne)

/-! ## The names in a directory -/

theorem mem_children_iff : (name, e) ∈ fs.children dir ↔ fs.entry? (dir ++ [name]) = some e := by
  refine ⟨entry?_of_mem_children, fun h => ?_⟩
  unfold entry? at h
  rw [if_neg (by simp)] at h
  exact List.mem_filterMap.mpr ⟨(dir ++ [name], e),
    Std.ExtTreeMap.mem_toList_iff_getElem?_eq_some.mpr h, childOf?_eq_some_iff.mpr ⟨rfl, rfl⟩⟩

theorem compare_append_left (front xs ys : List String) :
    compare (front ++ xs) (front ++ ys) = compare xs ys := by
  induction front with
  | nil => rfl
  | cons name front ih =>
    rw [List.cons_append, List.cons_append, List.compare_cons_cons, Std.compare_self, ih]
    rfl

/-- Names behind two names in one directory come in the order of those two. -/
theorem compare_of_prefix {name' : String} {xs ys : List String} (h : compare name name' = .lt)
    (hxs : front ++ [name] <+: xs) (hys : front ++ [name'] <+: ys) : compare xs ys = .lt := by
  obtain ⟨xs, rfl⟩ := hxs
  obtain ⟨ys, rfl⟩ := hys
  rw [List.append_assoc, List.append_assoc, compare_append_left, List.singleton_append,
    List.singleton_append, List.compare_cons_cons, h]
  rfl

theorem pairwise_children (fs : FileSystem) (dir : Location) :
    (fs.children dir).Pairwise fun a b => compare a.1 b.1 = .lt := by
  rw [children_eq, List.pairwise_filterMap]
  refine List.Pairwise.imp (fun {a b} hlt child hchild child' hchild' => ?_)
    Std.ExtTreeMap.ordered_keys_toList
  rw [(childOf?_eq_some_iff.mp hchild).1, (childOf?_eq_some_iff.mp hchild').1, compare_append_left,
    List.compare_cons_cons, Ordering.then_eq_lt] at hlt
  rcases hlt with hlt | ⟨-, hlt⟩
  · exact hlt
  · cases hlt

/-! ## Tours -/

/-- The stops that one name in a directory gives rise to, given those `below` a
directory. -/
def childStops (s : Search) (front : List String) (below : List String → List (List String))
    (child : String × Entry) : List (List String) :=
  match child.2 with
  | .directory => if s.excludes (s.root.below (front ++ [child.1])) then [] else below (front ++ [child.1])
  | .file _ => if s.admits (s.root.below (front ++ [child.1])) then [front ++ [child.1]] else []
  | .link _ => []

/-- The stops of a search from the directory at `dir` once it has got along the
names in `front`, each as the names on the way to it. -/
def tour (fs : FileSystem) (s : Search) (dir : Location) : Nat → List String → List (List String)
  | 0, _ => []
  | levels + 1, front =>
    if Fits (s.root.below front) then
      (fs.children (dir ++ front)).flatMap (childStops s front (fs.tour s dir levels))
    else [front]

/-- What a search meets where a tour stops: a file, or a directory whose path
is too long. -/
def visitAt (fs : FileSystem) (s : Search) (dir : Location) (names : List String) :
    Except SearchFault Path :=
  match fs.entry? (dir ++ names) with
  | some (.file _) => .ok (s.root.below names)
  | _ => .error ⟨s.root.below names, .nameTooLong⟩

/-- The visits of a search are those at the stops of its tour. -/
theorem visitsBelow_eq_map (levels : Nat) (h : fs.entry? (dir ++ front) = some .directory) :
    fs.visitsBelow s levels (dir ++ front) (s.root.below front) =
      (fs.tour s dir levels front).map (fs.visitAt s dir) := by
  induction levels generalizing front with
  | zero => rfl
  | succ levels ih =>
    rw [visitsBelow_succ, tour]
    by_cases hfits : Fits (s.root.below front)
    · rw [if_pos hfits, if_neg (Nat.not_lt.mpr hfits), List.map_flatMap]
      refine List.flatMap_congr fun ⟨name, e⟩ hchild => ?_
      have hentry : fs.entry? (dir ++ (front ++ [name])) = some e := by
        rw [← List.append_assoc]
        exact entry?_of_mem_children hchild
      simp only [childVisits, childStops, ← Path.below_concat]
      cases e with
      | directory =>
        dsimp only
        split
        · rfl
        · rw [List.append_assoc]
          exact ih hentry
      | file content =>
        dsimp only
        split
        · simp [visitAt, hentry]
        · rfl
      | link target => rfl
    · rw [if_neg hfits, if_pos (Nat.not_le.mp hfits)]
      simp [visitAt, h]

theorem mem_childStops_iff {below : List String → List (List String)} :
    names ∈ childStops s front below (name, e) ↔
      e = .directory ∧ s.Spares (s.root.below (front ++ [name])) ∧ names ∈ below (front ++ [name]) ∨
      (∃ content, e = .file content) ∧ s.admits (s.root.below (front ++ [name])) ∧
        names = front ++ [name] := by
  cases e with
  | directory =>
    simp only [childStops]
    split <;> simp_all [← Search.excludes_eq_false_iff]
  | file content =>
    simp only [childStops]
    split <;> simp_all
  | link target => simp [childStops]

/-- How a tour goes on from a directory: it stops there if the path is too
long, and otherwise it goes on to the directories and files in it. -/
theorem mem_tour_succ_iff (h : fs.IsEntered s dir front) : names ∈ fs.tour s dir (levels + 1) front ↔
    ¬Fits (s.root.below front) ∧ names = front ∨
      Fits (s.root.below front) ∧ ∃ name,
        fs.IsEntered s dir (front ++ [name]) ∧ names ∈ fs.tour s dir levels (front ++ [name]) ∨
        fs.IsSource s dir (front ++ [name]) ∧ names = front ++ [name] := by
  rw [tour]
  by_cases hfits : Fits (s.root.below front)
  · simp only [hfits, if_true, not_true, false_and, false_or, true_and, List.mem_flatMap]
    constructor
    · rintro ⟨⟨name, e⟩, hchild, hstop⟩
      have hentry := mem_children_iff.mp hchild
      rcases mem_childStops_iff.mp hstop with ⟨rfl, hspared, hnames⟩ | ⟨⟨content, rfl⟩, hadmits, hnames⟩
      · exact ⟨name, .inl ⟨isEntered_concat_iff.mpr ⟨h, hentry, hspared⟩, hnames⟩⟩
      · exact ⟨name, .inr ⟨isSource_concat_iff.mpr ⟨h, ⟨content, hentry⟩, hadmits⟩, hnames⟩⟩
    · rintro ⟨name, ⟨hentered, hnames⟩ | ⟨hsource, hnames⟩⟩
      · obtain ⟨-, hentry, hspared⟩ := isEntered_concat_iff.mp hentered
        exact ⟨(name, .directory), mem_children_iff.mpr hentry,
          mem_childStops_iff.mpr (.inl ⟨rfl, hspared, hnames⟩)⟩
      · obtain ⟨-, ⟨content, hentry⟩, hadmits⟩ := isSource_concat_iff.mp hsource
        exact ⟨(name, .file content), mem_children_iff.mpr hentry,
          mem_childStops_iff.mpr (.inr ⟨⟨content, rfl⟩, hadmits, hnames⟩)⟩
  · simp [hfits]

theorem prefix_of_mem_childStops {below : List String → List (List String)} {child : String × Entry}
    (hbelow : ∀ {front}, names ∈ below front → front <+: names)
    (h : names ∈ childStops s front below child) : front ++ [child.1] <+: names := by
  rcases mem_childStops_iff.mp h with ⟨-, -, hnames⟩ | ⟨-, -, rfl⟩
  · exact hbelow hnames
  · exact List.prefix_refl _

theorem prefix_of_mem_tour (h : names ∈ fs.tour s dir levels front) : front <+: names := by
  induction levels generalizing front with
  | zero => cases h
  | succ levels ih =>
    rw [tour] at h
    split at h
    · obtain ⟨child, -, hstop⟩ := List.mem_flatMap.mp h
      exact (List.prefix_append ..).trans (prefix_of_mem_childStops ih hstop)
    · exact List.mem_singleton.mp h ▸ List.prefix_refl _

/-- A tour comes to its stops in the order of the names on the way to them. -/
theorem pairwise_tour (fs : FileSystem) (s : Search) (dir : Location) (levels : Nat)
    (front : List String) : (fs.tour s dir levels front).Pairwise fun a b => compare a b = .lt := by
  induction levels generalizing front with
  | zero => exact .nil
  | succ levels ih =>
    rw [tour]
    split
    · refine List.pairwise_flatMap.mpr ⟨fun ⟨name, e⟩ _ => ?_, ?_⟩
      · cases e with
        | directory =>
          simp only [childStops]
          split
          · exact .nil
          · exact ih _
        | file content =>
          simp only [childStops]
          split
          · exact List.pairwise_singleton ..
          · exact .nil
        | link target => exact .nil
      · refine (pairwise_children fs _).imp fun {a b} hlt x hx y hy => ?_
        exact compare_of_prefix hlt (prefix_of_mem_childStops prefix_of_mem_tour hx)
          (prefix_of_mem_childStops prefix_of_mem_tour hy)
    · exact List.pairwise_singleton ..

/-! ## The stops of a search -/

/-- A stop behind `front`: a file that is searched for, or a directory whose
path is too long. All directories before it can be entered. -/
structure IsStop (fs : FileSystem) (s : Search) (dir : Location) (front names : List String) : Prop where
  behind : front <+: names
  target : fs.IsSource s dir names ∨ fs.IsEntered s dir names ∧ ¬Fits (s.root.below names)
  fits : ∀ mid, front <+: mid → mid <+: names → mid ≠ names → Fits (s.root.below mid)

theorem isStop_of_mem_tour (h : fs.IsEntered s dir front) (hnames : names ∈ fs.tour s dir levels front) :
    fs.IsStop s dir front names := by
  induction levels generalizing front with
  | zero => cases hnames
  | succ levels ih =>
    have here {mid : List String} (hfront : front <+: mid) (hlength : mid.length ≤ front.length) :
        front = mid := hfront.eq_of_length_le hlength
    rcases (mem_tour_succ_iff h).mp hnames with
      ⟨hlong, rfl⟩ | ⟨hfits, name, ⟨hentered, hnames⟩ | ⟨hsource, rfl⟩⟩
    · exact ⟨List.prefix_refl _, .inr ⟨h, hlong⟩, fun mid hfront hmid hne =>
        absurd (here hfront hmid.length_le).symm hne⟩
    · have hstop := ih hentered hnames
      refine ⟨(List.prefix_append ..).trans hstop.behind, hstop.target, fun mid hfront hmid hne => ?_⟩
      -- a directory on the way is `front` itself or lies behind
      -- `front ++ [name]`
      rcases Nat.lt_or_ge front.length mid.length with hlt | hle
      · refine hstop.fits mid (List.prefix_of_prefix_length_le hstop.behind hmid ?_) hmid hne
        rwa [List.length_append, List.length_singleton]
      · exact here hfront hle ▸ hfits
    · refine ⟨List.prefix_append .., .inl hsource, fun mid hfront hmid hne => ?_⟩
      rcases List.prefix_concat_iff.mp hmid with hmid | hmid
      · exact absurd hmid hne
      · exact here hfront hmid.length_le ▸ hfits

theorem mem_tour_of_isStop (h : fs.IsEntered s dir front) (hstop : fs.IsStop s dir front names)
    (hlevels : fs.height < levels + (dir ++ front).length) (hpos : 0 < levels) :
    names ∈ fs.tour s dir levels front := by
  induction levels generalizing front with
  | zero => exact absurd hpos (Nat.lt_irrefl 0)
  | succ levels ih =>
    rw [mem_tour_succ_iff h]
    obtain ⟨⟨rest, rfl⟩, htarget, hfits⟩ := hstop
    cases rest with
    | nil =>
      rw [List.append_nil] at htarget ⊢
      rcases htarget with hsource | ⟨-, hlong⟩
      · exact absurd hsource h.not_isSource
      · exact .inl ⟨hlong, rfl⟩
    | cons name rest =>
      refine .inr ⟨hfits front (List.prefix_refl _) (List.prefix_append ..) (by simp), name, ?_⟩
      have hnext : front ++ [name] <+: front ++ name :: rest := ⟨rest, by simp⟩
      have hbelow (hentered : fs.IsEntered s dir (front ++ [name])) :
          front ++ name :: rest ∈ fs.tour s dir levels (front ++ [name]) := by
        -- the directory is an entry, so there is a level left for it
        have hentry := (isEntered_concat_iff.mp hentered).2.1
        have hheight := length_le_height (getElem?_of_mem_children (mem_children_iff.mpr hentry))
        simp only [List.length_append, List.length_singleton] at hlevels hheight
        refine ih hentered ⟨hnext, htarget, fun mid hfront => ?_⟩ (by simp; omega) (by omega)
        exact hfits mid ((List.prefix_append ..).trans hfront)
      rcases htarget with hsource | ⟨hentered, -⟩
      · by_cases hlast : front ++ [name] = front ++ name :: rest
        · exact .inr ⟨hlast ▸ hsource, hlast.symm⟩
        · exact .inl ⟨hsource.entered hnext hlast, hbelow (hsource.entered hnext hlast)⟩
      · exact .inl ⟨hentered.of_prefix hnext, hbelow (hentered.of_prefix hnext)⟩

/-- A directory that is to be entered but lies behind one with a path that is
too long has a stop on the way to it. -/
theorem exists_stop_of_not_fits (h : fs.IsEntered s dir names)
    (hlong : ∃ front, front <+: names ∧ ¬Fits (s.root.below front)) :
    ∃ front, front <+: names ∧ fs.IsEntered s dir front ∧ ¬Fits (s.root.below front) ∧
      fs.IsStop s dir [] front := by
  induction names using List.reverseRecOn with
  | nil =>
    obtain ⟨front, hfront, hlong⟩ := hlong
    obtain rfl := List.prefix_nil.mp hfront
    exact ⟨[], hfront, h, hlong, hfront, .inr ⟨h, hlong⟩, fun mid _ hmid hne =>
      absurd (List.prefix_nil.mp hmid) hne⟩
  | append_singleton names name ih =>
    have hnames : names <+: names ++ [name] := List.prefix_append ..
    by_cases hearlier : ∃ front, front <+: names ∧ ¬Fits (s.root.below front)
    · obtain ⟨front, hfront, hstop⟩ := ih (h.of_prefix hnames) hearlier
      exact ⟨front, hfront.trans hnames, hstop⟩
    · have hfits (mid : List String) (hmid : mid <+: names) : Fits (s.root.below mid) :=
        Decidable.not_not.mp fun hlong => hearlier ⟨mid, hmid, hlong⟩
      obtain ⟨front, hfront, hlong⟩ := hlong
      obtain rfl : front = names ++ [name] :=
        (List.prefix_concat_iff.mp hfront).resolve_right fun hfront => hlong (hfits front hfront)
      exact ⟨_, hfront, h, hlong, List.nil_prefix, .inr ⟨h, hlong⟩, fun mid _ hmid hne =>
        hfits mid ((List.prefix_concat_iff.mp hmid).resolve_left hne)⟩

/-- The stops of a search whose root is the directory at `dir`, in order. -/
def stops (fs : FileSystem) (s : Search) (dir : Location) : List (List String) :=
  if s.excludes s.root then [] else fs.tour s dir (fs.height + 1) []

theorem visits_eq_map (hroot : fs.lookup .inspect s.root = .ok (dir, .directory))
    (hdir : fs.entry? dir = some .directory) :
    fs.visits s = (fs.stops s dir).map (fs.visitAt s dir) := by
  rw [visits, hroot, stops]
  dsimp only
  split
  · rfl
  · have hfront : fs.entry? (dir ++ []) = some .directory := by rwa [List.append_nil]
    have hbelow := visitsBelow_eq_map (s := s) (fs.height + 1) hfront
    rwa [List.append_nil, Path.below_nil] at hbelow

theorem pairwise_stops (fs : FileSystem) (s : Search) (dir : Location) :
    (fs.stops s dir).Pairwise fun a b => compare a b = .lt := by
  unfold stops
  split
  · exact .nil
  · exact pairwise_tour fs s dir _ []

theorem mem_stops_iff (hdir : fs.entry? dir = some .directory) :
    names ∈ fs.stops s dir ↔ fs.IsStop s dir [] names := by
  unfold stops
  split
  next hexcluded =>
    have hspared : ¬s.Spares s.root := by
      rw [← Search.excludes_eq_false_iff]
      simp [hexcluded]
    refine ⟨fun h => absurd h List.not_mem_nil, fun h => absurd ?_ hspared⟩
    rcases h.target with hsource | ⟨hentered, -⟩
    · exact hsource.spared [] List.nil_prefix
    · exact hentered.spared [] List.nil_prefix
  next hspared =>
    have hroot : fs.IsEntered s dir [] :=
      isEntered_nil_iff.mpr ⟨hdir, Search.excludes_eq_false_iff.mp (by simpa using hspared)⟩
    exact ⟨isStop_of_mem_tour hroot, fun h => mem_tour_of_isStop hroot h (by omega) (by omega)⟩

theorem IsSource.visitAt_eq (h : fs.IsSource s dir names) :
    fs.visitAt s dir names = .ok (s.root.below names) := by
  obtain ⟨content, hfile⟩ := h.file
  rw [visitAt, hfile]

theorem IsEntered.visitAt_eq (h : fs.IsEntered s dir names) :
    fs.visitAt s dir names = .error ⟨s.root.below names, .nameTooLong⟩ := by
  rw [visitAt, h.directories names (List.prefix_refl _)]

end FileSystem

end Amalgam
