import Amalgam.Proofs.FileSystem.Tours
import Amalgam.Proofs.FileSystem.Trees
import Amalgam.Proofs.Text.Bytes
import Mathlib.Data.List.Nodup

/-!
# What a search finds

What a search finds can be told without it: the files below the root that carry
the extension, with directories on the way to them and nothing excluded, in the
order of the names on the way. The search fails only if the path of a directory
is too long, and then at the first such directory.

* `complete_of_fits`: what a search finds if all paths fit;
* `complete_of_not_fits`: where it fails if one does not;
* `sources_excluded`: the excluded names matter as a set;
* `sources_exact`: all of this for a root that is a directory.
-/

namespace Amalgam.FileSystem

variable {fs : FileSystem} {s : Search} {dir : Location} {p : Path} {names : List String}

/-! ## Searches that meet no long path, and those that do -/

/-- Where all directories can be entered, a search stops at the files only. -/
theorem mem_stops_iff_of_fits (hdir : fs.entry? dir = some .directory)
    (hfits : ∀ names, fs.IsEntered s dir names → Fits (s.root.below names)) :
    names ∈ fs.stops s dir ↔ fs.IsSource s dir names := by
  rw [mem_stops_iff hdir]
  constructor
  · intro h
    exact h.target.resolve_right fun hlong => hlong.2 (hfits names hlong.1)
  · intro h
    exact ⟨List.nil_prefix, .inl h, fun mid _ hmid hne => hfits mid (h.entered hmid hne)⟩

theorem complete_of_fits (hroot : fs.lookup .inspect s.root = .ok (dir, .directory))
    (hdir : fs.entry? dir = some .directory)
    (hfits : ∀ names, fs.IsEntered s dir names → Fits (s.root.below names)) :
    (fs.sources s).complete = .ok ((fs.stops s dir).map s.root.below) := by
  rw [sources, complete_ofVisits_eq_ok_iff, visits_eq_map hroot hdir, List.map_map]
  refine List.map_congr_left fun names hnames => ?_
  exact ((mem_stops_iff_of_fits hdir hfits).mp hnames).visitAt_eq

/-- A search that fails does so at the first fault that it meets. -/
theorem exists_of_complete_eq_error {visits : List (Except SearchFault Path)} {fault : SearchFault}
    (h : (Findings.ofVisits visits).complete = .error fault) :
    ∃ (paths : List Path) (rest : List (Except SearchFault Path)),
      visits = paths.map .ok ++ .error fault :: rest := by
  induction visits with
  | nil => cases h
  | cons visit visits ih =>
    cases visit with
    | error first =>
      obtain rfl : first = fault := Except.error.inj h
      exact ⟨[], visits, rfl⟩
    | ok path =>
      rw [complete_ofVisits_cons] at h
      cases hrest : (Findings.ofVisits visits).complete with
      | ok paths =>
        rw [hrest] at h
        cases h
      | error first =>
        rw [hrest] at h
        obtain rfl : first = fault := Except.error.inj h
        obtain ⟨paths, rest, rfl⟩ := ih hrest
        exact ⟨path :: paths, rest, rfl⟩

theorem compare_of_lt_of_prefix {first stop other : List String} (h : stop = first ∨ compare first stop = .lt)
    (hway : stop <+: other) : first = other ∨ compare first other = .lt := by
  obtain ⟨rest, rfl⟩ := hway
  cases rest with
  | nil =>
    rw [List.append_nil]
    exact h.imp_left Eq.symm
  | cons name rest =>
    have hlt : compare stop (stop ++ name :: rest) = .lt := by
      rw [← List.append_nil stop, List.append_assoc, compare_append_left]
      rfl
    rcases h with rfl | h
    · exact .inr hlt
    · exact .inr (Std.TransCmp.lt_trans h hlt)

theorem exists_mem_stops (hdir : fs.entry? dir = some .directory) (h : fs.IsEntered s dir names)
    (hlong : ¬Fits (s.root.below names)) :
    ∃ stop ∈ fs.stops s dir, stop <+: names ∧ fs.IsEntered s dir stop := by
  obtain ⟨stop, hway, hentered, -, hstop⟩ :=
    exists_stop_of_not_fits h ⟨names, List.prefix_refl _, hlong⟩
  exact ⟨stop, (mem_stops_iff hdir).mpr hstop, hway, hentered⟩

/-- Only files lie among the stops at which a search meets no fault. -/
theorem not_isEntered_of_map_eq {stops : List (List String)} {paths : List Path}
    (h : stops.map (fs.visitAt s dir) = paths.map .ok) (hmem : names ∈ stops) :
    ¬fs.IsEntered s dir names := by
  intro hentered
  have hvisit := List.mem_map_of_mem (f := fs.visitAt s dir) hmem
  rw [h, hentered.visitAt_eq] at hvisit
  simp at hvisit

/-- A search that is completed has entered all directories. -/
theorem fits_of_complete {paths : List Path} (hroot : fs.lookup .inspect s.root = .ok (dir, .directory))
    (hdir : fs.entry? dir = some .directory) (hcomplete : (fs.sources s).complete = .ok paths)
    (h : fs.IsEntered s dir names) : Fits (s.root.below names) := by
  by_contra hlong
  have hpaths := complete_ofVisits_eq_ok_iff.mp hcomplete
  rw [visits_eq_map hroot hdir] at hpaths
  obtain ⟨stop, hmem, -, hentered⟩ := exists_mem_stops hdir h hlong
  exact not_isEntered_of_map_eq hpaths hmem hentered

/-- A search that fails does so at the first of its stops that is a
directory. -/
theorem exists_first_of_complete {fault : SearchFault}
    (hroot : fs.lookup .inspect s.root = .ok (dir, .directory)) (hdir : fs.entry? dir = some .directory)
    (hcomplete : (fs.sources s).complete = .error fault) :
    ∃ earlier first later, fs.stops s dir = earlier ++ first :: later ∧
      fault = ⟨s.root.below first, .nameTooLong⟩ ∧ fs.IsEntered s dir first ∧
      ¬Fits (s.root.below first) ∧ ∀ stop ∈ earlier, ¬fs.IsEntered s dir stop := by
  obtain ⟨paths, rest, hsplit⟩ := exists_of_complete_eq_error hcomplete
  rw [visits_eq_map hroot hdir] at hsplit
  obtain ⟨earlier, later, hstops, hearlier, hlater⟩ := List.map_eq_append_iff.mp hsplit
  obtain ⟨first, later, rfl, hfirst, -⟩ := List.map_eq_cons_iff.mp hlater
  have hstop : fs.IsStop s dir [] first := (mem_stops_iff hdir).mp (by simp [hstops])
  obtain ⟨hentered, hlong⟩ := hstop.target.resolve_left fun hsource => by
    rw [hsource.visitAt_eq] at hfirst
    cases hfirst
  rw [hentered.visitAt_eq] at hfirst
  exact ⟨earlier, first, later, hstops, (Except.error.inj hfirst).symm, hentered, hlong,
    fun stop hmem => not_isEntered_of_map_eq hearlier hmem⟩

/-- Where a directory cannot be entered, a search fails at the first one in
order that cannot. -/
theorem complete_of_not_fits (hroot : fs.lookup .inspect s.root = .ok (dir, .directory))
    (hdir : fs.entry? dir = some .directory) (h : fs.IsEntered s dir names)
    (hlong : ¬Fits (s.root.below names)) :
    ∃ first, fs.IsEntered s dir first ∧ ¬Fits (s.root.below first) ∧
      (fs.sources s).complete = .error ⟨s.root.below first, .nameTooLong⟩ ∧
      ∀ other, fs.IsEntered s dir other → ¬Fits (s.root.below other) →
        first = other ∨ compare first other = .lt := by
  cases hcomplete : (fs.sources s).complete with
  | ok paths => exact absurd (fits_of_complete hroot hdir hcomplete h) hlong
  | error fault =>
    obtain ⟨earlier, first, later, hstops, rfl, hentered, hlong, hearlier⟩ :=
      exists_first_of_complete hroot hdir hcomplete
    refine ⟨first, hentered, hlong, rfl, fun other hother hlong => ?_⟩
    obtain ⟨stop, hmem, hway, hentered⟩ := exists_mem_stops hdir hother hlong
    refine compare_of_lt_of_prefix ?_ hway
    have hsorted := pairwise_stops fs s dir
    rw [hstops] at hmem hsorted
    rcases List.mem_append.mp hmem with hmem | hmem
    · exact absurd hentered (hearlier stop hmem)
    · rcases List.mem_cons.mp hmem with heq | hmem
      · exact .inl heq
      · exact .inr (List.rel_of_pairwise_cons (List.pairwise_append.mp hsorted).2.1 hmem)

/-! ## Exclusions in another order -/

theorem visitsBelow_eq_of_admits {s s' : Search} (hexcludes : ∀ p, s.excludes p = s'.excludes p)
    (hadmits : ∀ p, s.admits p = s'.admits p) (levels : Nat) (dir : Location) (p : Path) :
    fs.visitsBelow s levels dir p = fs.visitsBelow s' levels dir p := by
  induction levels generalizing dir p with
  | zero => rfl
  | succ levels ih =>
    have hchild (child : String × Entry) :
        fs.childVisits s levels dir p child = fs.childVisits s' levels dir p child := by
      obtain ⟨name, e⟩ := child
      cases e with
      | directory => simp only [childVisits, hexcludes, ih]
      | file content => simp only [childVisits, hadmits]
      | link target => rfl
    rw [visitsBelow_succ, visitsBelow_succ, funext hchild]

/-- The order of the excluded names does not matter to a search, nor do
repetitions. -/
theorem sources_excluded {excluded : List String} (h : ∀ name, name ∈ excluded ↔ name ∈ s.excluded) :
    fs.sources { s with excluded } = fs.sources s := by
  have hexcludes (p : Path) : ({ s with excluded } : Search).excludes p = s.excludes p := by
    rw [Bool.eq_iff_iff]
    simp [Search.excludes, h]
  have hadmits (p : Path) : ({ s with excluded } : Search).admits p = s.admits p := by
    rw [Search.admits, Search.admits, hexcludes]
    rfl
  simp only [sources, visits, hexcludes, hadmits, visitsBelow_eq_of_admits hexcludes hadmits]

/-! ## Searches as filters of the tree -/

theorem IsSource.isPiece (h : fs.IsSource s dir names) (hfs : fs.WellFormed) :
    ∀ name ∈ names, IsPiece name := by
  obtain ⟨content, hfile⟩ := h.file
  unfold entry? at hfile
  split at hfile
  · cases hfile
  · exact fun name hm => hfs.named _ _ hfile name (List.mem_append_right _ hm)

/-- Files with different names on the way to them have different paths. -/
theorem below_injective {a b : List String} (ha : ∀ name ∈ a, IsPiece name) (hb : ∀ name ∈ b, IsPiece name)
    (h : p.below a = p.below b) : a = b := by
  have hcomponents := congrArg Path.components h
  rw [components_below ha, components_below hb, List.append_cancel_left_eq] at hcomponents
  exact List.map_injective_iff.mpr (fun _ _ => Path.Component.name.inj) hcomponents

/-- The first names come before the second, compared name by name and each by
its bytes. -/
def Before (a b : List String) : Prop :=
  a.map Text.bytes < b.map Text.bytes

/-- A search from a root that is a directory. If the paths of all directories
that it is to enter fit, it finds exactly the files that are searched for, each
once and in the order of the names on the way from the root, by their bytes.
Otherwise it fails at the first directory whose path does not fit. The excluded
names matter as a set, and the entries of the tree may have been created in any
order. -/
theorem sources_exact (hfs : fs.WellFormed) (hroot : fs.lookup .inspect s.root = .ok (dir, .directory)) :
    ((∀ names, fs.IsEntered s dir names → Fits (s.root.below names)) →
      ∃ found : List (List String), (fs.sources s).complete = .ok (found.map s.root.below) ∧
        (∀ names, names ∈ found ↔ fs.IsSource s dir names) ∧
        (∀ names ∈ found, (s.root.below names).components = s.root.components ++ names.map .name) ∧
        found.Pairwise Before ∧ (found.map s.root.below).Nodup) ∧
    (∀ names, fs.IsEntered s dir names → ¬Fits (s.root.below names) →
      ∃ first, fs.IsEntered s dir first ∧ ¬Fits (s.root.below first) ∧
        (fs.sources s).complete = .error ⟨s.root.below first, .nameTooLong⟩ ∧
        ∀ other, fs.IsEntered s dir other → ¬Fits (s.root.below other) →
          first = other ∨ Before first other) ∧
    (∀ excluded, (∀ name, name ∈ excluded ↔ name ∈ s.excluded) →
      fs.sources { s with excluded } = fs.sources s) ∧
    (∀ entries, fs.Lists entries → ((empty fs.current).createAll entries).sources s = fs.sources s) := by
  have hdir : fs.entry? dir = some .directory := hfs.entry?_of_lookup hroot
  refine ⟨fun hfits => ?_, fun names hentered hlong => ?_, fun excluded => sources_excluded,
    fun entries hentries => by rw [createAll_eq_of_lists hfs hentries]⟩
  · have hmem (names : List String) : names ∈ fs.stops s dir ↔ fs.IsSource s dir names :=
      mem_stops_iff_of_fits hdir hfits
    have hpieces (names : List String) (h : names ∈ fs.stops s dir) : ∀ name ∈ names, IsPiece name :=
      ((hmem names).mp h).isPiece hfs
    have hsorted := pairwise_stops fs s dir
    refine ⟨fs.stops s dir, complete_of_fits hroot hdir hfits, hmem,
      fun names h => components_below (hpieces names h) _, hsorted.imp Text.map_bytes_lt,
      List.Nodup.map_on (fun a ha b hb => below_injective (hpieces a ha) (hpieces b hb)) ?_⟩
    refine hsorted.imp fun {a b} hlt heq => ?_
    rw [heq, Std.compare_self] at hlt
    cases hlt
  · obtain ⟨first, hfirst, hlong, hcomplete, hleast⟩ := complete_of_not_fits hroot hdir hentered hlong
    exact ⟨first, hfirst, hlong, hcomplete, fun other hother hlong =>
      (hleast other hother hlong).imp_right Text.map_bytes_lt⟩

/-- Entries among which a search comes to `a/x.cs` before `a-b.cs`. -/
def mixedEntries : List (Path × Entry) :=
  [(⟨"src/a-b.cs"⟩, .file "y".toUTF8), (⟨"src/a/x.cs"⟩, .file "x".toUTF8),
    (⟨"src/bin/z.cs"⟩, .file "z".toUTF8), (⟨"src/l.cs"⟩, .link ⟨"a-b.cs"⟩)]

def mixedTree : FileSystem :=
  (ofEntries [] mixedEntries).toOption.getD (empty [])

/-- A search that leaves out a directory, spelled with a slash at its end. -/
def sourcesBesideBin : Search where
  root := ⟨"src/."⟩
  extension := "cs"
  excluded := ["bin/", "./obj", "bin/"]

/-- A tree with a link and an excluded directory. -/
theorem sources_exact_mixed : ofEntries [] mixedEntries = .ok mixedTree ∧ ∃ found : List (List String),
    (mixedTree.sources sourcesBesideBin).complete = .ok (found.map sourcesBesideBin.root.below) ∧
      (∀ names, names ∈ found ↔ mixedTree.IsSource sourcesBesideBin ["src"] names) ∧
      found.Pairwise Before := by
  have hmade : ofEntries [] mixedEntries = .ok mixedTree := by
    have hok : (ofEntries [] mixedEntries).toOption.isSome := by decide +kernel
    unfold mixedTree
    cases h : ofEntries [] mixedEntries with
    | error fault =>
      rw [h] at hok
      cases hok
    | ok fs => rfl
  have hfs : mixedTree.WellFormed := wellFormed_ofEntries (fun _ hm => absurd hm List.not_mem_nil) hmade
  have hdir : mixedTree.entry? ["src"] = some .directory := by decide +kernel
  have hroot : mixedTree.lookup .inspect sourcesBesideBin.root = .ok (["src"], .directory) := by
    have hcurrent : mixedTree.current = [] := by decide +kernel
    have hsegments : segments sourcesBesideBin.root = [.name "src", .here] := by decide
    refine lookup_eq_ok_iff.mpr (resolve_eq_ok_iff.mpr ⟨⟨by decide, by decide, by decide⟩, ?_⟩)
    rw [hsegments, hcurrent]
    exact .arrive (.enter ⟨by simp, by decide⟩ hdir (.here (.stop _)))
  have hcomplete : (mixedTree.sources sourcesBesideBin).complete =
      .ok [⟨"src/./a/x.cs"⟩, ⟨"src/./a-b.cs"⟩] := by decide +kernel
  obtain ⟨found, hfound, hmem, -, hsorted, -⟩ := (sources_exact hfs hroot).1 fun names =>
    fits_of_complete hroot hdir hcomplete
  exact ⟨hmade, found, hfound, hmem, hsorted⟩

/-! ## A root with a long path -/

/-- `src/` with some slashes behind it. -/
def padded : Nat → String
  | 0 => "src/"
  | n + 1 => padded n ++ "/"

theorem utf8ByteSize_padded (n : Nat) : (padded n).utf8ByteSize = n + 4 := by
  induction n with
  | zero => decide
  | succ n ih =>
    rw [padded, String.utf8ByteSize_append, ih, show "/".utf8ByteSize = 1 by decide]

theorem toList_padded (n : Nat) :
    (padded n).toList = ['s', 'r', 'c'] ++ List.replicate (n + 1) '/' := by
  induction n with
  | zero => decide
  | succ n ih =>
    rw [padded, String.toList_append, ih, List.append_assoc, show "/".toList = ['/'] by decide,
      ← List.replicate_succ']

theorem getLast?_padded (n : Nat) : (padded n).toList.getLast? = some '/' := by
  rw [toList_padded, List.replicate_succ', ← List.append_assoc, List.getLast?_concat]

theorem segments_padded (n : Nat) : segments ⟨padded n⟩ = [.name "src", .slash] := by
  have hsteps : steps ⟨padded n⟩ = [.name "src"] := by
    induction n with
    | zero => decide
    | succ n ih => rw [padded, steps_final_slash, ih]
  rw [segments_eq, hsteps, if_pos (getLast?_padded n)]
  rfl

/-- A search from a root with slashes behind it. -/
def paddedSearch (n : Nat) : Search where
  root := ⟨padded n⟩
  extension := "cs"
  excluded := []

/-- A file in a directory of the directory `src`. -/
def nested : FileSystem :=
  (empty []).create ["src", "m", "x.cs"] (.file "X".toUTF8)

theorem entry?_nested :
    nested.entry? ["src"] = some .directory ∧ nested.entry? ["src", "m"] = some .directory := by
  decide +kernel

theorem lookup_padded {n : Nat} (h : n + 4 ≤ pathLimit) :
    nested.lookup .inspect (paddedSearch n).root = .ok (["src"], .directory) := by
  refine lookup_eq_ok_iff.mpr (resolve_eq_ok_iff.mpr ⟨⟨?_, ?_, ?_⟩, ?_⟩)
  · simp [paddedSearch, toList_padded]
  · exact fun hempty => absurd (congrArg String.toList hempty) (by simp [paddedSearch, toList_padded])
  · rwa [paddedSearch, utf8ByteSize_padded]
  · have hstart : startOf (paddedSearch n).root nested.current = [] := ite_self _
    rw [hstart, paddedSearch, segments_padded]
    exact .arrive (.enter ⟨by simp, by decide⟩ entry?_nested.1 (.slash (.stop _)))

theorem isEntered_padded (n : Nat) : nested.IsEntered (paddedSearch n) ["src"] ["m"] := by
  have hspared (p : Path) : (paddedSearch n).Spares p := fun name hm => absurd hm List.not_mem_nil
  have hroot := isEntered_nil_iff.mpr ⟨entry?_nested.1, hspared _⟩
  exact isEntered_concat_iff.mpr ⟨hroot, entry?_nested.2, hspared _⟩

theorem not_fits_padded {n : Nat} (h : pathLimit ≤ n + 4) : ¬Fits ((paddedSearch n).root.below ["m"]) := by
  have hjoin : (paddedSearch n).root.below ["m"] = ⟨padded n ++ "m"⟩ := by
    change Path.join ⟨padded n⟩ ⟨"m"⟩ = _
    rw [Path.join, if_neg (by decide), if_pos (.inr (getLast?_padded n))]
  rw [hjoin, Fits, String.utf8ByteSize_append, utf8ByteSize_padded, show "m".utf8ByteSize = 1 by decide]
  omega

/-- A root can be looked up although the path of a directory in it is too long.
A search from it finds nothing. -/
theorem not_sources_exact : ¬∀ (fs : FileSystem) (s : Search) (dir : Location), fs.WellFormed →
    fs.lookup .inspect s.root = .ok (dir, .directory) →
      ∃ found : List (List String), (fs.sources s).complete = .ok (found.map s.root.below) ∧
        ∀ names, names ∈ found ↔ fs.IsSource s dir names := by
  intro h
  have hfs : nested.WellFormed := by decide +kernel
  have hroot := lookup_padded (n := 4091) (Nat.le_refl _)
  obtain ⟨found, hcomplete, -⟩ := h nested (paddedSearch 4091) ["src"] hfs hroot
  have hfits := fits_of_complete hroot entry?_nested.1 hcomplete (isEntered_padded 4091)
  exact not_fits_padded (Nat.le_refl _) hfits

end Amalgam.FileSystem
