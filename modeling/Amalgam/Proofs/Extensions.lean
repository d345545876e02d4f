import Amalgam.Proofs.Join.Runs
import Amalgam.Proofs.Text.Pieces

/-!
# Extensions

An extension is looked at in two places: a search takes the files that carry
it, and settings want the output to carry it. What a name has to look like for
that is told here without cutting it:

* `Path.extension?_eq_some_iff`: which extension a path has;
* `Path.extension?_eq_none_iff`: which paths have none;
* `Settings.validate_eq_ok_iff_carriesExtension`: where the two places agree.
  They do unless the extension is empty and the output has none: settings take
  a missing extension for an empty one, a search does not.
-/

namespace Amalgam

namespace Path

variable {name ext : String} {p : Path}

/-! ## Extensions of names -/

/-- A name has an extension if something stands before its last dot; what
stands behind that dot is the extension. -/
theorem extensionOfName?_eq_some_iff : extensionOfName? name = some ext ↔
    ∃ stem, stem ≠ "" ∧ '.' ∉ ext.toList ∧ name = stem ++ "." ++ ext := by
  -- Read from its end, the name is cut at the first dot.
  have hcut (stem : String) (hext : '.' ∉ ext.toList) : name = stem ++ "." ++ ext ↔
      name.toList.reverse.takeWhile (· ≠ '.') = ext.toList.reverse ∧
        (name.toList.reverse.dropWhile (· ≠ '.')).tail? = some stem.toList.reverse := by
    rw [← Text.append_cons_eq_iff (by simpa using hext), ← String.toList_inj, ← List.reverse_inj]
    simp [eq_comm]
  simp only [extensionOfName?]
  constructor
  · split
    next c back hdrop =>
      intro h
      obtain rfl := Option.some.inj h
      have hext : '.' ∉ (String.ofList (name.toList.reverse.takeWhile (· ≠ '.')).reverse).toList := by
        rw [String.toList_ofList, List.mem_reverse]
        exact fun hm => absurd (List.mem_takeWhile_imp hm) (by simp)
      refine ⟨String.ofList (c :: back).reverse, by simp, hext, (hcut _ hext).mpr ⟨?_, ?_⟩⟩
      · rw [String.toList_ofList, List.reverse_reverse]
      · rw [hdrop, String.toList_ofList, List.reverse_reverse, List.tail?_cons]
    next =>
      intro h
      cases h
  · rintro ⟨stem, hstem, hext, hname⟩
    obtain ⟨hfront, hback⟩ := (hcut stem hext).mp hname
    split
    next => rw [hfront, List.reverse_reverse, String.ofList_toList]
    next hshort =>
      cases hdrop : name.toList.reverse.dropWhile (· ≠ '.') with
      | nil =>
        rw [hdrop] at hback
        cases hback
      | cons dot back =>
        rw [hdrop, List.tail?_cons, Option.some.injEq] at hback
        have hne : stem.toList.reverse ≠ [] := by simpa using hstem
        obtain ⟨c, front, hfront⟩ := List.exists_cons_of_ne_nil hne
        exact (hshort dot c front (by rw [hdrop, hback, hfront])).elim

/-- A name has no extension if no dot stands behind its first character. -/
theorem extensionOfName?_eq_none_iff : extensionOfName? name = none ↔ '.' ∉ name.toList.tail := by
  rw [← not_iff_not, not_not, ← ne_eq, Option.ne_none_iff_exists']
  simp only [extensionOfName?_eq_some_iff]
  constructor
  · rintro ⟨ext, stem, hstem, -, rfl⟩
    obtain ⟨c, cs, hcs⟩ := List.exists_cons_of_ne_nil (l := stem.toList) (by simpa using hstem)
    simp [hcs]
  · intro h
    obtain ⟨c, cs, hname⟩ := List.exists_cons_of_ne_nil (l := name.toList) fun hnil => by simp [hnil] at h
    rw [hname, List.tail_cons] at h
    -- The last dot is the first one from the end.
    obtain ⟨back, front, hcs, hdot⟩ := List.eq_append_cons_of_mem (List.mem_reverse.mpr h)
    refine ⟨String.ofList back.reverse, String.ofList (c :: front.reverse), by simp, by simpa using hdot, ?_⟩
    rw [← String.toList_inj, hname, ← List.reverse_reverse cs, hcs]
    simp

/-! ## Extensions of paths -/

/-- The last component of the path is a name that ends in the extension, behind
a dot and something before that dot. An extension that holds a dot ends no
name. -/
def EndsIn (p : Path) (ext : String) : Prop :=
  ∃ stem, stem ≠ "" ∧ '.' ∉ ext.toList ∧ p.fileName? = some (stem ++ "." ++ ext)

/-- The last component of the path is not a name, or a name with no dot behind
its first character. -/
def Bare (p : Path) : Prop :=
  ∀ name, p.fileName? = some name → '.' ∉ name.toList.tail

theorem extension?_eq_some_iff : p.extension? = some ext ↔ p.EndsIn ext := by
  simp only [extension?, Option.bind_eq_some_iff, extensionOfName?_eq_some_iff, EndsIn]
  constructor
  · rintro ⟨name, hname, stem, hstem, hext, rfl⟩
    exact ⟨stem, hstem, hext, hname⟩
  · rintro ⟨stem, hstem, hext, hname⟩
    exact ⟨_, hname, stem, hstem, hext, rfl⟩

theorem extension?_eq_none_iff : p.extension? = none ↔ p.Bare := by
  simp only [extension?, Option.bind_eq_none_iff, extensionOfName?_eq_none_iff, Bare]

theorem EndsIn.not_bare (h : p.EndsIn ext) : ¬p.Bare := by
  rw [← extension?_eq_none_iff, extension?_eq_some_iff.mpr h]
  exact Option.some_ne_none ext

end Path

/-! ## The two checks -/

theorem Search.carriesExtension_iff {s : Search} {p : Path} :
    s.carriesExtension p ↔ p.EndsIn s.extension := by
  rw [← Path.extension?_eq_some_iff, carriesExtension, decide_eq_true_iff]

/-- Where nothing is excluded, a search of a file finds it if it carries the
extension. -/
theorem FileSystem.complete_sources_file {fs : FileSystem} {s : Search} {l : Location} {content : ByteArray}
    (h : fs.lookup .inspect s.root = .ok (l, .file content)) (hnone : s.excluded = []) :
    (fs.sources s).complete = .ok (if s.carriesExtension s.root then [s.root] else []) := by
  have hadmits : s.admits s.root = s.carriesExtension s.root := by
    simp [Search.admits, Search.excludes, hnone]
  simp only [sources, visits, h, hadmits]
  split <;> rfl

theorem FileSystem.isDirectory_iff {fs : FileSystem} {p : Path} :
    fs.isDirectory p ↔ ∃ dir, fs.lookup .follow p = .ok (dir, .directory) := by
  unfold isDirectory
  rcases fs.lookup .follow p with fault | ⟨dir, e⟩
  · simp
  · cases e <;> simp

namespace Settings

variable {fs : FileSystem} {s : Settings} {p : Path}

/-- Settings for a folder accept an output that ends in the extension, and for
the empty extension also one that has none. -/
theorem validate_eq_ok_iff_endsIn (hinput : fs.isDirectory s.input) (houtput : s.output? = some p) :
    s.validate fs = .ok () ↔ p.EndsIn s.extension ∨ s.extension = "" ∧ p.Bare := by
  rw [validate_eq_ok_iff, and_iff_right (FileSystem.isDirectory_iff.mp hinput), houtput]
  simp only [Option.some.injEq, forall_eq', Option.getD_eq_iff, Path.extension?_eq_some_iff,
    Path.extension?_eq_none_iff]
  rw [eq_comm (a := ""), and_comm (b := s.extension = "")]

/-- The two checks of an extension. Settings for a folder accept an output
exactly where a search takes a file with that path, unless the extension is
empty and the output has none: they accept it, and no search takes such a file.

Paths are texts here. An output whose name is not UTF-8 is outside of this: shown
as a text, its extension has U+FFFD in the place of what cannot be read, so
settings would take it for an extension with that character, and no search
would. -/
theorem validate_eq_ok_iff_carriesExtension (hinput : fs.isDirectory s.input) (houtput : s.output? = some p) :
    ((s.validate fs = .ok () ↔ s.search.carriesExtension p) ↔ ¬(s.extension = "" ∧ p.Bare)) ∧
    (s.validate fs = .ok () ↔ p.EndsIn s.extension ∨ s.extension = "" ∧ p.Bare) ∧
    (s.search.carriesExtension p ↔ p.EndsIn s.extension) ∧
    ∀ (there : FileSystem) (l : Location) (content : ByteArray),
      there.lookup .inspect p = .ok (l, .file content) →
      (there.sources { root := p, extension := s.extension, excluded := [] }).complete =
        .ok (if s.search.carriesExtension p then [p] else []) := by
  have haccepts := validate_eq_ok_iff_endsIn hinput houtput
  have hcarries : s.search.carriesExtension p ↔ p.EndsIn s.extension := Search.carriesExtension_iff
  refine ⟨?_, haccepts, hcarries, fun there l content hfile => ?_⟩
  · rw [haccepts, hcarries, or_iff_left_iff_imp]
    exact ⟨fun himp hbare => (himp hbare).not_bare hbare.2, fun hnot hbare => absurd hbare hnot⟩
  · exact FileSystem.complete_sources_file (s := ⟨p, s.extension, []⟩) hfile rfl

/-- A folder for sources, and a file whose name ends in a dot. -/
def dottedFiles : FileSystem :=
  FileSystem.empty []
    |>.create ["src"] .directory
    |>.create ["lib.cs."] (.file "x".toUTF8)

/-- Settings with the empty extension and the given output. -/
def withoutExtension (output : Path) : Settings :=
  { input := ⟨"src"⟩, output? := some output, extension := "" }

/-- Behind a final dot stands the empty extension: the output is accepted, and
a search takes the file. -/
theorem validate_eq_ok_iff_carriesExtension_dotted :
    dottedFiles.isDirectory ⟨"src"⟩ ∧ (withoutExtension ⟨"lib.cs."⟩).output? = some ⟨"lib.cs."⟩ ∧
    (withoutExtension ⟨"lib.cs."⟩).validate dottedFiles = .ok () ∧
    (dottedFiles.sources { root := ⟨"lib.cs."⟩, extension := "", excluded := [] }).complete =
      .ok [⟨"lib.cs."⟩] := by
  have hinput : dottedFiles.isDirectory ⟨"src"⟩ := by decide +kernel
  have hends : (Path.mk "lib.cs.").EndsIn "" := ⟨"lib.cs", by decide, by decide, by decide +kernel⟩
  obtain ⟨hagree, -, hcarries, hsearch⟩ :=
    validate_eq_ok_iff_carriesExtension (s := withoutExtension ⟨"lib.cs."⟩) hinput rfl
  refine ⟨hinput, rfl, (hagree.mpr fun hbare => hends.not_bare hbare.2).mpr (hcarries.mpr hends), ?_⟩
  have hfound := hsearch dottedFiles ["lib.cs."] "x".toUTF8 rfl
  rwa [if_pos (hcarries.mpr hends)] at hfound

/-- An output without extension is accepted for the empty one, and a search
takes no such file. -/
theorem not_validate_eq_ok_iff_carriesExtension :
    ¬∀ (fs : FileSystem) (s : Settings) (p : Path), fs.isDirectory s.input → s.output? = some p →
      (s.validate fs = .ok () ↔ s.search.carriesExtension p) := by
  intro h
  have hagree := h dottedFiles (withoutExtension ⟨"out"⟩) ⟨"out"⟩ (by decide +kernel) rfl
  have haccepts : (withoutExtension ⟨"out"⟩).validate dottedFiles = .ok () := by decide +kernel
  exact absurd (hagree.mp haccepts) (by decide +kernel)

end Settings

end Amalgam
