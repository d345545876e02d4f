import Amalgam.Join.Delivery
import Amalgam.Proofs.FileSystem.Search
import Amalgam.Proofs.Join.Documents

/-!
# Whole runs

A run checks its settings, searches for the sources, joins them and writes the
document. All this is put together here (`run_eq_ok_iff`), and then a second
run is looked at, with the same settings and on the files that the first one
left behind. It finds the same sources with the same content, except that the
document itself may be one of them:

* `run_again`: a second run leaves the same document behind if and only if none
  of the sources that it finds is the output file, or all of them can be read
  and at most one of them is not blank.
-/

namespace Amalgam

/-! ## Settings that fit -/

namespace Settings

variable {fs : FileSystem} {settings : Settings} {l : Location}

theorem validate_eq_ok_iff : settings.validate fs = .ok () ↔
    (∃ dir, fs.lookup .follow settings.input = .ok (dir, .directory)) ∧
      ∀ output, settings.output? = some output → output.extension?.getD "" = settings.extension := by
  unfold validate FileSystem.hasEntry FileSystem.isDirectory
  rcases fs.lookup .follow settings.input with fault | ⟨dir, e⟩
  · simp [Except.isOk, Except.toBool]
  · cases e with
    | directory =>
      cases settings.output? with
      | none => simp [Except.isOk, Except.toBool]
      | some output => simp [Except.isOk, Except.toBool]
    | file content => simp [Except.isOk, Except.toBool]
    | link target => simp [Except.isOk, Except.toBool]

/-- Settings that fit still do after a write. -/
theorem validate_put (h : fs.Writable l) (content : ByteArray) (hv : settings.validate fs = .ok ()) :
    settings.validate (fs.put l (.file content)) = .ok () := by
  obtain ⟨⟨dir, hdir⟩, hext⟩ := validate_eq_ok_iff.mp hv
  have hafter := FileSystem.lookup_put h content hdir
  simp only [Entry.withContent, ite_self] at hafter
  exact validate_eq_ok_iff.mpr ⟨⟨dir, hafter⟩, hext⟩

end Settings

namespace Join

open Assembler (concatenation)
open Document (assemble bodies)

variable {σ : Type} {fs : FileSystem} {settings : Settings} {assembler : Assembler σ}
  {document : String} {output path : Path} {paths : List Path} {l : Location}
  {symbols : Symbols} {strict : Bool} {texts : List String}

/-! ## From settings to files -/

/-- A folder is joined if the settings fit, the search is complete and the
sources are joined. -/
theorem result_joinFolder_eq_ok_iff :
    (joinFolder fs settings assembler).result assembler = .ok document ↔
      settings.validate fs = .ok () ∧ ∃ paths, (fs.sources settings.search).complete = .ok paths ∧
        (joinSources fs settings.symbols settings.strict assembler paths).result assembler =
          .ok document := by
  unfold joinFolder findSources
  cases settings.validate fs with
  | error failure => simp [Joined.result]
  | ok _ =>
    cases hpaths : (fs.sources settings.search).complete with
    | error fault => simp [hpaths, Joined.result, Except.mapError]
    | ok paths => simp [hpaths, Joined.result, Except.mapError]

theorem deliver_of_writesTo (h : fs.WritesTo output l) (document : String) :
    (deliver fs (some output) document).result = .ok () ∧
      (deliver fs (some output) document).files = fs.put l (.file document.toUTF8) := by
  have hwrite : fs.write output document.toUTF8 = .ok (fs.put l (.file document.toUTF8)) :=
    FileSystem.write_eq_ok_iff.mpr ⟨l, h, rfl⟩
  simp only [deliver, hwrite, and_self]

/-- A run that joins the folder puts the document where a write to the output
file goes. -/
theorem run_of_joinFolder (hout : settings.output? = some output)
    (hdoc : (joinFolder fs settings concatenation).result concatenation = .ok document)
    (hl : fs.WritesTo output l) :
    (run fs settings).result = .ok () ∧ (run fs settings).files = fs.put l (.file document.toUTF8) := by
  obtain ⟨hresult, hfiles⟩ := deliver_of_writesTo hl document
  simp only [run, hdoc, hout, hresult, hfiles, and_self]

/-- A run with an output file succeeds if the folder can be joined and the file
can be written. -/
theorem run_eq_ok_iff (hout : settings.output? = some output) : (run fs settings).result = .ok () ↔
    ∃ document l, (joinFolder fs settings concatenation).result concatenation = .ok document ∧
      fs.WritesTo output l := by
  constructor
  · intro h
    cases hdoc : (joinFolder fs settings concatenation).result concatenation with
    | error failure => simp [run, hdoc] at h
    | ok document =>
      cases hwrite : fs.write output document.toUTF8 with
      | error fault =>
        simp only [run, hdoc, hout, deliver, hwrite] at h
        cases h
      | ok files =>
        obtain ⟨l, hl, -⟩ := FileSystem.write_eq_ok_iff.mp hwrite
        exact ⟨document, l, rfl, hl⟩
  · rintro ⟨document, l, hdoc, hl⟩
    exact (run_of_joinFolder hout hdoc hl).1

theorem read_output (hout : settings.output? = some output)
    (hdoc : (joinFolder fs settings concatenation).result concatenation = .ok document)
    (hl : fs.WritesTo output l) : (run fs settings).files.read output = .ok document.toUTF8 := by
  rw [(run_of_joinFolder hout hdoc hl).2]
  exact FileSystem.read_of_write (FileSystem.write_eq_ok_iff.mpr ⟨l, hl, rfl⟩)

/-! ## Sources that contribute -/

/-- Whether a source has a selected line that is not blank. -/
def contributes (fs : FileSystem) (symbols : Symbols) (strict : Bool) (path : Path) : Bool :=
  match (processFile fs symbols strict path).result with
  | .ok text => !Text.isBlank text
  | .error _ => false

/-- The bodies of a document are those of the sources that contribute. -/
theorem Processed.length_bodies (hp : Processed fs symbols strict paths texts) :
    (bodies texts).length = paths.countP (contributes fs symbols strict) := by
  rw [Document.length_bodies]
  induction hp with
  | nil => rfl
  | @cons path text paths texts hfirst _ ih =>
    rw [List.countP_cons, List.countP_cons, ih]
    simp only [contributes, hfirst]

/-! ## Sources after a document was written -/

section Again

variable (hjoin : (joinSources fs symbols strict concatenation paths).result concatenation = .ok document)
  (hw : fs.Writable l) {after : FileSystem} (hafter : after = fs.put l (.file document.toUTF8))

include hjoin hw hafter

/-- The file that holds the document gives the document, if it can be read. -/
theorem processFile_of_leadsTo (hlead : after.LeadsTo path l) (hread : (after.readText path).isOk) :
    (processFile after symbols strict path).result = .ok (Text.chomp document) := by
  have hentry : after.entry? l = some (.file document.toUTF8) := by
    rw [hafter]
    exact FileSystem.entry?_put_self hw.ne_root
  exact processFile_document hjoin (hlead.readText_eq hentry hread) symbols strict

/-- Every other source gives what it gave before. -/
theorem processFile_of_not_leadsTo (hm : path ∈ paths) (hlead : ¬after.LeadsTo path l) :
    (processFile after symbols strict path).result = (processFile fs symbols strict path).result := by
  obtain ⟨texts, hp, -⟩ := result_concatenation_eq_ok_iff.mp hjoin
  obtain ⟨text, -, hresult⟩ := hp.exists_text hm
  obtain ⟨source, hread, -⟩ := processFile_eq_ok_iff.mp hresult
  subst hafter
  rw [processFile_congr ((FileSystem.readText_put_of_not_leadsTo hw hread hlead).trans hread.symm)]

/-- If the document is among the sources, it is joined again exactly if at most
one source contributes. -/
theorem assemble_again_iff {paths' : List Path} {texts' : List String} {self : Path}
    (hgains : Gains (fun path => after.LeadsTo path l) paths paths')
    (hself : self ∈ paths') (hlead : after.LeadsTo self l)
    (hp : Processed after symbols strict paths' texts') :
    assemble (bodies texts') = document ↔ paths'.countP (contributes after symbols strict) ≤ 1 := by
  obtain ⟨texts, hbefore, hdoc⟩ := result_concatenation_eq_ok_iff.mp hjoin
  have hmem : Text.chomp document ∈ texts' := by
    obtain ⟨text, htext, hresult⟩ := hp.exists_text hself
    rw [processFile_of_leadsTo hjoin hw hafter hlead (hp.readable hself), Except.ok.injEq] at hresult
    rwa [hresult]
  -- an empty document stems from blank sources, which stay blank
  have hempty : bodies texts = [] → bodies texts' = [] := by
    intro hnil
    refine Document.bodies_eq_nil_iff.mpr fun text htext => ?_
    obtain ⟨path, hpath, hresult⟩ := hp.exists_path htext
    by_cases hl : after.LeadsTo path l
    · rw [processFile_of_leadsTo hjoin hw hafter hl (hp.readable hpath), Except.ok.injEq] at hresult
      rw [← hresult, hdoc, hnil]
      decide
    · have hold := (hgains.mem_or path hpath).resolve_right hl
      rw [processFile_of_not_leadsTo hjoin hw hafter hold hl] at hresult
      obtain ⟨text', htext', hresult'⟩ := hbefore.exists_text hold
      rw [hresult, Except.ok.injEq] at hresult'
      exact Document.bodies_eq_nil_iff.mp hnil text (hresult' ▸ htext')
  rw [← hp.length_bodies]
  subst hdoc
  exact Document.assemble_bodies_eq_iff (fun body hbody => Document.isBody_of_mem_bodies hbody) hmem hempty

/-- The sources that are found again give the same document exactly if none of
them holds the document, or if all of them can be read and at most one of them
contributes. -/
theorem joinSources_again_iff {paths' : List Path}
    (hgains : Gains (fun path => after.LeadsTo path l) paths paths') :
    (joinSources after symbols strict concatenation paths').result concatenation = .ok document ↔
      (∀ path ∈ paths', ¬after.LeadsTo path l) ∨
      (∀ path ∈ paths', (after.readText path).isOk) ∧
        paths'.countP (contributes after symbols strict) ≤ 1 := by
  by_cases hself : ∀ path ∈ paths', ¬after.LeadsTo path l
  · -- the same sources, with the same content
    obtain rfl := hgains.eq_of_forall_not hself
    obtain ⟨texts, hp, hdoc⟩ := result_concatenation_eq_ok_iff.mp hjoin
    refine ⟨fun _ => .inl hself, fun _ => result_concatenation_eq_ok_iff.mpr ⟨texts, ?_, hdoc⟩⟩
    rw [processed_iff_map_eq] at hp ⊢
    rw [← hp]
    exact List.map_congr_left fun path hm =>
      processFile_of_not_leadsTo hjoin hw hafter hm (hself path hm)
  · rw [or_iff_right hself]
    push Not at hself
    obtain ⟨self, hm, hlead⟩ := hself
    rw [result_concatenation_eq_ok_iff]
    constructor
    · rintro ⟨texts', hp, hdoc⟩
      exact ⟨fun path hpath => hp.readable hpath,
        (assemble_again_iff hjoin hw hafter hgains hm hlead hp).mp hdoc.symm⟩
    · rintro ⟨hread, hcount⟩
      obtain ⟨texts, hbefore, -⟩ := result_concatenation_eq_ok_iff.mp hjoin
      have hall : ∀ path ∈ paths', ∃ text, (processFile after symbols strict path).result = .ok text := by
        intro path hpath
        by_cases hl : after.LeadsTo path l
        · exact ⟨_, processFile_of_leadsTo hjoin hw hafter hl (hread path hpath)⟩
        · have hold := (hgains.mem_or path hpath).resolve_right hl
          obtain ⟨text, -, hresult⟩ := hbefore.exists_text hold
          exact ⟨text, (processFile_of_not_leadsTo hjoin hw hafter hold hl).trans hresult⟩
      obtain ⟨texts', hp⟩ := exists_processed hall
      exact ⟨texts', hp, ((assemble_again_iff hjoin hw hafter hgains hm hlead hp).mpr hcount).symm⟩

end Again

/-! ## A second run -/

/-- A second run succeeds and leaves the output file as it is exactly if it
joins the same document. -/
theorem run_again_iff_joinFolder (hout : settings.output? = some output) (hl : fs.WritesTo output l)
    {after : FileSystem} (hafter : after = fs.put l (.file document.toUTF8)) :
    ((run after settings).result = .ok () ∧ (run after settings).files.read output = after.read output) ↔
      (joinFolder after settings concatenation).result concatenation = .ok document := by
  have hread : after.read output = .ok document.toUTF8 :=
    FileSystem.read_of_write (FileSystem.write_eq_ok_iff.mpr ⟨l, hl, hafter⟩)
  constructor
  · rintro ⟨hresult, hsame⟩
    obtain ⟨document', l', hdoc, hl'⟩ := (run_eq_ok_iff hout).mp hresult
    rw [read_output hout hdoc hl', hread, Except.ok.injEq, String.toUTF8_eq_toByteArray,
      String.toUTF8_eq_toByteArray, String.toByteArray_inj] at hsame
    rw [hdoc, hsame]
  · intro hdoc
    have hagain : after.WritesTo output l := hafter ▸ hl.put document.toUTF8
    exact ⟨(run_of_joinFolder hout hdoc hagain).1, by rw [read_output hout hdoc hagain, hread]⟩

/-- A run that succeeded is repeated with the same settings on the files that
it left behind. The second run succeeds and leaves the same document in the
output file if and only if no source that it finds is the output file, or all
sources that it finds can be read and at most one of them has a selected line
that is not blank. The names on the way to the current directory have to be
ones that entries can have. -/
theorem run_again (hcurrent : FileSystem.Named fs.current) (hout : settings.output? = some output)
    (hrun : (run fs settings).result = .ok ()) :
    let after := (run fs settings).files
    let found := (after.sources settings.search).paths
    ((run after settings).result = .ok () ∧
        (run after settings).files.read output = after.read output) ↔
      (∀ path ∈ found, ¬after.SameFile path output) ∨
      (∀ path ∈ found, (after.readText path).isOk) ∧
        found.countP (contributes after settings.symbols settings.strict) ≤ 1 := by
  intro after found
  obtain ⟨document, l, hdoc, hl⟩ := (run_eq_ok_iff hout).mp hrun
  obtain ⟨hvalid, paths, hpaths, hjoin⟩ := result_joinFolder_eq_ok_iff.mp hdoc
  have hafter : after = fs.put l (.file document.toUTF8) := (run_of_joinFolder hout hdoc hl).2
  obtain ⟨paths', hpaths', hgains⟩ :=
    FileSystem.sources_put hl.writable (hl.named hcurrent) document.toUTF8 hpaths
  rw [← hafter] at hpaths' hgains
  have hfound : found = paths' := FileSystem.paths_of_complete hpaths'
  have hsame (path : Path) : after.SameFile path output ↔ after.LeadsTo path l := by
    have hself : after.LeadsTo output l :=
      FileSystem.leadsTo_of_lookup (hafter ▸ hl.lookup_put document.toUTF8)
    exact ⟨fun ⟨m, hm, ho⟩ => ho.unique hself ▸ hm, fun hm => ⟨l, hm, hself⟩⟩
  have hfolder : (joinFolder after settings concatenation).result concatenation = .ok document ↔
      (joinSources after settings.symbols settings.strict concatenation paths').result concatenation =
        .ok document := by
    have hvalid' : settings.validate after = .ok () :=
      hafter ▸ Settings.validate_put hl.writable document.toUTF8 hvalid
    simp only [result_joinFolder_eq_ok_iff, hvalid', hpaths', Except.ok.injEq, exists_eq_left', true_and]
  rw [run_again_iff_joinFolder hout hl hafter, hfolder,
    joinSources_again_iff hjoin hl.writable hafter hgains, hfound]
  simp only [hsame]

/-- Two sources in a folder. -/
def twoSources : FileSystem :=
  FileSystem.empty []
    |>.create ["src", "a.cs"] (.file "x".toUTF8)
    |>.create ["src", "b.cs"] (.file "y".toUTF8)

/-- Settings that join the folder into the given file. -/
def joinInto (output : Path) : Settings where
  input := ⟨"src"⟩
  output? := some output

/-- A document that is written outside the folder stays as it is. -/
theorem run_again_outside :
    let after := (run twoSources (joinInto ⟨"merged.cs"⟩)).files
    (run after (joinInto ⟨"merged.cs"⟩)).result = .ok () ∧
      (run after (joinInto ⟨"merged.cs"⟩)).files.read ⟨"merged.cs"⟩ = after.read ⟨"merged.cs"⟩ :=
  (run_again (fun _ hm => absurd hm List.not_mem_nil) rfl (by decide +kernel)).mpr
    (.inl (by decide +kernel))

/-- A document that is written into the folder is joined with its own sources
by a second run. -/
theorem not_run_again : ¬∀ (fs : FileSystem) (settings : Settings) (output : Path),
    FileSystem.Named fs.current → settings.output? = some output →
    (run fs settings).result = .ok () →
      (run (run fs settings).files settings).result = .ok () ∧
      (run (run fs settings).files settings).files.read output = (run fs settings).files.read output := by
  intro h
  have hagain := h twoSources (joinInto ⟨"src/c.cs"⟩) ⟨"src/c.cs"⟩
    (fun _ hm => absurd hm List.not_mem_nil) rfl (by decide +kernel)
  exact absurd hagain.2 (by decide +kernel)

end Join

end Amalgam
