import Amalgam.Program
import Amalgam.Proofs.Join.Runs
import Amalgam.Proofs.Join.Warnings

/-!
# What a run leaves behind

A run passes four stages: it checks its settings, searches for the sources,
takes the sources one after the other, and delivers the document. Only the last
one writes, and it writes once, so a run leaves everything as it was unless it
succeeds.

* `run_eq_error_iff`: the stage at which a run fails, and what the stages
  before it gave;
* `Replaced`, `replaced_of_write`: a write changes the one file that its path
  denotes;
* `Log.text_append_eq_iff`: when a log leaves a text behind it alone;
* `run_all_or_nothing`: what a run leaves of the files, prints and returns,
  whether it fails or not.
-/

namespace Amalgam

namespace FileSystem

/-- The file that the path denotes has been given the content, or has been made
with it, and nothing else has changed. -/
structure Replaced (fs : FileSystem) (p : Path) (content : ByteArray) (after : FileSystem)
    (l : Location) : Prop where
  /-- A write to the path went there, where nothing or a file stood. -/
  writesTo : fs.WritesTo p l
  leadsTo : after.LeadsTo p l
  read : after.read p = .ok content
  entry : after.entry? l = some (.file content)
  others : ∀ m, m ≠ l → after.entry? m = fs.entry? m
  current : after.current = fs.current

theorem replaced_of_write {fs after : FileSystem} {p : Path} {content : ByteArray}
    (h : fs.write p content = .ok after) : ∃ l, fs.Replaced p content after l := by
  have hread := read_of_write h
  obtain ⟨l, hl, rfl⟩ := write_eq_ok_iff.mp h
  exact ⟨l, hl, leadsTo_of_lookup (hl.lookup_put content), hread, entry?_put_self hl.writable.ne_root,
    fun m hm => entry?_put_of_ne hm, rfl⟩

end FileSystem

namespace Join

open Assembler (concatenation)

variable {σ : Type} {fs : FileSystem} {settings : Settings} {assembler : Assembler σ} {failure : Failure}
  {symbols : Symbols} {strict : Bool} {paths : List Path} {document : String}

/-! ## Where a run fails -/

/-- The join of the sources fails at the first that is not processed. -/
inductive FailsAt (fs : FileSystem) (symbols : Symbols) (strict : Bool) (failure : Failure) :
    List Path → Prop
  | source {done later : List Path} {bad : Path} {texts : List String} :
    Processed fs symbols strict done texts → (processFile fs symbols strict bad).result = .error failure →
    FailsAt fs symbols strict failure (done ++ bad :: later)

/-- The stage at which a run fails, with what the stages before it gave. -/
inductive Fails (fs : FileSystem) (settings : Settings) : Failure → Prop
  | settings {failure : Failure} : settings.validate fs = .error failure → Fails fs settings failure
  | search {fault : SearchFault} : settings.validate fs = .ok () →
    (fs.sources settings.search).complete = .error fault → Fails fs settings (.search fault)
  | source {failure : Failure} {paths : List Path} : settings.validate fs = .ok () →
    (fs.sources settings.search).complete = .ok paths →
    FailsAt fs settings.symbols settings.strict failure paths → Fails fs settings failure
  | output {document : String} {output : Path} {fault : FileSystem.Fault} :
    (joinFolder fs settings concatenation).result concatenation = .ok document →
    settings.output? = some output → fs.write output document.toUTF8 = .error fault →
    Fails fs settings (.io output fault)

theorem result_joinSources_eq_error_iff (assembler : Assembler σ) :
    (joinSources fs symbols strict assembler paths).result assembler = .error failure ↔
      FailsAt fs symbols strict failure paths := by
  constructor
  · intro h
    obtain ⟨done, texts, hdone, rfl | ⟨bad, later, failure', rfl, hbad⟩⟩ :=
      exists_processed_prefix fs symbols strict paths
    · rw [result_of_goesOn (joinSources_of_processed assembler hdone).1] at h
      cases h
    · rw [result_of_failure (joinSources_of_failed assembler hdone hbad later).1] at h
      cases h
      exact .source hdone hbad
  · rintro ⟨hdone, hbad⟩
    exact result_of_failure (joinSources_of_failed assembler hdone hbad _).1

theorem result_joinFolder_eq_error_iff :
    (joinFolder fs settings assembler).result assembler = .error failure ↔
      settings.validate fs = .error failure ∨ settings.validate fs = .ok () ∧
        ((∃ fault, (fs.sources settings.search).complete = .error fault ∧ failure = .search fault) ∨
          ∃ paths, (fs.sources settings.search).complete = .ok paths ∧
            FailsAt fs settings.symbols settings.strict failure paths) := by
  simp only [← result_joinSources_eq_error_iff assembler]
  unfold joinFolder findSources
  cases settings.validate fs with
  | error failure' => simp [Joined.result]
  | ok _ =>
    cases hpaths : (fs.sources settings.search).complete with
    | error fault => simp [hpaths, Joined.result, Except.mapError, eq_comm]
    | ok paths => simp [hpaths, Joined.result, Except.mapError]

/-! ## Both endings of a run -/

/-- The document cannot be written to the output file, or it is printed or
written. -/
theorem deliver_cases (fs : FileSystem) (output? : Option Path) (document : String) :
    (∃ output fault, output? = some output ∧ fs.write output document.toUTF8 = .error fault) ∨
    (deliver fs output? document).result = .ok () ∧
      (output? = none → (deliver fs output? document).files = fs ∧
        (deliver fs output? document).stdout = document) ∧
      ∀ output, output? = some output → (deliver fs output? document).stdout = "" ∧
        ∃ l, fs.Replaced output document.toUTF8 (deliver fs output? document).files l := by
  cases output? with
  | none => exact .inr ⟨rfl, fun _ => ⟨rfl, rfl⟩, fun output h => by cases h⟩
  | some output =>
    cases hwrite : fs.write output document.toUTF8 with
    | error fault => exact .inl ⟨output, fault, rfl, hwrite⟩
    | ok files =>
      refine .inr ?_
      simp only [deliver, hwrite, reduceCtorEq, false_implies, true_and, Option.some.injEq]
      rintro _ rfl
      exact FileSystem.replaced_of_write hwrite

theorem run_of_joinFolder_error
    (h : (joinFolder fs settings concatenation).result concatenation = .error failure) :
    (run fs settings).result = .error failure ∧ (run fs settings).files = fs ∧
      (run fs settings).stdout = "" := by
  simp only [run, h, and_self]

theorem run_of_joinFolder_ok
    (h : (joinFolder fs settings concatenation).result concatenation = .ok document) :
    (run fs settings).result = (deliver fs settings.output? document).result ∧
      (run fs settings).files = (deliver fs settings.output? document).files ∧
      (run fs settings).stdout = (deliver fs settings.output? document).stdout := by
  simp only [run, h, and_self]

/-- Whatever the stage at which a run fails, it has written nothing. -/
theorem Fails.run_eq (h : Fails fs settings failure) : (run fs settings).result = .error failure ∧
    (run fs settings).files = fs ∧ (run fs settings).stdout = "" := by
  cases h with
  | settings hv => exact run_of_joinFolder_error (result_joinFolder_eq_error_iff.mpr (.inl hv))
  | search hv hs =>
    exact run_of_joinFolder_error (result_joinFolder_eq_error_iff.mpr (.inr ⟨hv, .inl ⟨_, hs, rfl⟩⟩))
  | source hv hs hat =>
    exact run_of_joinFolder_error (result_joinFolder_eq_error_iff.mpr (.inr ⟨hv, .inr ⟨_, hs, hat⟩⟩))
  | output hdoc hout hwrite =>
    obtain ⟨hresult, hfiles, hstdout⟩ := run_of_joinFolder_ok hdoc
    rw [hresult, hfiles, hstdout, hout]
    simp only [deliver, hwrite, and_self]

/-- A run fails at one of its stages, or it delivers the document that it has
joined. -/
theorem run_cases (fs : FileSystem) (settings : Settings) :
    (∃ failure, Fails fs settings failure) ∨
    ∃ document, (joinFolder fs settings concatenation).result concatenation = .ok document ∧
      (run fs settings).result = .ok () ∧
      (settings.output? = none → (run fs settings).files = fs ∧ (run fs settings).stdout = document) ∧
      ∀ output, settings.output? = some output → (run fs settings).stdout = "" ∧
        ∃ l, fs.Replaced output document.toUTF8 (run fs settings).files l := by
  cases hdoc : (joinFolder fs settings concatenation).result concatenation with
  | error failure =>
    rcases result_joinFolder_eq_error_iff.mp hdoc with hv | ⟨hv, ⟨fault, hs, rfl⟩ | ⟨paths, hs, hat⟩⟩
    · exact .inl ⟨_, .settings hv⟩
    · exact .inl ⟨_, .search hv hs⟩
    · exact .inl ⟨_, .source hv hs hat⟩
  | ok document =>
    obtain ⟨hresult, hfiles, hstdout⟩ := run_of_joinFolder_ok hdoc
    rcases deliver_cases fs settings.output? document with ⟨output, fault, hout, hwrite⟩ | hdelivered
    · exact .inl ⟨_, .output hdoc hout hwrite⟩
    · refine .inr ⟨document, rfl, ?_⟩
      rwa [hresult, hfiles, hstdout]

theorem run_eq_error_iff : (run fs settings).result = .error failure ↔ Fails fs settings failure := by
  constructor
  · intro h
    rcases run_cases fs settings with ⟨failure', hfails⟩ | ⟨document, -, hok, -⟩
    · rw [hfails.run_eq.1] at h
      cases h
      exact hfails
    · rw [hok] at h
      cases h
  · exact fun h => h.run_eq.1

end Join

/-! ## What a log shows -/

namespace Log

variable {log : Log} {events : List Event}

theorem text_of_not_shows (h : ∀ e ∈ events, log.shows e = false) : log.text events = "" := by
  have hnone : events.filter log.shows = [] :=
    List.filter_eq_nil_iff.mpr fun e he => by simp [h e he]
  rw [text, hnone, List.mapIdx_nil, String.join_nil]

/-- A log prints nothing only if it shows none of the events: every line that
it prints ends in `\n`. -/
theorem text_eq_empty_iff : log.text events = "" ↔ ∀ e ∈ events, log.shows e = false := by
  refine ⟨fun h e he => ?_, text_of_not_shows⟩
  cases hshown : events.filter log.shows with
  | nil => simpa using List.filter_eq_nil_iff.mp hshown e he
  | cons first rest =>
    rw [text, hshown, List.mapIdx_cons, String.join_cons, ← String.toList_inj] at h
    simp at h

/-- A text stands alone behind what a log shows if it shows nothing. -/
theorem text_append_eq_iff {rest : String} :
    log.text events ++ rest = rest ↔ ∀ e ∈ events, log.shows e = false := by
  rw [← text_eq_empty_iff, ← String.toList_inj, String.toList_append]
  simp

end Log

/-! ## The program -/

namespace Program

open Join (Fails Warns)
open Assembler (concatenation)

variable {fs : FileSystem} {settings : Settings} {log : Log}

theorem runSettings_of_error {failure : Join.Failure} (log : Log)
    (h : (Join.run fs settings).result = .error failure) :
    (runSettings fs settings log).status = 1 ∧ (runSettings fs settings log).stderr =
      log.text (Join.run fs settings).events.toList ++ (failure.message ++ "\n") := by
  simp only [runSettings, h]
  exact ⟨rfl, rfl⟩

theorem runSettings_of_ok (log : Log) (h : (Join.run fs settings).result = .ok ()) :
    (runSettings fs settings log).status = 0 ∧
      (runSettings fs settings log).stderr = log.text (Join.run fs settings).events.toList := by
  simp only [runSettings, h]
  exact ⟨rfl, String.append_empty⟩

theorem run_eq_runSettings {arguments : List String} {environment? : Option String}
    (h : CommandLine.settings arguments environment? = .ok settings) :
    run fs arguments environment? log = runSettings fs settings log := by
  simp only [run, h]

/-- Sources of which the first has an `#else` outside all blocks, and the
second is rejected unless a symbol is defined. -/
def guardedSources : FileSystem :=
  FileSystem.empty []
    |>.create ["src", "a.cs"] (.file "x\n#else".toUTF8)
    |>.create ["src", "b.cs"] (.file "#if A\ny\n#elif B\n#error no A\n#endif".toUTF8)

/-- Settings whose output file is one of the sources. -/
def joinOver (symbols : Symbols) : Settings where
  input := ⟨"src"⟩
  output? := some ⟨"src/a.cs"⟩
  symbols := symbols

/-- A source with an `#endif` outside all blocks in front of an `#error`. -/
def strayBeforeError : FileSystem :=
  FileSystem.empty []
    |>.create ["src", "a.cs"] (.file "#endif\n#error boom".toUTF8)

end Program

end Amalgam
