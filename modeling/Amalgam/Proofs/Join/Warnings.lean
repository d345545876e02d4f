import Amalgam.Join.Delivery
import Amalgam.Proofs.Selection.Strictness
import Mathlib.Data.List.Induction

/-!
# What a run warns of

A run that goes on in spite of something logs a warning. There are three kinds:
a directive outside all blocks and blocks that are open at the end, in the
lines of a source and in lenient runs only; and a folder without sources.

* `State.Advance.warns`: what a single line gives rise to;
* `warns_select`: what the run over the lines of a source warns of;
* `Join.warns_run`: what a whole run warns of.
-/

namespace Amalgam

/-- No event is an error, so the important ones are the warnings. -/
theorem Event.mem_atLeast_warn_iff {e : Event} {events : List Event} :
    e ∈ atLeast .warn events ↔ e ∈ events ∧ e.isWarning := by
  have hlevel : isAtLeast .warn e = e.isWarning := by cases e <;> rfl
  rw [atLeast, List.mem_filter, hlevel]

namespace Selection

/-- What a lenient run over the lines can warn of. -/
inductive Warns (lines : List String) : Event → Prop
  /-- A line of this number needs an open block. -/
  | stray {i : Nat} {line : String} : lines[i]? = some line →
    (Directive.ofLine line).isSeparator ∨ Directive.ofLine line = .endIf →
    Warns lines (.strayDirective (i + 1) (Text.trim line))
  /-- Blocks are open at the end. -/
  | unterminated {depth : Nat} : 0 < depth → Warns lines (.unterminated depth)

variable {strict : Bool} {s : State} {line : String} {lines : List String} {t : Step} {e : Event}
  {symbols : Symbols}

theorem Warns.append (h : Warns lines e) (more : List String) : Warns (lines ++ more) e := by
  cases h with
  | stray hline member =>
    have hi := (List.getElem?_eq_some_iff.mp hline).1
    exact .stray (by rw [List.getElem?_append_left hi, hline]) member
  | unterminated depth => exact .unterminated depth

namespace State

/-- The record of a step is no warning. -/
theorem mem_of_mem_reported {before : State} {verdict : Verdict} {events : List Event}
    (he : e ∈ (before.reported s verdict events).events) (hw : e.isWarning) : e ∈ events := by
  rcases List.mem_append.mp he with he | he
  · exact he
  · obtain rfl := List.mem_singleton.mp he
    cases hw

/-- A line of which a run warns is a directive outside all blocks, and the run
is lenient. -/
theorem Advance.warns (ha : Advance strict s line t) (he : e ∈ t.events) (hw : e.isWarning) :
    strict = false ∧ ((Directive.ofLine line).isSeparator ∨ Directive.ofLine line = .endIf) ∧
      e = .strayDirective (s.lineNumber + 1) (Text.trim line) := by
  cases ha with
  | keep | drop | enter | leave | switch => cases mem_of_mem_reported he hw
  | define =>
    have hnone := find?_isWarning_definitionEvents (Directive.ofLine line)
    exact absurd hw (List.find?_eq_none.mp hnone e (mem_of_mem_reported he hw))
  | stray member wellFormed mode lenient =>
    exact ⟨lenient, member, List.mem_singleton.mp (mem_of_mem_reported he hw)⟩

/-- At the end a lenient run warns of open blocks. -/
theorem warns_close {events : List Event} (h : s.close strict = .ok events) (he : e ∈ events) :
    strict = false ∧ ∃ depth, 0 < depth ∧ e = .unterminated depth := by
  unfold close at h
  split at h
  · cases h
    cases he
  · rename_i hdepth
    cases strict with
    | true => cases h
    | false =>
      obtain rfl := Except.ok.inj h
      exact ⟨rfl, s.depth, Nat.pos_of_ne_zero hdepth, List.mem_singleton.mp he⟩

end State

namespace Run

/-- What a run has warned of stands in the lines that it has taken. -/
theorem warns_feedAll (he : e ∈ ((start symbols).feedAll strict lines).events.toList)
    (hw : e.isWarning) : strict = false ∧ Warns lines e := by
  induction lines using List.reverseRecOn with
  | nil => cases he
  | append_singleton lines line ih =>
    rw [feedAll_append, feedAll_cons, feedAll_nil] at he
    have earlier (he : e ∈ ((start symbols).feedAll strict lines).events.toList) :
        strict = false ∧ Warns (lines ++ [line]) e :=
      (ih he).imp_right fun h => h.append [line]
    cases hf : ((start symbols).feedAll strict lines).failure? with
    | some failure =>
      rw [feed_of_failure hf] at he
      exact earlier he
    | none =>
      cases hs : ((start symbols).feedAll strict lines).state.step strict line with
      | error failure =>
        rw [feed_of_error hf hs] at he
        exact earlier he
      | ok t =>
        rw [feed_of_ok hf hs, Array.toList_appendList] at he
        rcases List.mem_append.mp he with he | he
        · exact earlier he
        · obtain ⟨hstrict, member, rfl⟩ := (State.step_eq_ok_iff.mp hs).warns he hw
          rw [feedAll_lineNumber hf]
          exact ⟨hstrict, .stray (by simp [start]) member⟩

end Run

/-- What the run over some lines warns of. -/
theorem warns_select (he : e ∈ (select strict symbols lines).events.toList) (hw : e.isWarning) :
    strict = false ∧ Warns lines e := by
  rw [Run.select_eq] at he
  cases hf : ((Run.start symbols).feedAll strict lines).failure? with
  | some failure =>
    rw [Run.finish_of_failure hf] at he
    exact Run.warns_feedAll he hw
  | none =>
    unfold Run.finish at he
    rw [hf] at he
    dsimp only at he
    cases hclose : ((Run.start symbols).feedAll strict lines).state.close strict with
    | error failure =>
      rw [hclose] at he
      exact Run.warns_feedAll he hw
    | ok events =>
      rw [hclose, Array.toList_appendList] at he
      rcases List.mem_append.mp he with he | he
      · exact Run.warns_feedAll he hw
      · obtain ⟨hstrict, depth, hdepth, rfl⟩ := State.warns_close hclose he
        exact ⟨hstrict, .unterminated hdepth⟩

end Selection

namespace Join

open Assembler (concatenation)

variable {σ : Type} {fs : FileSystem} {symbols : Symbols} {strict : Bool} {settings : Settings}
  {assembler : Assembler σ} {path : Path} {paths : List Path} {e : Event}

/-- What a run with the given settings can warn of. -/
inductive Warns (fs : FileSystem) (settings : Settings) : Event → Prop
  /-- The search is complete and has found nothing. -/
  | noSources : (fs.sources settings.search).complete = .ok [] →
    Warns fs settings (.noSources settings.extension settings.input)
  /-- A lenient run goes on over the lines of a source. -/
  | source {paths : List Path} {path : Path} {source : String} {e : Event} : settings.strict = false →
    (fs.sources settings.search).complete = .ok paths → path ∈ paths → fs.readText path = .ok source →
    Selection.Warns (Text.lines source) e → Warns fs settings e

/-- A source is warned of by the run over its lines. -/
theorem warns_processFile (he : e ∈ (processFile fs symbols strict path).events.toList)
    (hw : e.isWarning) :
    strict = false ∧ ∃ source, fs.readText path = .ok source ∧ Selection.Warns (Text.lines source) e := by
  unfold processFile at he
  cases hread : fs.readText path with
  | error fault =>
    rw [hread] at he
    obtain rfl := List.mem_singleton.mp he
    cases hw
  | ok source =>
    rw [hread] at he
    rcases List.mem_append.mp (Array.toList_append ▸ he) with he | he
    · obtain rfl := List.mem_singleton.mp he
      cases hw
    · obtain ⟨hstrict, hwarns⟩ := Selection.warns_select he hw
      exact ⟨hstrict, source, rfl, hwarns⟩

/-- What is noted of one more source is what was noted before, or is noted by
processing the source. -/
theorem mem_events_feed {j : Joined σ}
    (he : e ∈ (j.feed fs symbols strict assembler path).events.toList) :
    e ∈ j.events.toList ∨ e ∈ (processFile fs symbols strict path).events.toList := by
  rw [← List.mem_append, ← Array.toList_append]
  unfold Joined.feed at he
  split at he
  · rw [Array.toList_append]
    exact List.mem_append_left _ he
  · dsimp only at he
    split at he <;> exact he

theorem mem_events_joinSources
    (he : e ∈ (joinSources fs symbols strict assembler paths).events.toList) :
    ∃ path ∈ paths, e ∈ (processFile fs symbols strict path).events.toList := by
  unfold joinSources at he
  induction paths using List.reverseRecOn with
  | nil => cases he
  | append_singleton paths path ih =>
    rw [List.foldl_append, List.foldl_cons, List.foldl_nil] at he
    rcases mem_events_feed he with he | he
    · obtain ⟨earlier, hm, he⟩ := ih he
      exact ⟨earlier, List.mem_append_left _ hm, he⟩
    · exact ⟨path, by simp, he⟩

theorem result_findSources_eq_ok_iff {search : Search} :
    (findSources fs search).result = .ok paths ↔ (fs.sources search).complete = .ok paths := by
  cases hcomplete : (fs.sources search).complete <;> simp [findSources, hcomplete, Except.mapError]

/-- A search warns of nothing. -/
theorem not_mem_events_findSources (hw : e.isWarning) (search : Search) :
    e ∉ (findSources fs search).events.toList := by
  intro he
  obtain ⟨path, -, rfl⟩ := List.mem_map.mp he
  cases hw

/-- What the join of a folder warns of. -/
theorem warns_joinFolder (he : e ∈ (joinFolder fs settings assembler).events.toList)
    (hw : e.isWarning) : Warns fs settings e := by
  unfold joinFolder at he
  cases hv : settings.validate fs with
  | error failure =>
    rw [hv] at he
    cases he
  | ok _ =>
    rw [hv] at he
    dsimp only at he
    cases hfound : (findSources fs settings.search).result with
    | error failure =>
      rw [hfound] at he
      exact absurd he (not_mem_events_findSources hw _)
    | ok paths =>
      rw [hfound] at he
      simp only [Array.toList_append, List.mem_append] at he
      have hpaths := result_findSources_eq_ok_iff.mp hfound
      rcases he with (he | he) | he
      · exact absurd he (not_mem_events_findSources hw _)
      · cases paths with
        | nil =>
          obtain rfl := List.mem_singleton.mp he
          exact .noSources hpaths
        | cons path paths => cases he
      · obtain ⟨path, hm, he⟩ := mem_events_joinSources he
        obtain ⟨hstrict, source, hread, hwarns⟩ := warns_processFile he hw
        exact .source hstrict hpaths hm hread hwarns

/-- What a run warns of. -/
theorem warns_run (he : e ∈ (run fs settings).events.toList) (hw : e.isWarning) :
    Warns fs settings e := by
  unfold run at he
  dsimp only at he
  cases hdoc : (joinFolder fs settings concatenation).result concatenation with
  | error failure =>
    rw [hdoc] at he
    exact warns_joinFolder he hw
  | ok document =>
    rw [hdoc] at he
    simp only [Array.toList_append, List.mem_append] at he
    rcases he with he | he
    · exact warns_joinFolder he hw
    · -- of the delivery only its success is noted, and that is no warning
      unfold deliver at he
      split at he
      · cases he
      · split at he
        · cases he
        · obtain rfl := List.mem_singleton.mp he
          cases hw

end Join

end Amalgam
