import Amalgam.Proofs.Selection.Shape
import Mathlib.Data.Nat.Find

/-!
# Failures that the lines alone decide

A run keeps its depth and its count of content in a state that depends on the
branches it takes. Both can be read off the lines: the depth is `nesting`,
which counts `#if` up and `#endif` down and never falls below zero, and content
has been seen exactly if some line `isContent` (`Read.advance`). So a line that
is no `#error` stops a run exactly if it offends (`Read.refusal_iff`), which is
said of it and the lines before it without the table of symbols.
`failure_of_lines` is what follows for a run over lines without `#error`: it
fails at the first line that offends, or at the end if it is strict and blocks
are open, and not otherwise.
-/

namespace Amalgam

/-- The nesting depth after the line, from the one before it. -/
def Directive.nest (depth : Nat) : Directive → Nat
  | opening _ => depth + 1
  | endIf => depth - 1
  | _ => depth

/-- Only `#if` and `#endif` change the nesting depth. -/
theorem Directive.nest_eq_self {d : Directive}
    (h : d.isText ∨ d.isError ∨ d.isDefinition ∨ d.isSeparator) (depth : Nat) :
    d.nest depth = depth := by
  cases d <;> simp [isText, isError, isDefinition, isSeparator, nest] at h ⊢

namespace Selection

/-! ## What the lines say -/

/-- The nesting depth after the lines, from the one before them, never below
zero. -/
def nestingFrom (depth : Nat) (lines : List String) : Nat :=
  lines.foldl (fun depth line => (Directive.ofLine line).nest depth) depth

/-- The nesting depth after the lines. -/
def nesting (lines : List String) : Nat :=
  nestingFrom 0 lines

/-- Whether the line keeps definitions from being accepted after it: it opens a
block, or it is a line of text that is not blank. -/
def isContent (line : String) : Bool :=
  match Directive.ofLine line with
  | .opening _ => true
  | .plain _ | .passthrough _ => !Text.isBlank line
  | _ => false

/-- The failure that a line causes after the lines `earlier`, if it offends. -/
def offence? (strict : Bool) (earlier : List String) (line : String) : Option Failure :=
  if (Directive.ofLine line).isMalformed then some (.invalidDirective (Text.trim line))
  else if (Directive.ofLine line).isDefinition ∧ earlier.any isContent then
    some (.definitionNotAtStart (Text.trim line))
  else if strict = true ∧ ((Directive.ofLine line).isSeparator ∨ Directive.ofLine line = .endIf) ∧
      nesting earlier = 0 then
    some (.unexpectedDirective (Text.trim line))
  else none

/-- The failure that line `i` causes, if there is such a line and it
offends. -/
def offenceAt? (strict : Bool) (lines : List String) (i : Nat) : Option Failure :=
  lines[i]?.bind (offence? strict (lines.take i))

theorem nestingFrom_cons (depth : Nat) (line : String) (lines : List String) :
    nestingFrom depth (line :: lines) = nestingFrom ((Directive.ofLine line).nest depth) lines := by
  rw [nestingFrom, List.foldl_cons, nestingFrom]

theorem nesting_concat (lines : List String) (line : String) :
    nesting (lines ++ [line]) = (Directive.ofLine line).nest (nesting lines) := by
  simp only [nesting, nestingFrom, List.foldl_append, List.foldl_cons, List.foldl_nil]

theorem any_isContent_concat (lines : List String) (line : String) :
    (lines ++ [line]).any isContent = (lines.any isContent || isContent line) := by
  simp only [List.any_append, List.any_cons, List.any_nil, Bool.or_false]

theorem isContent_of_isText {line : String} (h : (Directive.ofLine line).isText) :
    isContent line = !Text.isBlank line := by
  unfold isContent
  cases hd : Directive.ofLine line <;> simp_all [Directive.isText]

/-- Definitions and the lines that go on in a block or close it are no
content. -/
theorem isContent_eq_false {line : String} (h : (Directive.ofLine line).isDefinition ∨
    (Directive.ofLine line).isSeparator ∨ Directive.ofLine line = .endIf) :
    isContent line = false := by
  unfold isContent
  cases hd : Directive.ofLine line <;> simp_all [Directive.isDefinition, Directive.isSeparator]

/-! ## One line -/

namespace State

variable {strict : Bool} {s : State} {line : String} {t : Step} {lines : List String}

theorem Sound.depth_pos_of_inside (h : s.Sound) (inside : s.mode ≠ .outside) : 0 < s.depth := by
  obtain ⟨outer, rest, hf⟩ := h.frames_of_inside inside
  rw [depth, hf, List.length_cons]
  omega

theorem Sound.depth_leave (h : s.Sound) (inside : s.mode ≠ .outside) :
    s.leave.depth = s.depth - 1 := by
  obtain ⟨outer, rest, hf⟩ := h.frames_of_inside inside
  simp only [State.leave, depth, hf, List.length_cons, Nat.add_sub_cancel]

/-- A line that is taken changes the number of open blocks as `Directive.nest`
says. -/
theorem Advance.depth_eq (ha : Advance strict s line t) (h : s.Sound) :
    t.state.depth = (Directive.ofLine line).nest s.depth := by
  cases ha with
  | keep text live => exact (Directive.nest_eq_self (.inl text) _).symm
  | drop resolved mode text =>
    exact (Directive.nest_eq_self (text.imp_right fun error => .inl error.1) _).symm
  | define definition mode start =>
    exact (Directive.nest_eq_self (.inr (.inr (.inl definition))) _).symm
  | enter condition opening valid => rw [opening]; rfl
  | leave closing inside =>
    rw [closing]
    exact h.countLine.depth_leave inside
  | switch separator wellFormed inside =>
    exact (Directive.nest_eq_self (.inr (.inr (.inr separator))) _).symm
  | stray member wellFormed mode lenient =>
    rcases member with separator | closing
    · exact (Directive.nest_eq_self (.inr (.inr (.inr separator))) _).symm
    · -- outside all blocks there is nothing to close
      have h0 : s.depth = 0 := by rw [depth, h.mode_eq_outside_iff.mp mode, List.length_nil]
      rw [closing]
      show s.depth = s.depth - 1
      omega

/-- Content has been seen after a line if it had been seen before, or the line
is content. A line of text in a dropped branch is not counted, but the block
around it was. -/
theorem Advance.content_pos_iff (ha : Advance strict s line t) (h : s.Sound) :
    0 < t.state.content ↔ 0 < s.content ∨ isContent line := by
  have none (hd : (Directive.ofLine line).isDefinition ∨ (Directive.ofLine line).isSeparator ∨
      Directive.ofLine line = .endIf) (hc : t.state.content = s.content) :
      0 < t.state.content ↔ 0 < s.content ∨ isContent line := by
    rw [hc, isContent_eq_false hd]
    simp
  cases ha with
  | keep text live =>
    rw [isContent_of_isText text]
    show 0 < s.content + (if Text.isBlank line then 0 else 1) ↔ _
    cases Text.isBlank line <;> simp
  | drop resolved mode text =>
    have inside : s.mode ≠ .outside := by rw [mode]; simp
    have := h.depth_pos_of_inside inside
    have := h.depth_le_content
    have hc : 0 < s.content := by omega
    exact ⟨fun _ => .inl hc, fun _ => hc⟩
  | define definition mode start => exact none (.inl definition) rfl
  | enter condition opening valid =>
    have hc : isContent line = true := by simp [isContent, opening]
    exact ⟨fun _ => .inr hc, fun _ => Nat.succ_pos _⟩
  | leave closing inside => exact none (.inr (.inr closing)) (leave_content s.countLine)
  | switch separator wellFormed inside => exact none (.inr (.inl separator)) rfl
  | stray member wellFormed mode lenient => exact none (.inr member) rfl

/-! ## What has been read -/

/-- The state agrees with the lines that were taken before it. -/
structure Read (lines : List String) (s : State) : Prop where
  sound : s.Sound
  depth : s.depth = nesting lines
  content : 0 < s.content ↔ lines.any isContent = true

namespace Read

theorem start (symbols : Symbols) : (Run.start symbols).state.Read [] where
  sound := .start symbols
  depth := rfl
  content := by simp [Run.start]

theorem advance (h : s.Read lines) (ha : Advance strict s line t) : t.state.Read (lines ++ [line]) where
  sound := h.sound.advance ha
  depth := by rw [ha.depth_eq h.sound, h.depth, nesting_concat]
  content := by rw [ha.content_pos_iff h.sound, h.content, any_isContent_concat, Bool.or_eq_true]

/-- Outside all blocks the nesting depth is zero, and nowhere else. -/
theorem mode_eq_outside_iff (h : s.Read lines) : s.mode = .outside ↔ nesting lines = 0 := by
  rw [h.sound.mode_eq_outside_iff, ← h.depth, State.depth, List.length_eq_zero_iff]

/-- A definition is late exactly if a line of content stands before it. -/
theorem late_iff (h : s.Read lines) :
    s.mode ≠ .outside ∨ 0 < s.content ↔ lines.any isContent = true := by
  rw [← h.content]
  refine ⟨?_, .inr⟩
  rintro (inside | hc)
  · exact Nat.lt_of_lt_of_le (h.sound.depth_pos_of_inside inside) h.sound.depth_le_content
  · exact hc

/-- A line that is no `#error` stops the run exactly if it offends. -/
theorem refusal_iff (h : s.Read lines) (he : (Directive.ofLine line).isError = false)
    {failure : Failure} :
    Refusal strict s line failure ↔ offence? strict lines line = some failure := by
  constructor
  · intro hr
    cases hr with
    | malformed malformed => rw [offence?, if_pos malformed]
    | error message error counts => rw [error] at he; cases he
    | late definition late =>
      rw [offence?, if_neg (by rw [Directive.not_isMalformed_of_isDefinition definition]; simp),
        if_pos ⟨definition, h.late_iff.mp late⟩]
    | stray member wellFormed mode isStrict =>
      have hd : ¬ (Directive.ofLine line).isDefinition := by
        rcases member with hs | hs <;> cases hd : Directive.ofLine line <;>
          simp_all [Directive.isSeparator, Directive.isDefinition]
      rw [offence?, if_neg (by rw [wellFormed]; simp), if_neg (fun hc => hd hc.1),
        if_pos ⟨isStrict, member, h.mode_eq_outside_iff.mp mode⟩]
  · intro ho
    unfold offence? at ho
    split at ho
    · rename_i malformed
      exact Option.some.inj ho ▸ .malformed malformed
    · rename_i wellFormed
      simp only [Bool.not_eq_true] at wellFormed
      split at ho
      · rename_i hc
        exact Option.some.inj ho ▸ .late hc.1 (h.late_iff.mpr hc.2)
      · split at ho
        · rename_i hc
          exact Option.some.inj ho ▸
            .stray hc.2.1 wellFormed (h.mode_eq_outside_iff.mpr hc.2.2) hc.1
        · cases ho

end Read

end State

/-! ## Runs -/

variable {strict : Bool} {symbols : Symbols} {lines earlier : List String} {failure : Failure}
  {i : Nat} {r : Run}

theorem offenceAt?_length (strict : Bool) (earlier rest : List String) (line : String) :
    offenceAt? strict (earlier ++ line :: rest) earlier.length = offence? strict earlier line := by
  simp [offenceAt?]

/-- Whether a line offends depends on nothing that comes after it. -/
theorem offenceAt?_append (strict : Bool) (rest : List String) (h : i < earlier.length) :
    offenceAt? strict (earlier ++ rest) i = offenceAt? strict earlier i := by
  rw [offenceAt?, offenceAt?, List.getElem?_append_left h,
    List.take_append_of_le_length (Nat.le_of_lt h)]

theorem State.Read.feed (h : r.state.Read earlier) {line : String}
    (hgo : (r.feed strict line).failure? = none) :
    (r.feed strict line).state.Read (earlier ++ [line]) := by
  obtain ⟨hr, t, hs⟩ := Run.feed_failure?_eq_none_iff.mp hgo
  rw [Run.feed_of_ok hr hs]
  exact h.advance (State.step_eq_ok_iff.mp hs)

/-- A run that has gone on over lines stands in a state that agrees with
them. -/
theorem State.Read.feedAll (h : r.state.Read earlier)
    (hgo : (r.feedAll strict lines).failure? = none) :
    (r.feedAll strict lines).state.Read (earlier ++ lines) := by
  induction lines generalizing r earlier with
  | nil => rw [List.append_nil]; exact h
  | cons line lines ih =>
    rw [Run.feedAll_cons] at hgo ⊢
    have := ih (h.feed (Run.failure?_eq_none_of_feedAll hgo)) hgo
    rwa [List.append_assoc] at this

/-- A line after lines over which the run has gone on. -/
theorem State.Read.feed_failure? (h : r.state.Read earlier) (hr : r.failure? = none) {line : String}
    (he : (Directive.ofLine line).isError = false) :
    (r.feed strict line).failure? = offence? strict earlier line := by
  cases hs : r.state.step strict line with
  | error failure =>
    rw [Run.feed_of_error hr hs, (h.refusal_iff he).mp (State.step_eq_error_iff.mp hs)]
  | ok t =>
    cases ho : offence? strict earlier line with
    | none => rw [Run.feed_of_ok hr hs]; exact hr
    | some failure =>
      rw [((h.refusal_iff he).mpr ho).step_eq] at hs
      cases hs

/-- Over lines of which none offends the run goes on. -/
theorem State.Read.feedAll_goesOn (h : r.state.Read earlier) (hr : r.failure? = none)
    (he : ∀ line ∈ lines, (Directive.ofLine line).isError = false)
    (ho : ∀ i, earlier.length ≤ i → offenceAt? strict (earlier ++ lines) i = none) :
    (r.feedAll strict lines).failure? = none := by
  induction lines generalizing r earlier with
  | nil => exact hr
  | cons line lines ih =>
    have hgo : (r.feed strict line).failure? = none := by
      rw [h.feed_failure? hr (he line (List.mem_cons_self ..)), ← offenceAt?_length strict earlier lines]
      exact ho _ (Nat.le_refl _)
    rw [Run.feedAll_cons]
    refine ih (h.feed hgo) hgo (fun line' hm => he line' (List.mem_cons_of_mem _ hm)) fun i hi => ?_
    rw [List.append_assoc]
    refine ho i ?_
    rw [List.length_append] at hi
    omega

/-- A run over lines of which the first that offends is line `i` fails
there. -/
theorem feedAll_of_offenceAt? (symbols : Symbols)
    (he : ∀ line ∈ lines, (Directive.ofLine line).isError = false)
    (hi : offenceAt? strict lines i = some failure) (hj : ∀ j < i, offenceAt? strict lines j = none) :
    ((Run.start symbols).feedAll strict lines).failure? = some failure ∧
      ((Run.start symbols).feedAll strict lines).state.lineNumber = i + 1 := by
  obtain ⟨line, hline, ho⟩ := Option.bind_eq_some_iff.mp hi
  obtain ⟨hlt, hget⟩ := List.getElem?_eq_some_iff.mp hline
  have hlen : (lines.take i).length = i := by rw [List.length_take]; omega
  have hsplit : lines = lines.take i ++ line :: lines.drop (i + 1) := by
    rw [← hget, List.getElem_cons_drop, List.take_append_drop]
  have hgo : ((Run.start symbols).feedAll strict (lines.take i)).failure? = none := by
    refine (State.Read.start symbols).feedAll_goesOn rfl
      (fun line hm => he line (List.mem_of_mem_take hm)) fun j _ => ?_
    rw [List.nil_append]
    by_cases hlt' : j < (lines.take i).length
    · rw [← offenceAt?_append strict (lines.drop i) hlt', List.take_append_drop]
      exact hj j (by omega)
    · rw [offenceAt?, List.getElem?_eq_none (by omega)]
      rfl
  have hread : State.Read (lines.take i) _ := (State.Read.start symbols).feedAll hgo
  have hfail : (((Run.start symbols).feedAll strict (lines.take i)).feed strict line).failure? =
      some failure := by
    rw [hread.feed_failure? hgo (he line (List.mem_of_getElem? hline))]
    exact ho
  rw [hsplit, Run.feedAll_append, Run.feedAll_cons, Run.feedAll_of_failure hfail]
  refine ⟨hfail, ?_⟩
  rw [Run.feed_lineNumber hgo, Run.feedAll_lineNumber hgo, hlen]
  exact congrArg (· + 1) (Nat.zero_add i)

/-- Some line is the first that offends, or none does. -/
theorem exists_first_offence (strict : Bool) (lines : List String) :
    (∃ i failure, offenceAt? strict lines i = some failure ∧
      ∀ j < i, offenceAt? strict lines j = none) ∨ ∀ i, offenceAt? strict lines i = none := by
  by_cases h : ∃ i, (offenceAt? strict lines i).isSome
  · obtain ⟨failure, hf⟩ := Option.isSome_iff_exists.mp (Nat.find_spec h)
    refine .inl ⟨Nat.find h, failure, hf, fun j hj => ?_⟩
    simpa using Nat.find_min h hj
  · refine .inr fun i => ?_
    rw [← Option.not_isSome_iff_eq_none]
    exact fun hi => h ⟨i, hi⟩

theorem select_of_offenceAt? (symbols : Symbols)
    (he : ∀ line ∈ lines, (Directive.ofLine line).isError = false)
    (hi : offenceAt? strict lines i = some failure) (hj : ∀ j < i, offenceAt? strict lines j = none) :
    (select strict symbols lines).failure? = some failure ∧
      (select strict symbols lines).state.lineNumber = i + 1 := by
  have h := feedAll_of_offenceAt? symbols he hi hj
  rw [Run.select_eq, Run.finish_of_failure h.1]
  exact h

/-- A run over lines of which none offends fails only if it is strict and
blocks are open at the end. -/
theorem select_of_no_offence (symbols : Symbols)
    (he : ∀ line ∈ lines, (Directive.ofLine line).isError = false)
    (ho : ∀ i, offenceAt? strict lines i = none) :
    (select strict symbols lines).failure? = (if strict = true ∧ 0 < nesting lines then
        some (.unterminatedConditional (nesting lines)) else none) ∧
      (select strict symbols lines).state.lineNumber = lines.length := by
  have hgo : ((Run.start symbols).feedAll strict lines).failure? = none :=
    (State.Read.start symbols).feedAll_goesOn rfl he fun i _ => ho i
  have hread : ((Run.start symbols).feedAll strict lines).state.Read lines :=
    (State.Read.start symbols).feedAll hgo
  rw [Run.select_eq, Run.finish_failure? hgo, hread.depth, Run.finish_state,
    Run.feedAll_lineNumber hgo]
  exact ⟨rfl, Nat.zero_add _⟩

/-- Over lines without `#error` a run fails with the failure of the first line
that offends, or, if none does and it is strict, because of the blocks that are
open at the end; and in no other case. So the table of symbols does not matter
to whether, where and why a run fails. As long as it goes on, the number of
open blocks is the nesting depth of the lines. -/
theorem failure_of_lines (strict : Bool) (symbols : Symbols) (lines : List String)
    (he : ∀ line ∈ lines, (Directive.ofLine line).isError = false) :
    (∀ failure, (select strict symbols lines).failure? = some failure ↔
      (∃ i, offenceAt? strict lines i = some failure ∧ ∀ j < i, offenceAt? strict lines j = none) ∨
      ((∀ i, offenceAt? strict lines i = none) ∧ strict = true ∧ 0 < nesting lines ∧
        failure = .unterminatedConditional (nesting lines))) ∧
    (∀ i failure, offenceAt? strict lines i = some failure →
      (∀ j < i, offenceAt? strict lines j = none) →
      (select strict symbols lines).state.lineNumber = i + 1) ∧
    (∀ symbols', (select strict symbols' lines).failure? = (select strict symbols lines).failure? ∧
      (select strict symbols' lines).state.lineNumber =
        (select strict symbols lines).state.lineNumber) ∧
    (∀ n, ((Run.start symbols).feedAll strict (lines.take n)).failure? = none →
      ((Run.start symbols).feedAll strict (lines.take n)).state.depth = nesting (lines.take n)) := by
  refine ⟨fun failure => ?_, fun i failure hi hj => (select_of_offenceAt? symbols he hi hj).2,
    fun symbols' => ?_, fun n hgo => ((State.Read.start symbols).feedAll hgo).depth⟩
  · constructor
    · intro hf
      rcases exists_first_offence strict lines with ⟨i, first, hi, hj⟩ | hnone
      · rw [(select_of_offenceAt? symbols he hi hj).1] at hf
        exact .inl ⟨i, hf ▸ hi, hj⟩
      · rw [(select_of_no_offence symbols he hnone).1] at hf
        split at hf
        · rename_i hopen
          exact .inr ⟨hnone, hopen.1, hopen.2, (Option.some.inj hf).symm⟩
        · cases hf
    · rintro (⟨i, hi, hj⟩ | ⟨hnone, hstrict, hopen, rfl⟩)
      · exact (select_of_offenceAt? symbols he hi hj).1
      · rw [(select_of_no_offence symbols he hnone).1, if_pos ⟨hstrict, hopen⟩]
  · rcases exists_first_offence strict lines with ⟨i, first, hi, hj⟩ | hnone
    · have h := select_of_offenceAt? symbols he hi hj
      have h' := select_of_offenceAt? symbols' he hi hj
      exact ⟨h'.1.trans h.1.symm, h'.2.trans h.2.symm⟩
    · have h := select_of_no_offence symbols he hnone
      have h' := select_of_no_offence symbols' he hnone
      exact ⟨h'.1.trans h.1.symm, h'.2.trans h.2.symm⟩

/-- A strict run over a late `#else`: the block before it is closed, so nothing
but that line offends. -/
theorem failure_of_lines_late_else :
    (∀ line ∈ ["#define A", "#if !A", "x", "#elif B", "#endif", " #else"],
      (Directive.ofLine line).isError = false) ∧
    (select true ∅ ["#define A", "#if !A", "x", "#elif B", "#endif", " #else"]).failure? =
      some (.unexpectedDirective "#else") :=
  ⟨by decide, ((failure_of_lines true ∅ _ (by decide)).1 _).mpr (.inl ⟨5, by decide, by decide⟩)⟩

end Selection

end Amalgam
