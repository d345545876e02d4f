import Amalgam.Selection.State

/-!
# What one line does

`State.step` goes by the mode and then by the directive. The same step by what
becomes of the state, so that a proof about steps has one case for each thing
that can happen, not one for each mode and directive:

* `Advance`: the seven ways in which a line is taken;
* `Refusal`: the four reasons for which a line stops the run;
* `step_eq_ok_iff`, `step_eq_error_iff`: a step is one of the former or one of
  the latter.

The modes of the open branches, the innermost first, are `State.modes`. A line
leaves them alone or changes the first of them (`Mode.switch`), or it adds or
removes one at that end.
-/

namespace Amalgam

/-! ## Kinds of directives -/

namespace Directive

/-- Whether the line stands in the output wherever lines are kept. -/
def isText : Directive → Bool
  | plain _ | passthrough _ => true
  | _ => false

/-- Whether the line starts a further branch of a block. -/
def isSeparator : Directive → Bool
  | elseIf _ | otherwise => true
  | _ => false

/-- Whether the line changes the table of symbols. -/
def isDefinition : Directive → Bool
  | define _ | undefine _ => true
  | _ => false

/-- Whether the line stops the run with a message of its own. -/
def isError : Directive → Bool
  | error _ => true
  | _ => false

/-- The table of symbols after the line. -/
def revise (symbols : Symbols) : Directive → Symbols
  | define symbol => (symbols.define symbol).2
  | undefine symbol => (symbols.undefine symbol).2
  | _ => symbols

/-- The events of a definition that is accepted. -/
def definitionEvents : Directive → List Event
  | define symbol => [.defined symbol]
  | undefine symbol => [.undefined symbol]
  | _ => []

theorem not_isText_of_isSeparator {d : Directive} (h : d.isSeparator) : d.isText = false := by
  cases d <;> simp [isSeparator, isText] at h ⊢

theorem not_isMalformed_of_isText {d : Directive} (h : d.isText) : d.isMalformed = false := by
  cases d <;> simp [isText, isMalformed] at h ⊢

theorem not_isMalformed_of_isDefinition {d : Directive} (h : d.isDefinition) :
    d.isMalformed = false := by
  cases d <;> simp [isDefinition, isMalformed] at h ⊢

theorem isDefinition_eq_false {d : Directive} (h : d.isText ∨ d.isError ∨ d.isSeparator) :
    d.isDefinition = false := by
  cases d <;> simp [isText, isError, isSeparator, isDefinition] at h ⊢

/-- Only definitions change the table. -/
theorem revise_eq_self {d : Directive} (h : d.isDefinition = false) (symbols : Symbols) :
    d.revise symbols = symbols := by
  cases d <;> simp [isDefinition, revise] at h ⊢

end Directive

namespace Selection

/-! ## Modes -/

namespace Mode

/-- Whether lines are kept. -/
def isLive : Mode → Bool
  | outside | keeping => true
  | skipping _ => false

/-- The mode after a line that starts a further branch of the innermost block;
`dropped` says whether the block was opened inside a dropped branch. -/
def switch (symbols : Symbols) (dropped : Bool) : Mode → Directive → Mode
  | keeping, .elseIf _ => skipping true
  | keeping, .otherwise => skipping false
  | skipping false, .elseIf condition =>
    if !dropped && condition.holds symbols then keeping else skipping false
  | skipping false, .otherwise => if dropped then skipping false else keeping
  | mode, _ => mode

@[simp] theorem switch_resolved (symbols : Symbols) (dropped : Bool) (d : Directive) :
    (skipping true).switch symbols dropped d = skipping true := by
  cases d <;> rfl

/-- A branch of a block that was opened inside a dropped branch is dropped. -/
@[simp] theorem switch_dropped (symbols : Symbols) (resolved : Bool) (d : Directive) :
    (skipping resolved).switch symbols true d = skipping resolved := by
  cases resolved <;> cases d <;> rfl

end Mode

namespace State

variable {strict : Bool} {s : State} {line : String} {t : Step}

/-- The modes of the open branches and, last, the mode outside all blocks; the
innermost first. -/
def modes (s : State) : List Mode :=
  s.mode :: s.frames

/-- The mode of the first branch of a block that is opened here. -/
def openedMode (s : State) (condition : Condition) : Mode :=
  match s.mode with
  | .skipping resolved => .skipping resolved
  | .outside | .keeping => s.branchMode condition

/-- What a line did from `before`, with the record of the step last among its
events. -/
def reported (before s : State) (verdict : Verdict) (events : List Event := []) : Step :=
  { state := s
    verdict
    events := events ++ [.evaluated s.lineNumber before.mode s.mode s.depth verdict] }

@[simp] theorem reported_state (before s : State) (verdict : Verdict) (events : List Event) :
    (before.reported s verdict events).state = s := rfl

@[simp] theorem reported_verdict (before s : State) (verdict : Verdict) (events : List Event) :
    (before.reported s verdict events).verdict = verdict := rfl

@[simp] theorem modes_countLine (s : State) : s.countLine.modes = s.modes := rfl

@[simp] theorem modes_enter (s : State) (mode : Mode) : (s.enter mode).modes = mode :: s.modes := rfl

@[simp] theorem leave_symbols (s : State) : s.leave.symbols = s.symbols := by
  unfold leave
  split <;> rfl

@[simp] theorem leave_content (s : State) : s.leave.content = s.content := by
  unfold leave
  split <;> rfl

@[simp] theorem leave_lineNumber (s : State) : s.leave.lineNumber = s.lineNumber := by
  unfold leave
  split <;> rfl

/-- Closing a block removes its mode. -/
theorem modes_leave (s : State) (h : s.frames ≠ []) : s.leave.modes = s.modes.tail := by
  unfold leave
  split
  · exact absurd ‹_› h
  · simp [modes, *]

/-- The innermost block was opened inside a dropped branch if the mode to
return to drops lines. -/
theorem inDropped_eq {inner mode : Mode} {outer : List Mode} (h : s.modes = inner :: mode :: outer) :
    s.inDropped = !mode.isLive := by
  obtain ⟨-, h⟩ := List.cons.inj h
  unfold inDropped
  cases mode <;> simp [h, Mode.isLive]

theorem openedMode_of_isLive (h : s.mode.isLive) (condition : Condition) :
    s.openedMode condition =
      if condition.holds s.symbols then .keeping else .skipping false := by
  unfold openedMode
  cases hm : s.mode <;> simp_all [Mode.isLive, branchMode]

/-- The mode after an `#elif` that is met while no branch of the chain has been
taken. -/
theorem switch_elseIf {mode : Mode} {outer : List Mode}
    (hm : s.modes = .skipping false :: mode :: outer) (live : mode.isLive) (condition : Condition) :
    (Mode.skipping false).switch s.symbols s.inDropped (.elseIf condition) =
      if condition.holds s.symbols then .keeping else .skipping false := by
  rw [inDropped_eq hm, live]
  rfl

/-- The mode after an `#else` that is met while no branch of the chain has been
taken. -/
theorem switch_otherwise {mode : Mode} {outer : List Mode}
    (hm : s.modes = .skipping false :: mode :: outer) (live : mode.isLive) :
    (Mode.skipping false).switch s.symbols s.inDropped .otherwise = .keeping := by
  rw [inDropped_eq hm, live]
  rfl

/-! ## By the kind of directive -/

theorem stepDirective_text {d : Directive} (text : d.isText) (live : s.mode.isLive) :
    s.stepDirective strict line d = s.keep line := by
  unfold stepDirective
  cases hm : s.mode <;> cases d <;> simp_all [Directive.isText, Mode.isLive, stepOutside, stepKeeping]

theorem stepDirective_dropped {d : Directive} {resolved : Bool} (hm : s.mode = .skipping resolved)
    (text : d.isText ∨ d.isError ∧ resolved = true) : s.stepDirective strict line d = s.dropping := by
  unfold stepDirective
  cases d <;> simp_all [Directive.isText, Directive.isError, stepSkipping]

theorem stepDirective_definition {d : Directive} (definition : d.isDefinition)
    (hm : s.mode = .outside) (start : s.content = 0) :
    s.stepDirective strict line d =
      { s with symbols := d.revise s.symbols }.dropping d.definitionEvents := by
  unfold stepDirective
  cases d <;> simp_all [Directive.isDefinition, stepOutside, Directive.revise,
    Directive.definitionEvents]

theorem stepDirective_late {d : Directive} (definition : d.isDefinition)
    (late : s.mode ≠ .outside ∨ 0 < s.content) :
    s.stepDirective strict line d = lateDefinition line := by
  unfold stepDirective
  cases hm : s.mode <;> cases d <;>
    simp_all [Directive.isDefinition, stepOutside, stepKeeping, stepSkipping]

theorem stepDirective_opening (condition : Condition) :
    s.stepDirective strict line (.opening condition) =
      (s.enter (s.openedMode condition)).dropping := by
  unfold stepDirective openedMode
  cases hm : s.mode <;> simp [stepOutside, stepKeeping, stepSkipping]

theorem stepDirective_endIf (inside : s.mode ≠ .outside) :
    s.stepDirective strict line .endIf = s.leave.dropping := by
  unfold stepDirective
  cases hm : s.mode <;> simp_all [stepKeeping, stepSkipping]

theorem stepDirective_error (message : String) (counts : s.mode ≠ .skipping true) :
    s.stepDirective strict line (.error message) = .error (.userError message) := by
  unfold stepDirective
  cases hm : s.mode <;> simp_all [stepOutside, stepKeeping, stepSkipping]

theorem stepDirective_stray {d : Directive} (member : d.isSeparator ∨ d = .endIf)
    (hm : s.mode = .outside) : s.stepDirective strict line d = s.stray strict line := by
  unfold stepDirective
  cases d <;> simp_all [Directive.isSeparator, stepOutside]

/-- In a kept branch and in a dropped one a separator does no more than
`Mode.switch` says. -/
theorem stepDirective_separator {d : Directive} (separator : d.isSeparator)
    (inside : s.mode ≠ .outside) : s.stepDirective strict line d =
      { s with mode := s.mode.switch s.symbols s.inDropped d }.dropping := by
  obtain ⟨symbols, mode, frames, content, lineNumber⟩ := s
  cases mode with
  | outside => exact absurd rfl inside
  | keeping => cases d <;> simp_all [Directive.isSeparator, stepDirective, stepKeeping, Mode.switch]
  | skipping resolved =>
    simp only [stepDirective]
    generalize hd : inDropped _ = dropped
    cases d with
    | elseIf condition =>
      cases resolved <;> cases dropped <;> simp [stepSkipping, Mode.switch, hd]
      cases condition.holds symbols <;> rfl
    | otherwise => cases resolved <;> cases dropped <;> simp [stepSkipping, Mode.switch, hd]
    | _ => simp [Directive.isSeparator] at separator

/-! ## The ways a line is taken -/

/-- The ways in which a line is taken, and what it did. -/
inductive Advance (strict : Bool) (s : State) (line : String) : Step → Prop
  /-- A line of text is kept, and counts as content unless it is blank. -/
  | keep (text : (Directive.ofLine line).isText) (live : s.mode.isLive) :
    Advance strict s line (s.reported
      { s.countLine with content := s.content + if Text.isBlank line then 0 else 1 } .emit)
  /-- A line of text, or an `#error` that does not count, is dropped. -/
  | drop (resolved : Bool) (mode : s.mode = .skipping resolved)
    (text : (Directive.ofLine line).isText ∨ (Directive.ofLine line).isError ∧ resolved = true) :
    Advance strict s line (s.reported s.countLine .drop)
  /-- A definition before all content changes the table. -/
  | define (definition : (Directive.ofLine line).isDefinition) (mode : s.mode = .outside)
    (start : s.content = 0) :
    Advance strict s line (s.reported
      { s.countLine with symbols := (Directive.ofLine line).revise s.symbols } .drop
      (Directive.ofLine line).definitionEvents)
  /-- An `#if` opens a block. -/
  | enter (condition : Condition) (opening : Directive.ofLine line = .opening condition)
    (valid : condition.isValid) :
    Advance strict s line (s.reported (s.countLine.enter (s.openedMode condition)) .drop)
  /-- An `#endif` closes the innermost block. -/
  | leave (closing : Directive.ofLine line = .endIf) (inside : s.mode ≠ .outside) :
    Advance strict s line (s.reported s.countLine.leave .drop)
  /-- An `#elif` or `#else` goes on to the next branch. -/
  | switch (separator : (Directive.ofLine line).isSeparator)
    (wellFormed : (Directive.ofLine line).isMalformed = false) (inside : s.mode ≠ .outside) :
    Advance strict s line (s.reported
      { s.countLine with mode := s.mode.switch s.symbols s.inDropped (Directive.ofLine line) } .drop)
  /-- A lenient run ignores `#elif`, `#else` and `#endif` outside all
  blocks. -/
  | stray (member : (Directive.ofLine line).isSeparator ∨ Directive.ofLine line = .endIf)
    (wellFormed : (Directive.ofLine line).isMalformed = false) (mode : s.mode = .outside)
    (lenient : strict = false) :
    Advance strict s line (s.reported s.countLine .drop
      [.strayDirective s.countLine.lineNumber (Text.trim line)])

/-- The reasons for which a line stops the run. -/
inductive Refusal (strict : Bool) (s : State) (line : String) : Failure → Prop
  /-- The line is malformed. -/
  | malformed (malformed : (Directive.ofLine line).isMalformed) :
    Refusal strict s line (.invalidDirective (Text.trim line))
  /-- The line is an `#error`, and the chain is not resolved. -/
  | error (message : String) (error : Directive.ofLine line = .error message)
    (counts : s.mode ≠ .skipping true) : Refusal strict s line (.userError message)
  /-- The line is a definition, and content or a block stands before it. -/
  | late (definition : (Directive.ofLine line).isDefinition)
    (late : s.mode ≠ .outside ∨ 0 < s.content) :
    Refusal strict s line (.definitionNotAtStart (Text.trim line))
  /-- A strict run meets `#elif`, `#else` or `#endif` outside all blocks. -/
  | stray (member : (Directive.ofLine line).isSeparator ∨ Directive.ofLine line = .endIf)
    (wellFormed : (Directive.ofLine line).isMalformed = false) (mode : s.mode = .outside)
    (isStrict : strict = true) : Refusal strict s line (.unexpectedDirective (Text.trim line))

theorem step_of_isMalformed (h : (Directive.ofLine line).isMalformed) :
    s.step strict line = .error (.invalidDirective (Text.trim line)) := by
  simp [step, h]

/-- A line that is not malformed, by the mode of its directive. -/
theorem step_of_wellFormed (h : (Directive.ofLine line).isMalformed = false) :
    s.step strict line = match s.countLine.stepDirective strict line (Directive.ofLine line) with
      | .error failure => .error failure
      | .ok t => .ok (s.reported t.state t.verdict t.events) := by
  simp only [step, h, Bool.false_eq_true, if_false]
  rfl

theorem Advance.step_eq (h : Advance strict s line t) : s.step strict line = .ok t := by
  cases h with
  | keep text live =>
    rw [step_of_wellFormed (Directive.not_isMalformed_of_isText text),
      stepDirective_text (s := s.countLine) text live]
    cases hb : Text.isBlank line <;> simp [State.keep, hb] <;> rfl
  | drop resolved mode text =>
    have hw : (Directive.ofLine line).isMalformed = false := by
      rcases text with text | ⟨error, -⟩
      · exact Directive.not_isMalformed_of_isText text
      · cases hd : Directive.ofLine line <;> simp_all [Directive.isError, Directive.isMalformed]
    rw [step_of_wellFormed hw, stepDirective_dropped (s := s.countLine) mode text]
    rfl
  | define definition mode start =>
    rw [step_of_wellFormed (Directive.not_isMalformed_of_isDefinition definition),
      stepDirective_definition (s := s.countLine) definition mode start]
    rfl
  | enter condition opening valid =>
    rw [step_of_wellFormed (by simp [opening, Directive.isMalformed, valid]), opening,
      stepDirective_opening]
    rfl
  | leave closing inside =>
    rw [step_of_wellFormed (by rw [closing]; rfl), closing,
      stepDirective_endIf (s := s.countLine) inside]
    rfl
  | switch separator wellFormed inside =>
    rw [step_of_wellFormed wellFormed, stepDirective_separator (s := s.countLine) separator inside]
    rfl
  | stray member wellFormed mode lenient =>
    rw [step_of_wellFormed wellFormed, stepDirective_stray (s := s.countLine) member mode]
    rw [lenient]
    rfl

theorem Refusal.step_eq {failure : Failure} (h : Refusal strict s line failure) :
    s.step strict line = .error failure := by
  cases h with
  | malformed malformed => exact step_of_isMalformed malformed
  | error message error counts =>
    rw [step_of_wellFormed (by rw [error]; rfl), error,
      stepDirective_error (s := s.countLine) message counts]
  | late definition late =>
    rw [step_of_wellFormed (Directive.not_isMalformed_of_isDefinition definition),
      stepDirective_late (s := s.countLine) definition late]
    rfl
  | stray member wellFormed mode isStrict =>
    rw [step_of_wellFormed wellFormed, stepDirective_stray (s := s.countLine) member mode]
    rw [isStrict]
    rfl

/-- Every line is taken in one of the ways of `Advance` or stops the run by
`Refusal`. -/
theorem advance_or_refusal (strict : Bool) (s : State) (line : String) :
    (∃ t, Advance strict s line t) ∨ ∃ failure, Refusal strict s line failure := by
  cases hw : (Directive.ofLine line).isMalformed with
  | true => exact .inr ⟨_, .malformed hw⟩
  | false =>
    -- a line that is part of a block, outside all blocks and inside one
    have member (h : (Directive.ofLine line).isSeparator ∨ Directive.ofLine line = .endIf)
        (hm : s.mode = .outside) :
        (∃ t, Advance strict s line t) ∨ ∃ failure, Refusal strict s line failure := by
      cases hs : strict with
      | true => exact .inr ⟨_, .stray h hw hm rfl⟩
      | false => exact .inl ⟨_, .stray h hw hm rfl⟩
    have text (h : (Directive.ofLine line).isText) : ∃ t, Advance strict s line t := by
      cases hm : s.mode with
      | outside | keeping => exact ⟨_, .keep h (by rw [hm]; rfl)⟩
      | skipping resolved => exact ⟨_, .drop resolved hm (.inl h)⟩
    have definition (h : (Directive.ofLine line).isDefinition) :
        (∃ t, Advance strict s line t) ∨ ∃ failure, Refusal strict s line failure := by
      by_cases early : s.mode = .outside ∧ s.content = 0
      · exact .inl ⟨_, .define h early.1 early.2⟩
      · exact .inr ⟨_, .late h (by grind)⟩
    cases hd : Directive.ofLine line with
    | plain | passthrough => exact .inl (text (by rw [hd]; rfl))
    | define | undefine => exact definition (by rw [hd]; rfl)
    | opening condition =>
      exact .inl ⟨_, .enter condition hd (by simpa [hd, Directive.isMalformed] using hw)⟩
    | elseIf | otherwise =>
      by_cases hm : s.mode = .outside
      · exact member (.inl (by rw [hd]; rfl)) hm
      · exact .inl ⟨_, .switch (by rw [hd]; rfl) hw hm⟩
    | endIf =>
      by_cases hm : s.mode = .outside
      · exact member (.inr hd) hm
      · exact .inl ⟨_, .leave hd hm⟩
    | error message =>
      by_cases hm : s.mode = .skipping true
      · exact .inl ⟨_, .drop true hm (.inr ⟨by rw [hd]; rfl, rfl⟩)⟩
      · exact .inr ⟨_, .error message hd hm⟩
    | invalid => simp [hd, Directive.isMalformed] at hw

theorem step_eq_ok_iff : s.step strict line = .ok t ↔ Advance strict s line t := by
  refine ⟨fun h => ?_, Advance.step_eq⟩
  rcases advance_or_refusal strict s line with ⟨t', ha⟩ | ⟨failure, hr⟩
  · rw [ha.step_eq, Except.ok.injEq] at h
    exact h ▸ ha
  · rw [hr.step_eq] at h
    cases h

theorem step_eq_error_iff {failure : Failure} :
    s.step strict line = .error failure ↔ Refusal strict s line failure := by
  refine ⟨fun h => ?_, Refusal.step_eq⟩
  rcases advance_or_refusal strict s line with ⟨t, ha⟩ | ⟨failure', hr⟩
  · rw [ha.step_eq] at h
    cases h
  · rw [hr.step_eq, Except.error.injEq] at h
    exact h ▸ hr

/-- A line does one thing. -/
theorem Advance.unique {t' : Step} (h : Advance strict s line t) (h' : Advance strict s line t') :
    t = t' :=
  Except.ok.inj (h.step_eq.symm.trans h'.step_eq)

/-- A line that is taken is not malformed. -/
theorem Advance.wellFormed (h : Advance strict s line t) :
    (Directive.ofLine line).isMalformed = false := by
  cases hm : (Directive.ofLine line).isMalformed with
  | false => rfl
  | true =>
    rw [← step_eq_ok_iff, step_of_isMalformed hm] at h
    cases h

/-- The table after a line that is taken. -/
theorem Advance.symbols_revise (ha : Advance strict s line t) :
    t.state.symbols = (Directive.ofLine line).revise s.symbols := by
  have self (h : (Directive.ofLine line).isText ∨ (Directive.ofLine line).isError ∨
      (Directive.ofLine line).isSeparator) : s.symbols = (Directive.ofLine line).revise s.symbols :=
    (Directive.revise_eq_self (Directive.isDefinition_eq_false h) _).symm
  cases ha with
  | keep text live => exact self (.inl text)
  | drop resolved mode text => exact self (text.imp_right fun error => .inl error.1)
  | define definition mode start => rfl
  | enter condition opening valid => rw [opening]; rfl
  | leave closing inside => rw [closing]; exact leave_symbols s.countLine
  | switch separator wellFormed inside => exact self (.inr (.inr separator))
  | stray member wellFormed mode lenient =>
    rcases member with separator | closing
    · exact self (.inr (.inr separator))
    · rw [closing]; rfl

/-- Every line that is taken is counted once. -/
theorem Advance.lineNumber (h : Advance strict s line t) : t.state.lineNumber = s.lineNumber + 1 := by
  cases h with
  | leave closing inside => exact leave_lineNumber s.countLine
  | _ => rfl

end State

end Selection

end Amalgam
