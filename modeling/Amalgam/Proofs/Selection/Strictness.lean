import Amalgam.Proofs.Selection.Pulls

/-!
# Strict runs

A strict run is a lenient one that fails where the other warns. What a lenient
run warns of is a directive that belongs to a block when none is open, and
blocks that are open at the end; every other line does the same to both
(`Advance.strict_or_stray`, `Refusal.toStrict`).

`Compared` puts the two pulls from one state side by side: they are the same,
or the lenient one logs a warning and the strict one fails there. So the two
streams stay together up to the first warning (`after_strict`), and
`pull_strict` says all of it for the streams over the same lines.
-/

namespace Amalgam

/-- Whether the event is a warning. -/
def Event.isWarning (e : Event) : Bool :=
  e.level = .warn

namespace Selection

/-- The first warning among the events. -/
def firstWarning (events : Array Event) : Option Event :=
  events.toList.find? Event.isWarning

theorem firstWarning_append (events : Array Event) (later : List Event) :
    firstWarning (events ++ later) = (firstWarning events).or (later.find? Event.isWarning) := by
  rw [firstWarning, Array.toList_appendList, List.find?_append]
  rfl

/-- The first warning that a pull logs. -/
def Pull.warning? (p : Pull) : Option Event :=
  firstWarning p.events

/-! ## One line -/

namespace State

variable {s : State} {line : String} {t : Step} {failure : Failure}

theorem find?_isWarning_definitionEvents (d : Directive) :
    d.definitionEvents.find? Event.isWarning = none := by
  cases d <;> rfl

/-- The record of a step is no warning. -/
theorem find?_isWarning_reported (before s : State) (verdict : Verdict) (events : List Event) :
    (before.reported s verdict events).events.find? Event.isWarning =
      events.find? Event.isWarning := by
  simp [reported, Event.isWarning, Event.level]

/-- A line that a lenient run takes is taken by a strict run too, or it is a
directive outside all blocks, which the one warns of and the other refuses. -/
theorem Advance.strict_or_stray (ha : Advance false s line t) :
    (Advance true s line t ∧ t.events.find? Event.isWarning = none) ∨
    (Refusal true s line (.unexpectedDirective (Text.trim line)) ∧ t.verdict = .drop ∧
      t.events.find? Event.isWarning = some (.strayDirective (s.lineNumber + 1) (Text.trim line))) := by
  cases ha with
  | keep text live => exact .inl ⟨.keep text live, find?_isWarning_reported ..⟩
  | drop resolved mode text => exact .inl ⟨.drop resolved mode text, find?_isWarning_reported ..⟩
  | define definition mode start =>
    refine .inl ⟨.define definition mode start, ?_⟩
    rw [find?_isWarning_reported, find?_isWarning_definitionEvents]
  | enter condition opening valid =>
    exact .inl ⟨.enter condition opening valid, find?_isWarning_reported ..⟩
  | leave closing inside => exact .inl ⟨.leave closing inside, find?_isWarning_reported ..⟩
  | switch separator wellFormed inside =>
    exact .inl ⟨.switch separator wellFormed inside, find?_isWarning_reported ..⟩
  | stray member wellFormed mode lenient =>
    exact .inr ⟨.stray member wellFormed mode rfl, rfl, find?_isWarning_reported ..⟩

/-- A line that stops a lenient run stops a strict one for the same reason. -/
theorem Refusal.toStrict (hr : Refusal false s line failure) : Refusal true s line failure := by
  cases hr with
  | malformed malformed => exact .malformed malformed
  | error message error counts => exact .error message error counts
  | late definition late => exact .late definition late
  | stray member wellFormed mode isStrict => cases isStrict

end State

/-! ## One pull -/

/-- The same stream, strict from here on. -/
def Stream.asStrict (e : Stream) : Stream :=
  { e with strict := true }

/-- The pulls from one state, of a lenient stream and of a strict one, if
`taken` lines were taken before and `lines` are to be taken. -/
inductive Pull.Compared (taken : Nat) (lines : List String) (lenient strict : Pull) : Prop
  /-- Without a warning both do the same. -/
  | same (quiet : lenient.warning? = none) (item : strict.item? = lenient.item?)
    (stream : strict.stream = lenient.stream.asStrict) (events : strict.events = lenient.events)
  /-- The strict pull fails at the line that the first warning names. -/
  | stray (dropped : List String) (line : String) (rest : List String)
    (split : lines = dropped ++ line :: rest)
    (warns : lenient.warning? =
      some (.strayDirective (taken + dropped.length + 1) (Text.trim line)))
    (quiet : strict.warning? = none)
    (item : strict.item? = some (.error (.unexpectedDirective (Text.trim line))))
    (at_ : strict.stream.state.lineNumber = taken + dropped.length + 1)
  /-- The strict pull fails at the end. -/
  | unterminated (depth : Nat) (warns : lenient.warning? = some (.unterminated depth))
    (quiet : strict.warning? = none)
    (item : strict.item? = some (.error (.unterminatedConditional depth)))

/-- A dropped line in front of two pulls. -/
theorem Pull.Compared.cons {taken : Nat} {lines : List String} {lenient strict : Pull}
    (line : String) (h : Pull.Compared (taken + 1) lines lenient strict) :
    Pull.Compared taken (line :: lines) lenient strict := by
  cases h with
  | same quiet item stream events => exact .same quiet item stream events
  | stray dropped line' rest split warns quiet item at_ =>
    have hn : taken + (line :: dropped).length + 1 = taken + 1 + dropped.length + 1 := by
      rw [List.length_cons]
      omega
    refine .stray (line :: dropped) line' rest (by rw [split]; rfl) ?_ quiet item ?_
    · rw [hn]; exact warns
    · rw [hn]; exact at_
  | unterminated depth warns quiet item => exact .unterminated depth warns quiet item

namespace Stream

variable {s : State} {events : Array Event} {lines : List String} {e : Stream} {symbols : Symbols}
  {n : Nat}

/-- What was logged before comes first. -/
theorem warning?_pullFrom {strict : Bool} {w : Event} (h : firstWarning events = some w)
    (lines : List String) : (pullFrom strict s events lines).warning? = some w := by
  have more {events : Array Event} (h : firstWarning events = some w) (later : List Event) :
      firstWarning (events ++ later) = some w := by
    rw [firstWarning_append, h]
    rfl
  induction lines generalizing s events with
  | nil =>
    simp only [pullFrom]
    cases s.close strict with
    | error failure => exact h
    | ok closing => exact more h closing
  | cons line lines ih =>
    simp only [pullFrom]
    cases s.step strict line with
    | error failure => exact h
    | ok t =>
      obtain ⟨state, verdict, caused⟩ := t
      cases verdict with
      | emit => exact more h caused
      | drop => exact ih (more h caused)

/-- The end of the lines. -/
theorem compared_nil (taken : Nat) (h : firstWarning events = none) :
    Pull.Compared taken [] (pullFrom false s events []) (pullFrom true s events []) := by
  by_cases hd : s.depth = 0
  · have hclose (strict : Bool) : s.close strict = .ok [] := by simp [State.close, hd]
    simp only [pullFrom, hclose]
    refine .same ?_ rfl rfl rfl
    rw [Pull.warning?, firstWarning_append, h]
    rfl
  · have hlenient : s.close false = .ok [.unterminated s.depth] := by simp [State.close, hd]
    have hstrict : s.close true = .error (.unterminatedConditional s.depth) := by simp [State.close, hd]
    simp only [pullFrom, hlenient, hstrict]
    refine .unterminated s.depth ?_ h rfl
    rw [Pull.warning?, firstWarning_append, h]
    rfl

theorem compared_pullFrom (h : firstWarning events = none) (lines : List String) :
    Pull.Compared s.lineNumber lines (pullFrom false s events lines) (pullFrom true s events lines) := by
  induction lines generalizing s events with
  | nil => exact compared_nil s.lineNumber h
  | cons line lines ih =>
    cases hs : s.step false line with
    | error failure =>
      have hs' := (State.step_eq_error_iff.mp hs).toStrict.step_eq
      simp only [pullFrom, hs, hs']
      exact .same h rfl rfl rfl
    | ok t =>
      have ha := State.step_eq_ok_iff.mp hs
      rcases ha.strict_or_stray with ⟨ha', hquiet⟩ | ⟨hr, hdrop, hwarns⟩
      · have hs' := ha'.step_eq
        have hmore : firstWarning (events ++ t.events) = none := by
          rw [firstWarning_append, h, hquiet]
          rfl
        have hline := ha.lineNumber
        obtain ⟨state, verdict, caused⟩ := t
        simp only [pullFrom, hs, hs']
        cases verdict with
        | emit => exact .same hmore rfl rfl rfl
        | drop =>
          have hrest := ih (s := state) hmore
          rw [hline] at hrest
          exact hrest.cons line
      · -- the lenient pull has logged its first warning, and the strict one is over
        have hs' := hr.step_eq
        have hmore : firstWarning (events ++ t.events) =
            some (.strayDirective (s.lineNumber + 1) (Text.trim line)) := by
          rw [firstWarning_append, h, hwarns]
          rfl
        obtain ⟨state, verdict, caused⟩ := t
        obtain rfl : verdict = .drop := hdrop
        simp only [pullFrom, hs, hs']
        exact .stray [] line lines rfl (warning?_pullFrom hmore lines) h rfl rfl

/-! ## Streams -/

/-- A lenient stream and the same stream made strict, pulled once. -/
theorem compared_next (hl : e.strict = false) :
    Pull.Compared e.state.lineNumber e.lines e.next e.asStrict.next := by
  cases hf : e.finished with
  | true =>
    rw [next_of_finished hf, next_of_finished (e := e.asStrict) hf]
    exact .same rfl rfl rfl rfl
  | false =>
    simp only [next, asStrict, hf, hl, Bool.false_eq_true, if_false]
    exact compared_pullFrom rfl e.lines

/-- A strict stream logs no warning. -/
theorem warning?_next_of_strict (hs : e.strict = true) : e.next.warning? = none := by
  have h := compared_next (e := { e with strict := false }) rfl
  rw [show asStrict { e with strict := false } = e by rw [asStrict, ← hs]] at h
  cases h with
  | same quiet item stream events => rw [Pull.warning?, events]; exact quiet
  | stray _ _ _ _ _ quiet _ _ => exact quiet
  | unterminated _ _ quiet _ => exact quiet

/-- The streams stay together as long as the lenient one logs no warning. -/
theorem after_strict (h : ∀ k < n, ((start false symbols lines).pull k).warning? = none) :
    (start true symbols lines).after n = ((start false symbols lines).after n).asStrict := by
  induction n with
  | zero => rfl
  | succ n ih =>
    have hn := h n (Nat.lt_succ_self n)
    have hstep := compared_next (after_strictness false symbols lines n)
    show ((start true symbols lines).after n).next.stream = _
    rw [ih fun k hk => h k (Nat.lt_succ_of_lt hk)]
    cases hstep with
    | same quiet item stream events => exact stream
    | stray _ _ _ _ warns _ _ _ => cases hn.symm.trans warns
    | unterminated _ warns _ _ => cases hn.symm.trans warns

/-- A strict stream over lines is the lenient one, cut at its first warning. It
logs no warning itself. As long as the lenient stream logs none, each pull
gives the same from both and leaves the same state. The pull in which the
lenient stream logs its first warning fails in the strict one: at the line that
the warning names if it is about a directive outside all blocks, and with the
number of open blocks that it names if it is about the end of the lines. -/
theorem pull_strict (symbols : Symbols) (lines : List String) :
    (∀ n, ((start true symbols lines).pull n).warning? = none) ∧
    (∀ n, (∀ k ≤ n, ((start false symbols lines).pull k).warning? = none) →
      ((start true symbols lines).pull n).item? = ((start false symbols lines).pull n).item? ∧
      ((start true symbols lines).pull n).stream.state =
        ((start false symbols lines).pull n).stream.state) ∧
    (∀ n w, (∀ k < n, ((start false symbols lines).pull k).warning? = none) →
      ((start false symbols lines).pull n).warning? = some w →
      (∃ i line, lines[i]? = some line ∧ w = .strayDirective (i + 1) (Text.trim line) ∧
        ((start true symbols lines).pull n).item? =
          some (.error (.unexpectedDirective (Text.trim line))) ∧
        ((start true symbols lines).pull n).stream.state.lineNumber = i + 1) ∨
      (∃ depth, w = .unterminated depth ∧
        ((start true symbols lines).pull n).item? =
          some (.error (.unterminatedConditional depth)))) := by
  have compared (n : Nat) (h : ∀ k < n, ((start false symbols lines).pull k).warning? = none) :
      Pull.Compared ((start false symbols lines).after n).state.lineNumber
        ((start false symbols lines).after n).lines ((start false symbols lines).pull n)
        ((start true symbols lines).pull n) := by
    have := compared_next (after_strictness false symbols lines n)
    rwa [← after_strict h] at this
  refine ⟨fun n => ?_, fun n h => ?_, fun n w h hw => ?_⟩
  · exact warning?_next_of_strict (after_strictness true symbols lines n)
  · have hn := h n (Nat.le_refl n)
    cases compared n fun k hk => h k (Nat.le_of_lt hk) with
    | same quiet item stream events => exact ⟨item, by rw [stream]; rfl⟩
    | stray _ _ _ _ warns _ _ _ => cases hn.symm.trans warns
    | unterminated _ warns _ _ => cases hn.symm.trans warns
  · cases compared n h with
    | same quiet item stream events => cases hw.symm.trans quiet
    | stray dropped line rest split warns quiet item at_ =>
      have hf : ((start false symbols lines).after n).finished = false := by
        cases hf : ((start false symbols lines).after n).finished with
        | false => rfl
        | true =>
          rw [pull, next_of_finished hf] at hw
          cases hw
      refine .inl ⟨_, line, ?_, Option.some.inj (hw.symm.trans warns), item, at_⟩
      rw [getElem?_lineNumber_add hf, split, List.getElem?_append_right (Nat.le_refl _), Nat.sub_self]
      rfl
    | unterminated depth warns quiet item =>
      exact .inr ⟨depth, Option.some.inj (hw.symm.trans warns), item⟩

/-- The second pull of the lenient stream skips a stray `#else`, which the
strict stream stops at. -/
theorem pull_strict_stray_else :
    ((start false ∅ ["x", " #else", "y", "#if A"]).pull 1).warning? =
      some (.strayDirective 2 "#else") ∧
    ((start true ∅ ["x", " #else", "y", "#if A"]).pull 0).item? =
      ((start false ∅ ["x", " #else", "y", "#if A"]).pull 0).item? ∧
    ((start true ∅ ["x", " #else", "y", "#if A"]).pull 1).item? =
      some (.error (.unexpectedDirective "#else")) := by
  have h0 : ∀ k ≤ 0, ((start false ∅ ["x", " #else", "y", "#if A"]).pull k).warning? = none := by
    decide +kernel
  have h1 : ((start false ∅ ["x", " #else", "y", "#if A"]).pull 1).warning? =
      some (.strayDirective 2 "#else") := by decide +kernel
  obtain ⟨-, hsame, hcut⟩ := pull_strict ∅ ["x", " #else", "y", "#if A"]
  refine ⟨h1, (hsame 0 h0).1, ?_⟩
  have hbefore := fun k hk => h0 k (Nat.le_of_lt_succ hk)
  rcases hcut 1 _ hbefore h1 with ⟨i, line, -, hw, hitem, -⟩ | ⟨_, hw, -⟩
  · rw [hitem, (Event.strayDirective.inj hw).2]
  · cases hw

end Stream

end Selection

end Amalgam
