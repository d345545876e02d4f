import Amalgam.Proofs.Selection.Pulls

/-!
# What a run reads of its table

A run looks into its table of symbols to evaluate a condition and for nothing
else, and not every `#if` or `#elif` makes it do so (`State.asks?`). So of two
runs that stand alike but for their tables (`State.Alike`) a line stops both or
none (`Alike.refusal`), and takes them to states that are alike again if the
tables give the condition it asks for the same value (`Alike.advance`).

Definitions change both tables in the same way, so tables that agree on some
names still agree on them later (`Agree.revise`). `Stream.pull_eq_of_agree` is
what follows for streams: only the symbols that the conditions of the lines
name matter, whatever else the tables hold.
-/

namespace Amalgam

namespace Directive

/-- The condition of an `#if` or `#elif`, if it asks something. -/
def condition? : Directive → Option Condition
  | opening condition | elseIf condition => if condition.isValid then some condition else none
  | _ => none

end Directive

/-! ## Tables that agree -/

namespace Symbols

/-- The tables agree on the given names. -/
def Agree (names : List String) (a b : Symbols) : Prop :=
  ∀ name ∈ names, name ∈ a ↔ name ∈ b

variable {names names' : List String} {a b : Symbols}

theorem Agree.mono (h : Agree names a b) (hsub : names' ⊆ names) : Agree names' a b :=
  fun name hm => h name (hsub hm)

/-- A condition has the same value for tables that agree on its symbol. -/
theorem Agree.holds (h : Agree names a b) {condition : Condition} (hm : condition.symbol ∈ names) :
    condition.holds a = condition.holds b := by
  have hc : a.contains condition.symbol = b.contains condition.symbol := by
    rw [Bool.eq_iff_iff, Std.ExtTreeSet.contains_iff_mem, Std.ExtTreeSet.contains_iff_mem]
    exact h _ hm
  simp only [Condition.holds, hc]

/-- A line changes tables that agree into tables that agree. -/
theorem Agree.revise (h : Agree names a b) (d : Directive) : Agree names (d.revise a) (d.revise b) := by
  intro name hm
  cases d with
  | define symbol =>
    simp only [Directive.revise, Symbols.define, Std.ExtTreeSet.mem_insert, h name hm]
  | undefine symbol =>
    simp only [Directive.revise, Symbols.undefine, Std.ExtTreeSet.mem_erase, h name hm]
  | _ => exact h name hm

end Symbols

namespace Selection

/-! ## What a line asks -/

namespace State

/-- The condition that a line makes a run look up, if it does: that of an `#if`
where lines are kept, and that of an `#elif` while no branch of its chain has
been taken. -/
def asks? (s : State) : Directive → Option Condition
  | .opening condition => if s.mode.isLive then some condition else none
  | .elseIf condition =>
    if s.mode = .skipping false ∧ s.inDropped = false then some condition else none
  | _ => none

/-- The states differ at most in their tables and in the number of lines before
them. -/
structure Alike (s s' : State) : Prop where
  mode : s.mode = s'.mode
  frames : s.frames = s'.frames
  content : s.content = s'.content

namespace Alike

variable {strict : Bool} {s s' : State} {line : String} {t : Step} {failure : Failure}

theorem depth (h : s.Alike s') : s.depth = s'.depth := congrArg List.length h.frames

theorem inDropped (h : s.Alike s') : s.inDropped = s'.inDropped := by
  simp only [State.inDropped, h.frames]

theorem countLine (h : s.Alike s') : s.countLine.Alike s'.countLine := ⟨h.mode, h.frames, h.content⟩

theorem enter (h : s.Alike s') (mode : Mode) : (s.enter mode).Alike (s'.enter mode) := by
  refine ⟨rfl, ?_, ?_⟩
  · simp only [State.enter, h.mode, h.frames]
  · simp only [State.enter, h.content]

theorem leave (h : s.Alike s') : s.leave.Alike s'.leave := by
  refine ⟨?_, ?_, ?_⟩
  · simp only [State.leave, h.frames]
    split
    · exact h.mode
    · rfl
  · simp only [State.leave, h.frames]
    split
    · exact h.frames
    · rfl
  · rw [leave_content, leave_content]
    exact h.content

/-- The first branch of a block has the same mode in both states. -/
theorem openedMode_eq (h : s.Alike s') {condition : Condition}
    (hc : ∀ c ∈ s.asks? (.opening condition), c.holds s.symbols = c.holds s'.symbols) :
    s.openedMode condition = s'.openedMode condition := by
  cases live : s.mode.isLive with
  | true =>
    have hholds := hc condition (by simp [asks?, live])
    rw [openedMode_of_isLive live, openedMode_of_isLive (h.mode ▸ live), hholds]
  | false =>
    simp only [openedMode, ← h.mode]
    cases hm : s.mode with
    | outside | keeping => rw [hm] at live; cases live
    | skipping resolved => rfl

/-- The next branch of a block has the same mode in both states. -/
theorem switch_eq (h : s.Alike s') {d : Directive}
    (hc : ∀ c ∈ s.asks? d, c.holds s.symbols = c.holds s'.symbols) :
    s.mode.switch s.symbols s.inDropped d = s'.mode.switch s'.symbols s'.inDropped d := by
  rw [← h.mode, ← h.inDropped]
  cases hm : s.mode with
  | outside | keeping => cases d <;> rfl
  | skipping resolved =>
    cases resolved with
    | true => rw [Mode.switch_resolved, Mode.switch_resolved]
    | false =>
      cases d with
      | elseIf condition =>
        cases hd : s.inDropped with
        | true => rw [Mode.switch_dropped, Mode.switch_dropped]
        | false =>
          have hholds := hc condition (by simp [asks?, hm, hd])
          simp only [Mode.switch, hholds]
      | _ => rfl

/-- What stops a run does not depend on the table. -/
theorem refusal (h : s.Alike s') (hr : Refusal strict s line failure) :
    Refusal strict s' line failure := by
  cases hr with
  | malformed malformed => exact .malformed malformed
  | error message error counts => exact .error message error (h.mode ▸ counts)
  | late definition late => exact .late definition (h.mode ▸ h.content ▸ late)
  | stray member wellFormed mode isStrict => exact .stray member wellFormed (h.mode ▸ mode) isStrict

/-- A line takes states that are alike to states that are alike, if the tables
give the condition that it asks for the same value. -/
theorem advance (h : s.Alike s') (hc : ∀ c ∈ s.asks? (Directive.ofLine line),
      c.holds s.symbols = c.holds s'.symbols) (ha : Advance strict s line t) :
    ∃ t', Advance strict s' line t' ∧ t'.verdict = t.verdict ∧ t.state.Alike t'.state := by
  have hcount := h.countLine
  cases ha with
  | keep text live =>
    refine ⟨_, .keep text (h.mode ▸ live), rfl, h.mode, h.frames, ?_⟩
    simp only [reported_state, h.content]
  | drop resolved mode text => exact ⟨_, .drop resolved (h.mode ▸ mode) text, rfl, hcount⟩
  | define definition mode start =>
    exact ⟨_, .define definition (h.mode ▸ mode) (h.content ▸ start), rfl, h.mode, h.frames, h.content⟩
  | enter condition opening valid =>
    refine ⟨_, .enter condition opening valid, rfl, ?_⟩
    rw [opening] at hc
    rw [reported_state, reported_state, h.openedMode_eq hc]
    exact hcount.enter _
  | leave closing inside => exact ⟨_, .leave closing (h.mode ▸ inside), rfl, hcount.leave⟩
  | switch separator wellFormed inside =>
    exact ⟨_, .switch separator wellFormed (h.mode ▸ inside), rfl, h.switch_eq hc, h.frames, h.content⟩
  | stray member wellFormed mode lenient =>
    exact ⟨_, .stray member wellFormed (h.mode ▸ mode) lenient, rfl, hcount⟩

end Alike

section

variable {strict : Bool} {s s' : State} {line : String} {t : Step}

/-- Only the condition of the line itself is looked up, and not if it asks
nothing: such a line is malformed. -/
theorem asks?_eq_condition? (ha : Advance strict s line t) {condition : Condition}
    (h : condition ∈ s.asks? (Directive.ofLine line)) :
    (Directive.ofLine line).condition? = some condition := by
  have hw := ha.wellFormed
  cases hd : Directive.ofLine line with
  | opening c | elseIf c =>
    rw [hd] at h hw
    simp only [asks?, Option.mem_def, Option.ite_none_right_eq_some, Option.some.injEq] at h
    simp_all [Directive.condition?, Directive.isMalformed]
  | _ => rw [hd] at h; cases h

end

end State

/-! ## Streams -/

/-- The symbols that the conditions of the lines name. -/
def tested (lines : List String) : List String :=
  lines.filterMap fun line => (Directive.ofLine line).condition?.map Condition.symbol

theorem tested_cons_subset (line : String) (lines : List String) :
    tested lines ⊆ tested (line :: lines) := by
  intro name hm
  obtain ⟨line', hl, hn⟩ := List.mem_filterMap.mp hm
  exact List.mem_filterMap.mpr ⟨line', List.mem_cons_of_mem line hl, hn⟩

/-- The streams differ at most in their tables and line counts, and the tables
agree on the symbols that the lines still to be taken test. -/
structure Stream.Alike (e e' : Stream) : Prop where
  strictness : e.strict = e'.strict
  state : e.state.Alike e'.state
  lines : e.lines = e'.lines
  finished : e.finished = e'.finished
  agree : Symbols.Agree (tested e.lines) e.state.symbols e'.state.symbols

/-- The pulls give the same and leave streams that are alike. -/
structure Pull.Alike (p p' : Pull) : Prop where
  item? : p.item? = p'.item?
  stream : p.stream.Alike p'.stream

namespace Stream

variable {strict : Bool} {symbols symbols' : Symbols} {lines : List String} {e e' : Stream}

/-- The end of the lines. -/
theorem pullFrom_nil_alike {s s' : State} (h : s.Alike s') (events events' : Array Event) :
    (pullFrom strict s events []).Alike (pullFrom strict s' events' []) := by
  have hclose : s'.close strict = s.close strict := by simp only [State.close, h.depth]
  have hended : Alike { strict, state := s, lines := [], finished := true }
      { strict, state := s', lines := [], finished := true } :=
    ⟨rfl, h, rfl, rfl, fun _ hm => absurd hm List.not_mem_nil⟩
  simp only [pullFrom, hclose]
  cases s.close strict with
  | error failure => exact ⟨rfl, hended⟩
  | ok closing => exact ⟨rfl, hended⟩

theorem pullFrom_alike {s s' : State} (h : s.Alike s')
    (hg : Symbols.Agree (tested lines) s.symbols s'.symbols) (events events' : Array Event) :
    (pullFrom strict s events lines).Alike (pullFrom strict s' events' lines) := by
  induction lines generalizing s s' events events' with
  | nil => exact pullFrom_nil_alike h events events'
  | cons line lines ih =>
    have hrest : Symbols.Agree (tested lines) s.symbols s'.symbols :=
      hg.mono (tested_cons_subset line lines)
    cases hs : s.step strict line with
    | error failure =>
      have hs' := (h.refusal (State.step_eq_error_iff.mp hs)).step_eq
      simp only [pullFrom, hs, hs']
      exact ⟨rfl, rfl, h.countLine, rfl, rfl, hrest⟩
    | ok t =>
      have ha := State.step_eq_ok_iff.mp hs
      have hasked : ∀ c ∈ s.asks? (Directive.ofLine line), c.holds s.symbols = c.holds s'.symbols := by
        intro c hc
        refine hg.holds (List.mem_filterMap.mpr ⟨line, List.mem_cons_self .., ?_⟩)
        rw [State.asks?_eq_condition? ha hc]
        rfl
      obtain ⟨t', ha', hv, ht⟩ := h.advance hasked ha
      have hs' := ha'.step_eq
      have hg' : Symbols.Agree (tested lines) t.state.symbols t'.state.symbols := by
        rw [ha.symbols_revise, ha'.symbols_revise]
        exact hrest.revise _
      obtain ⟨state, verdict, caused⟩ := t
      obtain ⟨state', verdict', caused'⟩ := t'
      obtain rfl : verdict' = verdict := hv
      simp only [pullFrom, hs, hs']
      cases verdict' with
      | emit => exact ⟨rfl, rfl, ht, rfl, rfl, hg'⟩
      | drop => exact ih ht hg' _ _

/-- Streams that are alike give the same when pulled, and are alike
afterwards. -/
theorem Alike.next (h : e.Alike e') : e.next.Alike e'.next := by
  obtain ⟨hstrict, hstate, hlines, hfinished, hagree⟩ := h
  cases hf : e.finished with
  | true =>
    rw [next_of_finished hf, next_of_finished (hfinished ▸ hf)]
    exact ⟨rfl, hstrict, hstate, hlines, hfinished, hagree⟩
  | false =>
    have hf' : e'.finished = false := hfinished ▸ hf
    simp only [Stream.next, hf, hf', ← hstrict, ← hlines, Bool.false_eq_true, if_false]
    exact pullFrom_alike hstate hagree _ _

theorem Alike.after (h : e.Alike e') (n : Nat) : (e.after n).Alike (e'.after n) := by
  induction n with
  | zero => exact h
  | succ n ih => exact ih.next.stream

/-- Only tested symbols matter: if two tables agree on every symbol that an
`#if` or `#elif` of the lines names, then every pull gives the same from both,
and leaves the same mode and the same number of open blocks. -/
theorem pull_eq_of_agree (strict : Bool) (lines : List String)
    (h : ∀ name ∈ tested lines, name ∈ symbols ↔ name ∈ symbols') (n : Nat) :
    ((start strict symbols lines).pull n).item? = ((start strict symbols' lines).pull n).item? ∧
    ((start strict symbols lines).pull n).stream.state.mode =
      ((start strict symbols' lines).pull n).stream.state.mode ∧
    ((start strict symbols lines).pull n).stream.state.depth =
      ((start strict symbols' lines).pull n).stream.state.depth := by
  have hstart : (start strict symbols lines).Alike (start strict symbols' lines) :=
    ⟨rfl, ⟨rfl, rfl, rfl⟩, rfl, rfl, h⟩
  have hpull := (hstart.after n).next
  exact ⟨hpull.item?, hpull.stream.state.mode, hpull.stream.state.depth⟩

/-- Tables that differ in symbols which the lines define, undefine or never
name. -/
theorem pull_eq_of_agree_untested :
    (∀ name ∈ tested ["#define X", "#undef A", "#if !A", "x", "#elif B", "#endif"],
      name ∈ Symbols.ofNames ["A", "X"] ↔ name ∈ Symbols.ofNames ["C", "A"]) ∧
    ∀ n, ((start true (Symbols.ofNames ["A", "X"])
        ["#define X", "#undef A", "#if !A", "x", "#elif B", "#endif"]).pull n).item? =
      ((start true (Symbols.ofNames ["C", "A"])
        ["#define X", "#undef A", "#if !A", "x", "#elif B", "#endif"]).pull n).item? :=
  ⟨by decide +kernel, fun n => (pull_eq_of_agree true _ (by decide +kernel) n).1⟩

end Stream

end Selection

end Amalgam
