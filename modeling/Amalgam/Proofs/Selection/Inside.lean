import Amalgam.Proofs.Selection.Nesting

/-!
# Inside a block

While a run is inside a block, the modes around the block stay, and so does the
mode of the branch it is in, however deep the blocks inside the branch are
(`Inside.advance`). Only a separator of the block itself changes that mode
(`Inside.switch`). Inside a dropped branch no line is kept, at any depth
(`Inside.drop`).
-/

namespace Amalgam.Selection

/-- The run is inside a block: it is in a branch of it in `mode`, or in `depth`
further blocks inside that branch, and the modes around the block are
`outer`. -/
def State.Inside (s : State) (depth : Nat) (mode : Mode) (outer : List Mode) : Prop :=
  ∃ inner : List Mode, inner.length = depth ∧ s.modes = inner ++ mode :: outer

namespace State.Inside

variable {strict : Bool} {s : State} {line : String} {t : Step} {depth : Nat} {mode around : Mode}
  {outer : List Mode}

theorem frames_ne_nil (h : s.Inside depth mode (around :: outer)) : s.frames ≠ [] := by
  obtain ⟨inner, -, hm⟩ := h
  have := congrArg List.length hm
  simp only [modes, List.length_cons, List.length_append] at this
  intro hf
  rw [hf, List.length_nil] at this
  omega

theorem mode_ne_outside (h : s.Inside depth mode (around :: outer)) (hs : s.Sound) :
    s.mode ≠ .outside :=
  fun ho => h.frames_ne_nil (hs.mode_eq_outside_iff.mp ho)

/-- Inside a block that was opened inside the branch a run is not outside all
blocks. -/
theorem mode_ne_outside_of_pos (h : s.Inside depth mode outer) (hd : 0 < depth) (hs : s.Sound) :
    s.mode ≠ .outside := by
  obtain ⟨inner, rfl, hm⟩ := h
  cases inner with
  | nil => exact absurd hd (Nat.lt_irrefl 0)
  | cons top inner =>
    intro ho
    have hf : s.frames = inner ++ mode :: outer := (List.cons.inj hm).2
    rw [hs.mode_eq_outside_iff.mp ho] at hf
    simp at hf

/-- Opening a block inside a branch. -/
theorem push (h : s.Inside depth mode outer) (inner : Mode) :
    (s.countLine.enter inner).Inside (depth + 1) mode outer := by
  obtain ⟨inner', hl, hm⟩ := h
  exact ⟨inner :: inner', by rw [List.length_cons, hl], by rw [modes_enter, modes_countLine, hm]; rfl⟩

/-- Closing a block inside a branch. -/
theorem pop (h : s.Inside (depth + 1) mode outer) : s.countLine.leave.Inside depth mode outer := by
  obtain ⟨inner, hl, hm⟩ := h
  cases inner with
  | nil => cases hl
  | cons top inner =>
    have hf : s.countLine.frames = inner ++ mode :: outer := (List.cons.inj hm).2
    refine ⟨inner, Nat.succ.inj hl, ?_⟩
    rw [modes_leave _ (by rw [hf]; simp), modes_countLine, hm]
    rfl

/-- Going on in a block inside a branch. -/
theorem setMode (h : s.Inside (depth + 1) mode outer) (top : Mode) :
    { s.countLine with mode := top }.Inside (depth + 1) mode outer := by
  obtain ⟨inner, hl, hm⟩ := h
  cases inner with
  | nil => cases hl
  | cons top' inner =>
    exact ⟨top :: inner, hl, congrArg (top :: ·) (List.cons.inj hm).2⟩

/-- A line inside a branch leaves the mode of the branch and the modes around
the block alone. -/
theorem advance (h : s.Inside depth mode outer) (inside : s.mode ≠ .outside)
    (ha : Advance strict s line t) (hsep : depth = 0 → (Directive.ofLine line).isSeparator = false)
    (hend : depth = 0 → Directive.ofLine line ≠ .endIf) :
    t.state.Inside ((Directive.ofLine line).nest depth) mode outer := by
  cases ha with
  | keep text live => rw [Directive.nest_eq_self (.inl text)]; exact h
  | drop resolved mode text =>
    rw [Directive.nest_eq_self (text.imp_right fun error => .inl error.1)]
    exact h
  | define definition mode start => exact absurd mode inside
  | enter condition opening valid => rw [opening]; exact h.push _
  | leave closing _ =>
    cases depth with
    | zero => exact absurd closing (hend rfl)
    | succ depth => rw [closing]; exact h.pop
  | switch separator wellFormed _ =>
    cases depth with
    | zero => rw [hsep rfl] at separator; cases separator
    | succ depth =>
      rw [Directive.nest_eq_self (.inr (.inr (.inr separator)))]
      exact h.setMode _
  | stray member wellFormed mode lenient => exact absurd mode inside

/-- A separator of the block itself leads to the next branch. -/
theorem switch (h : s.Inside 0 mode (around :: outer)) (hs : s.Sound)
    (ha : Advance strict s line t) (hsep : (Directive.ofLine line).isSeparator) :
    t.state.Inside 0 (mode.switch s.symbols (!around.isLive) (Directive.ofLine line))
      (around :: outer) := by
  have inside := h.mode_ne_outside hs
  obtain ⟨inner, hl, hm⟩ := h
  obtain rfl := List.length_eq_zero_iff.mp hl
  obtain ⟨rfl, hf⟩ := List.cons.inj hm
  obtain rfl := ha.unique (.switch hsep ha.wellFormed inside)
  rw [← inDropped_eq hm, ← hf]
  exact ⟨[], rfl, rfl⟩

/-- Inside a dropped branch no line is kept, however deep. -/
theorem drop (h : s.Inside depth mode outer) (hs : s.Sound)
    (ha : Advance strict s line t) (dropped : mode.isLive = false) : t.verdict = .drop := by
  cases ha with
  | keep text live =>
    exfalso
    obtain ⟨inner, hl, hm⟩ := h
    have hall := hs.stacked.isLive_of_isLive rfl live
    cases inner with
    | nil =>
      rw [← (List.cons.inj hm).1, live] at dropped
      cases dropped
    | cons top inner =>
      have := hall mode (by rw [(List.cons.inj hm).2]; simp)
      rw [this] at dropped
      cases dropped
  | _ => rfl

end State.Inside

/-- Inside a block the table of symbols does not change. -/
theorem State.Advance.symbols_eq {strict : Bool} {s : State} {line : String} {t : Step}
    (ha : State.Advance strict s line t) (inside : s.mode ≠ .outside) :
    t.state.symbols = s.symbols := by
  cases ha with
  | define definition mode start => exact absurd mode inside
  | leave closing _ => exact leave_symbols s.countLine
  | _ => rfl

/-! ## Runs -/

namespace Run

variable {strict : Bool} {r : Run} {line : String} {depth : Nat} {mode around : Mode}
  {outer : List Mode}

/-- A run that stops inside a block, or goes on there, leaves the table
alone. -/
theorem feed_symbols (strict : Bool) (line : String) (hs : r.state.Sound)
    (hi : r.failure? = none → r.state.Inside depth mode (around :: outer)) :
    (r.feed strict line).state.symbols = r.state.symbols :=
  feed_keep (fun s => s.symbols = r.state.symbols) rfl rfl fun hf _ ha =>
    ha.symbols_eq ((hi hf).mode_ne_outside hs)

/-- Inside a dropped branch a run keeps nothing. -/
theorem yields_dropped (strict : Bool) (line : String) (hs : r.state.Sound)
    (hi : r.failure? = none → r.state.Inside depth mode outer)
    (dropped : mode.isLive = false) : r.yields strict [line] = [] :=
  yields_singleton_eq_nil fun hf _ ha => (hi hf).drop hs ha dropped

/-- A line inside a branch, at any depth. -/
theorem inside_feed (strict : Bool) (hs : r.state.Sound)
    (hi : r.failure? = none → r.state.Inside depth mode (around :: outer))
    (hend : depth = 0 → Directive.ofLine line ≠ .endIf)
    (hsep : depth = 0 → (Directive.ofLine line).isSeparator = false)
    (hgo : (r.feed strict line).failure? = none) : (r.feed strict line).state.Inside
      ((Directive.ofLine line).nest depth) mode (around :: outer) := by
  obtain ⟨hf, t, hstep⟩ := feed_failure?_eq_none_iff.mp hgo
  rw [feed_of_ok hf hstep]
  exact (hi hf).advance ((hi hf).mode_ne_outside hs) (State.step_eq_ok_iff.mp hstep) hsep hend

/-- In a kept branch a line of text is kept. -/
theorem yields_text (strict : Bool) {line : String}
    (hi : r.failure? = none → r.state.Inside 0 mode outer)
    (hstop : r.failure? ≠ none → mode = .skipping true) (text : (Directive.ofLine line).isText)
    (live : mode.isLive) : r.yields strict [line] = [line] := by
  have hf : r.failure? = none := by
    by_contra hf
    rw [hstop hf] at live
    cases live
  obtain ⟨inner, hl, hm⟩ := hi hf
  obtain rfl := List.length_eq_zero_iff.mp hl
  have hmode : r.state.mode = mode := (List.cons.inj hm).1
  have ha : State.Advance strict r.state line _ := .keep text (by rw [hmode]; exact live)
  rw [yields_singleton hf ha.step_eq]
  rfl

/-- Text stops no run. -/
theorem feed_text_failure? (strict : Bool) {line : String} (hf : r.failure? = none)
    (text : (Directive.ofLine line).isText) : (r.feed strict line).failure? = none := by
  refine feed_failure?_eq_none_iff.mpr ⟨hf, ?_⟩
  cases hm : r.state.mode with
  | outside | keeping => exact ⟨_, (State.Advance.keep text (by rw [hm]; rfl)).step_eq⟩
  | skipping resolved => exact ⟨_, (State.Advance.drop resolved hm (.inl text)).step_eq⟩

end Run

end Amalgam.Selection
