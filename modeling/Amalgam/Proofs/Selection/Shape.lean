import Amalgam.Proofs.Selection.Pulls

/-!
# The shape of the stack of modes

What every state has that a run can reach, on every source, well-formed or not.
From the outermost level to the innermost one the modes are: outside, then kept
branches, then dropped branches that all agree on whether the chain is
resolved. Such a stack is `Stacked`, level by level, so that closing a block
leaves one behind as well as opening it; `Stacked.exists_replicate` is the
whole of it.

`State.Sound` adds the counters: every open block counted as content, and all
content stands in lines that were taken. It is kept by every line
(`Sound.advance`), hence by a whole run (`Sound.feedAll`).
`Stream.shaped_after` says the same of a stream after any number of pulls, from
the outermost level in.
-/

namespace Amalgam.Selection

/-! ## Stacks -/

/-- Which mode a branch may have inside a branch in the mode `outer`: a branch
inside a dropped one is dropped, and for the same reason. -/
def Mode.Within : Mode → Mode → Prop
  | outside, _ => False
  | keeping, outer => outer.isLive
  | skipping _, outside | skipping _, keeping => True
  | skipping resolved, skipping inherited => resolved = inherited

/-- A stack of modes, the innermost first, with no block around the last
one. -/
inductive Stacked : List Mode → Prop
  | outside : Stacked [.outside]
  | inside {inner outer : Mode} {rest : List Mode} (within : inner.Within outer)
    (stacked : Stacked (outer :: rest)) : Stacked (inner :: outer :: rest)

namespace Stacked

variable {inner outer mode : Mode} {rest modes : List Mode}

theorem tail (h : Stacked (inner :: outer :: rest)) : Stacked (outer :: rest) := by
  cases h with
  | inside _ stacked => exact stacked

theorem within (h : Stacked (inner :: outer :: rest)) : inner.Within outer := by
  cases h with
  | inside within _ => exact within

theorem eq_outside_iff (h : Stacked (mode :: rest)) : mode = .outside ↔ rest = [] := by
  cases h with
  | outside => simp
  | inside within _ =>
    refine ⟨fun e => ?_, nofun⟩
    rw [e] at within
    exact within.elim

/-- Around a level where lines are kept they are kept at every level. -/
theorem isLive_of_isLive (h : Stacked modes) :
    ∀ {inner : Mode} {outer : List Mode}, modes = inner :: outer → inner.isLive →
      ∀ mode ∈ outer, mode.isLive := by
  induction h with
  | outside => rintro _ _ ⟨rfl, rfl⟩ _ _ hm; cases hm
  | @inside inner outer rest within _ ih =>
    rintro _ _ ⟨rfl, rfl⟩ live mode hm
    have ho : outer.isLive := by
      cases inner with
      | outside => exact within.elim
      | keeping => exact within
      | skipping resolved => cases live
    rcases List.mem_cons.mp hm with rfl | hm
    · exact ho
    · exact ih rfl ho mode hm

/-- From the innermost level out: dropped branches that agree, kept branches,
and outside. -/
theorem exists_replicate (h : Stacked modes) : ∃ (dropped kept : Nat) (resolved : Bool),
    modes = List.replicate dropped (.skipping resolved) ++ List.replicate kept .keeping ++
      [.outside] := by
  induction h with
  | outside => exact ⟨0, 0, false, rfl⟩
  | @inside inner outer rest within _ ih =>
    obtain ⟨dropped, kept, resolved, hm⟩ := ih
    cases inner with
    | outside => exact within.elim
    | keeping =>
      -- no dropped branch is below, so the kept ones go on
      cases dropped with
      | zero => exact ⟨0, kept + 1, resolved, by rw [hm]; rfl⟩
      | succ dropped =>
        obtain ⟨rfl, -⟩ := List.cons.inj hm
        cases within
    | skipping resolved' =>
      cases dropped with
      | zero => exact ⟨1, kept, resolved', by rw [hm]; rfl⟩
      | succ dropped =>
        obtain ⟨rfl, -⟩ := List.cons.inj hm
        obtain rfl : resolved' = resolved := within
        exact ⟨dropped + 2, kept, resolved', by rw [hm]; rfl⟩

end Stacked

/-! ## Opening a block and going on in it -/

namespace Mode

variable {mode outer : Mode}

/-- Where lines are kept a branch may be kept or dropped. -/
theorem within_of_isLive (h : mode ≠ outside) (live : outer.isLive) : mode.Within outer := by
  cases mode with
  | outside => exact absurd rfl h
  | keeping => exact live
  | skipping resolved => cases outer <;> trivial

theorem switch_ne_outside (h : mode ≠ outside) (symbols : Symbols) (dropped : Bool) (d : Directive) :
    mode.switch symbols dropped d ≠ outside := by
  unfold switch
  split
  · simp
  · simp
  · split <;> simp
  · split <;> simp
  · exact h

/-- A further branch of a block may have the mode that a separator gives it. -/
theorem Within.switch (h : mode.Within outer) (symbols : Symbols) (d : Directive) :
    (mode.switch symbols (!outer.isLive) d).Within outer := by
  have inside : mode ≠ outside := by rintro rfl; exact h.elim
  cases outer with
  | outside | keeping => exact within_of_isLive (switch_ne_outside inside symbols _ d) rfl
  | skipping inherited =>
    cases mode with
    | outside => exact h.elim
    | keeping => cases h
    | skipping resolved =>
      rw [show (!(skipping inherited).isLive) = true from rfl, switch_dropped]
      exact h

/-- So may the first branch of a block. -/
theorem within_openedMode (s : State) (condition : Condition) :
    (s.openedMode condition).Within s.mode := by
  have branch : s.branchMode condition ≠ outside := by
    unfold State.branchMode
    split <;> simp
  unfold State.openedMode
  cases hm : s.mode with
  | outside | keeping => exact within_of_isLive branch rfl
  | skipping resolved => exact rfl

end Mode

/-! ## Sound states -/

/-- What every state of a run has. -/
structure State.Sound (s : State) : Prop where
  stacked : Stacked s.modes
  depth_le_content : s.depth ≤ s.content
  content_le_lineNumber : s.content ≤ s.lineNumber

namespace State.Sound

variable {strict : Bool} {s : State} {line : String} {t : Step}

theorem start (symbols : Symbols) : Sound { symbols } where
  stacked := .outside
  depth_le_content := Nat.le_refl 0
  content_le_lineNumber := Nat.le_refl 0

theorem countLine (h : s.Sound) : s.countLine.Sound where
  stacked := h.stacked
  depth_le_content := h.depth_le_content
  content_le_lineNumber := Nat.le_succ_of_le h.content_le_lineNumber

theorem mode_eq_outside_iff (h : s.Sound) : s.mode = .outside ↔ s.frames = [] :=
  h.stacked.eq_outside_iff

/-- Inside a block there is a mode to return to. -/
theorem frames_of_inside (h : s.Sound) (inside : s.mode ≠ .outside) :
    ∃ (outer : Mode) (rest : List Mode), s.frames = outer :: rest :=
  List.exists_cons_of_ne_nil fun hf => inside (h.mode_eq_outside_iff.mpr hf)

theorem leave (h : s.Sound) (inside : s.mode ≠ .outside) : s.leave.Sound := by
  obtain ⟨outer, rest, hf⟩ := h.frames_of_inside inside
  have hl : s.leave = { s with mode := outer, frames := rest } := by simp only [State.leave, hf]
  have hs := h.stacked
  have hd := h.depth_le_content
  simp only [modes, depth, hf] at hs hd
  rw [hl]
  exact ⟨hs.tail, Nat.le_of_succ_le hd, h.content_le_lineNumber⟩

theorem enter (h : s.Sound) (condition : Condition) :
    (s.countLine.enter (s.openedMode condition)).Sound where
  stacked := .inside (Mode.within_openedMode s condition) h.stacked
  depth_le_content := Nat.succ_le_succ h.depth_le_content
  content_le_lineNumber := Nat.succ_le_succ h.content_le_lineNumber

theorem switch (h : s.Sound) (inside : s.mode ≠ .outside) (d : Directive) :
    { s with mode := s.mode.switch s.symbols s.inDropped d }.Sound := by
  obtain ⟨outer, rest, hf⟩ := h.frames_of_inside inside
  have hs := h.stacked
  simp only [modes, hf] at hs
  refine ⟨?_, h.depth_le_content, h.content_le_lineNumber⟩
  have hd : s.inDropped = !outer.isLive := inDropped_eq (by rw [modes, hf])
  simp only [modes, hf, hd]
  exact .inside (hs.within.switch s.symbols d) hs.tail

/-- Every line that is taken leads from a sound state to a sound state. -/
theorem advance (h : s.Sound) (ha : Advance strict s line t) : t.state.Sound := by
  have hc := h.countLine
  cases ha with
  | keep text live =>
    refine ⟨hc.stacked, ?_, ?_⟩
    · exact Nat.le_trans h.depth_le_content (Nat.le_add_right _ _)
    · have := h.content_le_lineNumber
      show s.content + (if Text.isBlank line then 0 else 1) ≤ s.lineNumber + 1
      split <;> omega
  | drop resolved mode text => exact hc
  | define definition mode start => exact ⟨hc.stacked, hc.depth_le_content, hc.content_le_lineNumber⟩
  | enter condition opening valid => exact h.enter condition
  | leave closing inside => exact hc.leave inside
  | switch separator wellFormed inside => exact hc.switch inside _
  | stray member wellFormed mode lenient => exact hc

theorem feed {r : Run} (h : r.state.Sound) : (r.feed strict line).state.Sound :=
  Run.feed_keep Sound h h.countLine fun _ _ ha => h.advance ha

/-- So does a whole run. -/
theorem feedAll (strict : Bool) (symbols : Symbols) (lines : List String) :
    ((Run.start symbols).feedAll strict lines).state.Sound :=
  Run.feedAll_keep Sound countLine advance lines (start symbols)

end State.Sound

/-! ## The shape -/

/-- A list of levels from the outermost one in: outside, kept branches, dropped
branches that agree. -/
def Layered (levels : List Mode) : Prop :=
  ∃ (kept dropped : Nat) (resolved : Bool),
    levels = [.outside] ++ List.replicate kept .keeping ++ List.replicate dropped (.skipping resolved)

theorem Stacked.layered {modes : List Mode} (h : Stacked modes) : Layered modes.reverse := by
  obtain ⟨dropped, kept, resolved, rfl⟩ := h.exists_replicate
  exact ⟨kept, dropped, resolved, by simp⟩

/-- Inside a dropped branch every branch is dropped, for the same reason. -/
theorem Layered.eq_skipping {levels : List Mode} (h : Layered levels) {i j : Nat} {resolved : Bool}
    {mode : Mode} (hij : i ≤ j) (hi : levels[i]? = some (.skipping resolved))
    (hj : levels[j]? = some mode) : mode = .skipping resolved := by
  obtain ⟨kept, dropped, resolved', rfl⟩ := h
  simp only [List.getElem?_append, List.getElem?_replicate, List.getElem?_singleton,
    List.length_append, List.length_replicate, List.length_singleton] at hi hj
  grind

/-- Only the outermost level is outside. -/
theorem Layered.outside_not_mem_tail {levels : List Mode} (h : Layered levels) :
    .outside ∉ levels.tail := by
  obtain ⟨kept, dropped, resolved, rfl⟩ := h
  simp

/-- The shape of a state after so many lines: its levels from the outermost one
in, and its counters from the number of open blocks up. -/
structure State.Shaped (s : State) (taken : Nat) : Prop where
  layered : Layered (s.frames.reverse ++ [s.mode])
  outside_iff : s.mode = .outside ↔ s.depth = 0
  outside_last : .outside ∉ s.frames.dropLast
  dropped_inside : ∀ (i j : Nat) (resolved : Bool) (mode : Mode), i ≤ j →
    (s.frames.reverse ++ [s.mode])[i]? = some (.skipping resolved) →
    (s.frames.reverse ++ [s.mode])[j]? = some mode → mode = .skipping resolved
  depth_le_content : s.depth ≤ s.content
  content_le_lineNumber : s.content ≤ s.lineNumber
  lineNumber_le_taken : s.lineNumber ≤ taken

theorem State.Sound.shaped {s : State} {taken : Nat} (h : s.Sound) (hn : s.lineNumber ≤ taken) :
    s.Shaped taken := by
  have hl : Layered (s.frames.reverse ++ [s.mode]) := by
    have := h.stacked.layered
    rwa [modes, List.reverse_cons] at this
  refine ⟨hl, ?_, ?_, fun i j resolved mode => hl.eq_skipping, h.depth_le_content,
    h.content_le_lineNumber, hn⟩
  · rw [h.mode_eq_outside_iff, depth, List.length_eq_zero_iff]
  · intro hm
    apply hl.outside_not_mem_tail
    rw [← List.mem_reverse, ← List.tail_reverse] at hm
    cases hf : s.frames.reverse with
    | nil => rw [hf] at hm; cases hm
    | cons bottom rest =>
      rw [hf] at hm
      exact List.mem_append_left _ hm

/-- After any number of pulls, whatever the lines, the state has its shape, and
its counters are bounded by the number of lines that were taken; also once the
stream has failed or ended. -/
theorem Stream.shaped_after (strict : Bool) (symbols : Symbols) (lines : List String) (n : Nat) :
    ((start strict symbols lines).after n).state.Shaped
      (lines.length - ((start strict symbols lines).after n).lines.length) := by
  obtain ⟨taken, h⟩ := standing_after strict symbols lines n
  rw [h.state]
  refine (State.Sound.feedAll strict symbols taken).shaped ?_
  have hn := Run.feedAll_lineNumber_le strict (Run.start symbols) taken
  have hl := congrArg List.length h.split
  rw [List.length_append] at hl
  have h0 : (Run.start symbols).state.lineNumber = 0 := rfl
  omega

end Amalgam.Selection
