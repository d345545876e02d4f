import Amalgam.Proofs.Selection.Forest
import Amalgam.Proofs.Selection.Prologue
import Amalgam.Proofs.Selection.Strictness

/-!
# Repairing sources

A lenient run ignores `#elif`, `#else` and `#endif` outside all blocks, and
accepts blocks that are open at the end. Lines over which it succeeds can be
written so that a strict run accepts them too: `repaired` leaves out the
directives that are ignored, found by counting depths alone, and closes the
blocks at the end. `select_repaired` says that this changes nothing: the strict
run over the repaired lines gives what the lenient run over the lines gives,
with the same table.

The two runs go side by side (`Run.Twin`). A directive outside all blocks is
taken by the lenient run only and leaves no trace (`Twin.feed_stray`); every
other line does the same to both (`Twin.feed`). Behind the lines, every
`#endif` closes one block and nothing else happens (`Passage.closings`).
-/

namespace Amalgam.Selection

/-! ## The repair -/

/-- Whether the line belongs to a block that has to be open. -/
def needsBlock (line : String) : Prop :=
  (Directive.ofLine line).isSeparator ∨ Directive.ofLine line = .endIf

instance : DecidablePred needsBlock := fun line =>
  inferInstanceAs (Decidable ((Directive.ofLine line).isSeparator ∨ Directive.ofLine line = .endIf))

/-- The lines without those that need a block where none is open, from the
given nesting depth on. -/
def withoutStrays (depth : Nat) : List String → List String
  | [] => []
  | line :: lines =>
    if depth = 0 ∧ needsBlock line then withoutStrays depth lines
    else line :: withoutStrays ((Directive.ofLine line).nest depth) lines

/-- The lines without those that need a block where none is open, and with so
many blocks closed at the end. -/
def repaired (depth : Nat) (lines : List String) : List String :=
  withoutStrays 0 lines ++ List.replicate depth "#endif"

/-! ## Two runs side by side -/

namespace Run

variable {r r' : Run} {line : String} {lines : List String}

/-- The runs differ at most in the number of lines they have taken and in what
they have logged. -/
structure Twin (r r' : Run) : Prop extends r.Alike r' where
  symbols : r.state.symbols = r'.state.symbols

/-- A line that a lenient run takes is taken by a strict one, unless it needs a
block and none is open. -/
theorem feed_true (hgo : (r.feed false line).failure? = none)
    (hn : ¬ (r.state.mode = .outside ∧ needsBlock line)) : r.feed true line = r.feed false line := by
  obtain ⟨hr, t, hs⟩ := feed_failure?_eq_none_iff.mp hgo
  rcases (State.step_eq_ok_iff.mp hs).strict_or_stray with ⟨ha, -⟩ | ⟨hrefusal, -⟩
  · rw [feed_of_ok hr hs, feed_of_ok hr ha.step_eq]
  · cases hrefusal with
    | stray member wellFormed mode isStrict => exact absurd ⟨mode, member⟩ hn

/-- The table after a line depends on the table before it only. -/
theorem Twin.feed_symbols {strict : Bool} (h : r.Twin r')
    (hgo : (r.feed strict line).failure? = none) (hgo' : (r'.feed strict line).failure? = none) :
    (r.feed strict line).state.symbols = (r'.feed strict line).state.symbols := by
  obtain ⟨hr, t, hs⟩ := feed_failure?_eq_none_iff.mp hgo
  obtain ⟨hr', t', hs'⟩ := feed_failure?_eq_none_iff.mp hgo'
  rw [feed_of_ok hr hs, feed_of_ok hr' hs', (State.step_eq_ok_iff.mp hs).symbols_revise,
    (State.step_eq_ok_iff.mp hs').symbols_revise, h.symbols]

/-- A line that is taken by both runs. -/
theorem Twin.feed (h : r.Twin r') (hgo : (r.feed false line).failure? = none)
    (hn : ¬ (r.state.mode = .outside ∧ needsBlock line)) :
    (r.feed false line).Twin (r'.feed true line) := by
  have halike : (r.feed true line).Alike (r'.feed true line) :=
    h.toAlike.feed fun _ c _ => by rw [h.symbols]
  have hgo' : (r.feed true line).failure? = none := by rw [feed_true hgo hn, hgo]
  have hsym := h.feed_symbols hgo' (halike.failure? ▸ hgo')
  rw [feed_true hgo hn] at halike hsym
  exact ⟨halike, hsym⟩

/-- A line that needs a block where none is open, and is taken by the lenient
run only. -/
theorem Twin.feed_stray (h : r.Twin r') (hgo : (r.feed false line).failure? = none)
    (hm : r.state.mode = .outside) (hb : needsBlock line) :
    (r.feed false line).Twin r' ∧ (r.feed false line).state.depth = r.state.depth := by
  obtain ⟨hr, t, hs⟩ := feed_failure?_eq_none_iff.mp hgo
  have hw := (State.step_eq_ok_iff.mp hs).wellFormed
  have ha : State.Advance false r.state line _ := .stray hb hw hm rfl
  rw [feed_of_ok hr ha.step_eq]
  exact ⟨⟨⟨⟨h.state.mode, h.state.frames, h.state.content⟩, h.kept, h.failure?⟩, h.symbols⟩, rfl⟩

/-- A strict run over the lines that do not need a block where none is open
stands where the lenient run over all lines stands. -/
theorem Twin.feedAll (h : r.Twin r') (hs : r.state.Sound)
    (hgo : (r.feedAll false lines).failure? = none) :
    (r.feedAll false lines).Twin (r'.feedAll true (withoutStrays r.state.depth lines)) := by
  induction lines generalizing r r' with
  | nil => exact h
  | cons line lines ih =>
    have hfeed : (r.feed false line).failure? = none := failure?_eq_none_of_feedAll hgo
    have hzero : r.state.mode = .outside ↔ r.state.depth = 0 := by
      rw [hs.mode_eq_outside_iff, State.depth, List.length_eq_zero_iff]
    rw [feedAll_cons, withoutStrays]
    by_cases hstray : r.state.depth = 0 ∧ needsBlock line
    · rw [if_pos hstray]
      obtain ⟨htwin, hdepth⟩ := h.feed_stray hfeed (hzero.mpr hstray.1) hstray.2
      rw [← hdepth]
      exact ih htwin hs.feed hgo
    · rw [if_neg hstray, feedAll_cons]
      obtain ⟨hr, t, hstep⟩ := feed_failure?_eq_none_iff.mp hfeed
      have hdepth : (r.feed false line).state.depth = (Directive.ofLine line).nest r.state.depth := by
        rw [feed_of_ok hr hstep]
        exact (State.step_eq_ok_iff.mp hstep).depth_eq hs
      rw [← hdepth]
      exact ih (h.feed hfeed fun hn => hstray ⟨hzero.mp hn.1, hn.2⟩) hs.feed hgo

end Run

/-! ## Closing what is open -/

/-- An `#endif` for every open block leads outside all blocks, and does nothing
else. -/
theorem Passage.closings (strict : Bool) {r : Run} {depth : Nat} (hr : r.failure? = none)
    (hs : r.state.Sound) (hd : r.state.depth = depth) :
    Passage strict r (List.replicate depth "#endif") [.outside] [] := by
  induction depth generalizing r with
  | zero =>
    have hf : r.state.frames = [] := List.length_eq_zero_iff.mp hd
    have hm : r.state.modes = [.outside] := by
      rw [State.modes, hf, hs.mode_eq_outside_iff.mpr hf]
    exact hm ▸ Passage.nil hr
  | succ depth ih =>
    have hf : r.state.frames ≠ [] := by
      intro hf
      rw [State.depth, hf] at hd
      cases hd
    have inside : r.state.mode ≠ .outside := fun ho => hf (hs.mode_eq_outside_iff.mp ho)
    have first := Passage.closing strict hr rfl inside hf ⟨"#endif", by decide⟩
    have hdepth : (r.feed strict "#endif").state.depth = depth := by
      have hlen := congrArg List.length first.modes
      simp only [Run.feedAll_cons, Run.feedAll_nil, State.modes, List.length_cons] at hlen
      unfold State.depth at hd ⊢
      omega
    exact first.cons (ih first.goesOn hs.feed hdepth)

/-! ## Whole sources -/

/-- Lines over which a lenient run succeeds can be repaired: without the lines
that need a block where none is open, and with the blocks closed that the
lenient run leaves open, a strict run succeeds too. It gives the same lines in
the same order, and ends outside all blocks with the same table. -/
theorem select_repaired {symbols : Symbols} {lines kept : List String}
    (h : (select false symbols lines).result = .ok kept) :
    (select true symbols (repaired (select false symbols lines).state.depth lines)).result =
      .ok kept ∧
    (select true symbols (repaired (select false symbols lines).state.depth lines)).state.symbols =
      (select false symbols lines).state.symbols ∧
    (select true symbols (repaired (select false symbols lines).state.depth lines)).state.mode =
      .outside ∧
    (select true symbols (repaired (select false symbols lines).state.depth lines)).state.depth =
      0 := by
  obtain ⟨hnone, hkept⟩ := Run.result_eq_ok_iff.mp h
  have hgo : ((Run.start symbols).feedAll false lines).failure? = none := by
    cases hf : ((Run.start symbols).feedAll false lines).failure? with
    | none => rfl
    | some failure => rw [Run.select_eq, Run.finish_of_failure hf, hf] at hnone; cases hnone
  rw [Run.select_eq, Run.finish_kept] at hkept
  rw [Run.select_eq false symbols lines, Run.finish_state, Run.select_eq, Run.finish_state, repaired,
    Run.feedAll_append]
  have hstart : (Run.start symbols).Twin (Run.start symbols) :=
    ⟨⟨⟨rfl, rfl, rfl⟩, rfl, rfl⟩, rfl⟩
  have htwin : ((Run.start symbols).feedAll false lines).Twin
      ((Run.start symbols).feedAll true (withoutStrays 0 lines)) :=
    hstart.feedAll (.start symbols) hgo
  generalize (Run.start symbols).feedAll false lines = r at hgo hkept htwin
  generalize hr' : (Run.start symbols).feedAll true (withoutStrays 0 lines) = r' at htwin
  have hsound : r'.state.Sound := hr' ▸ State.Sound.feedAll true symbols _
  have hclose : Passage true r' (List.replicate r.state.depth "#endif") [.outside] [] :=
    Passage.closings true (htwin.failure? ▸ hgo) hsound htwin.state.depth.symm
  obtain ⟨hmode, hframes⟩ := List.cons.inj hclose.modes
  have hdepth : (r'.feedAll true (List.replicate r.state.depth "#endif")).state.depth = 0 := by
    rw [State.depth, hframes, List.length_nil]
  refine ⟨Run.result_eq_ok_iff.mpr ⟨?_, ?_⟩, hclose.symbols.trans htwin.symbols.symm, hmode, hdepth⟩
  · rw [Run.finish_failure? hclose.goesOn, hdepth]
    simp
  · rw [Run.finish_kept, Run.kept_feedAll, hclose.yields, List.append_nil, ← htwin.kept, hkept]

/-- Stray directives between definitions, and two blocks that are left open. -/
theorem select_repaired_unbalanced :
    (select false ∅ ["#endif", "#define A", "#else", "#if A", "x", "#if B", "#elif C"]).result =
      .ok ["x"] ∧
    (select true ∅ ["#define A", "#if A", "x", "#if B", "#elif C", "#endif", "#endif"]).result =
      .ok ["x"] := by
  have h : (select false ∅
      ["#endif", "#define A", "#else", "#if A", "x", "#if B", "#elif C"]).result = .ok ["x"] := by
    decide +kernel
  have hd : (select false ∅
      ["#endif", "#define A", "#else", "#if A", "x", "#if B", "#elif C"]).state.depth = 2 := by
    decide +kernel
  have hrepaired := (select_repaired h).1
  rw [hd] at hrepaired
  exact ⟨h, hrepaired⟩

end Amalgam.Selection
