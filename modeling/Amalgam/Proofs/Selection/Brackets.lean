import Amalgam.Proofs.Selection.Inside

/-!
# Blocks leave no trace

A segment of lines from an `#if` to the `#endif` that closes it is `Bracketed`.
Only depths are counted: between the two there may be nested blocks, several
`#else` and `#elif` after `#else`. While a run takes such a segment the block
is open, so the modes that the run had before it stay where they are, below
those of the block (`Run.inside_feedAll`), and the table stays too. Hence
`Run.feedAll_bracketed`: behind the segment the run has the modes and the table
it had in front of it, and if it was in a dropped branch it has kept nothing.

This holds of every state that a run can be in between two lines,
`State.Reachable`; the state of a stream that is not over is such a state
(`Stream.reachable_after`).
-/

namespace Amalgam.Selection

/-! ## Reachable states -/

/-- The states of runs that have not stopped, before the first line and after
every line. -/
inductive State.Reachable (strict : Bool) : State → Prop
  | start (symbols : Symbols) : Reachable strict { symbols }
  | step {s : State} {line : String} {t : Step} (before : Reachable strict s)
    (taken : s.step strict line = .ok t) : Reachable strict t.state

theorem State.Reachable.sound {strict : Bool} {s : State} (h : s.Reachable strict) : s.Sound := by
  induction h with
  | start symbols => exact .start symbols
  | step before taken ih => exact ih.advance (step_eq_ok_iff.mp taken)

/-- A run that goes on goes on to a reachable state. -/
theorem Run.reachable_feedAll {strict : Bool} {r : Run} (hs : r.state.Reachable strict)
    {lines : List String} (hgo : (r.feedAll strict lines).failure? = none) :
    (r.feedAll strict lines).state.Reachable strict := by
  induction lines generalizing r with
  | nil => exact hs
  | cons line lines ih =>
    obtain ⟨hr, t, hstep⟩ := feed_failure?_eq_none_iff.mp (failure?_eq_none_of_feedAll hgo)
    refine ih ?_ hgo
    rw [feed_of_ok hr hstep]
    exact .step hs hstep

/-- A stream that is not over is in a reachable state. -/
theorem Stream.reachable_after {strict : Bool} {symbols : Symbols} {lines : List String} {n : Nat}
    (hf : ((start strict symbols lines).after n).finished = false) :
    ((start strict symbols lines).after n).state.Reachable strict := by
  obtain ⟨taken, h⟩ := standing_after strict symbols lines n
  have start : (Run.start symbols).state.Reachable strict := .start symbols
  rw [h.state]
  exact Run.reachable_feedAll start (h.going hf).1

/-! ## Segments -/

/-- The lines begin with an `#if` that asks something, and end where the depth
that it opens is first closed: with the `#endif` that matches it. -/
structure Bracketed (segment : List String) : Prop where
  opens : ∃ line condition, segment.head? = some line ∧
    Directive.ofLine line = .opening condition ∧ condition.isValid
  /-- The block is open after every line but the last one. -/
  staysOpen : ∀ k < segment.length, 0 < k → 0 < nesting (segment.take k)
  closes : nesting segment = 0

variable {strict : Bool} {r : Run} {lines segment : List String} {depth : Nat} {mode : Mode}
  {outer : List Mode}

/-- The depths of a bracketed segment, counted from behind its `#if`. -/
theorem Bracketed.exists_cons (h : Bracketed segment) : ∃ line condition rest,
    segment = line :: rest ∧ Directive.ofLine line = .opening condition ∧ condition.isValid ∧
      (∀ k < rest.length, 0 < nestingFrom 1 (rest.take k)) ∧ nestingFrom 1 rest = 0 := by
  obtain ⟨line, condition, hhead, hopen, hvalid⟩ := h.opens
  obtain ⟨rest, rfl⟩ := List.head?_eq_some_iff.mp hhead
  have hnest (lines : List String) : nesting (line :: lines) = nestingFrom 1 lines := by
    rw [nesting, nestingFrom_cons, hopen, Directive.nest]
  refine ⟨line, condition, rest, rfl, hopen, hvalid, fun k hk => ?_, ?_⟩
  · rw [← hnest, ← List.take_succ_cons]
    exact h.staysOpen (k + 1) (Nat.succ_lt_succ hk) (Nat.succ_pos k)
  · rw [← hnest]
    exact h.closes

namespace Run

/-- While blocks are open inside a branch, whatever the lines are, the mode of
the branch, the modes around it and the table stay; and nothing is kept if the
branch is dropped. -/
theorem inside_feedAll (hs : r.state.Sound) (hi : r.state.Inside depth mode outer)
    (deep : ∀ k < lines.length, 0 < nestingFrom depth (lines.take k))
    (hgo : (r.feedAll strict lines).failure? = none) :
    (r.feedAll strict lines).state.Inside (nestingFrom depth lines) mode outer ∧
      (r.feedAll strict lines).state.symbols = r.state.symbols ∧
      (mode.isLive = false → r.yields strict lines = []) := by
  induction lines generalizing r depth with
  | nil => exact ⟨hi, rfl, fun _ => yields_nil strict r⟩
  | cons line lines ih =>
    have hd : 0 < depth := deep 0 (Nat.succ_pos _)
    have inside : r.state.mode ≠ .outside := hi.mode_ne_outside_of_pos hd hs
    obtain ⟨hr, t, hstep⟩ := feed_failure?_eq_none_iff.mp (failure?_eq_none_of_feedAll hgo)
    have ha := State.step_eq_ok_iff.mp hstep
    have hfeed : (r.feed strict line).state = t.state := by rw [feed_of_ok hr hstep]
    have hi' : (r.feed strict line).state.Inside ((Directive.ofLine line).nest depth) mode outer := by
      rw [hfeed]
      exact hi.advance inside ha (fun h => by omega) fun h => by omega
    obtain ⟨hrest, hsym, hdrop⟩ := ih hs.feed hi' (fun k hk => deep (k + 1) (Nat.succ_lt_succ hk)) hgo
    refine ⟨hrest, hsym.trans ?_, fun dropped => ?_⟩
    · rw [hfeed]
      exact ha.symbols_eq inside
    · rw [yields_cons, yields_dropped strict line hs (fun _ => hi) dropped, hdrop dropped]
      rfl

/-- A bracketed segment leaves no trace: if a run that has not stopped takes it
and goes on, the mode, the modes to return to and the table are what they were
in front of the `#if`, and no line of the segment is kept if the run was in a
dropped branch. So a stream gives the lines that are kept of the segment and
goes on, behind it, from the modes and the table it had. -/
theorem feedAll_bracketed (hs : r.state.Reachable strict) (hb : Bracketed segment)
    (hgo : (r.feedAll strict segment).failure? = none) :
    (r.feedAll strict segment).state.mode = r.state.mode ∧
    (r.feedAll strict segment).state.frames = r.state.frames ∧
    (r.feedAll strict segment).state.symbols = r.state.symbols ∧
    (∀ resolved, r.state.mode = .skipping resolved → r.yields strict segment = []) ∧
    ∀ rest, Stream.items { strict, state := r.state, lines := segment ++ rest }
        (r.yields strict segment).length = (r.yields strict segment).map .ok ∧
      Stream.Agree (Stream.after { strict, state := r.state, lines := segment ++ rest }
          (r.yields strict segment).length)
        { strict, state := (r.feedAll strict segment).state, lines := rest } := by
  obtain ⟨line, condition, rest, rfl, hopen, hvalid, deep, hclose⟩ := hb.exists_cons
  have hr : r.failure? = none := failure?_eq_none_of_feedAll hgo
  have ha : State.Advance strict r.state line _ := .enter condition hopen hvalid
  have hfeed : (r.feed strict line).state = r.state.countLine.enter (r.state.openedMode condition) := by
    rw [feed_of_ok hr ha.step_eq]
    rfl
  -- the block stands above all modes that the run has, its innermost one
  -- included
  have hi : (r.feed strict line).state.Inside 1 r.state.mode r.state.frames := by
    rw [hfeed]
    exact State.Inside.push ⟨[], rfl, rfl⟩ _
  obtain ⟨hin, hsym, hdrop⟩ := inside_feedAll hs.sound.feed hi deep hgo
  rw [hclose] at hin
  obtain ⟨inner, hl, hm⟩ := hin
  obtain rfl := List.length_eq_zero_iff.mp hl
  obtain ⟨hmode, hframes⟩ := List.cons.inj hm
  refine ⟨hmode, hframes, hsym.trans (by rw [hfeed]; rfl), fun resolved hskip => ?_, fun rest' =>
    Stream.items_append _ rest' hgo⟩
  rw [yields_cons, yields_singleton hr ha.step_eq, hdrop (by rw [hskip]; rfl)]
  rfl

/-- An ill-formed block, once inside a dropped branch and once in front of a
stream that has given its first line. -/
theorem feedAll_bracketed_illFormed :
    Bracketed ["#if !A", "x", "#else", "#if B", "#endif", "#else", "y", "#elif !C", "z", "#endif"] ∧
    Run.yields false ((Run.start ∅).feedAll false ["#if D"])
      ["#if !A", "x", "#else", "#if B", "#endif", "#else", "y", "#elif !C", "z", "#endif"] = [] ∧
    (Run.feedAll false { state := ((Stream.start false ∅ ["w", "v"]).after 1).state }
        ["#if !A", "x", "#else", "#if B", "#endif", "#else", "y", "#elif !C", "z", "#endif"]).state.frames =
      ((Stream.start false ∅ ["w", "v"]).after 1).state.frames := by
  have hb : Bracketed
      ["#if !A", "x", "#else", "#if B", "#endif", "#else", "y", "#elif !C", "z", "#endif"] :=
    ⟨⟨"#if !A", ⟨true, "A"⟩, rfl, by decide, by decide⟩, by decide, by decide⟩
  have start : (Run.start ∅).state.Reachable false := .start ∅
  have opened : ((Run.start ∅).feedAll false ["#if D"]).failure? = none := by decide +kernel
  have hs : ((Run.start ∅).feedAll false ["#if D"]).state.Reachable false :=
    Run.reachable_feedAll start opened
  have hs' : ((Stream.start false ∅ ["w", "v"]).after 1).state.Reachable false :=
    Stream.reachable_after (by decide +kernel)
  refine ⟨hb, (feedAll_bracketed hs hb (by decide +kernel)).2.2.2.1 false (by decide +kernel), ?_⟩
  exact (feedAll_bracketed (r := { state := _ }) hs' hb (by decide +kernel)).2.1

end Run

end Amalgam.Selection
