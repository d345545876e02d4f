import Amalgam.Proofs.Selection.Blocks

/-!
# Chains that reopen

A chain is meant to keep one branch at most. It does unless it reopens
(`reopens`): an `#else` after a kept branch leaves the chain as if no branch
had been taken, and a further `#else`, or an `#elif` whose condition holds,
takes another one. `contributors_le_one_iff` says that this is the only way,
and that every such chain has contents of which two branches are kept: those of
`Block.filled`.
-/

namespace Amalgam

/-- Whether a line that starts a further branch takes it, if no branch before
it was taken. -/
def Directive.takes (symbols : Symbols) : Directive → Bool
  | elseIf condition => condition.holds symbols
  | otherwise => true
  | _ => false

namespace Selection

/-! ## Chains that reopen -/

/-- Whether one of the separators takes its branch, if none has been taken
before. The run does not go beyond a malformed one. -/
def takesAny (symbols : Symbols) : List Directive → Bool
  | [] => false
  | d :: ds => !d.isMalformed && (d.takes symbols || takesAny symbols ds)

/-- Whether a chain takes a branch again. That happens if an `#else` follows
the branch that is taken first, and one of the separators after it takes its
branch; `kept` says whether the current branch is taken. -/
def reopens (symbols : Symbols) : Bool → List Directive → Bool
  | _, [] => false
  | true, d :: ds => d = .otherwise && takesAny symbols ds
  | false, d :: ds => !d.isMalformed && reopens symbols (d.takes symbols) ds

section

variable {symbols : Symbols} {dropped resolved : Bool} {d : Directive} {ds : List Directive}

/-- A separator after a kept branch: only an `#else` leaves the chain
unresolved. -/
theorem Mode.next_keeping (h : d.isSeparator) (symbols : Symbols) (dropped : Bool) :
    keeping.next symbols dropped d = if d = .otherwise then skipping false else skipping true := by
  unfold next
  cases d <;> simp [Directive.isSeparator, Directive.isMalformed, switch] at h ⊢

/-- A separator while no branch counts as taken. -/
theorem Mode.next_unresolved (symbols : Symbols) (d : Directive) :
    (skipping false).next symbols false d =
      if d.isMalformed then skipping true
      else if d.takes symbols then keeping else skipping false := by
  unfold next
  by_cases hm : d.isMalformed
  · rw [if_pos hm, if_pos hm]
  · rw [if_neg hm, if_neg hm]
    cases d with
    | elseIf condition => cases h : condition.holds symbols <;> simp [Directive.takes, switch, h]
    | _ => rfl

/-- In a resolved chain, and in a chain inside a dropped branch, no further
branch is kept. -/
theorem countP_isLive_dropped (symbols : Symbols) (h : dropped = true ∨ resolved = true)
    (ds : List Directive) :
    (branchModes symbols dropped (.skipping resolved) ds).countP Mode.isLive = 0 := by
  induction ds generalizing resolved with
  | nil => rfl
  | cons d ds ih =>
    have hnext : ∃ resolved', (Mode.skipping resolved).next symbols dropped d = .skipping resolved' ∧
        (dropped = true ∨ resolved' = true) := by
      unfold Mode.next
      split
      · exact ⟨true, rfl, .inr rfl⟩
      · rcases h with rfl | rfl
        · exact ⟨resolved, Mode.switch_dropped .., .inl rfl⟩
        · exact ⟨true, Mode.switch_resolved .., .inr rfl⟩
    obtain ⟨resolved', hn, h'⟩ := hnext
    rw [branchModes, hn, List.countP_cons, ih h']
    rfl

/-- While no branch counts as taken, one is kept later exactly if some
separator takes its branch. -/
theorem countP_isLive_unresolved (symbols : Symbols) (ds : List Directive) :
    (branchModes symbols false (.skipping false) ds).countP Mode.isLive = 0 ↔
      takesAny symbols ds = false := by
  induction ds with
  | nil => exact ⟨fun _ => rfl, fun _ => rfl⟩
  | cons d ds ih =>
    rw [branchModes, Mode.next_unresolved, List.countP_cons, takesAny]
    cases hm : d.isMalformed with
    | true => simp [countP_isLive_dropped symbols (.inr rfl), Mode.isLive]
    | false =>
      cases ht : d.takes symbols with
      | true => rw [if_neg Bool.false_ne_true, if_pos rfl, branchModes_eq_cons]; simp [Mode.isLive]
      | false => simp [ih, Mode.isLive]

/-- Of a chain outside all dropped branches two branches are kept exactly if it
reopens. -/
theorem countP_isLive_le_one_iff (symbols : Symbols) (kept : Bool)
    (hsep : ∀ d ∈ ds, d.isSeparator) :
    (branchModes symbols false (if kept then .keeping else .skipping false) ds).countP Mode.isLive ≤ 1 ↔
      reopens symbols kept ds = false := by
  induction ds generalizing kept with
  | nil => cases kept <;> simp [branchModes, reopens, Mode.isLive]
  | cons d ds ih =>
    have hd := hsep d (List.mem_cons_self ..)
    replace ih := fun kept => ih kept fun d' hm => hsep d' (List.mem_cons_of_mem _ hm)
    cases kept with
    | true =>
      rw [if_pos rfl, branchModes, Mode.next_keeping hd, List.countP_cons, reopens]
      by_cases ho : d = .otherwise
      · rw [if_pos ho, decide_eq_true ho, Bool.true_and, ← countP_isLive_unresolved]
        simp [Mode.isLive]
      · rw [if_neg ho, countP_isLive_dropped symbols (.inr rfl), decide_eq_false ho]
        simp [Mode.isLive]
    | false =>
      rw [if_neg Bool.false_ne_true, branchModes, Mode.next_unresolved, List.countP_cons, reopens]
      cases hm : d.isMalformed with
      | true => simp [countP_isLive_dropped symbols (.inr rfl), Mode.isLive]
      | false =>
        rw [if_neg Bool.false_ne_true, Bool.not_false, Bool.true_and, ← ih]
        rfl

end

/-! ## Chains that do not reopen -/

section

variable {strict : Bool} {r : Run} {opening : String} {condition : Condition}

/-- The run after an `#if`, if it goes on, is in the first branch of the
block. -/
theorem Run.feed_opening (hopen : Directive.ofLine opening = .opening condition)
    (hgo : (r.feed strict opening).failure? = none) : condition.isValid ∧
      (r.feed strict opening).state = r.state.countLine.enter (r.state.openedMode condition) := by
  obtain ⟨hf, t, hstep⟩ := Run.feed_failure?_eq_none_iff.mp hgo
  have ha := State.step_eq_ok_iff.mp hstep
  have valid : condition.isValid := by
    have := ha.wellFormed
    simpa [hopen, Directive.isMalformed] using this
  obtain rfl := ha.unique (.enter condition hopen valid)
  rw [Run.feed_of_ok hf hstep]
  exact ⟨valid, rfl⟩

/-- An `#if` leaves the table alone, also if the run stops there. -/
theorem Run.feed_opening_symbols (strict : Bool) (r : Run)
    (hopen : Directive.ofLine opening = .opening condition) :
    (r.feed strict opening).state.symbols = r.state.symbols :=
  feed_symbols_of_not_isDefinition strict r (by rw [hopen]; rfl)

/-- A block keeps one branch at most unless its chain reopens. -/
theorem Block.contributors_le_one (strict : Bool) (rest : List String) (hs : r.state.Sound)
    (hopen : Directive.ofLine opening = .opening condition)
    (h : condition.isValid → reopens r.state.symbols (condition.holds r.state.symbols)
      ((cut 0 rest).separators.map Directive.ofLine) = false) :
    (cut 0 rest).contributors strict (r.feed strict opening) ≤ 1 := by
  cases hf : (r.feed strict opening).failure? with
  | some failure =>
    -- the run has stopped, so any mode will do, and this one keeps nothing
    have hi : (r.feed strict opening).failure? = none →
        (r.feed strict opening).state.Inside 0 (.skipping true) [.outside] := by
      intro hgo
      rw [hf] at hgo
      cases hgo
    refine Nat.le_trans (contributors_le strict rest hs.feed hi) ?_
    rw [countP_isLive_dropped _ (.inr rfl)]
    exact Nat.zero_le 1
  | none =>
    obtain ⟨valid, hstate⟩ := Run.feed_opening hopen hf
    have hi : (r.feed strict opening).state.Inside 0 (r.state.openedMode condition) r.state.modes :=
      ⟨[], rfl, by rw [hstate]; rfl⟩
    refine Nat.le_trans (contributors_le strict rest hs.feed fun _ => hi) ?_
    rw [hstate]
    show (branchModes r.state.symbols _ _ _).countP Mode.isLive ≤ 1
    cases live : r.state.mode.isLive with
    | true =>
      rw [State.openedMode_of_isLive live, Bool.not_true, countP_isLive_le_one_iff]
      · exact h valid
      · intro d hm
        obtain ⟨line, hline, rfl⟩ := List.mem_map.mp hm
        exact isSeparator_of_mem_separators hline
    | false =>
      -- the block stands in a dropped branch
      cases hm : r.state.mode with
      | outside | keeping => rw [hm] at live; cases live
      | skipping resolved =>
        rw [State.openedMode, hm, Bool.not_false, countP_isLive_dropped _ (.inl rfl)]
        exact Nat.zero_le 1

end

/-! ## Filling a chain -/

/-- The block with the given separators in which every branch is a line of
text. -/
def Block.filled (separators : List String) : Block :=
  { first := ["x"], further := separators.map fun line => (line, ["x"]) }

section

variable {strict : Bool} {r : Run} {mode around : Mode} {outer : List Mode} {separators : List String}

theorem Block.separators_filled (separators : List String) :
    (filled separators).separators = separators := by
  simp [filled, Block.separators, Function.comp_def]

theorem Block.cut_lines_filled (hsep : ∀ line ∈ separators, (Directive.ofLine line).isSeparator) :
    cut 0 (filled separators).lines = filled separators := by
  have text (rest : List String) : cut 0 ("x" :: rest) =
      { first := "x" :: (cut 0 rest).first, further := (cut 0 rest).further } :=
    cut_inside (by decide) (by decide) rest
  induction separators with
  | nil => exact text []
  | cons line more ih =>
    have hl : (filled (line :: more)).lines = "x" :: line :: (filled more).lines := rfl
    rw [hl, text, cut_separator (hsep line (List.mem_cons_self ..)),
      ih fun line' hm => hsep line' (List.mem_cons_of_mem _ hm)]
    rfl

/-- A separator of a block stops a run only if it is malformed. -/
theorem Run.next_of_stopped (hs : r.state.Sound) {line : String}
    (hi : r.failure? = none → r.state.Inside 0 mode (around :: outer))
    (hstop : r.failure? ≠ none → mode = .skipping true) (hsep : (Directive.ofLine line).isSeparator)
    (hf : (r.feed strict line).failure? ≠ none) :
    mode.next r.state.symbols (!around.isLive) (Directive.ofLine line) = .skipping true := by
  unfold Mode.next
  split
  · rfl
  · rename_i hw
    cases hr : r.failure? with
    | some failure =>
      rw [hstop (by rw [hr]; nofun)]
      exact Mode.switch_resolved ..
    | none =>
      have ha : State.Advance strict r.state line _ :=
        .switch hsep (by simpa using hw) ((hi hr).mode_ne_outside hs)
      exact absurd (Run.feed_failure?_eq_none_iff.mpr ⟨hr, _, ha.step_eq⟩) hf

/-- In a block whose branches are lines of text every branch contributes whose
mode keeps lines. -/
theorem Block.yields_filled (strict : Bool) (hs : r.state.Sound)
    (hi : r.failure? = none → r.state.Inside 0 mode (around :: outer))
    (hstop : r.failure? ≠ none → mode = .skipping true)
    (hsep : ∀ line ∈ separators, (Directive.ofLine line).isSeparator) :
    List.Forall₂ (fun kept mode => mode.isLive → !kept.isEmpty)
      ((filled separators).yields strict r)
      (branchModes r.state.symbols (!around.isLive) mode (separators.map Directive.ofLine)) := by
  have text : (Directive.ofLine "x").isText := by decide
  induction separators generalizing r mode with
  | nil =>
    refine .cons (fun live => ?_) .nil
    show (!(r.yields strict ["x"]).isEmpty) = true
    rw [Run.yields_text strict hi hstop text live]
    rfl
  | cons line more ih =>
    have hx : r.failure? = none → (r.feed strict "x").failure? = none := fun hf =>
      Run.feed_text_failure? strict hf text
    have hi' : (r.feed strict "x").failure? = none →
        (r.feed strict "x").state.Inside 0 mode (around :: outer) :=
      Run.inside_feed strict hs hi (by decide) (by decide)
    have hstop' : (r.feed strict "x").failure? ≠ none → mode = .skipping true :=
      fun hf => hstop (mt hx hf)
    have hline := hsep line (List.mem_cons_self ..)
    have h := ih hs.feed.feed (Run.inside_feed_separator strict hs.feed hi' hline)
      (Run.next_of_stopped hs.feed hi' hstop' hline)
      fun line' hm => hsep line' (List.mem_cons_of_mem _ hm)
    rw [Run.feed_symbols strict line hs.feed hi', Run.feed_symbols strict "x" hs hi] at h
    refine .cons (fun live => ?_) h
    show (!(r.yields strict ["x"]).isEmpty) = true
    rw [Run.yields_text strict hi hstop text live]
    rfl

end

/-! ## One branch -/

/-- A chain that reopens keeps two branches at least, if every branch of it is
a line of text. -/
theorem Block.one_lt_contributors_filled (strict : Bool) (symbols : Symbols) {opening : String}
    {condition : Condition} {separators : List String}
    (hopen : Directive.ofLine opening = .opening condition) (valid : condition.isValid)
    (hsep : ∀ line ∈ separators, (Directive.ofLine line).isSeparator)
    (h : reopens symbols (condition.holds symbols) (separators.map Directive.ofLine)) :
    1 < (filled separators).contributors strict ((Run.start symbols).feed strict opening) := by
  have ha : State.Advance strict (Run.start symbols).state opening _ := .enter condition hopen valid
  have hgo := Run.feed_failure?_eq_none_iff.mpr ⟨rfl, _, ha.step_eq⟩
  have hstate := (Run.feed_opening hopen hgo).2
  have hi : ((Run.start symbols).feed strict opening).state.Inside 0
      (if condition.holds symbols then .keeping else .skipping false) [.outside] :=
    ⟨[], rfl, by rw [hstate]; rfl⟩
  have hle := countP_le_of_forall₂ (yields_filled strict (State.Sound.start symbols).feed (fun _ => hi)
    (fun hf => absurd hgo hf) hsep)
  have hmodes := mt (countP_isLive_le_one_iff symbols (condition.holds symbols) fun d hm => by
    obtain ⟨line, hline, rfl⟩ := List.mem_map.mp hm
    exact hsep line hline).mp (by rw [h]; nofun)
  rw [hstate] at hle
  exact Nat.lt_of_lt_of_le (Nat.lt_of_not_le hmodes) hle

/-- What stands between an `#if` and its `#endif`, or the end of the lines, is
cut into branches, and what is kept of it is what is kept of them. Whatever
stands before the `#if` and in the branches, one branch at most adds to the
output, provided that the chain does not reopen; and of a chain that reopens
two branches can. -/
theorem Block.contributors_le_one_iff (strict : Bool) (symbols : Symbols) {opening : String}
    {condition : Condition} {separators : List String}
    (hopen : Directive.ofLine opening = .opening condition)
    (hsep : ∀ line ∈ separators, (Directive.ofLine line).isSeparator) :
    (∀ rest, ∃ after, rest = (cut 0 rest).lines ++ after ∧
      ∀ line ∈ after.head?, Directive.ofLine line = .endIf) ∧
    (∀ (r : Run) (rest : List String),
      r.yields strict (cut 0 rest).lines = ((cut 0 rest).yields strict r).flatten) ∧
    ((∀ (initial : Symbols) (before rest : List String),
        ((Run.start initial).feedAll strict (before ++ [opening])).state.symbols = symbols →
        (cut 0 rest).separators = separators →
        (cut 0 rest).contributors strict
          ((Run.start initial).feedAll strict (before ++ [opening])) ≤ 1) ↔
      (condition.isValid &&
        reopens symbols (condition.holds symbols) (separators.map Directive.ofLine)) = false) := by
  refine ⟨exists_eq_lines_append 0, fun r rest => yields_lines strict r _ fun line =>
    isSeparator_of_mem_separators, fun hall => ?_, fun h initial before rest hsym hcut => ?_⟩
  · -- a chain that reopens, with a line of text in every branch and nothing before it
    by_contra h
    obtain ⟨valid, hre⟩ := Bool.and_eq_true_iff.mp (eq_true_of_ne_false h)
    have hlt := one_lt_contributors_filled strict symbols hopen valid hsep hre
    have hle := hall symbols [] (filled separators).lines
      (Run.feed_opening_symbols strict (Run.start symbols) hopen)
      (by rw [cut_lines_filled hsep, separators_filled])
    rw [cut_lines_filled hsep] at hle
    exact Nat.not_le_of_lt hlt hle
  · rw [Run.feedAll_append, Run.feedAll_cons, Run.feedAll_nil] at hsym ⊢
    rw [Run.feed_opening_symbols strict _ hopen] at hsym
    refine contributors_le_one strict rest (State.Sound.feedAll strict initial before) hopen ?_
    intro valid
    rw [valid, Bool.true_and] at h
    rw [hsym, hcut]
    exact h

/-- An `#elif` after the `#else` that is taken does not reopen the chain. -/
theorem Block.contributors_le_one_iff_late_elif :
    Directive.ofLine "#if B" = .opening ⟨false, "B"⟩ ∧
    (∀ line ∈ ["#else", "#elif A"], (Directive.ofLine line).isSeparator) ∧
    ∀ (initial : Symbols) (before rest : List String),
      ((Run.start initial).feedAll true (before ++ ["#if B"])).state.symbols = Symbols.ofNames ["A"] →
      (cut 0 rest).separators = ["#else", "#elif A"] →
      (cut 0 rest).contributors true ((Run.start initial).feedAll true (before ++ ["#if B"])) ≤ 1 := by
  have hopen : Directive.ofLine "#if B" = .opening ⟨false, "B"⟩ := by decide
  have hsep : ∀ line ∈ ["#else", "#elif A"], (Directive.ofLine line).isSeparator := by decide
  exact ⟨hopen, hsep, (contributors_le_one_iff true _ hopen hsep).2.2.mpr (by decide +kernel)⟩

/-- A second `#else` does. -/
theorem Block.not_contributors_le_one :
    ¬ ∀ (strict : Bool) (initial : Symbols) (before rest : List String) (opening : String)
      (condition : Condition), Directive.ofLine opening = .opening condition →
      (cut 0 rest).contributors strict
        ((Run.start initial).feedAll strict (before ++ [opening])) ≤ 1 := by
  intro h
  have := h false (Symbols.ofNames ["A"]) [] ["x", "#else", "#else", "y", "#endif"] "#if A" ⟨false, "A"⟩
    (by decide)
  exact absurd this (by decide +kernel)

end Selection

end Amalgam
