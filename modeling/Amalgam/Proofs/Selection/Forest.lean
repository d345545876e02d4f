import Amalgam.Proofs.Selection.Pulls

/-!
# Well-formed sources and their meaning

A source that is written as it should be is a `Forest`: lines of text and
chains of branches, and in every branch again a forest. What it means is said
by recursion on it (`Forest.meaning`): of a chain the first branch whose
condition holds. A run knows nothing of the tree; it has one mode and a stack
of modes to return to. `select_lines` says that a run over the lines of a
forest keeps what the forest means, and ends outside all blocks with the table
it started from.

The proof follows the tree. What a stretch of lines does to a run is a
`Passage`, and passages are put together by `Passage.append`. A forest is
passed in two ways, where lines are kept (`passage_live`) and where they are
dropped (`passage_dropped`), and the branches that follow in a chain in three:
a branch may still be taken (`passage_open`), the branch before them was
(`passage_afterKept`), or none will be (`passage_shut`).
-/

namespace Amalgam.Selection

/-! ## Forests -/

/-- A line that is the given directive. -/
abbrev Marker (d : Directive) : Type :=
  { line : String // Directive.ofLine line = d }

/-- An `#if` or `#elif` line, by `make`, with a condition that asks
something. -/
structure Conditional (make : Condition → Directive) where
  line : String
  condition : Condition
  reads : Directive.ofLine line = make condition
  valid : condition.isValid

mutual

/-- Lines and chains of branches, from first to last. The lines are of the kind
`leaf`. -/
inductive Forest (leaf : Directive → Bool) : Type
  | nil
  | line (line : { line : String // leaf (Directive.ofLine line) }) (rest : Forest leaf)
  | chain (opening : Conditional .opening) (body : Forest leaf) (others : Branches leaf)
    (rest : Forest leaf)

/-- What follows the first branch of a chain: branches for other conditions, at
most one for all other cases, and the line that closes the chain. -/
inductive Branches (leaf : Directive → Bool) : Type
  | elseIf (separator : Conditional .elseIf) (body : Forest leaf) (others : Branches leaf)
  | otherwise (separator : Marker .otherwise) (body : Forest leaf) (closing : Marker .endIf)
  | close (closing : Marker .endIf)

end

variable {leaf : Directive → Bool}

mutual

/-- The lines of a forest, as they stand in a source. -/
def Forest.lines : Forest leaf → List String
  | .nil => []
  | .line line rest => line.val :: rest.lines
  | .chain opening body others rest => opening.line :: (body.lines ++ (others.lines ++ rest.lines))

/-- The lines from the end of a chain's first branch to its `#endif`. -/
def Branches.lines : Branches leaf → List String
  | .elseIf separator body others => separator.line :: (body.lines ++ others.lines)
  | .otherwise separator body closing => separator.val :: (body.lines ++ [closing.val])
  | .close closing => [closing.val]

end

mutual

/-- What a forest means for a table of symbols: its lines, and of every chain
what the first branch whose condition holds means. -/
def Forest.meaning (symbols : Symbols) : Forest leaf → List String
  | .nil => []
  | .line line rest => line.val :: rest.meaning symbols
  | .chain opening body others rest =>
    (if opening.condition.holds symbols then body.meaning symbols else others.meaning symbols) ++
      rest.meaning symbols

/-- What the first of the branches means whose condition holds, if there is
one. -/
def Branches.meaning (symbols : Symbols) : Branches leaf → List String
  | .elseIf separator body others =>
    if separator.condition.holds symbols then body.meaning symbols else others.meaning symbols
  | .otherwise _ body _ => body.meaning symbols
  | .close _ => []

end

/-! ## Passages -/

/-- The run goes on over `lines` with its table unchanged, to the given modes,
and keeps `kept`. -/
structure Passage (strict : Bool) (r : Run) (lines : List String) (modes : List Mode)
    (kept : List String) : Prop where
  goesOn : (r.feedAll strict lines).failure? = none
  symbols : (r.feedAll strict lines).state.symbols = r.state.symbols
  modes : (r.feedAll strict lines).state.modes = modes
  yields : r.yields strict lines = kept

namespace Passage

variable {strict : Bool} {r : Run} {outer : List Mode} {mode : Mode}

theorem nil (hr : r.failure? = none) : Passage strict r [] r.state.modes [] :=
  ⟨hr, rfl, rfl, Run.yields_nil strict r⟩

theorem append {xs ys kept kept' : List String} {modes modes' : List Mode}
    (h : Passage strict r xs modes kept) (h' : Passage strict (r.feedAll strict xs) ys modes' kept') :
    Passage strict r (xs ++ ys) modes' (kept ++ kept') where
  goesOn := by rw [Run.feedAll_append]; exact h'.goesOn
  symbols := by rw [Run.feedAll_append, h'.symbols, h.symbols]
  modes := by rw [Run.feedAll_append]; exact h'.modes
  yields := by rw [Run.yields_append, h.yields, h'.yields]

theorem cons {line : String} {lines kept kept' : List String} {modes modes' : List Mode}
    (h : Passage strict r [line] modes kept)
    (h' : Passage strict (r.feed strict line) lines modes' kept') :
    Passage strict r (line :: lines) modes' (kept ++ kept') :=
  Passage.append h h'

/-- The passage over one line that is taken. -/
theorem single {line : String} {t : Step} (hr : r.failure? = none)
    (ha : r.state.Advance strict line t) (hs : t.state.symbols = r.state.symbols) :
    Passage strict r [line] t.state.modes (match t.verdict with | .emit => [line] | .drop => []) := by
  have hstep := ha.step_eq
  refine ⟨?_, ?_, ?_, Run.yields_singleton hr hstep⟩ <;>
    rw [Run.feedAll_cons, Run.feedAll_nil, Run.feed_of_ok hr hstep]
  · exact hr
  · exact hs

/-! ## Single lines -/

variable (strict)

theorem text_live {line : String} (hr : r.failure? = none) (hm : r.state.modes = mode :: outer)
    (live : mode.isLive) (text : (Directive.ofLine line).isText) :
    Passage strict r [line] (mode :: outer) [line] := by
  obtain ⟨rfl, rfl⟩ := List.cons.inj hm
  exact single hr (.keep text live) rfl

theorem text_dropped {line : String} {resolved : Bool} (hr : r.failure? = none)
    (hm : r.state.modes = .skipping resolved :: outer) (text : (Directive.ofLine line).isText) :
    Passage strict r [line] (.skipping resolved :: outer) [] := by
  obtain ⟨hmode, rfl⟩ := List.cons.inj hm
  rw [← hm]
  exact single hr (.drop resolved hmode (.inl text)) rfl

theorem opening (hr : r.failure? = none) (o : Conditional .opening) :
    Passage strict r [o.line] (r.state.openedMode o.condition :: r.state.modes) [] :=
  single hr (.enter o.condition o.reads o.valid) rfl

theorem separator {line : String} (hr : r.failure? = none) (hm : r.state.modes = mode :: outer)
    (inside : mode ≠ .outside) (hs : (Directive.ofLine line).isSeparator)
    (hw : (Directive.ofLine line).isMalformed = false) :
    Passage strict r [line]
      (mode.switch r.state.symbols r.state.inDropped (Directive.ofLine line) :: outer) [] := by
  obtain ⟨rfl, rfl⟩ := List.cons.inj hm
  exact single hr (.switch hs hw inside) rfl

theorem closing (hr : r.failure? = none) (hm : r.state.modes = mode :: outer)
    (inside : mode ≠ .outside) (ho : outer ≠ []) (c : Marker .endIf) :
    Passage strict r [c.val] outer [] := by
  obtain ⟨rfl, rfl⟩ := List.cons.inj hm
  have h : Passage strict r [c.val] r.state.countLine.leave.modes [] :=
    single hr (.leave c.property inside) (State.leave_symbols _)
  rwa [State.modes_leave r.state.countLine ho] at h

end Passage

theorem Conditional.isMalformed_eq_false (c : Conditional .elseIf) :
    (Directive.ofLine c.line).isMalformed = false := by
  rw [c.reads]
  simp [Directive.isMalformed, c.valid]

/-! ## Dropped stretches -/

section

variable (strict : Bool)

/-- The further branches of a dropped branch's chain stay dropped: the chain is
resolved, or it stands inside a dropped branch itself. -/
def Shut (resolved : Bool) (outer : List Mode) : Prop :=
  resolved = true ∨ ∃ (inherited : Bool) (rest : List Mode), outer = .skipping inherited :: rest

theorem Shut.switch {r : Run} {resolved : Bool} {outer : List Mode} (h : Shut resolved outer)
    (hm : r.state.modes = .skipping resolved :: outer) (d : Directive) :
    (Mode.skipping resolved).switch r.state.symbols r.state.inDropped d = .skipping resolved := by
  rcases h with rfl | ⟨inherited, rest, rfl⟩
  · exact Mode.switch_resolved _ _ d
  · rw [State.inDropped_eq hm]
    exact Mode.switch_dropped _ _ d

mutual

theorem Forest.passage_dropped : ∀ (f : Forest Directive.isText) {r : Run} {resolved : Bool}
    {outer : List Mode}, r.failure? = none → r.state.modes = .skipping resolved :: outer →
    Passage strict r f.lines (.skipping resolved :: outer) []
  | .nil, r, _, _, hr, hm => hm ▸ Passage.nil hr
  | .line line rest, r, _, _, hr, hm => by
    have first := Passage.text_dropped strict hr hm line.property
    exact first.cons (rest.passage_dropped first.goesOn first.modes)
  | .chain o body others rest, r, resolved, outer, hr, hm => by
    have enter := Passage.opening strict hr o
    have opened : r.state.openedMode o.condition = .skipping resolved := by
      simp only [State.openedMode, (List.cons.inj hm).1]
    rw [opened, hm] at enter
    have body := body.passage_dropped enter.goesOn enter.modes
    have others := others.passage_shut body.goesOn body.modes (.inr ⟨_, _, rfl⟩) (by simp)
    have rest := rest.passage_dropped others.goesOn others.modes
    exact enter.cons (body.append (others.append rest))

theorem Branches.passage_shut : ∀ (b : Branches Directive.isText) {r : Run} {resolved : Bool}
    {outer : List Mode}, r.failure? = none → r.state.modes = .skipping resolved :: outer →
    Shut resolved outer → outer ≠ [] → Passage strict r b.lines outer []
  | .elseIf sep body others, r, resolved, outer, hr, hm, hs, ho => by
    have next := Passage.separator strict hr hm (by simp) (by rw [sep.reads]; rfl)
      sep.isMalformed_eq_false
    rw [hs.switch hm] at next
    have body := body.passage_dropped next.goesOn next.modes
    exact next.cons (body.append (others.passage_shut body.goesOn body.modes hs ho))
  | .otherwise sep body c, r, resolved, outer, hr, hm, hs, ho => by
    have next := Passage.separator strict hr hm (by simp) (by rw [sep.property]; rfl)
      (by rw [sep.property]; rfl)
    rw [hs.switch hm] at next
    have body := body.passage_dropped next.goesOn next.modes
    exact next.cons (body.append (Passage.closing strict body.goesOn body.modes (by simp) ho c))
  | .close c, r, _, outer, hr, hm, _, ho => Passage.closing strict hr hm (by simp) ho c

end

/-- After a kept branch no other branch of the chain is taken. -/
theorem Branches.passage_afterKept (b : Branches Directive.isText) {r : Run} {outer : List Mode}
    (hr : r.failure? = none) (hm : r.state.modes = .keeping :: outer) (ho : outer ≠ []) :
    Passage strict r b.lines outer [] := by
  cases b with
  | elseIf sep body others =>
    have next := Passage.separator strict hr hm (by simp) (by rw [sep.reads]; rfl)
      sep.isMalformed_eq_false
    rw [sep.reads] at next
    have body := body.passage_dropped strict next.goesOn next.modes
    exact next.cons (body.append (others.passage_shut strict body.goesOn body.modes (.inl rfl) ho))
  | otherwise sep body c =>
    have next := Passage.separator strict hr hm (by simp) (by rw [sep.property]; rfl)
      (by rw [sep.property]; rfl)
    rw [sep.property] at next
    have body := body.passage_dropped strict next.goesOn next.modes
    exact next.cons (body.append (Passage.closing strict body.goesOn body.modes (by simp) ho c))
  | close c => exact Passage.closing strict hr hm (by simp) ho c

/-! ## Kept stretches -/

mutual

theorem Forest.passage_live : ∀ (f : Forest Directive.isText) {r : Run} {mode : Mode}
    {outer : List Mode}, r.failure? = none → r.state.modes = mode :: outer → mode.isLive →
    Passage strict r f.lines (mode :: outer) (f.meaning r.state.symbols)
  | .nil, r, _, _, hr, hm, _ => hm ▸ Passage.nil hr
  | .line line rest, r, _, _, hr, hm, live => by
    have first := Passage.text_live strict hr hm live line.property
    have rest := rest.passage_live first.goesOn first.modes live
    rw [first.symbols] at rest
    exact first.cons rest
  | .chain o body others rest, r, mode, outer, hr, hm, live => by
    have enter := Passage.opening strict hr o
    rw [State.openedMode_of_isLive ((List.cons.inj hm).1 ▸ live), hm] at enter
    have chain : Passage strict (r.feedAll strict [o.line]) (body.lines ++ others.lines)
        (mode :: outer)
        (if o.condition.holds r.state.symbols then body.meaning r.state.symbols
          else others.meaning r.state.symbols) := by
      by_cases hc : o.condition.holds r.state.symbols
      · rw [if_pos hc] at enter ⊢
        have body := body.passage_live enter.goesOn enter.modes rfl
        rw [enter.symbols] at body
        have others := others.passage_afterKept strict body.goesOn body.modes (by simp)
        have all := body.append others
        rwa [List.append_nil] at all
      · rw [if_neg hc] at enter ⊢
        have body := body.passage_dropped strict enter.goesOn enter.modes
        have others := others.passage_open body.goesOn body.modes live
        rw [body.symbols, enter.symbols] at others
        exact body.append others
    have rest := rest.passage_live chain.goesOn chain.modes live
    rw [chain.symbols, enter.symbols] at rest
    have all := enter.cons (chain.append rest)
    rwa [List.append_assoc] at all

theorem Branches.passage_open : ∀ (b : Branches Directive.isText) {r : Run} {mode : Mode}
    {outer : List Mode}, r.failure? = none →
    r.state.modes = .skipping false :: mode :: outer → mode.isLive →
    Passage strict r b.lines (mode :: outer) (b.meaning r.state.symbols)
  | .elseIf sep body others, r, mode, outer, hr, hm, live => by
    have next := Passage.separator strict hr hm (by simp) (by rw [sep.reads]; rfl)
      sep.isMalformed_eq_false
    rw [sep.reads, State.switch_elseIf hm live] at next
    simp only [Branches.meaning]
    by_cases hc : sep.condition.holds r.state.symbols
    · rw [if_pos hc] at next ⊢
      have body := body.passage_live next.goesOn next.modes rfl
      rw [next.symbols] at body
      have others := others.passage_afterKept strict body.goesOn body.modes (by simp)
      have all := next.cons (body.append others)
      rwa [List.nil_append, List.append_nil] at all
    · rw [if_neg hc] at next ⊢
      have body := body.passage_dropped strict next.goesOn next.modes
      have others := others.passage_open body.goesOn body.modes live
      rw [body.symbols, next.symbols] at others
      exact next.cons (body.append others)
  | .otherwise sep body c, r, mode, outer, hr, hm, live => by
    have next := Passage.separator strict hr hm (by simp) (by rw [sep.property]; rfl)
      (by rw [sep.property]; rfl)
    rw [sep.property, State.switch_otherwise hm live] at next
    have body := body.passage_live next.goesOn next.modes rfl
    rw [next.symbols] at body
    have last := Passage.closing strict body.goesOn body.modes (by simp) (by simp) c
    have all := next.cons (body.append last)
    rwa [List.nil_append, List.append_nil] at all
  | .close c, r, _, _, hr, hm, _ => Passage.closing strict hr hm (by simp) (by simp) c

end

end

/-! ## Whole sources -/

/-- A run over the lines of a forest keeps what the forest means, in order, and
ends outside all blocks with the table it started from, strict or not; a stream
gives the same lines one by one and ends in the same state. -/
theorem Forest.select_lines (strict : Bool) (symbols : Symbols) (f : Forest Directive.isText) :
    (select strict symbols f.lines).result = .ok (f.meaning symbols) ∧
    (select strict symbols f.lines).state.mode = .outside ∧
    (select strict symbols f.lines).state.depth = 0 ∧
    (select strict symbols f.lines).state.symbols = symbols ∧
    ∀ k, (Stream.start strict symbols f.lines).items (f.lines.length + 1 + k) =
        (f.meaning symbols).map .ok ∧
      ((Stream.start strict symbols f.lines).after (f.lines.length + 1 + k)).state =
        (select strict symbols f.lines).state := by
  have h : Passage strict (Run.start symbols) f.lines [.outside] (f.meaning symbols) :=
    f.passage_live strict rfl rfl rfl
  obtain ⟨hmode, hframes⟩ := List.cons.inj h.modes
  have hdepth : ((Run.start symbols).feedAll strict f.lines).state.depth = 0 := by
    rw [State.depth, hframes, List.length_nil]
  have hkept : (select strict symbols f.lines).kept.toList = f.meaning symbols := by
    rw [Run.select_eq, Run.finish_kept, Run.kept_feedAll, h.yields]
    rfl
  have hfail : (select strict symbols f.lines).failure? = none := by
    rw [Run.select_eq, Run.finish_failure? h.goesOn, hdepth]
    simp
  refine ⟨?_, ?_, ?_, ?_, fun k => ?_⟩
  · rw [Run.result, hfail, hkept]
  · rw [Run.select_eq, Run.finish_state]; exact hmode
  · rw [Run.select_eq, Run.finish_state]; exact hdepth
  · rw [Run.select_eq, Run.finish_state]; exact h.symbols
  · have hs := Stream.items_eq_of_length_lt strict symbols (show f.lines.length < f.lines.length + 1 + k by omega)
    refine ⟨?_, hs.2⟩
    rw [hs.1, Run.items, hkept, hfail]
    simp

end Amalgam.Selection
