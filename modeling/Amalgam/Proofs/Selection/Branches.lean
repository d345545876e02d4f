import Amalgam.Proofs.Selection.Step

/-!
# Modes inside branches

In a well-formed chain the branches are told apart by the directives that start
them, and the first whose condition holds is selected (`Branch.selected?`). The
mode inside a branch can be read off that (`Branch.mode`): lines are kept in
the selected branch of a chain that stands where lines are kept, and a branch
after it is resolved as soon as there was an `#elif`.

A run finds that mode step by step: an `#if` opens a block in the mode of the
first branch (`Branch.mode_opening`), and a separator leads from the mode of
one branch to that of the next (`Branch.mode_switch`). Inside several branches
the outermost one matters that is not selected (`foldl_mode_eq_resolved_iff`).
-/

namespace Amalgam

namespace Directive

/-- Whether the line is an `#elif`. -/
def isElseIf : Directive → Bool
  | elseIf _ => true
  | _ => false

/-- Whether the branch that the line starts may be selected. -/
def admits (symbols : Symbols) : Directive → Bool
  | opening condition | elseIf condition => condition.holds symbols
  | otherwise => true
  | _ => false

@[simp] theorem admits_opening (symbols : Symbols) (condition : Condition) :
    (opening condition).admits symbols = condition.holds symbols := rfl

@[simp] theorem admits_elseIf (symbols : Symbols) (condition : Condition) :
    (elseIf condition).admits symbols = condition.holds symbols := rfl

@[simp] theorem admits_otherwise (symbols : Symbols) : otherwise.admits symbols = true := rfl

end Directive

namespace Selection

/-! ## Branches of a chain -/

/-- A branch of a chain: the directives that start the branches of the chain,
in order, and which of the branches it is. -/
structure Branch where
  heads : List Directive
  index : Nat

namespace Branch

/-- The branch of the chain that is selected, if one is: the first whose
condition holds. -/
def selected? (symbols : Symbols) (b : Branch) : Option Nat :=
  b.heads.findIdx? (·.admits symbols)

/-- Whether the branch is the selected one. -/
def isSelected (symbols : Symbols) (b : Branch) : Bool :=
  b.selected? symbols = some b.index

/-- Whether a branch before this one is selected and, after that one and up to
this one, there is an `#elif`. -/
def isResolved (symbols : Symbols) (b : Branch) : Bool :=
  match b.selected? symbols with
  | none => false
  | some selected => ((b.heads.take (b.index + 1)).drop (selected + 1)).any Directive.isElseIf

/-- The mode inside the branch, if the mode around its chain is `around`. -/
def mode (symbols : Symbols) (b : Branch) (around : Mode) : Mode :=
  if around.isLive then
    if b.isSelected symbols then .keeping else .skipping (b.isResolved symbols)
  else around

variable {symbols : Symbols} {around : Mode} {earlier later : List Directive} {d d' : Directive}
  {selected : Nat}

theorem isLive_mode (b : Branch) : (b.mode symbols around).isLive =
    (around.isLive && b.isSelected symbols) := by
  unfold mode
  cases hl : around.isLive with
  | false => simp [hl]
  | true => cases b.isSelected symbols <;> rfl

theorem mode_ne_outside (b : Branch) : b.mode symbols around ≠ .outside := by
  unfold mode
  cases around with
  | outside | keeping => cases b.isSelected symbols <;> simp [Mode.isLive]
  | skipping resolved => simp [Mode.isLive]

/-- If no branch before it is selected, a branch is if its condition holds. -/
theorem isSelected_of_none (h : earlier.findIdx? (·.admits symbols) = none) :
    isSelected symbols ⟨earlier ++ d :: later, earlier.length⟩ = d.admits symbols := by
  rw [isSelected, selected?, List.findIdx?_append, h, List.findIdx?_cons]
  cases hd : d.admits symbols with
  | true => simp
  | false =>
    cases later.findIdx? (·.admits symbols) with
    | none => simp
    | some k => simp

theorem isResolved_of_none (h : earlier.findIdx? (·.admits symbols) = none) :
    isResolved symbols ⟨earlier ++ d :: later, earlier.length⟩ = false := by
  rw [isResolved, selected?, List.findIdx?_append, h]
  cases (d :: later).findIdx? (·.admits symbols) with
  | none => rfl
  | some k =>
    -- the selected branch is this one or comes later, so nothing lies between
    have hlen : (List.take (earlier.length + 1) (earlier ++ d :: later)).length ≤
        k + earlier.length + 1 := by
      rw [List.length_take]
      omega
    simp [List.drop_eq_nil_of_le hlen]

theorem isSelected_of_some (h : earlier.findIdx? (·.admits symbols) = some selected) :
    isSelected symbols ⟨earlier ++ d :: later, earlier.length⟩ = false := by
  obtain ⟨hlt, -⟩ := List.findIdx?_eq_some_iff_getElem.mp h
  rw [isSelected, selected?, List.findIdx?_append, h]
  simp only [Option.some_or, Option.some.injEq, decide_eq_false_iff_not]
  omega

theorem isResolved_of_some (h : earlier.findIdx? (·.admits symbols) = some selected) :
    isResolved symbols ⟨earlier ++ d :: later, earlier.length⟩ =
      (earlier.drop (selected + 1) ++ [d]).any Directive.isElseIf := by
  obtain ⟨hlt, -⟩ := List.findIdx?_eq_some_iff_getElem.mp h
  rw [isResolved, selected?, List.findIdx?_append, h]
  simp only [Option.some_or]
  rw [List.take_length_add_append, List.take_succ_cons, List.take_zero,
    List.drop_append_of_le_length hlt]

/-- A branch is selected if its condition holds and that of no branch before it
does. -/
theorem isSelected_mk : isSelected symbols ⟨earlier ++ d :: later, earlier.length⟩ =
    (!earlier.any (·.admits symbols) && d.admits symbols) := by
  rw [← List.findIdx?_isSome]
  cases h : earlier.findIdx? (·.admits symbols) with
  | none => exact isSelected_of_none h
  | some selected => exact isSelected_of_some h

/-- The mode of a branch before which none is selected. -/
theorem mode_of_none (live : around.isLive) (h : earlier.findIdx? (·.admits symbols) = none) :
    mode symbols ⟨earlier ++ d :: later, earlier.length⟩ around =
      if d.admits symbols then .keeping else .skipping false := by
  rw [mode, if_pos live, isSelected_of_none h, isResolved_of_none h]

/-- The mode of a branch that comes after the selected one. -/
theorem mode_of_some (live : around.isLive) (h : earlier.findIdx? (·.admits symbols) = some selected) :
    mode symbols ⟨earlier ++ d :: later, earlier.length⟩ around =
      .skipping ((earlier.drop (selected + 1) ++ [d]).any Directive.isElseIf) := by
  rw [mode, if_pos live, isSelected_of_some h, if_neg Bool.false_ne_true, isResolved_of_some h]

theorem isSelected_opening (condition : Condition) (later : List Directive) :
    isSelected symbols ⟨.opening condition :: later, 0⟩ = condition.holds symbols := by
  show isSelected symbols ⟨[] ++ .opening condition :: later, ([] : List Directive).length⟩ = _
  exact isSelected_of_none rfl

/-- The mode of the first branch of a chain is that in which an `#if` opens a
block. -/
theorem mode_opening (s : State) (condition : Condition) (later : List Directive) :
    mode s.symbols ⟨.opening condition :: later, 0⟩ s.mode = s.openedMode condition := by
  cases live : s.mode.isLive with
  | true =>
    rw [State.openedMode_of_isLive live]
    show mode s.symbols ⟨[] ++ .opening condition :: later, ([] : List Directive).length⟩ s.mode = _
    exact mode_of_none live rfl
  | false =>
    rw [mode, live, if_neg Bool.false_ne_true, State.openedMode]
    cases hm : s.mode with
    | outside | keeping => rw [hm] at live; cases live
    | skipping resolved => rfl

/-- From one branch of a chain to the next the mode changes as a separator
changes it. In a well-formed chain all branches up to the current one but the
first are those of an `#elif`. -/
theorem mode_switch (hsep : d'.isSeparator) (htail : ∀ x ∈ (earlier ++ [d]).tail, x.isElseIf) :
    (mode symbols ⟨earlier ++ d :: d' :: later, earlier.length⟩ around).switch symbols
        (!around.isLive) d' =
      mode symbols ⟨(earlier ++ [d]) ++ d' :: later, (earlier ++ [d]).length⟩ around := by
  cases live : around.isLive with
  | false =>
    rw [mode, mode, live, if_neg Bool.false_ne_true, if_neg Bool.false_ne_true]
    cases around with
    | outside | keeping => cases live
    | skipping resolved => exact Mode.switch_dropped ..
  | true =>
    cases h : earlier.findIdx? (·.admits symbols) with
    | none =>
      rw [mode_of_none live h]
      cases hd : d.admits symbols with
      | true =>
        have hnext : (earlier ++ [d]).findIdx? (·.admits symbols) = some earlier.length := by
          rw [List.findIdx?_append, h]
          simp [hd]
        rw [mode_of_some live hnext]
        cases d' with
        | elseIf condition => simp [Directive.isElseIf, Mode.switch]
        | otherwise => simp [Directive.isElseIf, Mode.switch]
        | _ => cases hsep
      | false =>
        have hnext : (earlier ++ [d]).findIdx? (·.admits symbols) = none := by
          rw [List.findIdx?_append, h]
          simp [hd]
        rw [mode_of_none live hnext]
        cases d' with
        | elseIf condition =>
          cases hc : condition.holds symbols <;> simp [Mode.switch, hc]
        | otherwise => rfl
        | _ => cases hsep
    | some selected =>
      -- the current branch comes after the selected one, so it is an `#elif`,
      -- and the chain is resolved
      obtain ⟨hlt, -⟩ := List.findIdx?_eq_some_iff_getElem.mp h
      have hd : d.isElseIf := by
        apply htail
        rw [List.tail_append_of_ne_nil (List.ne_nil_of_length_pos (by omega))]
        simp
      have hnext : (earlier ++ [d]).findIdx? (·.admits symbols) = some selected := by
        rw [List.findIdx?_append, h]
        rfl
      rw [mode_of_some live h, mode_of_some live hnext, List.drop_append_of_le_length hlt]
      simp [hd]

end Branch

/-! ## Inside branches -/

/-- The mode inside the given branches, the outermost one first. -/
def modeIn (symbols : Symbols) (branches : List Branch) : Mode :=
  branches.foldl (fun mode b => b.mode symbols mode) .outside

section

variable {symbols : Symbols} {branches : List Branch} {mode : Mode}

theorem modeIn_concat (branches : List Branch) (b : Branch) :
    modeIn symbols (branches ++ [b]) = b.mode symbols (modeIn symbols branches) := by
  rw [modeIn, List.foldl_append]
  rfl

/-- Inside a dropped branch the mode stays as it is. -/
theorem foldl_mode_of_dropped (h : mode.isLive = false) :
    branches.foldl (fun mode b => b.mode symbols mode) mode = mode := by
  induction branches with
  | nil => rfl
  | cons b branches ih => rw [List.foldl_cons, Branch.mode, h, if_neg Bool.false_ne_true, ih]

/-- The mode inside is resolved where the outermost branch that is not selected
is, and only there. -/
theorem foldl_mode_eq_resolved_iff (live : mode.isLive) :
    branches.foldl (fun mode b => b.mode symbols mode) mode = .skipping true ↔
      (branches.find? (!·.isSelected symbols)).any (·.isResolved symbols) := by
  induction branches generalizing mode with
  | nil => cases mode <;> simp [Mode.isLive] at live ⊢
  | cons b branches ih =>
    rw [List.foldl_cons, List.find?_cons]
    cases hb : b.isSelected symbols with
    | true =>
      have hm : b.mode symbols mode = .keeping := by rw [Branch.mode, if_pos live, hb, if_pos rfl]
      rw [hm]
      exact ih rfl
    | false =>
      have hm : b.mode symbols mode = .skipping (b.isResolved symbols) := by
        rw [Branch.mode, if_pos live, hb, if_neg Bool.false_ne_true]
      rw [hm, foldl_mode_of_dropped rfl]
      simp

end

end Selection

end Amalgam
