import Amalgam.Proofs.Selection.Inside
import Mathlib.Data.List.Forall2

/-!
# Blocks and their branches

A block is what stands between an `#if` and its `#endif`, or the end of the
lines, whatever stands there. `Block.cut` cuts it into branches at every
`#elif` and `#else` of the block itself, and `Block.yields` is what a run keeps
of each branch.

The modes of the branches follow from the separators alone (`branchModes`), and
a branch that is not kept yields nothing (`yields_branchModes`). So no more
branches contribute to the output than have a mode in which lines are kept
(`contributors_le`).
-/

namespace Amalgam.Selection

/-! ## Cutting a block -/

/-- The lines of a block between the `#if` and the `#endif`, cut into branches:
the first branch, and every further one with the line that starts it. -/
structure Block where
  first : List String
  further : List (String × List String)

namespace Block

/-- The block as it stands. -/
def lines (b : Block) : List String :=
  b.first ++ b.further.flatMap fun branch => branch.1 :: branch.2

/-- The lines that start the further branches. -/
def separators (b : Block) : List String :=
  b.further.map Prod.fst

/-- The block that begins the given lines, if `depth` blocks inside its current
branch are open: it ends before the `#endif` that closes it, or with the
lines. -/
def cut (depth : Nat) : List String → Block
  | [] => { first := [], further := [] }
  | line :: rest =>
    if depth = 0 ∧ Directive.ofLine line = .endIf then { first := [], further := [] }
    else if depth = 0 ∧ (Directive.ofLine line).isSeparator then
      let next := cut 0 rest
      { first := [], further := (line, next.first) :: next.further }
    else
      let next := cut ((Directive.ofLine line).nest depth) rest
      { first := line :: next.first, further := next.further }

/-- What a run keeps of each of the further branches. -/
def yieldsOf (strict : Bool) (r : Run) : List (String × List String) → List (List String)
  | [] => []
  | (separator, body) :: more =>
    (r.feed strict separator).yields strict body ::
      yieldsOf strict ((r.feed strict separator).feedAll strict body) more

/-- What a run keeps of each branch of a block. -/
def yields (strict : Bool) (r : Run) (b : Block) : List (List String) :=
  r.yields strict b.first :: yieldsOf strict (r.feedAll strict b.first) b.further

/-- The number of branches that add to the output. -/
def contributors (strict : Bool) (r : Run) (b : Block) : Nat :=
  (b.yields strict r).countP (!·.isEmpty)

variable {strict : Bool} {r : Run} {line : String} {lines : List String} {depth : Nat}

theorem cut_endIf (h : Directive.ofLine line = .endIf) (rest : List String) :
    cut 0 (line :: rest) = { first := [], further := [] } := by
  rw [cut, if_pos ⟨rfl, h⟩]

theorem cut_separator (h : (Directive.ofLine line).isSeparator) (rest : List String) :
    cut 0 (line :: rest) =
      { first := [], further := (line, (cut 0 rest).first) :: (cut 0 rest).further } := by
  have hend : Directive.ofLine line ≠ .endIf := by intro he; rw [he] at h; cases h
  rw [cut, if_neg (fun hc => hend hc.2), if_pos ⟨rfl, h⟩]

theorem cut_inside (hend : depth = 0 → Directive.ofLine line ≠ .endIf)
    (hsep : depth = 0 → (Directive.ofLine line).isSeparator = false) (rest : List String) :
    cut depth (line :: rest) =
      { first := line :: (cut ((Directive.ofLine line).nest depth) rest).first
        further := (cut ((Directive.ofLine line).nest depth) rest).further } := by
  rw [cut, if_neg (fun hc => hend hc.1 hc.2), if_neg (fun hc => by rw [hsep hc.1] at hc; cases hc.2)]

/-- The ways a line can stand to a block. -/
theorem cut_cases (depth : Nat) (line : String) :
    (depth = 0 ∧ Directive.ofLine line = .endIf) ∨
    (depth = 0 ∧ (Directive.ofLine line).isSeparator) ∨
    ((depth = 0 → Directive.ofLine line ≠ .endIf) ∧
      (depth = 0 → (Directive.ofLine line).isSeparator = false)) := by
  by_cases hz : depth = 0
  · by_cases hend : Directive.ofLine line = .endIf
    · exact .inl ⟨hz, hend⟩
    · cases hsep : (Directive.ofLine line).isSeparator with
      | true => exact .inr (.inl ⟨hz, rfl⟩)
      | false => exact .inr (.inr ⟨fun _ => hend, fun _ => rfl⟩)
  · exact .inr (.inr ⟨fun h => absurd h hz, fun h => absurd h hz⟩)

/-- A block is the beginning of the lines it is cut from, up to the `#endif`
that closes it. -/
theorem exists_eq_lines_append (depth : Nat) (lines : List String) :
    ∃ rest, lines = (cut depth lines).lines ++ rest ∧
      ∀ line ∈ rest.head?, Directive.ofLine line = .endIf := by
  induction lines generalizing depth with
  | nil => exact ⟨[], rfl, nofun⟩
  | cons line lines ih =>
    rcases cut_cases depth line with ⟨rfl, hend⟩ | ⟨rfl, hsep⟩ | ⟨hend, hsep⟩
    · rw [cut_endIf hend]
      refine ⟨line :: lines, rfl, fun line' hm => ?_⟩
      cases hm
      exact hend
    · obtain ⟨rest, hl, hr⟩ := ih 0
      rw [cut_separator hsep]
      exact ⟨rest, congrArg (line :: ·) hl, hr⟩
    · obtain ⟨rest, hl, hr⟩ := ih ((Directive.ofLine line).nest depth)
      rw [cut_inside hend hsep]
      exact ⟨rest, congrArg (line :: ·) hl, hr⟩

theorem isSeparator_of_mem_separators : ∀ {depth : Nat} {lines : List String} {line : String},
    line ∈ (cut depth lines).separators → (Directive.ofLine line).isSeparator
  | _, [], _, hm => nomatch hm
  | depth, line' :: lines, line, hm => by
    rcases cut_cases depth line' with ⟨rfl, hend⟩ | ⟨rfl, hsep⟩ | ⟨hend, hsep⟩
    · rw [cut_endIf hend] at hm
      cases hm
    · rw [cut_separator hsep] at hm
      rcases List.mem_cons.mp hm with rfl | hm
      · exact hsep
      · exact isSeparator_of_mem_separators hm
    · rw [cut_inside hend hsep] at hm
      exact isSeparator_of_mem_separators hm

/-- What a run keeps of a block is what it keeps of its branches: separators
are not kept. -/
theorem yields_lines (strict : Bool) (r : Run) (b : Block)
    (h : ∀ line ∈ b.separators, (Directive.ofLine line).isSeparator) :
    r.yields strict b.lines = (b.yields strict r).flatten := by
  obtain ⟨first, further⟩ := b
  rw [lines, Run.yields_append, yields, List.flatten_cons]
  congr 1
  generalize r.feedAll strict first = r
  induction further generalizing r with
  | nil => exact Run.yields_nil strict r
  | cons branch more ih =>
    obtain ⟨separator, body⟩ := branch
    have hsep : (Directive.ofLine separator).isText = false :=
      Directive.not_isText_of_isSeparator (h separator (List.mem_cons_self ..))
    rw [List.flatMap_cons, List.cons_append, Run.yields_cons, Run.yields_eq_nil_of_not_isText hsep,
      List.nil_append, Run.yields_append, yieldsOf, List.flatten_cons]
    congr 1
    exact ih (fun line hm => h line (List.mem_cons_of_mem _ hm)) _

end Block

/-! ## The modes of the branches -/

/-- The mode of the branch after a separator. A malformed one stops the run,
and no branch is kept after it. -/
def Mode.next (symbols : Symbols) (dropped : Bool) (mode : Mode) (d : Directive) : Mode :=
  if d.isMalformed then .skipping true else mode.switch symbols dropped d

/-- The modes of the branches of a block from the one in `mode` on, by the
separators that follow. -/
def branchModes (symbols : Symbols) (dropped : Bool) (mode : Mode) : List Directive → List Mode
  | [] => [mode]
  | d :: ds => mode :: branchModes symbols dropped (mode.next symbols dropped d) ds

theorem branchModes_eq_cons (symbols : Symbols) (dropped : Bool) (mode : Mode) (ds : List Directive) :
    branchModes symbols dropped mode ds = mode :: (branchModes symbols dropped mode ds).tail := by
  cases ds <;> rfl

section

variable {strict : Bool} {r : Run} {line : String} {depth : Nat} {mode around : Mode}
  {outer : List Mode}

/-- A separator of the block. -/
theorem Run.inside_feed_separator (strict : Bool) (hs : r.state.Sound)
    (hi : r.failure? = none → r.state.Inside 0 mode (around :: outer))
    (hsep : (Directive.ofLine line).isSeparator) (hgo : (r.feed strict line).failure? = none) :
    (r.feed strict line).state.Inside 0
      (mode.next r.state.symbols (!around.isLive) (Directive.ofLine line)) (around :: outer) := by
  obtain ⟨hf, t, hstep⟩ := feed_failure?_eq_none_iff.mp hgo
  have ha := State.step_eq_ok_iff.mp hstep
  rw [Mode.next, ha.wellFormed, if_neg Bool.false_ne_true, feed_of_ok hf hstep]
  exact (hi hf).switch hs ha hsep

/-- A branch yields nothing unless its mode keeps lines; the modes follow from
the separators. -/
theorem Block.yields_branchModes (strict : Bool) (lines : List String) (hs : r.state.Sound)
    (hi : r.failure? = none → r.state.Inside depth mode (around :: outer)) :
    List.Forall₂ (fun mode kept => mode.isLive = false → kept = [])
      (branchModes r.state.symbols (!around.isLive) mode
        ((cut depth lines).separators.map Directive.ofLine))
      ((cut depth lines).yields strict r) := by
  induction lines generalizing r depth mode with
  | nil => exact .cons (fun _ => Run.yields_nil strict r) .nil
  | cons line lines ih =>
    have hsym := Run.feed_symbols strict line hs hi
    rcases cut_cases depth line with ⟨rfl, hend⟩ | ⟨rfl, hsep⟩ | ⟨hend, hsep⟩
    · rw [cut_endIf hend]
      exact .cons (fun _ => Run.yields_nil strict r) .nil
    · have h := ih hs.feed (Run.inside_feed_separator strict hs hi hsep)
      rw [hsym] at h
      rw [cut_separator hsep]
      exact .cons (fun _ => Run.yields_nil strict r) h
    · have h := ih hs.feed (Run.inside_feed strict hs hi hend hsep)
      -- the line belongs to the branch the run is in, so only what is kept of
      -- that one changes
      rw [hsym, branchModes_eq_cons, yields, List.forall₂_cons] at h
      rw [cut_inside hend hsep, branchModes_eq_cons, yields, List.forall₂_cons]
      refine ⟨fun dropped => ?_, h.2⟩
      rw [Run.yields_cons, Run.yields_dropped strict line hs hi dropped, h.1 dropped]
      rfl

/-- As many as satisfy `q` satisfy `p` at the least, if `p` holds wherever `q`
holds beside it. -/
theorem countP_le_of_forall₂ {α β : Type} {p : α → Bool} {q : β → Bool} {xs : List α} {ys : List β}
    (h : List.Forall₂ (fun x y => q y → p x) xs ys) : ys.countP q ≤ xs.countP p := by
  induction h with
  | nil => exact Nat.le_refl _
  | @cons x y xs ys hxy _ ih =>
    rw [List.countP_cons, List.countP_cons]
    by_cases hq : q y
    · rw [if_pos hq, if_pos (hxy hq)]
      omega
    · rw [if_neg hq]
      omega

/-- No more branches contribute than have a mode in which lines are kept. -/
theorem Block.contributors_le
    (strict : Bool) (lines : List String) (hs : r.state.Sound)
    (hi : r.failure? = none → r.state.Inside depth mode (around :: outer)) :
    (cut depth lines).contributors strict r ≤
      (branchModes r.state.symbols (!around.isLive) mode
        ((cut depth lines).separators.map Directive.ofLine)).countP Mode.isLive := by
  refine countP_le_of_forall₂ ((yields_branchModes strict lines hs hi).imp fun mode kept h hk => ?_)
  by_contra hm
  rw [h (by simpa using hm)] at hk
  cases hk

end

end Amalgam.Selection
