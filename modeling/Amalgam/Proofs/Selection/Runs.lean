import Amalgam.Proofs.Selection.Step
import Amalgam.Selection.Run

/-!
# Runs as folds of steps

A run takes one line after the other, so what every step keeps a whole run
keeps (`feedAll_keep`), and a run over `xs ++ ys` is a run over `xs` that goes
on with `ys` (`feedAll_append`). A run that has stopped takes nothing more. The
lines that a stretch of a run adds to the output are `Run.yields`.
-/

namespace Amalgam.Selection

namespace Run

variable {strict : Bool} {r : Run} {line : String} {t : Step} {failure : Failure}

/-! ## One line -/

theorem feed_of_failure (h : r.failure? = some failure) : r.feed strict line = r := by
  simp [feed, h]

theorem feed_of_ok (h : r.failure? = none) (hs : r.state.step strict line = .ok t) :
    r.feed strict line =
      { r with
        state := t.state
        kept := match t.verdict with
          | .emit => r.kept.push line
          | .drop => r.kept
        events := r.events ++ t.events } := by
  cases hv : t.verdict <;> simp only [feed, h, hs, hv]

theorem feed_of_error (h : r.failure? = none) (hs : r.state.step strict line = .error failure) :
    r.feed strict line = { r with state := r.state.countLine, failure? := some failure } := by
  simp only [feed, h, hs]

/-- A line leads from a run that goes on to one that goes on exactly if it is
taken. -/
theorem feed_failure?_eq_none_iff : (r.feed strict line).failure? = none ↔
    r.failure? = none ∧ ∃ t, r.state.step strict line = .ok t := by
  cases h : r.failure? with
  | some failure => simp [feed_of_failure h, h]
  | none =>
    cases hs : r.state.step strict line with
    | error failure => simp [feed_of_error h hs]
    | ok t => simp [feed_of_ok h hs, h]

/-- What holds of the state of a run holds after one more line, if a line that
is taken keeps it, and so does a line at which the run stops, which is only
counted. -/
theorem feed_keep (P : State → Prop) (h : P r.state) (hcount : P r.state.countLine)
    (hstep : r.failure? = none → ∀ t, State.Advance strict r.state line t → P t.state) :
    P (r.feed strict line).state := by
  cases hf : r.failure? with
  | some failure => rw [feed_of_failure hf]; exact h
  | none =>
    cases hs : r.state.step strict line with
    | error failure => rw [feed_of_error hf hs]; exact hcount
    | ok t => rw [feed_of_ok hf hs]; exact hstep hf t (State.step_eq_ok_iff.mp hs)

/-- A line that is no definition leaves the table alone, also if the run stops
there. -/
theorem feed_symbols_of_not_isDefinition (strict : Bool) (r : Run)
    (hd : (Directive.ofLine line).isDefinition = false) :
    (r.feed strict line).state.symbols = r.state.symbols := by
  refine feed_keep (fun s => s.symbols = r.state.symbols) rfl rfl fun _ t ha => ?_
  rw [ha.symbols_revise, Directive.revise_eq_self hd]

/-- A run that goes on counts the line, also if it stops there. -/
theorem feed_lineNumber (h : r.failure? = none) :
    (r.feed strict line).state.lineNumber = r.state.lineNumber + 1 := by
  cases hs : r.state.step strict line with
  | error failure => rw [feed_of_error h hs]; rfl
  | ok t => rw [feed_of_ok h hs]; exact (State.step_eq_ok_iff.mp hs).lineNumber

/-! ## Many lines -/

/-- Takes the given lines, from first to last. -/
def feedAll (strict : Bool) (r : Run) (lines : List String) : Run :=
  lines.foldl (feed strict) r

@[simp] theorem feedAll_nil : r.feedAll strict [] = r := rfl

@[simp] theorem feedAll_cons (lines : List String) :
    r.feedAll strict (line :: lines) = (r.feed strict line).feedAll strict lines := rfl

theorem feedAll_append (xs ys : List String) :
    r.feedAll strict (xs ++ ys) = (r.feedAll strict xs).feedAll strict ys :=
  List.foldl_append

theorem select_eq (strict : Bool) (symbols : Symbols) (lines : List String) :
    select strict symbols lines = ((start symbols).feedAll strict lines).finish strict := rfl

theorem feedAll_of_failure (h : r.failure? = some failure) (lines : List String) :
    r.feedAll strict lines = r := by
  induction lines with
  | nil => rfl
  | cons line lines ih => rw [feedAll_cons, feed_of_failure h, ih]

/-- A run that goes on after some lines has gone on all the way. -/
theorem failure?_eq_none_of_feedAll {lines : List String}
    (h : (r.feedAll strict lines).failure? = none) : r.failure? = none := by
  cases hr : r.failure? with
  | none => rfl
  | some failure => rw [feedAll_of_failure hr, hr] at h; cases h

/-- What every line that is taken keeps, and counting a line keeps, a whole run
keeps. -/
theorem feedAll_keep (P : State → Prop) (hcount : ∀ {s : State}, P s → P s.countLine)
    (hstep : ∀ {s : State} {line : String} {t : Step}, P s → State.Advance strict s line t → P t.state)
    (lines : List String) (h : P r.state) : P (r.feedAll strict lines).state := by
  induction lines generalizing r with
  | nil => exact h
  | cons line lines ih =>
    rw [feedAll_cons]
    exact ih (feed_keep P h (hcount h) fun _ _ ha => hstep h ha)

/-- A run that has gone on has counted every line. -/
theorem feedAll_lineNumber {lines : List String} (h : (r.feedAll strict lines).failure? = none) :
    (r.feedAll strict lines).state.lineNumber = r.state.lineNumber + lines.length := by
  induction lines generalizing r with
  | nil => rfl
  | cons line lines ih =>
    have hr : r.failure? = none := failure?_eq_none_of_feedAll h
    rw [feedAll_cons] at h ⊢
    rw [ih h, feed_lineNumber hr, List.length_cons]
    omega

/-- A run has counted no more lines than it was given. -/
theorem feedAll_lineNumber_le (strict : Bool) (r : Run) (lines : List String) :
    (r.feedAll strict lines).state.lineNumber ≤ r.state.lineNumber + lines.length := by
  induction lines generalizing r with
  | nil => exact Nat.le_refl _
  | cons line lines ih =>
    rw [feedAll_cons, List.length_cons]
    have := ih (r.feed strict line)
    cases hr : r.failure? with
    | none => rw [feed_lineNumber hr] at this; omega
    | some failure => rw [feed_of_failure hr] at this ⊢; omega

/-! ## The end of a run -/

theorem finish_of_failure (h : r.failure? = some failure) : r.finish strict = r := by
  simp [finish, h]

@[simp] theorem finish_state (strict : Bool) (r : Run) : (r.finish strict).state = r.state := by
  unfold finish
  split
  · rfl
  · split <;> rfl

@[simp] theorem finish_kept (strict : Bool) (r : Run) : (r.finish strict).kept = r.kept := by
  unfold finish
  split
  · rfl
  · split <;> rfl

/-- The end of a run that has gone on: a strict run fails if blocks are
open. -/
theorem finish_failure? (h : r.failure? = none) : (r.finish strict).failure? =
    if strict ∧ 0 < r.state.depth then some (.unterminatedConditional r.state.depth) else none := by
  simp only [finish, h, State.close]
  by_cases hd : r.state.depth = 0
  · simp [hd]
  · cases strict <;> simp [hd, Nat.pos_iff_ne_zero]

/-- A run gives lines exactly if it has not stopped, and then those it kept. -/
theorem result_eq_ok_iff {kept : List String} :
    r.result = .ok kept ↔ r.failure? = none ∧ r.kept.toList = kept := by
  unfold result
  cases r.failure? <;> simp

/-- A run gives a text exactly if it gives lines, and then these put
together. -/
theorem text_eq_ok_iff {output : String} :
    r.text = .ok output ↔ ∃ kept, r.result = .ok kept ∧ Text.unlines kept = output := by
  unfold text
  cases r.result <;> simp [Except.map]

/-- A run gives a failure exactly if that has stopped it. -/
theorem text_eq_error_iff : r.text = .error failure ↔ r.failure? = some failure := by
  unfold text result
  cases r.failure? <;> simp [Except.map]

/-! ## What a run keeps -/

theorem kept_feed_toList (strict : Bool) (r : Run) (line : String) :
    (r.feed strict line).kept.toList = r.kept.toList ∨
      (r.feed strict line).kept.toList = r.kept.toList ++ [line] := by
  cases hf : r.failure? with
  | some failure => rw [feed_of_failure hf]; exact .inl rfl
  | none =>
    cases hs : r.state.step strict line with
    | error failure => rw [feed_of_error hf hs]; exact .inl rfl
    | ok t =>
      rw [feed_of_ok hf hs]
      cases t.verdict with
      | emit => exact .inr (by simp)
      | drop => exact .inl rfl

/-- The lines that are kept while the given ones are taken. -/
def yields (strict : Bool) (r : Run) (lines : List String) : List String :=
  (r.feedAll strict lines).kept.toList.drop r.kept.size

/-- What has been kept stays, and in front of what is kept later. -/
theorem kept_feedAll (strict : Bool) (r : Run) (lines : List String) :
    (r.feedAll strict lines).kept.toList = r.kept.toList ++ r.yields strict lines := by
  suffices h : r.kept.toList <+: (r.feedAll strict lines).kept.toList by
    obtain ⟨later, h⟩ := h
    rw [yields, ← h, ← Array.length_toList, List.drop_left]
  induction lines generalizing r with
  | nil => exact List.prefix_rfl
  | cons line lines ih =>
    rw [feedAll_cons]
    refine List.IsPrefix.trans ?_ (ih _)
    rcases kept_feed_toList strict r line with h | h
    · exact h ▸ List.prefix_rfl
    · exact h ▸ List.prefix_append _ _

@[simp] theorem yields_nil (strict : Bool) (r : Run) : r.yields strict [] = [] := by
  simp [yields, feedAll, ← Array.length_toList]

theorem yields_append (strict : Bool) (r : Run) (xs ys : List String) :
    r.yields strict (xs ++ ys) = r.yields strict xs ++ (r.feedAll strict xs).yields strict ys := by
  have h := kept_feedAll strict r (xs ++ ys)
  rw [feedAll_append, kept_feedAll, kept_feedAll, List.append_assoc] at h
  exact (List.append_cancel_left h).symm

theorem yields_cons (strict : Bool) (r : Run) (line : String) (lines : List String) :
    r.yields strict (line :: lines) =
      r.yields strict [line] ++ (r.feed strict line).yields strict lines :=
  yields_append strict r [line] lines

theorem yields_of_failure (h : r.failure? = some failure) (lines : List String) :
    r.yields strict lines = [] := by
  simp [yields, feedAll_of_failure h, ← Array.length_toList]

/-- A line that is taken stands in the output exactly if it is not dropped. -/
theorem yields_singleton (h : r.failure? = none) (hs : r.state.step strict line = .ok t) :
    r.yields strict [line] = match t.verdict with
      | .emit => [line]
      | .drop => [] := by
  rw [yields, feedAll_cons, feedAll_nil, feed_of_ok h hs]
  cases t.verdict <;> simp [← Array.length_toList]

/-- A line adds nothing to the output unless it is taken and kept. -/
theorem yields_singleton_eq_nil (h : r.failure? = none →
    ∀ t, State.Advance strict r.state line t → t.verdict = .drop) : r.yields strict [line] = [] := by
  cases hf : r.failure? with
  | some failure => exact yields_of_failure hf _
  | none =>
    cases hs : r.state.step strict line with
    | error failure =>
      rw [yields, feedAll_cons, feedAll_nil, feed_of_error hf hs]
      simp [← Array.length_toList]
    | ok t => rw [yields_singleton hf hs, h hf t (State.step_eq_ok_iff.mp hs)]

/-- Only text is kept. -/
theorem yields_eq_nil_of_not_isText (h : (Directive.ofLine line).isText = false) :
    r.yields strict [line] = [] := by
  refine yields_singleton_eq_nil fun _ t ha => ?_
  cases ha with
  | keep text live => rw [h] at text; cases text
  | _ => rfl

theorem yields_singleton_sublist (strict : Bool) (r : Run) (line : String) :
    List.Sublist (r.yields strict [line]) [line] := by
  have h := kept_feedAll strict r [line]
  rw [feedAll_cons, feedAll_nil] at h
  rcases kept_feed_toList strict r line with hk | hk
  · have hnone : r.yields strict [line] = [] := List.append_right_eq_self.mp (h.symm.trans hk)
    simp [hnone]
  · have hall : r.yields strict [line] = [line] := List.append_cancel_left (h.symm.trans hk)
    simp [hall]

/-- What is kept are some of the lines, in their order and as they stand. -/
theorem yields_sublist (strict : Bool) (r : Run) (lines : List String) :
    List.Sublist (r.yields strict lines) lines := by
  induction lines generalizing r with
  | nil => simp
  | cons line lines ih =>
    rw [yields_cons]
    exact (yields_singleton_sublist strict r line).append (ih _)

theorem isText_of_mem_yields {lines : List String} (h : line ∈ r.yields strict lines) :
    (Directive.ofLine line).isText := by
  induction lines generalizing r with
  | nil => rw [yields_nil] at h; cases h
  | cons line' lines ih =>
    rw [yields_cons] at h
    rcases List.mem_append.mp h with hm | hm
    · obtain rfl := List.mem_singleton.mp ((yields_singleton_sublist strict r line').subset hm)
      cases ht : (Directive.ofLine line).isText with
      | true => rfl
      | false => rw [yields_eq_nil_of_not_isText ht] at hm; cases hm
    · exact ih hm

/-- A whole run has kept what it keeps of the lines. -/
theorem kept_select (strict : Bool) (symbols : Symbols) (lines : List String) :
    (select strict symbols lines).kept.toList = (start symbols).yields strict lines := by
  rw [select_eq, finish_kept, kept_feedAll]
  rfl

end Run

end Amalgam.Selection
