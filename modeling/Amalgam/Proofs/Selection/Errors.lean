import Amalgam.Proofs.Selection.Branches
import Amalgam.Proofs.Selection.Forest

/-!
# Which `#error` lines stop a run

An `#error` in a dropped branch may still count. Whether it does is said here
by the branches around it (`ErrorLine.isSilenced`): of those the outermost one
matters that is not selected. The `#error` is silenced if the selected branch
of that chain comes before, and after it, up to the branch with the `#error`,
there is an `#elif`. A run has no branches but a mode, and `#error` is silenced
exactly where that mode is resolved (`isSilenced_iff`).

`Forest.select_errors` is what comes out for well-formed sources with `#error`
lines anywhere: the first `#error` that is not silenced stops the run, and if
there is none, the run keeps what the source means. What a stretch of lines
with `#error` lines does to a run is an `Outcome`, which is a `Passage` if no
`#error` counts, and outcomes are put together by `Outcome.append` along the
tree.
-/

namespace Amalgam

namespace Directive

/-- Whether the line is text or an `#error`. -/
def isTextOrError (d : Directive) : Bool :=
  d.isText || d.isError

/-- The message of an `#error`. -/
def errorMessage? : Directive → Option String
  | error message => some message
  | _ => none

end Directive

namespace Selection

/-! ## Silenced lines -/

/-- An `#error` line: the branches around it, the outermost one first, and its
message. -/
structure ErrorLine where
  branches : List Branch
  message : String

/-- Whether the `#error` does not count: the outermost branch around it that is
not selected comes after the selected one, with an `#elif` in between or at its
start. -/
def ErrorLine.isSilenced (symbols : Symbols) (e : ErrorLine) : Bool :=
  (e.branches.find? (!·.isSelected symbols)).any (·.isResolved symbols)

/-- An `#error` is silenced exactly where the mode is resolved. -/
theorem isSilenced_iff {symbols : Symbols} {branches : List Branch} (message : String) :
    (ErrorLine.mk branches message).isSilenced symbols ↔ modeIn symbols branches = .skipping true :=
  (foldl_mode_eq_resolved_iff rfl).symm

-- An `#else` right after the kept branch leaves its `#error` lines in force;
-- behind an `#elif` it does not.
example : (ErrorLine.mk [⟨[.opening ⟨false, "A"⟩, .otherwise], 1⟩] "no").isSilenced
    (Symbols.ofNames ["A"]) = false := by decide +kernel

example : (ErrorLine.mk [⟨[.opening ⟨false, "A"⟩, .elseIf ⟨false, "B"⟩, .otherwise], 2⟩]
    "no").isSilenced (Symbols.ofNames ["A"]) = true := by decide +kernel

/-! ## The `#error` lines of a source -/

variable {leaf : Directive → Bool}

/-- The directives that start the branches. -/
def Branches.heads : Branches leaf → List Directive
  | .elseIf separator _ others => .elseIf separator.condition :: others.heads
  | .otherwise _ _ _ => [.otherwise]
  | .close _ => []

mutual

/-- The `#error` lines of a forest inside the given branches, in order. -/
def Forest.errors (around : List Branch) : Forest leaf → List ErrorLine
  | .nil => []
  | .line line rest =>
    ((Directive.ofLine line.val).errorMessage?.map (ErrorLine.mk around)).toList ++ rest.errors around
  | .chain opening body others rest =>
    body.errors (around ++ [⟨.opening opening.condition :: others.heads, 0⟩]) ++
      (others.errors around [.opening opening.condition] ++ rest.errors around)

/-- The `#error` lines of the branches that follow those started by
`earlier`. -/
def Branches.errors (around : List Branch) (earlier : List Directive) : Branches leaf → List ErrorLine
  | .elseIf separator body others =>
    body.errors
        (around ++ [⟨earlier ++ .elseIf separator.condition :: others.heads, earlier.length⟩]) ++
      others.errors around (earlier ++ [.elseIf separator.condition])
  | .otherwise _ body _ => body.errors (around ++ [⟨earlier ++ [.otherwise], earlier.length⟩])
  | .close _ => []

end

mutual

/-- The `#error` lines of a forest are those among its lines. -/
theorem Forest.map_message_errors (around : List Branch) : ∀ f : Forest leaf,
    (f.errors around).map ErrorLine.message =
      f.lines.filterMap fun line => (Directive.ofLine line).errorMessage?
  | .nil => rfl
  | .line line rest => by
    simp only [Forest.errors, Forest.lines, List.map_append, List.filterMap_cons,
      rest.map_message_errors]
    cases (Directive.ofLine line.val).errorMessage? <;> rfl
  | .chain opening body others rest => by
    simp only [Forest.errors, Forest.lines, List.map_append, List.filterMap_cons, List.filterMap_append,
      body.map_message_errors, others.map_message_errors, rest.map_message_errors, opening.reads]
    rfl

theorem Branches.map_message_errors (around : List Branch) (earlier : List Directive) :
    ∀ b : Branches leaf, (b.errors around earlier).map ErrorLine.message =
      b.lines.filterMap fun line => (Directive.ofLine line).errorMessage?
  | .elseIf separator body others => by
    simp only [Branches.errors, Branches.lines, List.map_append, List.filterMap_cons,
      List.filterMap_append, body.map_message_errors, others.map_message_errors, separator.reads]
    rfl
  | .otherwise separator body closing => by
    simp only [Branches.errors, Branches.lines, List.filterMap_cons, List.filterMap_append,
      body.map_message_errors, separator.property, closing.property]
    simp [Directive.errorMessage?]
  | .close closing => by
    simp only [Branches.errors, Branches.lines, List.filterMap_cons, closing.property]
    rfl

end

/-- The message of the first `#error` that counts. -/
def firstHeard (symbols : Symbols) (errors : List ErrorLine) : Option String :=
  (errors.find? (!·.isSilenced symbols)).map ErrorLine.message

theorem firstHeard_append (symbols : Symbols) (xs ys : List ErrorLine) :
    firstHeard symbols (xs ++ ys) = (firstHeard symbols xs).or (firstHeard symbols ys) := by
  rw [firstHeard, List.find?_append, Option.map_or]
  rfl

/-! ## Outcomes -/

/-- Where a run stands that has not stopped. -/
structure Run.Stands (r : Run) (symbols : Symbols) (modes : List Mode) : Prop where
  goesOn : r.failure? = none
  symbols : r.state.symbols = symbols
  modes : r.state.modes = modes

/-- An `#error` among the lines stops the run, if `error?` is its message;
otherwise the lines are passed. -/
structure Outcome (strict : Bool) (r : Run) (lines : List String) (error? : Option String)
    (modes : List Mode) (kept : List String) : Prop where
  failure? : (r.feedAll strict lines).failure? = error?.map .userError
  passage : error? = none → Passage strict r lines modes kept

section

variable {strict : Bool} {r : Run} {symbols : Symbols} {modes modes' : List Mode}
  {xs ys kept kept' : List String} {error? error'? : Option String} {outer : List Mode}
  {around : List Branch}

theorem Passage.stands (h : Passage strict r xs modes kept) (hr : r.Stands symbols modes') :
    (r.feedAll strict xs).Stands symbols modes :=
  ⟨h.goesOn, h.symbols.trans hr.symbols, h.modes⟩

namespace Outcome

theorem of_passage (h : Passage strict r xs modes kept) : Outcome strict r xs none modes kept :=
  ⟨h.goesOn, fun _ => h⟩

theorem of_eq (h : Outcome strict r xs error? modes kept) (hk : kept = kept') :
    Outcome strict r xs error? modes kept' := hk ▸ h

theorem append (h : Outcome strict r xs error? modes kept)
    (h' : Passage strict r xs modes kept →
      Outcome strict (r.feedAll strict xs) ys error'? modes' kept') :
    Outcome strict r (xs ++ ys) (error?.or error'?) modes' (kept ++ kept') := by
  cases error? with
  | none =>
    have hx := h.passage rfl
    have hy := h' hx
    refine ⟨?_, fun he => hx.append (hy.passage he)⟩
    rw [Run.feedAll_append]
    exact hy.failure?
  | some message =>
    refine ⟨?_, nofun⟩
    rw [Run.feedAll_append, Run.feedAll_of_failure h.failure?]
    exact h.failure?

/-- A line of text, kept or dropped as the mode says. -/
theorem text {line : String} (hr : r.Stands symbols (modeIn symbols around :: outer))
    (ht : (Directive.ofLine line).isText) :
    Outcome strict r [line] none (modeIn symbols around :: outer)
      (if (modeIn symbols around).isLive then [line] else []) := by
  apply of_passage
  cases hm : modeIn symbols around with
  | outside | keeping => exact Passage.text_live strict hr.goesOn (hm ▸ hr.modes) rfl ht
  | skipping resolved => exact Passage.text_dropped strict hr.goesOn (hm ▸ hr.modes) ht

/-- An `#error` stops the run unless it is silenced. -/
theorem error {line message : String} (hr : r.Stands symbols (modeIn symbols around :: outer))
    (he : Directive.ofLine line = .error message) :
    Outcome strict r [line] (firstHeard symbols [⟨around, message⟩]) (modeIn symbols around :: outer)
      (if (modeIn symbols around).isLive then [line] else []) := by
  obtain ⟨hmode, -⟩ := List.cons.inj hr.modes
  by_cases hs : modeIn symbols around = .skipping true
  · have hheard : firstHeard symbols [⟨around, message⟩] = none := by
      simp [firstHeard, (isSilenced_iff message).mpr hs]
    have ha : State.Advance strict r.state line _ :=
      .drop true (hmode.trans hs) (.inr ⟨by rw [he]; rfl, rfl⟩)
    have h := Passage.single hr.goesOn ha rfl
    rw [State.reported_state, State.modes_countLine, hr.modes] at h
    rw [hheard]
    apply of_passage
    rwa [hs] at h ⊢
  · have hheard : firstHeard symbols [⟨around, message⟩] = some message := by
      simp [firstHeard, mt (isSilenced_iff message).mp hs]
    have hr' : State.Refusal strict r.state line _ := .error message he (by rwa [hmode])
    rw [hheard]
    refine ⟨?_, nofun⟩
    rw [Run.feedAll_cons, Run.feedAll_nil, Run.feed_of_error hr.goesOn hr'.step_eq]
    rfl

/-- One line of a forest. -/
theorem textOrError (strict : Bool) {line : String}
    (hr : r.Stands symbols (modeIn symbols around :: outer))
    (hl : (Directive.ofLine line).isTextOrError) :
    Outcome strict r [line] (firstHeard symbols
        ((Directive.ofLine line).errorMessage?.map (ErrorLine.mk around)).toList)
      (modeIn symbols around :: outer) (if (modeIn symbols around).isLive then [line] else []) := by
  cases hd : Directive.ofLine line with
  | plain | passthrough => exact text hr (by rw [hd]; rfl)
  | error message => exact error hr hd
  | _ => rw [hd] at hl; cases hl

end Outcome

end

/-! ## Whole sources -/

section

variable (strict : Bool) (symbols : Symbols)

-- The run stands in the mode that the branches around a forest give. Of a
-- chain that is being passed, the branch last started decides, `d` after
-- `earlier`: all of these but the first are those of an `#elif`, which
-- `Branch.mode_switch` needs.
mutual

theorem Forest.outcome : ∀ (f : Forest Directive.isTextOrError) {r : Run} {around : List Branch}
    {outer : List Mode}, r.Stands symbols (modeIn symbols around :: outer) →
    Outcome strict r f.lines (firstHeard symbols (f.errors around)) (modeIn symbols around :: outer)
      (if (modeIn symbols around).isLive then f.meaning symbols else [])
  | .nil, r, around, _, hr => by
    have h : Outcome strict r [] none _ [] := .of_passage (Passage.nil hr.goesOn)
    rw [hr.modes] at h
    cases hl : (modeIn symbols around).isLive <;> exact h
  | .line line rest, r, around, outer, hr => by
    have first := Outcome.textOrError strict hr line.property
    have all := first.append fun h => rest.outcome (h.stands hr)
    rw [← firstHeard_append] at all
    cases hl : (modeIn symbols around).isLive <;> rw [hl] at all <;> exact all
  | .chain o body others rest, r, around, outer, hr => by
    have enter := Passage.opening strict hr.goesOn o
    rw [← Branch.mode_opening r.state o.condition others.heads, hr.symbols, hr.modes,
      (List.cons.inj hr.modes).1, ← modeIn_concat] at enter
    have hbody := body.outcome (enter.stands hr)
    have all := (Outcome.of_passage enter).append fun h => hbody.append fun h' =>
      (others.outcome [] (.opening o.condition) (modeIn_concat around _ ▸ h'.stands (h.stands hr))
        nofun).append fun h'' => rest.outcome (h''.stands (h'.stands (h.stands hr)))
    rw [← firstHeard_append, ← firstHeard_append] at all
    refine all.of_eq ?_
    rw [modeIn_concat, Branch.isLive_mode, Branch.isSelected_opening]
    simp only [Forest.meaning, List.nil_append, List.any_cons, List.any_nil, Directive.admits_opening]
    by_cases hc : o.condition.holds symbols <;> cases (modeIn symbols around).isLive <;> simp [hc]

theorem Branches.outcome : ∀ (b : Branches Directive.isTextOrError) (earlier : List Directive)
    (d : Directive) {r : Run} {around : List Branch} {outer : List Mode},
    r.Stands symbols (Branch.mode symbols ⟨earlier ++ d :: b.heads, earlier.length⟩
      (modeIn symbols around) :: modeIn symbols around :: outer) →
    (∀ x ∈ (earlier ++ [d]).tail, x.isElseIf) →
    Outcome strict r b.lines (firstHeard symbols (b.errors around (earlier ++ [d])))
      (modeIn symbols around :: outer)
      (if (modeIn symbols around).isLive && !(earlier ++ [d]).any (·.admits symbols) then
        b.meaning symbols else [])
  | .elseIf sep body others, earlier, d, r, around, outer, hr, htail => by
    have next := Passage.separator strict hr.goesOn hr.modes (Branch.mode_ne_outside _)
      (by rw [sep.reads]; rfl) sep.isMalformed_eq_false
    rw [sep.reads, State.inDropped_eq hr.modes, hr.symbols, Branches.heads,
      Branch.mode_switch rfl htail, ← modeIn_concat] at next
    have hbody := body.outcome (next.stands hr)
    have htail' : ∀ x ∈ (earlier ++ [d] ++ [Directive.elseIf sep.condition]).tail, x.isElseIf := by
      intro x hx
      rw [List.tail_append_of_ne_nil (by simp), List.mem_append, List.mem_singleton] at hx
      rcases hx with hx | rfl
      · exact htail x hx
      · rfl
    have all := (Outcome.of_passage next).append fun h => hbody.append fun h' =>
      others.outcome (earlier ++ [d]) (.elseIf sep.condition)
        (modeIn_concat around _ ▸ h'.stands (h.stands hr)) htail'
    rw [← firstHeard_append] at all
    refine all.of_eq ?_
    rw [modeIn_concat, Branch.isLive_mode, Branch.isSelected_mk]
    generalize earlier ++ [d] = started
    simp only [Branches.meaning, List.any_append, List.any_cons, List.any_nil, Directive.admits_elseIf]
    by_cases hc : sep.condition.holds symbols <;> cases (modeIn symbols around).isLive <;>
      cases started.any (·.admits symbols) <;> simp [hc]
  | .otherwise sep body c, earlier, d, r, around, outer, hr, htail => by
    have next := Passage.separator strict hr.goesOn hr.modes (Branch.mode_ne_outside _)
      (by rw [sep.property]; rfl) (by rw [sep.property]; rfl)
    rw [sep.property, State.inDropped_eq hr.modes, hr.symbols, Branches.heads,
      Branch.mode_switch rfl htail, ← modeIn_concat] at next
    have all := (Outcome.of_passage next).append fun h =>
      (body.outcome (h.stands hr)).append fun h' =>
        .of_passage (Passage.closing strict h'.goesOn h'.modes
          (modeIn_concat around _ ▸ Branch.mode_ne_outside _) (by simp) c)
    rw [Option.or_none] at all
    refine all.of_eq ?_
    rw [modeIn_concat, Branch.isLive_mode, Branch.isSelected_mk]
    generalize earlier ++ [d] = started
    simp only [Branches.meaning, Directive.admits_otherwise]
    cases (modeIn symbols around).isLive <;> cases started.any (·.admits symbols) <;> simp
  | .close c, earlier, d, r, around, outer, hr, _ => by
    have h : Outcome strict r [c.val] none _ [] :=
      .of_passage (Passage.closing strict hr.goesOn hr.modes (Branch.mode_ne_outside _) (by simp) c)
    refine h.of_eq ?_
    simp [Branches.meaning]

end

end

/-- A run over a forest is stopped by the first `#error` that is not silenced,
or else it keeps what the forest means. -/
theorem Forest.outcome_select (strict : Bool) (symbols : Symbols) (f : Forest Directive.isTextOrError) :
    (select strict symbols f.lines).failure? =
        (firstHeard symbols (f.errors [])).map .userError ∧
      (firstHeard symbols (f.errors []) = none →
        (select strict symbols f.lines).kept.toList = f.meaning symbols) := by
  have hstart : (Run.start symbols).Stands symbols [modeIn symbols []] := ⟨rfl, rfl, rfl⟩
  have h := f.outcome strict symbols hstart
  rw [Run.select_eq, Run.finish_kept]
  cases hf : firstHeard symbols (f.errors []) with
  | some message =>
    have hstop := h.failure?
    rw [hf] at hstop
    rw [Run.finish_of_failure hstop]
    exact ⟨hstop, nofun⟩
  | none =>
    have hpass := h.passage hf
    have hdepth : ((Run.start symbols).feedAll strict f.lines).state.depth = 0 :=
      congrArg List.length (List.cons.inj hpass.modes).2
    refine ⟨?_, fun _ => ?_⟩
    · rw [Run.finish_failure? hpass.goesOn, hdepth]
      simp
    · rw [Run.kept_feedAll, hpass.yields]
      rfl

/-- Over a well-formed source with `#error` lines anywhere a run succeeds
exactly if every `#error` is silenced, and then it keeps what the source means;
otherwise it fails with the message of the first one that is not. Strict or not
makes no difference. -/
theorem Forest.select_errors (strict : Bool) (symbols : Symbols) (f : Forest Directive.isTextOrError) :
    (f.errors []).map ErrorLine.message =
      f.lines.filterMap (fun line => (Directive.ofLine line).errorMessage?) ∧
    ((select strict symbols f.lines).failure? = none ↔ ∀ e ∈ f.errors [], e.isSilenced symbols) ∧
    (select strict symbols f.lines).result =
      match (f.errors []).find? (!·.isSilenced symbols) with
      | some e => .error (.userError e.message)
      | none => .ok (f.meaning symbols) := by
  obtain ⟨hfail, hkept⟩ := f.outcome_select strict symbols
  refine ⟨f.map_message_errors [], ?_, ?_⟩
  · rw [hfail, firstHeard, Option.map_eq_none_iff, Option.map_eq_none_iff, List.find?_eq_none]
    simp
  · rw [firstHeard] at hfail hkept
    rw [Run.result, hfail]
    cases hf : (f.errors []).find? (!·.isSilenced symbols) with
    | some e => rfl
    | none =>
      rw [hf] at hkept
      rw [← hkept rfl]
      rfl

end Selection

end Amalgam
