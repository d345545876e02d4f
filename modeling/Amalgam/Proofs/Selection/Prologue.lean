import Amalgam.Proofs.Selection.Nesting
import Amalgam.Proofs.Selection.Tables

/-!
# Definitions as a prologue

Definitions are accepted only before the first content, so from there on the
table stays as it is (`feedAll_symbols_of_content`), and no condition is looked
up before (`feedAll_symbols_of_asks`). Every condition that is looked up at all
is therefore looked up in the table that the run ends with.

Hence the definitions can be taken out of the lines and the run started from
the table they lead to: `select_withoutDefinitions` says that such a run gives
the same, if it is no definition at which the run with them fails. The two runs
go side by side over the lines (`Run.Alike`): a definition is taken by one of
them only and changes nothing but its table, and every other line does the same
to both.
-/

namespace Amalgam.Selection

/-! ## The table after the first content -/

namespace State

variable {strict : Bool} {s : State} {line : String} {t : Step}

/-- The content that has been seen is not forgotten. -/
theorem Advance.content_le (ha : Advance strict s line t) : s.content ≤ t.state.content := by
  cases ha with
  | keep text live => exact Nat.le_add_right _ _
  | enter condition opening valid => exact Nat.le_succ _
  | leave closing inside => exact Nat.le_of_eq (leave_content s.countLine).symm
  | _ => exact Nat.le_refl _

/-- After the first content a line that is taken leaves the table alone. -/
theorem Advance.symbols_of_content (ha : Advance strict s line t) (hc : 0 < s.content) :
    t.state.symbols = s.symbols := by
  cases ha with
  | define definition mode start => omega
  | leave closing inside => exact leave_symbols s.countLine
  | _ => rfl

end State

namespace Run

variable {strict : Bool} {r r' : Run} {line : String} {lines : List String}

/-- After the first content the table stays as it is. -/
theorem feedAll_symbols_of_content (strict : Bool) (hc : 0 < r.state.content) (lines : List String) :
    (r.feedAll strict lines).state.symbols = r.state.symbols := by
  suffices h : 0 < (r.feedAll strict lines).state.content ∧
      (r.feedAll strict lines).state.symbols = r.state.symbols from h.2
  refine feedAll_keep (fun s => 0 < s.content ∧ s.symbols = r.state.symbols) id ?_ lines ⟨hc, rfl⟩
  intro s line t hs ha
  exact ⟨Nat.lt_of_lt_of_le hs.1 ha.content_le, (ha.symbols_of_content hs.1).trans hs.2⟩

/-- A table in which a condition is looked up is the one that the run ends
with. -/
theorem feedAll_symbols_of_asks (strict : Bool) (hs : r.state.Sound) {condition : Condition}
    (h : condition ∈ r.state.asks? (Directive.ofLine line)) (lines : List String) :
    (r.feedAll strict (line :: lines)).state.symbols = r.state.symbols := by
  by_cases hc : 0 < r.state.content
  · exact feedAll_symbols_of_content strict hc _
  · have hout : r.state.mode = .outside := by
      by_contra inside
      have := hs.depth_pos_of_inside inside
      have := hs.depth_le_content
      omega
    -- outside all blocks only an `#if` asks, and it is content itself or stops
    -- the run
    obtain ⟨c, hopen⟩ : ∃ c, Directive.ofLine line = .opening c := by
      cases hd : Directive.ofLine line <;> simp_all [State.asks?]
    have hfeed : (r.feed strict line).state.symbols = r.state.symbols :=
      feed_symbols_of_not_isDefinition strict r (by rw [hopen]; rfl)
    rw [feedAll_cons, ← hfeed]
    cases hf : (r.feed strict line).failure? with
    | some failure => rw [feedAll_of_failure hf]
    | none =>
      obtain ⟨hr, t, hstep⟩ := feed_failure?_eq_none_iff.mp hf
      apply feedAll_symbols_of_content
      rw [feed_of_ok hr hstep]
      exact ((State.step_eq_ok_iff.mp hstep).content_pos_iff hs).mpr (.inr (by simp [isContent, hopen]))

/-! ## Two runs side by side -/

/-- The runs have kept the same and stopped alike, if they did, and stand
alike. -/
structure Alike (r r' : Run) : Prop where
  state : r.state.Alike r'.state
  kept : r.kept = r'.kept
  failure? : r.failure? = r'.failure?

/-- A line that both runs take, if they give the condition that it asks for the
same value. -/
theorem Alike.feed (h : r.Alike r') (hc : r.failure? = none →
      ∀ c ∈ r.state.asks? (Directive.ofLine line), c.holds r.state.symbols = c.holds r'.state.symbols) :
    (r.feed strict line).Alike (r'.feed strict line) := by
  cases hf : r.failure? with
  | some failure =>
    rw [feed_of_failure hf, feed_of_failure (h.failure? ▸ hf)]
    exact h
  | none =>
    have hf' : r'.failure? = none := h.failure? ▸ hf
    cases hs : r.state.step strict line with
    | error failure =>
      have hs' := (h.state.refusal (State.step_eq_error_iff.mp hs)).step_eq
      rw [feed_of_error hf hs, feed_of_error hf' hs']
      exact ⟨h.state.countLine, h.kept, rfl⟩
    | ok t =>
      obtain ⟨t', ha', hv, ht⟩ := h.state.advance (hc hf) (State.step_eq_ok_iff.mp hs)
      rw [feed_of_ok hf hs, feed_of_ok hf' ha'.step_eq]
      refine ⟨ht, ?_, h.failure?⟩
      simp only [hv, h.kept]

/-- A definition that only one of the runs takes, if it is not that at which
the run stops. -/
theorem Alike.feed_definition (h : r.Alike r') (hd : (Directive.ofLine line).isDefinition)
    (hn : (r.feed strict line).failure? ≠ some (.definitionNotAtStart (Text.trim line))) :
    (r.feed strict line).Alike r' := by
  cases hf : r.failure? with
  | some failure => rw [feed_of_failure hf]; exact h
  | none =>
    by_cases early : r.state.mode = .outside ∧ r.state.content = 0
    · have ha : State.Advance strict r.state line _ := .define hd early.1 early.2
      rw [feed_of_ok hf ha.step_eq]
      exact ⟨⟨h.state.mode, h.state.frames, h.state.content⟩, h.kept, h.failure?⟩
    · have hr : State.Refusal strict r.state line _ := .late hd (by grind)
      rw [feed_of_error hf hr.step_eq] at hn
      exact absurd rfl hn

/-- Runs that stand alike end alike. -/
theorem Alike.finish (h : r.Alike r') : (r.finish strict).Alike (r'.finish strict) := by
  cases hf : r.failure? with
  | some failure =>
    rw [finish_of_failure hf, finish_of_failure (h.failure? ▸ hf)]
    exact h
  | none =>
    refine ⟨?_, ?_, ?_⟩
    · rw [finish_state, finish_state]; exact h.state
    · rw [finish_kept, finish_kept]; exact h.kept
    · rw [finish_failure? hf, finish_failure? (h.failure? ▸ hf), h.state.depth]

end Run

/-! ## Without the definitions -/

/-- The lines that are no definitions. -/
def withoutDefinitions (lines : List String) : List String :=
  lines.filter fun line => !(Directive.ofLine line).isDefinition

namespace Run

variable {strict : Bool} {r r' : Run} {line : String} {lines : List String}

/-- From the table with which the one run ends, the other one takes the same
lines without the definitions, and does not change that table. -/
theorem feedAll_withoutDefinitions (strict : Bool) (h : r.Alike r') (hs : r.state.Sound)
    (hsym : r'.state.symbols = (r.feedAll strict lines).state.symbols)
    (hn : ∀ directive, (r.feedAll strict lines).failure? ≠ some (.definitionNotAtStart directive)) :
    (r.feedAll strict lines).Alike (r'.feedAll strict (withoutDefinitions lines)) ∧
      (r'.feedAll strict (withoutDefinitions lines)).state.symbols = r'.state.symbols := by
  induction lines generalizing r r' with
  | nil => exact ⟨h, rfl⟩
  | cons line lines ih =>
    rw [feedAll_cons] at hsym hn
    rw [feedAll_cons, withoutDefinitions, List.filter_cons]
    cases hd : (Directive.ofLine line).isDefinition with
    | true =>
      have hfeed : (r.feed strict line).failure? ≠ some (.definitionNotAtStart (Text.trim line)) := by
        intro hf
        rw [feedAll_of_failure hf] at hn
        exact hn _ hf
      exact ih (h.feed_definition hd hfeed) hs.feed hsym hn
    | false =>
      have hsame : (r'.feed strict line).state.symbols = r'.state.symbols :=
        feed_symbols_of_not_isDefinition strict r' hd
      have hfeed : (r.feed strict line).Alike (r'.feed strict line) := by
        refine h.feed fun _ c hc => ?_
        rw [hsym, ← feedAll_cons, feedAll_symbols_of_asks strict hs hc]
      have := ih hfeed hs.feed (hsame.trans hsym) hn
      exact ⟨this.1, this.2.trans hsame⟩

end Run

/-- The definitions of a run are its prologue: from the table with which the
run ends, a run over the lines without them gives the same lines and the same
failure, and ends in the same mode, with the same number of blocks open and
with that table. Every condition that the run with them looks up is looked up
in that table. -/
theorem select_withoutDefinitions (strict : Bool) (symbols : Symbols) (lines : List String)
    (hn : ∀ directive,
      (select strict symbols lines).failure? ≠ some (.definitionNotAtStart directive))
    {table : Symbols} (htable : (select strict symbols lines).state.symbols = table) :
    (select strict table (withoutDefinitions lines)).items = (select strict symbols lines).items ∧
    (select strict table (withoutDefinitions lines)).state.mode =
      (select strict symbols lines).state.mode ∧
    (select strict table (withoutDefinitions lines)).state.depth =
      (select strict symbols lines).state.depth ∧
    (select strict table (withoutDefinitions lines)).state.symbols = table ∧
    ∀ before line after, lines = before ++ line :: after →
      ∀ condition ∈ ((Run.start symbols).feedAll strict before).state.asks? (Directive.ofLine line),
        ((Run.start symbols).feedAll strict before).state.symbols = table := by
  rw [Run.select_eq, Run.finish_state] at htable
  have hn' (directive : String) : ((Run.start symbols).feedAll strict lines).failure? ≠
      some (.definitionNotAtStart directive) := by
    intro hf
    apply hn directive
    rw [Run.select_eq, Run.finish_of_failure hf, hf]
  have hstart : (Run.start symbols).Alike (Run.start table) := ⟨⟨rfl, rfl, rfl⟩, rfl, rfl⟩
  obtain ⟨halike, hsame⟩ := Run.feedAll_withoutDefinitions strict hstart (State.Sound.start symbols)
    htable.symm hn'
  have h : (select strict symbols lines).Alike (select strict table (withoutDefinitions lines)) :=
    halike.finish
  refine ⟨?_, h.state.mode.symm, h.state.depth.symm, ?_, ?_⟩
  · rw [Run.items, Run.items, h.kept, h.failure?]
  · rw [Run.select_eq, Run.finish_state, hsame]
    rfl
  · rintro before line after rfl condition hc
    rw [← htable, Run.feedAll_append,
      Run.feedAll_symbols_of_asks strict (State.Sound.feedAll strict symbols before) hc]

/-- A run with a stray `#else` before its first content, which an `#error`
stops. -/
theorem select_withoutDefinitions_stray :
    (select false ∅ ["#define A", "#else", "#if A", "x", "#endif", "#error no"]).failure? =
      some (.userError "no") ∧
    ∃ table, (select false ∅
        ["#define A", "#else", "#if A", "x", "#endif", "#error no"]).state.symbols = table ∧
      (select false table ["#else", "#if A", "x", "#endif", "#error no"]).items =
        (select false ∅ ["#define A", "#else", "#if A", "x", "#endif", "#error no"]).items := by
  have hf : (select false ∅ ["#define A", "#else", "#if A", "x", "#endif", "#error no"]).failure? =
      some (.userError "no") := by decide +kernel
  exact ⟨hf, _, rfl, (select_withoutDefinitions false ∅ _ (fun directive => by rw [hf]; nofun) rfl).1⟩

end Amalgam.Selection
