import Amalgam.Proofs.Selection.Forest
import Amalgam.Proofs.Text.Lines

/-!
# Outputs as sources

What a run gives can be given to a run again. The lines it has kept are lines
of text, and hold no terminator, since they are lines of a source. So a second
run keeps all of them whatever its table is (`select_of_isText`), and
`preprocess_output` says what becomes of the output as a whole: it stays as it
is, but for one `\n` at its end.
-/

namespace Amalgam.Selection

/-! ## Lines of text -/

/-- Where lines are kept, lines of text are kept. -/
theorem Passage.texts (strict : Bool) {r : Run} {mode : Mode} {outer : List Mode}
    {lines : List String} (hr : r.failure? = none) (hm : r.state.modes = mode :: outer)
    (live : mode.isLive) (text : ∀ line ∈ lines, (Directive.ofLine line).isText) :
    Passage strict r lines (mode :: outer) lines := by
  induction lines generalizing r with
  | nil => exact hm ▸ Passage.nil hr
  | cons line lines ih =>
    have first := Passage.text_live strict hr hm live (text line (List.mem_cons_self ..))
    have rest := ih first.goesOn first.modes fun l hl => text l (List.mem_cons_of_mem _ hl)
    exact first.cons rest

/-- A run over lines of text gives these lines. -/
theorem select_of_isText (strict : Bool) (symbols : Symbols) {lines : List String}
    (text : ∀ line ∈ lines, (Directive.ofLine line).isText) :
    (select strict symbols lines).result = .ok lines := by
  have h : Passage strict (Run.start symbols) lines [.outside] lines :=
    Passage.texts strict rfl rfl rfl text
  have hdepth : ((Run.start symbols).feedAll strict lines).state.depth = 0 := by
    rw [State.depth, (List.cons.inj h.modes).2, List.length_nil]
  refine Run.result_eq_ok_iff.mpr ⟨?_, ?_⟩
  · rw [Run.select_eq, Run.finish_failure? h.goesOn, hdepth]
    simp
  · rw [Run.kept_select, h.yields]

/-- A run over the lines of a text without directives and without `\r` gives
the text, but for one `\n` at its end. -/
theorem select_lines_text (strict : Bool) (symbols : Symbols) {text : String}
    (hr : '\r' ∉ text.toList) (ht : ∀ line ∈ Text.lines text, (Directive.ofLine line).isText) :
    (select strict symbols (Text.lines text)).text = .ok (Text.chomp text) :=
  Run.text_eq_ok_iff.mpr ⟨_, select_of_isText strict symbols ht, Text.unlines_lines hr⟩

/-! ## The lines of an output -/

section

variable {strict : Bool} {symbols : Symbols} {source : String} {kept : List String}

/-- What is kept of a source are single lines of text. -/
theorem singleLine_of_mem_kept (h : (select strict symbols (Text.lines source)).result = .ok kept) :
    ∀ line ∈ kept, Text.SingleLine line ∧ (Directive.ofLine line).isText := by
  obtain ⟨-, hkept⟩ := Run.result_eq_ok_iff.mp h
  rw [Run.kept_select] at hkept
  intro line hm
  rw [← hkept] at hm
  have hline : line ∈ Text.lines source := (Run.yields_sublist strict _ _).subset hm
  exact ⟨Text.singleLine_of_mem_lines hline, Run.isText_of_mem_yields hm⟩

end

/-- The output of a run, taken as a source, stays as it is but for one `\n` at
its end, whatever the table and whether the second run is strict or not: all
its lines are text. A source that has lines of text only, no `\r` and no `\n`
at its end is its own output. -/
theorem preprocess_output (symbols table : Symbols) :
    (∀ source output, (preprocess symbols source).text = .ok output →
      (preprocess table output).text = .ok (Text.chomp output) ∧
      (select true table (Text.lines output)).text = .ok (Text.chomp output) ∧
      ∀ line ∈ Text.lines output, (Directive.ofLine line).isText) ∧
    (∀ source, (∀ line ∈ Text.lines source, (Directive.ofLine line).isText) →
      '\r' ∉ source.toList → source.toList.getLast? ≠ some '\n' →
      (preprocess symbols source).text = .ok source) := by
  refine ⟨fun source output h => ?_, fun source ht hr hn => ?_⟩
  · obtain ⟨kept, hresult, rfl⟩ := Run.text_eq_ok_iff.mp h
    have hkept := singleLine_of_mem_kept hresult
    have hr : '\r' ∉ (Text.unlines kept).toList :=
      Text.return_not_mem_unlines fun line hm => (hkept line hm).1.1
    have ht : ∀ line ∈ Text.lines (Text.unlines kept), (Directive.ofLine line).isText := by
      rw [Text.lines_unlines fun line hm => (hkept line hm).1]
      exact fun line hm => (hkept line (Text.mem_of_mem_dropFinalEmpty hm)).2
    exact ⟨select_lines_text false table hr ht, select_lines_text true table hr ht, ht⟩
  · have h : (preprocess symbols source).text = .ok (Text.chomp source) :=
      select_lines_text false symbols hr ht
    rw [h, Text.chomp_eq_self hn]

/-- An output that ends in an empty line, which a second run loses. -/
theorem preprocess_output_emptyLine :
    (preprocess ∅ "#if A\r\n#else\r\n  x\r\n#pragma y\r\n\r\n#endif").text = .ok "  x\n#pragma y\n" ∧
    (preprocess (Symbols.ofNames ["A"]) "  x\n#pragma y\n").text = .ok "  x\n#pragma y" ∧
    (preprocess ∅ "  x\n\n#pragma y").text = .ok "  x\n\n#pragma y" := by
  have h : (preprocess ∅ "#if A\r\n#else\r\n  x\r\n#pragma y\r\n\r\n#endif").text =
      .ok "  x\n#pragma y\n" :=
    Run.text_eq_ok_iff.mpr ⟨["  x", "#pragma y", ""],
      Run.result_eq_ok_iff.mpr ⟨by decide +kernel, by decide +kernel⟩, by decide⟩
  have hchomp : Text.chomp "  x\n#pragma y\n" = "  x\n#pragma y" := by decide
  refine ⟨h, ?_, ?_⟩
  · rw [← hchomp]
    exact ((preprocess_output ∅ (Symbols.ofNames ["A"])).1 _ _ h).1
  · exact (preprocess_output ∅ ∅).2 _ (by decide +kernel) (by decide) (by decide)

end Amalgam.Selection
