import Amalgam.Proofs.Join.Documents

/-!
# Sources one after the other

What the concatenation of sources makes of texts that may hold anything:
terminators of any kind, white space of any script, or nothing at all. The
document is told by the texts alone (`document_closed_form`), cut at their ends
as `IsStripped` says and not as the program cuts them:

* `isStripped_iff`: the program cuts a text where `IsStripped` does;
* `filter_visible`: what is left of texts, cut at their ends, are their bodies;
* `document_append`: documents of stretches of sources are put together.
-/

namespace Amalgam

namespace Document

variable {text body : String} {texts stripped : List String}

/-! ## The ends of texts -/

/-- A text without the terminators at its end. -/
structure IsStripped (text body : String) : Prop where
  /-- Nothing but terminators is taken away. -/
  append : ∃ tail : List Char, text.toList = body.toList ++ tail ∧ ∀ c ∈ tail, c = '\r' ∨ c = '\n'
  /-- No terminator is left at the end. -/
  last : ∀ c, body.toList.getLast? = some c → c ≠ '\r' ∧ c ≠ '\n'

/-- A text in which not everything is white space. -/
def Visible (body : String) : Prop :=
  ∃ c ∈ body.toList, ¬Text.isBlankChar c

theorem visible_iff : Visible body ↔ Text.isBlank body = false := by
  simp [Visible, Text.isBlank]

instance (body : String) : Decidable (Visible body) :=
  decidable_of_iff (Text.isBlank body = false) visible_iff.symm

theorem isTerminator_iff {c : Char} : isTerminator c ↔ c = '\r' ∨ c = '\n' := by
  simp [isTerminator]

theorem isStripped_stripTerminators (text : String) : IsStripped text (stripTerminators text) where
  append := by
    refine ⟨text.toList.rtakeWhile isTerminator, ?_, fun c hc =>
      isTerminator_iff.mp (List.mem_rtakeWhile_imp hc)⟩
    rw [stripTerminators, String.toList_ofList]
    exact List.rdropWhile_append_rtakeWhile.symm
  last := by
    intro c hc
    rw [stripTerminators, String.toList_ofList] at hc
    have hne : text.toList.rdropWhile isTerminator ≠ [] := List.ne_nil_of_mem (List.mem_of_getLast? hc)
    have hlast := List.rdropWhile_last_not isTerminator text.toList hne
    obtain rfl : (text.toList.rdropWhile isTerminator).getLast hne = c :=
      Option.some.inj ((List.getLast?_eq_some_getLast hne).symm.trans hc)
    rwa [isTerminator_iff, not_or] at hlast

/-- There is one way to take the terminators from the end of a text. -/
theorem IsStripped.stripTerminators_eq (h : IsStripped text body) : stripTerminators text = body := by
  obtain ⟨tail, htext, htail⟩ := h.append
  have hreverse : ∀ c ∈ tail.reverse, isTerminator c = true := fun c hc =>
    isTerminator_iff.mpr (htail c (List.mem_reverse.mp hc))
  have hcut : stripTerminators text = stripTerminators body := by
    rw [stripTerminators, stripTerminators, Text.dropEndWhile, htext, List.reverse_append,
      List.dropWhile_append_of_pos hreverse]
    rfl
  rw [hcut]
  refine stripTerminators_eq_self fun c hc => ?_
  rw [← Bool.not_eq_true, isTerminator_iff, not_or]
  exact h.last c hc

theorem isStripped_iff : IsStripped text body ↔ stripTerminators text = body :=
  ⟨IsStripped.stripTerminators_eq, fun h => h ▸ isStripped_stripTerminators text⟩

/-- The bodies of texts are the texts, cut at their ends, in which something
can be seen. -/
theorem filter_visible (h : List.Forall₂ IsStripped texts stripped) :
    stripped.filter (Visible ·) = bodies texts := by
  have hmap : stripped = texts.map stripTerminators := by
    rw [← List.forall₂_eq_eq_eq, List.forall₂_map_right_iff]
    exact (h.imp fun _ _ hcut => (isStripped_iff.mp hcut).symm).flip
  rw [hmap, bodies]
  exact List.filter_congr fun body _ => by simp [visible_iff]

theorem forall₂_isStripped (texts : List String) :
    List.Forall₂ IsStripped texts (texts.map stripTerminators) := by
  rw [List.forall₂_map_right_iff, List.forall₂_same]
  exact fun text _ => isStripped_iff.mpr rfl

/-- Taking terminators away hides nothing, so it does not matter if the texts
are cut first or sorted out first. -/
theorem bodies_eq_map (texts : List String) :
    bodies texts = (texts.filter (Visible ·)).map stripTerminators := by
  rw [bodies, List.filter_map]
  refine congrArg (List.map stripTerminators) (List.filter_congr fun text _ => ?_)
  simp [visible_iff, isBlank_stripTerminators]

theorem bodies_filter_visible (texts : List String) : bodies (texts.filter (Visible ·)) = bodies texts := by
  simp only [bodies_eq_map, List.filter_filter, Bool.and_self]

end Document

namespace Join

open Assembler (concatenation)
open Document (IsStripped Visible assemble bodies)

variable (xs ys : List (Path × String))

/-- The document of two stretches of sources is made of their documents. -/
theorem document_append : concatenation.document (xs ++ ys) = concatenation.document xs ++
    (if concatenation.document xs ≠ "" ∧ concatenation.document ys ≠ "" then "\n" else "") ++
    concatenation.document ys := by
  simp only [document_concatenation, List.map_append, Document.bodies_append, ne_eq,
    Document.assemble_eq_empty_iff]
  rw [Document.assemble_append]
  by_cases hx : bodies (xs.map Prod.snd) = []
  · simp [hx, assemble]
  · by_cases hy : bodies (ys.map Prod.snd) = []
    · simp [hx, hy, assemble]
    · simp [hx, hy]

/-- The document of sources with any texts is told by what is left of the texts
once the terminators at their ends are taken away, without those in which
nothing can be seen: these stand one after the other, with an empty line
between each two of them, and a `\n` at the end. So documents of stretches of
sources are put together with an empty line between them, blank sources leave
no trace, and paths do not matter. -/
theorem document_closed_form :
    (∀ sources : List (Path × String), ∃ stripped visible : List String,
      List.Forall₂ IsStripped (sources.map Prod.snd) stripped ∧
      visible = stripped.filter (Visible ·) ∧
      concatenation.document sources =
        if visible = [] then "" else "\n\n".intercalate visible ++ "\n") ∧
    (∀ xs ys : List (Path × String), concatenation.document (xs ++ ys) =
      concatenation.document xs ++
        (if concatenation.document xs ≠ "" ∧ concatenation.document ys ≠ "" then "\n" else "") ++
        concatenation.document ys) ∧
    (∀ sources : List (Path × String),
      concatenation.document (sources.filter fun source => Visible source.2) =
        concatenation.document sources) ∧
    (∀ xs ys : List (Path × String), xs.map Prod.snd = ys.map Prod.snd →
      concatenation.document xs = concatenation.document ys) := by
  refine ⟨fun sources => ?_, document_append, fun sources => ?_, fun xs ys h => ?_⟩
  · have hcut := Document.forall₂_isStripped (sources.map Prod.snd)
    refine ⟨_, _, hcut, rfl, ?_⟩
    rw [Document.filter_visible hcut, document_concatenation, assemble]
  · have hmap : (sources.filter fun source => Visible source.2).map Prod.snd =
        (sources.map Prod.snd).filter (Visible ·) := by
      rw [List.filter_map, Function.comp_def]
    rw [document_concatenation, document_concatenation, hmap, Document.bodies_filter_visible]
  · rw [document_concatenation, document_concatenation, h]

/-- Three sources: one with white space in front of its terminators, a blank
one, and one that starts with empty lines. -/
def mixedTexts : List (Path × String) :=
  [(⟨"a.cs"⟩, "x \r\n\r"), (⟨"b.cs"⟩, "\u2003\n\t"), (⟨"c.cs"⟩, "\n\ny\n")]

/-- The same texts from one file alone give the same document. -/
theorem document_closed_form_mixed :
    mixedTexts.map Prod.snd = (mixedTexts.map fun source => (Path.mk "d.cs", source.2)).map Prod.snd ∧
    concatenation.document mixedTexts = "x \n\n\n\ny\n" ∧
    concatenation.document (mixedTexts.map fun source => (Path.mk "d.cs", source.2)) = "x \n\n\n\ny\n" := by
  have htexts : mixedTexts.map Prod.snd =
      (mixedTexts.map fun source => (Path.mk "d.cs", source.2)).map Prod.snd := rfl
  have hdocument : concatenation.document mixedTexts = "x \n\n\n\ny\n" := by decide
  exact ⟨htexts, hdocument, (document_closed_form.2.2.2 _ _ htexts).symm.trans hdocument⟩

end Join

end Amalgam
