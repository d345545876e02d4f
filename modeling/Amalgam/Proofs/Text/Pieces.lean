import Amalgam.Text.Pieces
import Mathlib.Data.List.TakeWhile

/-!
# Pieces and separators

The pieces of a text hold no separator, and put together again with it they are
the text:

* `not_mem_of_mem_pieces`: no piece holds the separator;
* `pieces_intercalate`: the pieces of texts with the separator between them are
  those of each text;
* `mem_pieces_iff`: which texts are pieces, told without cutting;
* `append_cons_eq_iff`: what stands in front of the first separator and what
  stands behind it.
-/

namespace Amalgam.Text

variable {sep : Char} {text piece : String}

theorem not_mem_of_mem_splitOn (sep : Char) (cs : List Char) : ∀ piece ∈ cs.splitOn sep, sep ∉ piece := by
  induction cs with
  | nil => simp
  | cons c cs ih =>
    rw [List.splitOn_cons_eq_if_modifyHead]
    split
    · rintro piece (_ | ⟨_, hm⟩)
      · exact List.not_mem_nil
      · exact ih piece hm
    · rename_i hc
      cases hsplit : cs.splitOn sep with
      | nil => exact absurd hsplit (List.splitOn_ne_nil _ _)
      | cons first pieces =>
        rw [hsplit] at ih
        rintro piece (_ | ⟨_, hm⟩)
        · have hfirst := ih first (List.mem_cons_self ..)
          have hne : sep ≠ c := fun e => hc (by simp [e.symm])
          simpa [hne] using hfirst
        · exact ih piece (List.mem_cons_of_mem _ hm)

theorem not_mem_of_mem_pieces (h : piece ∈ pieces sep text) : sep ∉ piece.toList := by
  obtain ⟨cs, hcs, rfl⟩ := List.mem_map.mp h
  simpa using not_mem_of_mem_splitOn sep _ cs hcs

theorem pieces_ne_nil (sep : Char) (text : String) : pieces sep text ≠ [] := by
  simp [pieces, List.splitOn_ne_nil]

theorem pieces_append (sep : Char) (front back : String) :
    pieces sep (front ++ String.singleton sep ++ back) = pieces sep front ++ pieces sep back := by
  simp only [pieces, String.toList_append, String.toList_singleton]
  rw [List.append_assoc, List.singleton_append, List.splitOn_append_cons_self, List.map_append]

theorem pieces_eq_singleton (h : sep ∉ text.toList) : pieces sep text = [text] := by
  simp [pieces, List.splitOn_eq_singleton h]

theorem intercalate_pieces (sep : Char) (text : String) :
    (String.singleton sep).intercalate (pieces sep text) = text := by
  have hchars : (pieces sep text).map String.toList = text.toList.splitOn sep := by
    simp [pieces, Function.comp_def]
  rw [← String.toList_inj, String.toList_intercalate, String.toList_singleton, hchars,
    List.intercalate_splitOn]

/-- Texts with the separator between them have the pieces of each text, one
after the other. -/
theorem pieces_intercalate (sep : Char) {texts : List String} (h : texts ≠ []) :
    pieces sep ((String.singleton sep).intercalate texts) = texts.flatMap (pieces sep) := by
  induction texts with
  | nil => exact absurd rfl h
  | cons text texts ih =>
    by_cases hrest : texts = []
    · subst hrest
      rw [String.intercalate_singleton, List.flatMap_singleton]
    · rw [String.intercalate_cons_of_ne_nil hrest, pieces_append, ih hrest, List.flatMap_cons]

/-- The pieces of a text are what stands in it with separators, or nothing,
around it, and holds none. -/
theorem mem_pieces_iff : piece ∈ pieces sep text ↔ sep ∉ piece.toList ∧
    ∃ before after, text = (String.singleton sep).intercalate (before ++ piece :: after) := by
  constructor
  · intro h
    obtain ⟨before, after, hsplit⟩ := List.append_of_mem h
    exact ⟨not_mem_of_mem_pieces h, before, after, by rw [← hsplit, intercalate_pieces]⟩
  · rintro ⟨hsep, before, after, rfl⟩
    rw [pieces_intercalate sep (by simp), List.mem_flatMap]
    exact ⟨piece, by simp, by simp [pieces_eq_singleton hsep]⟩

/-! ## The first separator -/

variable {front back cs : List Char}

/-- The first separator in a text parts it in two. -/
theorem append_cons_eq_iff (h : sep ∉ front) : front ++ sep :: back = cs ↔
    cs.takeWhile (· ≠ sep) = front ∧ (cs.dropWhile (· ≠ sep)).tail? = some back := by
  have hfront : ∀ c ∈ front, decide (c ≠ sep) = true := fun c hc => by
    simpa using fun e : c = sep => h (e ▸ hc)
  constructor
  · rintro rfl
    rw [List.takeWhile_append_of_pos hfront, List.dropWhile_append_of_pos hfront]
    simp
  · rintro ⟨rfl, hback⟩
    have hsplit : cs.takeWhile (· ≠ sep) ++ cs.dropWhile (· ≠ sep) = cs := List.takeWhile_append_dropWhile
    have hhead := List.head?_dropWhile_not (fun c => decide (c ≠ sep)) cs
    cases hdrop : cs.dropWhile (· ≠ sep) with
    | nil =>
      rw [hdrop] at hback
      cases hback
    | cons c rest =>
      rw [hdrop] at hsplit hback hhead
      obtain rfl : rest = back := Option.some.inj hback
      obtain rfl : c = sep := by simpa using hhead
      exact hsplit

/-- In a text without a separator there is nothing behind one. -/
theorem eq_iff_of_not_mem (h : sep ∉ front) : cs = front ↔
    cs.takeWhile (· ≠ sep) = front ∧ (cs.dropWhile (· ≠ sep)).tail? = none := by
  have hsplit : cs.takeWhile (· ≠ sep) ++ cs.dropWhile (· ≠ sep) = cs := List.takeWhile_append_dropWhile
  constructor
  · rintro rfl
    have hall : ∀ c ∈ cs, decide (c ≠ sep) = true := fun c hc => by
      simpa using fun e : c = sep => h (e ▸ hc)
    rw [List.takeWhile_eq_self_iff.mpr hall, List.dropWhile_eq_nil_iff.mpr hall]
    exact ⟨rfl, rfl⟩
  · rintro ⟨rfl, hnone⟩
    cases hdrop : cs.dropWhile (· ≠ sep) with
    | nil =>
      rw [hdrop, List.append_nil] at hsplit
      exact hsplit.symm
    | cons c rest =>
      rw [hdrop] at hnone
      cases hnone

end Amalgam.Text
