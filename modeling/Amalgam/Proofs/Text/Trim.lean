import Amalgam.Text.Blank
import Mathlib.Data.List.DropRight
import Mathlib.Data.List.TakeWhile

/-!
# What trimming leaves

A text is trimmed if it neither starts nor ends with a blank character.
Trimming finds the one trimmed text that the given one is, but for blank
characters in front of it and behind it:

* `trimChars_eq_iff`: what trimming leaves, as a decomposition of the text;
* `trimChars_append`: a trimmed text in front is left alone, whatever stands
  behind it.
-/

namespace Amalgam.Text

variable {cs core front back : List Char}

/-- All the characters are blank. -/
def Blank (cs : List Char) : Prop :=
  cs.all isBlankChar = true

/-- No blank character stands at either end. -/
structure Trimmed (cs : List Char) : Prop where
  first : ∀ c ∈ cs.head?, isBlankChar c = false
  last : ∀ c ∈ cs.getLast?, isBlankChar c = false

instance (cs : List Char) : Decidable (Blank cs) :=
  inferInstanceAs (Decidable (cs.all isBlankChar = true))

theorem trimmed_iff : Trimmed cs ↔
    cs.head?.all (!isBlankChar ·) = true ∧ cs.getLast?.all (!isBlankChar ·) = true := by
  simp only [Option.all_eq_true, Bool.not_eq_true']
  exact ⟨fun h => ⟨h.first, h.last⟩, fun h => ⟨h.1, h.2⟩⟩

instance (cs : List Char) : Decidable (Trimmed cs) :=
  decidable_of_iff _ trimmed_iff.symm

/-! ## Blank characters -/

theorem blank_nil : Blank [] := rfl

theorem blank_append : Blank (front ++ back) ↔ Blank front ∧ Blank back := by
  simp [Blank]

theorem Blank.isBlankChar (h : Blank cs) {c : Char} (hc : c ∈ cs) : isBlankChar c = true :=
  List.all_eq_true.mp h c hc

/-- A text that is blank and trimmed is empty. -/
theorem Trimmed.eq_nil (h : Trimmed cs) (hb : Blank cs) : cs = [] := by
  cases cs with
  | nil => rfl
  | cons c cs =>
    have hc := h.first c rfl
    rw [hb.isBlankChar (List.mem_cons_self ..)] at hc
    cases hc

/-- A trimmed text does not end in blank characters. -/
theorem Trimmed.not_blank_back (h : Trimmed (front ++ back)) (hne : back ≠ []) : ¬Blank back := by
  intro hb
  obtain ⟨c, hc⟩ : ∃ c, back.getLast? = some c := ⟨_, List.getLast?_eq_some_getLast hne⟩
  have hlast := h.last c (by rw [List.getLast?_append_of_ne_nil _ hne, hc]; rfl)
  rw [hb.isBlankChar (List.mem_of_getLast? hc)] at hlast
  cases hlast

/-! ## Trimming at one end -/

theorem dropEndWhile_eq (p : Char → Bool) (cs : List Char) : dropEndWhile p cs = cs.rdropWhile p :=
  rfl

theorem dropWhile_blank (h : Blank front) (cs : List Char) :
    (front ++ cs).dropWhile isBlankChar = cs.dropWhile isBlankChar := by
  induction front with
  | nil => rfl
  | cons c front ih =>
    have hc : isBlankChar c = true := h.isBlankChar (List.mem_cons_self ..)
    rw [List.cons_append, List.dropWhile_cons_of_pos hc]
    exact ih (by simpa [Blank, hc] using h)

theorem dropWhile_eq_self (h : ∀ c ∈ cs.head?, isBlankChar c = false) :
    cs.dropWhile isBlankChar = cs := by
  cases cs with
  | nil => rfl
  | cons c cs => rw [List.dropWhile_cons_of_neg (by simp [h c rfl])]

/-- Blank characters at the end of a text are not taken away beyond a character
that is not blank. -/
theorem dropEndWhile_append (h : ∀ c ∈ front.getLast?, isBlankChar c = false) (back : List Char) :
    dropEndWhile isBlankChar (front ++ back) = front ++ dropEndWhile isBlankChar back := by
  induction back using List.reverseRecOn with
  | nil =>
    have hself : front.rdropWhile isBlankChar = front := by
      refine List.rdropWhile_eq_self_iff.mpr fun hne => ?_
      rw [h _ (List.getLast?_eq_some_getLast hne)]
      decide
    rw [List.append_nil, dropEndWhile_eq, hself, dropEndWhile_eq, List.rdropWhile_nil, List.append_nil]
  | append_singleton back c ih =>
    rw [← List.append_assoc, dropEndWhile_eq, dropEndWhile_eq, List.rdropWhile_concat,
      List.rdropWhile_concat]
    split
    · exact ih
    · rw [List.append_assoc]

theorem dropEndWhile_blank (h : Blank back) (cs : List Char) :
    dropEndWhile isBlankChar (cs ++ back) = dropEndWhile isBlankChar cs := by
  rw [dropEndWhile, List.reverse_append, dropWhile_blank (by simpa [Blank] using h)]
  rfl

/-! ## Trimming -/

/-- A trimmed text is left alone, and so are blank characters that stand
between it and others. -/
theorem trimChars_append {w : List Char} (hw : Blank w) (h : Trimmed front) (hne : front ≠ [])
    (back : List Char) :
    trimChars (w ++ front ++ back) = front ++ dropEndWhile isBlankChar back := by
  have hfirst : (front ++ back).dropWhile isBlankChar = front ++ back :=
    dropWhile_eq_self fun c hc => h.first c (by rwa [List.head?_append_of_ne_nil _ hne] at hc)
  rw [trimChars, List.append_assoc, dropWhile_blank hw, hfirst, dropEndWhile_append h.last]

theorem trimChars_of_blank (h : Blank cs) : trimChars cs = [] := by
  have hnil : cs.dropWhile isBlankChar = [] := List.dropWhile_eq_nil_iff.mpr fun c hc => h.isBlankChar hc
  rw [trimChars, hnil]
  rfl

theorem trimChars_eq (cs : List Char) :
    trimChars cs = (cs.dropWhile isBlankChar).rdropWhile isBlankChar :=
  rfl

/-- Trimming leaves a trimmed text. -/
theorem trimmed_trimChars (cs : List Char) : Trimmed (trimChars cs) := by
  have hhead : ∀ c ∈ (cs.dropWhile isBlankChar).head?, isBlankChar c = false := by
    intro c hc
    have hnot := List.head?_dropWhile_not isBlankChar cs
    rwa [Option.mem_def.mp hc] at hnot
  rw [trimChars_eq]
  generalize cs.dropWhile isBlankChar = ds at hhead
  by_cases hne : ds.rdropWhile isBlankChar = []
  · rw [hne]
    decide
  constructor
  · intro c hc
    obtain ⟨rest, hrest⟩ := List.rdropWhile_prefix isBlankChar ds
    rw [← hrest, List.head?_append_of_ne_nil _ hne] at hhead
    exact hhead c hc
  · intro c hc
    have hlast := List.rdropWhile_last_not isBlankChar ds hne
    rw [List.getLast?_eq_some_getLast hne] at hc
    obtain rfl := Option.some.inj hc
    simpa using hlast

/-- Trimming takes away blank characters only. -/
theorem exists_eq_trimChars (cs : List Char) : ∃ w w', Blank w ∧ Blank w' ∧ cs = w ++ trimChars cs ++ w' := by
  refine ⟨cs.takeWhile isBlankChar, (cs.dropWhile isBlankChar).rtakeWhile isBlankChar,
    List.all_eq_true.mpr fun c hc => List.mem_takeWhile_imp hc,
    List.all_eq_true.mpr fun c hc => List.mem_rtakeWhile_imp hc, ?_⟩
  have hback : trimChars cs ++ (cs.dropWhile isBlankChar).rtakeWhile isBlankChar =
      cs.dropWhile isBlankChar := List.rdropWhile_append_rtakeWhile
  rw [List.append_assoc, hback, List.takeWhile_append_dropWhile]

/-- Trimming leaves the trimmed text that stands between blank characters. -/
theorem trimChars_eq_iff : trimChars cs = core ↔
    Trimmed core ∧ ∃ w w', Blank w ∧ Blank w' ∧ cs = w ++ core ++ w' := by
  constructor
  · rintro rfl
    exact ⟨trimmed_trimChars cs, exists_eq_trimChars cs⟩
  · rintro ⟨h, w, w', hw, hw', rfl⟩
    by_cases hne : core = []
    · subst hne
      exact trimChars_of_blank (blank_append.mpr ⟨blank_append.mpr ⟨hw, blank_nil⟩, hw'⟩)
    · rw [trimChars_append hw h hne, ← List.nil_append w', dropEndWhile_blank hw']
      exact List.append_nil core

/-- Blank characters at the end do not matter to what trimming leaves. -/
theorem trimChars_dropEndWhile (cs : List Char) :
    trimChars (dropEndWhile isBlankChar cs) = trimChars cs := by
  obtain ⟨w, w', hw, hw', hcs⟩ := exists_eq_trimChars (dropEndWhile isBlankChar cs)
  refine (trimChars_eq_iff.mpr ⟨trimmed_trimChars _, w, w' ++ cs.rtakeWhile isBlankChar, hw,
    blank_append.mpr ⟨hw', List.all_eq_true.mpr fun c hc => List.mem_rtakeWhile_imp hc⟩, ?_⟩).symm
  rw [← List.append_assoc, ← hcs]
  exact List.rdropWhile_append_rtakeWhile.symm

end Amalgam.Text
