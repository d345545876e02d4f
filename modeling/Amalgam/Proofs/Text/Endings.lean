import Amalgam.Proofs.Text.Lines
import Amalgam.Selection.Run
import Mathlib.Data.List.Chain
import Mathlib.Data.List.TakeWhile

/-!
# Lines and what ends them

`Text.lines` takes one line after the other off the front of a text, with what
ends it, and goes on with the rest, which is shorter (`FirstLine`). So a text
that is written line by line, each with a terminator of its own, has just these
lines again. One thing has to be avoided: a `\r` in front of an empty line that
ends in `\n` would be read as one terminator with it (`Apart`).

* `FirstLine.lines_eq`, `exists_firstLine`: every text that is not empty has a
  first line and a rest;
* `lines_terminated`: the lines of a text that is written line by line;
* `lines_reference`: the lines of a text are those of its normal form, and
  every list of lines is had from every way to end them.
-/

namespace Amalgam.Text

/-! ## Terminators -/

/-- What can end a line. -/
inductive Terminator
  | newline
  /-- A `\r`. -/
  | carriage
  /-- A `\r` and the `\n` that follows it. -/
  | pair
  deriving DecidableEq, Repr

/-- The characters of a terminator. -/
def Terminator.text : Terminator → String
  | newline => "\n"
  | carriage => "\r"
  | pair => "\r\n"

/-- What follows does not make one terminator with this one. -/
def Terminator.Before (t : Terminator) (rest : List Char) : Prop :=
  t = .carriage → rest.head? ≠ some '\n'

/-- The text of lines with their terminators, and of a last line that has
none. -/
def terminated : List (String × Terminator) → String → String
  | [], last => last
  | (line, t) :: ended, last => line ++ t.text ++ terminated ended last

/-- No line that ends in `\r` stands in front of an empty one that ends in
`\n`. -/
def Apart (ended : List (String × Terminator)) : Prop :=
  ended.IsChain fun a b => a.2 = .carriage → ¬(b.1 = "" ∧ b.2 = .newline)

instance (line : String) : Decidable (SingleLine line) :=
  inferInstanceAs (Decidable ('\r' ∉ line.toList ∧ '\n' ∉ line.toList))

instance (ended : List (String × Terminator)) : Decidable (Apart ended) :=
  inferInstanceAs (Decidable (ended.IsChain _))

/-! ## Reading one line -/

variable {done : List String} {line cs rest : List Char} {text last : String} {t : Terminator}

/-- Characters that end no line are read into the current one. -/
theorem scanLines_append (h : '\r' ∉ cs ∧ '\n' ∉ cs) :
    scanLines done line (cs ++ rest) = scanLines done (cs.reverse ++ line) rest := by
  induction cs generalizing line with
  | nil => rfl
  | cons c cs ih =>
    simp only [List.mem_cons, not_or] at h
    rw [List.cons_append, scanLines, ih ⟨h.1.2, h.2.2⟩, List.reverse_cons, List.append_assoc]
    · rfl
    · rintro _ rfl
      exact absurd rfl h.1.1
    · exact Ne.symm h.1.1
    · exact Ne.symm h.2.1

/-- A terminator ends the current line. -/
theorem scanLines_terminator (h : t.Before rest) :
    scanLines done line (t.text.toList ++ rest) =
      scanLines (String.ofList line.reverse :: done) [] rest := by
  cases t with
  | newline => rfl
  | pair => rfl
  | carriage =>
    change scanLines done line ('\r' :: rest) = _
    rw [scanLines]
    rintro more rfl
    exact h rfl rfl

/-- The lines that have been read stand in front of those that follow. -/
theorem scanLines_done (done : List String) (cs : List Char) :
    scanLines done [] cs = done.reverse ++ scanLines [] [] cs := by
  rw [scanLines_eq, scanLines_eq []]
  rfl

/-- A line at the front of a text, with its terminator, is the first line of
the text. -/
theorem lines_append {line rest : String} (h : SingleLine line) (ht : t.Before rest.toList) :
    lines (line ++ t.text ++ rest) = line :: lines rest := by
  simp only [lines, String.toList_append, List.append_assoc]
  rw [scanLines_append h, List.append_nil, scanLines_terminator ht, List.reverse_reverse,
    String.ofList_toList, scanLines_done]
  rfl

/-- What is left at the end of a text is a line, unless it is empty. -/
theorem lines_eq_singleton (h : SingleLine last) : lines last = if last = "" then [] else [last] := by
  have hlast : scanLines [] [] (last.toList ++ []) = scanLines [] last.toList.reverse [] := by
    rw [scanLines_append h, List.append_nil]
  rw [List.append_nil] at hlast
  rw [lines, hlast, scanLines]
  by_cases hempty : last = ""
  · simp [hempty]
  · simp [hempty]

/-! ## Taking a text apart -/

/-- The text is its first line, what ends that, and the rest. -/
inductive FirstLine : String → String → String → Prop
  | ended {line rest : String} (t : Terminator) : SingleLine line → t.Before rest.toList →
    FirstLine (line ++ t.text ++ rest) line rest
  /-- The line is not ended, so it is all there is. -/
  | final {line : String} : SingleLine line → line ≠ "" → FirstLine line line ""

theorem FirstLine.lines_eq {line rest : String} (h : FirstLine text line rest) :
    lines text = line :: lines rest := by
  cases h with
  | ended t hline ht => exact lines_append hline ht
  | final hline hne => rw [lines_eq_singleton hline, if_neg hne]; rfl

theorem FirstLine.length_lt {line rest : String} (h : FirstLine text line rest) :
    rest.length < text.length := by
  cases h with
  | ended t _ _ =>
    have hlength : 0 < t.text.length := by cases t <;> decide
    rw [String.length_append, String.length_append]
    omega
  | final _ hne => exact Nat.pos_of_ne_zero (by simpa using hne)

/-- Every text that is not empty has a first line. -/
theorem exists_firstLine (h : text ≠ "") : ∃ line rest, FirstLine text line rest := by
  let inside (c : Char) : Bool := c ≠ '\r' ∧ c ≠ '\n'
  have hsplit : text.toList.takeWhile inside ++ text.toList.dropWhile inside = text.toList :=
    List.takeWhile_append_dropWhile
  have hline : SingleLine (String.ofList (text.toList.takeWhile inside)) := by
    constructor <;>
    · intro hm
      rw [String.toList_ofList] at hm
      simpa [inside] using List.mem_takeWhile_imp hm
  generalize text.toList.takeWhile inside = front at hsplit hline
  have ended (t : Terminator) (rest : List Char)
      (hback : text.toList.dropWhile inside = t.text.toList ++ rest) (ht : t.Before rest) :
      ∃ line rest, FirstLine text line rest := by
    have htext : text = String.ofList front ++ t.text ++ String.ofList rest := by
      rw [← String.toList_inj, ← hsplit, hback]
      simp
    rw [htext]
    exact ⟨_, _, .ended t hline (by rwa [String.toList_ofList])⟩
  rcases hback : text.toList.dropWhile inside with _ | ⟨c, rest⟩
  · obtain rfl : text = String.ofList front := by
      rw [← String.toList_inj, ← hsplit, hback]
      simp
    exact ⟨_, _, .final hline h⟩
  -- the character at which the line ends is one of the two
  have hc : inside c = false := by
    have hhead := List.head?_dropWhile_not inside text.toList
    rwa [hback] at hhead
  by_cases hreturn : c = '\r'
  · subst hreturn
    by_cases hpair : rest.head? = some '\n'
    · obtain ⟨more, rfl⟩ := List.head?_eq_some_iff.mp hpair
      exact ended .pair more hback fun e => Terminator.noConfusion e
    · exact ended .carriage rest hback fun _ => hpair
  · obtain rfl : c = '\n' := by simpa [inside, hreturn] using hc
    exact ended .newline rest hback fun e => Terminator.noConfusion e

/-! ## Texts written line by line -/

/-- A text that starts with `\n` starts with an empty line that ends in it. -/
theorem head?_terminated {ended : List (String × Terminator)} (h : ∀ piece ∈ ended, SingleLine piece.1)
    (hlast : SingleLine last) (hhead : (terminated ended last).toList.head? = some '\n') :
    ∃ more, ended = ("", .newline) :: more := by
  cases ended with
  | nil => exact absurd (List.mem_of_mem_head? hhead) hlast.2
  | cons piece more =>
    obtain ⟨line, t⟩ := piece
    have hline : SingleLine line := h (line, t) (List.mem_cons_self ..)
    rw [terminated, String.toList_append, String.toList_append] at hhead
    by_cases hempty : line = ""
    · subst hempty
      cases t with
      | newline => exact ⟨more, rfl⟩
      | carriage => cases hhead
      | pair => cases hhead
    · have hne : line.toList ≠ [] := by simpa using hempty
      rw [List.append_assoc, List.head?_append_of_ne_nil _ hne] at hhead
      exact absurd (List.mem_of_mem_head? hhead) hline.2

/-- A text that is written line by line has these lines, whatever ends each of
them. -/
theorem lines_terminated {ended : List (String × Terminator)} (h : ∀ piece ∈ ended, SingleLine piece.1)
    (hlast : SingleLine last) (hapart : Apart ended) :
    lines (terminated ended last) = ended.map Prod.fst ++ if last = "" then [] else [last] := by
  induction ended with
  | nil => exact lines_eq_singleton hlast
  | cons piece ended ih =>
    obtain ⟨line, t⟩ := piece
    have hrest : ∀ piece ∈ ended, SingleLine piece.1 := fun piece hm => h piece (List.mem_cons_of_mem _ hm)
    have ht : t.Before (terminated ended last).toList := by
      intro hcarriage hhead
      obtain ⟨more, rfl⟩ := head?_terminated hrest hlast hhead
      exact (List.isChain_cons_cons.mp hapart).1 hcarriage ⟨rfl, rfl⟩
    rw [terminated, lines_append (h (line, t) (List.mem_cons_self ..)) ht, ih hrest hapart.tail]
    rfl

/-! ## Both directions -/

/-- The lines of a text are the pieces between the newlines of its normal form,
without a last empty one; so they hold no terminator, and texts with the same
normal form have the same lines and are preprocessed alike. They are taken off
one by one until the text is empty, since what is left gets shorter each time.
The other way round, lines that hold no terminator are had from the text in
which each of them is followed by any terminator, and in which a last one that
is not empty may have none. -/
theorem lines_reference :
    (∀ text, lines text = dropFinalEmpty (((normalize text.toList).splitOn '\n').map String.ofList)) ∧
    (∀ text, ∀ line ∈ lines text, SingleLine line) ∧
    (lines "" = [] ∧ ∀ text, text ≠ "" → ∃ line rest, FirstLine text line rest ∧
      lines text = line :: lines rest ∧ rest.length < text.length) ∧
    (∀ text text' : String, normalize text.toList = normalize text'.toList → lines text = lines text' ∧
      ∀ symbols, Selection.preprocess symbols text = Selection.preprocess symbols text') ∧
    ∀ ended last, (∀ piece ∈ ended, SingleLine piece.1) → SingleLine last → Apart ended →
      lines (terminated ended last) = ended.map Prod.fst ++ if last = "" then [] else [last] := by
  have same (text text' : String) (h : normalize text.toList = normalize text'.toList) :
      lines text = lines text' := by
    rw [lines_eq, lines_eq, h]
  refine ⟨lines_eq, fun text line hm => singleLine_of_mem_lines hm, ⟨rfl, fun text h => ?_⟩,
    fun text text' h => ⟨same text text' h, fun symbols => ?_⟩,
    fun ended last h hlast hapart => lines_terminated h hlast hapart⟩
  · obtain ⟨line, rest, hfirst⟩ := exists_firstLine h
    exact ⟨line, rest, hfirst, hfirst.lines_eq, hfirst.length_lt⟩
  · rw [Selection.preprocess, Selection.preprocess, same text text' h]

/-- Three empty lines in a row, ended in three ways behind a line that ends in
`\r`, and a last line without a terminator. -/
theorem lines_reference_mixed : lines "a\r\r\n\n\rb" = ["a", "", "", "", "b"] ∧
    ∀ symbols, Selection.preprocess symbols "a\r\r\n\n\rb" =
      Selection.preprocess symbols "a\n\r\r\r\nb" :=
  ⟨lines_reference.2.2.2.2 [("a", .carriage), ("", .pair), ("", .newline), ("", .carriage)] "b"
      (by decide) (by decide) (by decide),
    (lines_reference.2.2.2.1 "a\r\r\n\n\rb" "a\n\r\r\r\nb" (by decide)).2⟩

end Amalgam.Text
