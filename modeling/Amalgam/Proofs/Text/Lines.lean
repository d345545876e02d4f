import Amalgam.Text.Lines

/-!
# Splitting a text and putting it together again

`Text.lines` reads a text in one pass. It is the same to write every terminator
as `\n`, to split at every `\n` and to leave out the last piece if it is empty
(`lines_eq`). From that follow the two ways in which `lines` and `unlines` undo
each other:

* `lines_unlines`: lines that hold no terminator, put together, have the same
  lines again, but for an empty one at the end;
* `unlines_lines`: the lines of a text without `\r`, put together again, are
  the text, but for one `\n` at its end.
-/

namespace Amalgam.Text

/-! ## One terminator -/

/-- Writes `\n` for every `\r\n`, from left to right. -/
def mergePairs : List Char → List Char
  | [] => []
  | '\r' :: '\n' :: rest => '\n' :: mergePairs rest
  | c :: rest => c :: mergePairs rest

/-- Writes `\n` for every `\r\n`, and then for every `\r` that is left. -/
def normalize (cs : List Char) : List Char :=
  (mergePairs cs).map fun c => if c = '\r' then '\n' else c

@[simp] theorem normalize_nil : normalize [] = [] := rfl

theorem normalize_pair (rest : List Char) :
    normalize ('\r' :: '\n' :: rest) = '\n' :: normalize rest := by
  simp [normalize, mergePairs]

/-- A character that does not begin a pair. -/
theorem normalize_cons {c : Char} {rest : List Char} (h : ∀ more, c = '\r' → rest ≠ '\n' :: more) :
    normalize (c :: rest) = (if c = '\r' then '\n' else c) :: normalize rest := by
  rw [normalize, mergePairs, List.map_cons, normalize]
  rintro more rfl
  exact h more rfl

theorem normalize_eq_self {cs : List Char} (h : '\r' ∉ cs) : normalize cs = cs := by
  induction cs with
  | nil => rfl
  | cons c rest ih =>
    have hc : c ≠ '\r' := fun hc => h (hc ▸ List.mem_cons_self ..)
    rw [normalize_cons fun _ e => absurd e hc, if_neg hc, ih fun hm => h (List.mem_cons_of_mem _ hm)]

/-! ## Pieces -/

/-- The lines without the last one if that is empty. -/
def dropFinalEmpty (ls : List String) : List String :=
  if ls.getLast? = some "" then ls.dropLast else ls

theorem dropFinalEmpty_cons {ls : List String} (h : ls ≠ []) (line : String) :
    dropFinalEmpty (line :: ls) = line :: dropFinalEmpty ls := by
  rw [dropFinalEmpty, dropFinalEmpty, List.getLast?_cons_of_ne_nil h, List.dropLast_cons_of_ne_nil h]
  split <;> rfl

theorem dropFinalEmpty_concat (ls : List String) (line : String) :
    dropFinalEmpty (ls ++ [line]) = if line = "" then ls else ls ++ [line] := by
  simp [dropFinalEmpty]

/-- Only an empty line is left out. -/
theorem mem_dropFinalEmpty {ls : List String} {line : String} (h : line ∈ ls) :
    line ∈ dropFinalEmpty ls ∨ line = "" := by
  rcases List.eq_nil_or_concat ls with rfl | ⟨init, last, rfl⟩
  · cases h
  · rw [List.concat_eq_append] at h ⊢
    rw [dropFinalEmpty_concat]
    split
    · rename_i hlast
      rcases List.mem_append.mp h with hm | hm
      · exact .inl hm
      · exact .inr ((List.mem_singleton.mp hm).trans hlast)
    · exact .inl h

theorem mem_of_mem_dropFinalEmpty {ls : List String} {line : String} (h : line ∈ dropFinalEmpty ls) :
    line ∈ ls := by
  unfold dropFinalEmpty at h
  split at h
  · exact List.dropLast_subset _ h
  · exact h

/-- The pieces of a text between its newlines, if `line` has been read of the
first one, its last character first. -/
def piecesFrom (line cs : List Char) : List String :=
  ((cs.splitOn '\n').modifyHead (line.reverse ++ ·)).map String.ofList

theorem piecesFrom_nil (cs : List Char) :
    piecesFrom [] cs = (cs.splitOn '\n').map String.ofList :=
  congrArg (List.map String.ofList) (congrFun List.modifyHead_id _)

theorem piecesFrom_newline (line cs : List Char) :
    piecesFrom line ('\n' :: cs) = String.ofList line.reverse :: piecesFrom [] cs := by
  rw [piecesFrom_nil, piecesFrom, List.splitOn_cons_eq_if_modifyHead]
  simp

theorem piecesFrom_cons {c : Char} (hc : c ≠ '\n') (line cs : List Char) :
    piecesFrom line (c :: cs) = piecesFrom (c :: line) cs := by
  rw [piecesFrom, piecesFrom, List.splitOn_cons_eq_if_modifyHead, if_neg (by simpa using hc),
    List.modifyHead_modifyHead]
  congr 2
  funext piece
  simp

theorem piecesFrom_ne_nil (line cs : List Char) : piecesFrom line cs ≠ [] := by
  simp [piecesFrom, List.splitOn_ne_nil]

/-- What is read of a text is its pieces once its terminators are all the
same. -/
theorem scanLines_eq (done : List String) (line cs : List Char) :
    scanLines done line cs = done.reverse ++ dropFinalEmpty (piecesFrom line (normalize cs)) := by
  -- a line that ends here is read, and the rest is read with nothing in front
  -- of it
  have ended (done : List String) (line rest : List Char)
      (ih : scanLines (String.ofList line.reverse :: done) [] rest =
        (String.ofList line.reverse :: done).reverse ++
          dropFinalEmpty (piecesFrom [] (normalize rest))) :
      scanLines (String.ofList line.reverse :: done) [] rest =
        done.reverse ++ dropFinalEmpty (piecesFrom line ('\n' :: normalize rest)) := by
    rw [ih, piecesFrom_newline, dropFinalEmpty_cons (piecesFrom_ne_nil _ _), List.reverse_cons,
      List.append_assoc]
    rfl
  fun_induction scanLines done line cs with
  | case1 done line =>
    cases line with
    | nil => simp [piecesFrom, dropFinalEmpty]
    | cons c line => simp [piecesFrom, dropFinalEmpty]
  | case2 done line rest ih =>
    rw [normalize_pair]
    exact ended done line rest ih
  | case3 done line rest hpair ih =>
    rw [normalize_cons fun more _ => hpair more, if_pos rfl]
    exact ended done line rest ih
  | case4 done line rest ih =>
    rw [normalize_cons fun _ e => absurd e (by decide)]
    exact ended done line rest ih
  | case5 done line c rest hpair hreturn hnewline ih =>
    rw [normalize_cons fun _ e => absurd e hreturn, if_neg hreturn, piecesFrom_cons hnewline, ih]

/-- The lines of a text are its pieces between newlines, once every terminator
is written as one, without the last piece if that is empty. -/
theorem lines_eq (text : String) :
    lines text = dropFinalEmpty (((normalize text.toList).splitOn '\n').map String.ofList) := by
  rw [lines, scanLines_eq, piecesFrom_nil]
  rfl

/-! ## Single lines -/

/-- The text holds no terminator. -/
def SingleLine (line : String) : Prop :=
  '\r' ∉ line.toList ∧ '\n' ∉ line.toList

theorem SingleLine.of_chars {line : List Char} (h : '\r' ∉ line ∧ '\n' ∉ line) :
    SingleLine (String.ofList line.reverse) := by
  simpa [SingleLine] using h

theorem singleLine_of_mem_scanLines {done : List String} {line cs : List Char} {l : String}
    (hdone : ∀ l ∈ done, SingleLine l) (hline : '\r' ∉ line ∧ '\n' ∉ line)
    (h : l ∈ scanLines done line cs) : SingleLine l := by
  have ended {done : List String} {line : List Char} (hdone : ∀ l ∈ done, SingleLine l)
      (hline : '\r' ∉ line ∧ '\n' ∉ line) :
      ∀ l ∈ String.ofList line.reverse :: done, SingleLine l := by
    rintro l (_ | ⟨_, hm⟩)
    · exact .of_chars hline
    · exact hdone l hm
  have hnil : '\r' ∉ ([] : List Char) ∧ '\n' ∉ ([] : List Char) :=
    ⟨List.not_mem_nil, List.not_mem_nil⟩
  fun_induction scanLines done line cs with
  | case1 done line =>
    rw [List.mem_reverse] at h
    split at h
    · exact hdone l h
    · exact ended hdone hline l h
  | case2 done line rest ih => exact ih (ended hdone hline) hnil h
  | case3 done line rest hpair ih => exact ih (ended hdone hline) hnil h
  | case4 done line rest ih => exact ih (ended hdone hline) hnil h
  | case5 done line c rest hpair hreturn hnewline ih =>
    refine ih hdone ⟨?_, ?_⟩ h
    · simpa [Ne.symm hreturn] using hline.1
    · simpa [Ne.symm hnewline] using hline.2

/-- The lines of a text hold no terminator. -/
theorem singleLine_of_mem_lines {text line : String} (h : line ∈ lines text) : SingleLine line :=
  singleLine_of_mem_scanLines (fun _ hm => absurd hm List.not_mem_nil)
    ⟨List.not_mem_nil, List.not_mem_nil⟩ h

/-! ## Putting lines together -/

theorem toList_unlines (ls : List String) :
    (unlines ls).toList = ['\n'].intercalate (ls.map String.toList) :=
  String.toList_intercalate

/-- Lines put together hold a `\r` only if one of them does. -/
theorem return_not_mem_unlines {ls : List String} (h : ∀ l ∈ ls, '\r' ∉ l.toList) :
    '\r' ∉ (unlines ls).toList := by
  induction ls with
  | nil => exact List.not_mem_nil
  | cons line ls ih =>
    have hline : '\r' ∉ line.toList := h line (List.mem_cons_self ..)
    cases ls with
    | nil => simpa [unlines] using hline
    | cons line' ls =>
      have hrest := ih fun l hl => h l (List.mem_cons_of_mem _ hl)
      rw [unlines, String.intercalate_cons_cons]
      simp only [String.toList_append, List.mem_append, not_or]
      exact ⟨⟨hline, by decide⟩, hrest⟩

/-- Lines that hold no terminator, put together, have the same lines again, but
for an empty one at the end. -/
theorem lines_unlines {ls : List String} (h : ∀ l ∈ ls, SingleLine l) :
    lines (unlines ls) = dropFinalEmpty ls := by
  cases ls with
  | nil => rfl
  | cons line ls =>
    have hsplit : (['\n'].intercalate ((line :: ls).map String.toList)).splitOn '\n' =
        (line :: ls).map String.toList := by
      refine List.splitOn_intercalate '\n' (fun piece hp => ?_) (by simp)
      obtain ⟨l, hl, rfl⟩ := List.mem_map.mp hp
      exact (h l hl).2
    rw [lines_eq, normalize_eq_self (return_not_mem_unlines fun l hl => (h l hl).1), toList_unlines,
      hsplit, List.map_map]
    congr 1
    exact List.map_id'' (fun l => String.ofList_toList) _

/-! ## Taking texts apart -/

/-- The text without its last character if that is a `\n`. -/
def chomp (text : String) : String :=
  if text.toList.getLast? = some '\n' then String.ofList text.toList.dropLast else text

theorem chomp_append_newline (text : String) : chomp (text ++ "\n") = text := by
  simp [chomp]

theorem chomp_eq_self {text : String} (h : text.toList.getLast? ≠ some '\n') : chomp text = text :=
  if_neg h

/-- Leaving out an empty last line takes away the `\n` in front of it, and
nothing else. -/
theorem unlines_dropFinalEmpty {ls : List String} (h : ∀ l ∈ ls, '\n' ∉ l.toList) :
    unlines (dropFinalEmpty ls) = chomp (unlines ls) := by
  rcases List.eq_nil_or_concat ls with rfl | ⟨init, last, rfl⟩
  · rfl
  · rw [List.concat_eq_append] at h ⊢
    rw [dropFinalEmpty_concat]
    split
    · rename_i hlast
      subst hlast
      cases init with
      | nil => rfl
      | cons line init =>
        have hsplit : unlines (line :: init ++ [""]) = unlines (line :: init) ++ "\n" ++ "" :=
          String.intercalate_append_of_ne_nil (by simp) (by simp)
        rw [hsplit, String.append_empty, chomp_append_newline]
    · rename_i hlast
      refine (chomp_eq_self ?_).symm
      obtain ⟨front, hfront⟩ : ∃ front, unlines (init ++ [last]) = front ++ last := by
        cases init with
        | nil => exact ⟨"", by simp [unlines]⟩
        | cons line init =>
          exact ⟨unlines (line :: init) ++ "\n",
            String.intercalate_append_of_ne_nil (by simp) (by simp)⟩
      obtain ⟨c, hc⟩ : ∃ c, last.toList.getLast? = some c :=
        Option.isSome_iff_exists.mp (by simpa using hlast)
      rw [hfront, String.toList_append, List.getLast?_append, hc]
      rintro ⟨rfl⟩
      exact h last (by simp) (List.mem_of_getLast? hc)

/-- The lines of a text without `\r`, put together again, are the text, but for
one `\n` at its end. -/
theorem unlines_lines {text : String} (h : '\r' ∉ text.toList) :
    unlines (lines text) = chomp text := by
  have hlines := lines_eq text
  rw [normalize_eq_self h] at hlines
  generalize hp : (text.toList.splitOn '\n').map String.ofList = pieces at hlines
  have htext : unlines pieces = text := by
    apply String.ext
    have hid : String.toList ∘ String.ofList = id := funext fun _ => String.toList_ofList
    rw [toList_unlines, ← hp, List.map_map, hid, List.map_id, List.intercalate_splitOn]
  have hpieces : ∀ l ∈ pieces, '\n' ∉ l.toList := by
    intro l hl
    rcases mem_dropFinalEmpty hl with hm | rfl
    · rw [← hlines] at hm
      exact (singleLine_of_mem_lines hm).2
    · exact List.not_mem_nil
  rw [hlines, unlines_dropFinalEmpty hpieces, htext]

end Amalgam.Text
