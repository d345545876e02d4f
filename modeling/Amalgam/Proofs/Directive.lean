import Amalgam.Directive
import Amalgam.Proofs.Text.Trim

/-!
# The forms of directives

What `Directive.ofLine` accepts, as a grammar. A line is trimmed before its
keyword is read, and some keywords are spelled with the space behind them, so a
line that has nothing but blank characters behind such a keyword is no
directive. The grammar says this of the line as it stands (`Form`), with the
blank characters at the places where they may be.

* `Keyword.read_eq_some_iff`: no spelling starts with another, so the order of
  the spellings does not matter;
* `asks_iff`, `carries_iff`: a condition or a symbol behind a keyword, in the
  line and in the trimmed line;
* `ofLine_eq_iff`: a line is read as a directive exactly if it has the form of
  that directive, and a line with none of the forms is invalid.
-/

namespace Amalgam

open Text (Blank Trimmed trimChars isBlankChar)

/-! ## Keywords -/

namespace Keyword

variable {cs rest : List Char} {spelling : String} {k : Keyword}

/-- No spelling starts with another. -/
theorem spellings_prefixFree :
    ∀ a ∈ spellings, ∀ b ∈ spellings, a.1.toList <+: b.1.toList → a = b := by
  decide

theorem head?_spelling : ∀ a ∈ spellings, a.1.toList.head? = some '#' := by
  decide

/-- A text is read as the keyword whose spelling it starts with. -/
theorem read_eq_some_iff : read cs = some (k, rest) ↔
    ∃ spelling, (spelling, k) ∈ spellings ∧ cs = spelling.toList ++ rest := by
  have hmatch (a : String × Keyword) (found : Keyword × List Char) :
      ((a.1.toList.isPrefixOf? cs).map fun rest => (a.2, rest)) = some found ↔
        a.2 = found.1 ∧ cs = a.1.toList ++ found.2 := by
    rw [Option.map_eq_some_iff]
    constructor
    · rintro ⟨rest, hrest, rfl⟩
      exact ⟨rfl, (List.isPrefixOf?_eq_some_iff_append_eq.mp hrest).symm⟩
    · rintro ⟨hk, hcs⟩
      exact ⟨found.2, List.isPrefixOf?_eq_some_iff_append_eq.mpr hcs.symm, by rw [hk]⟩
  constructor
  · intro h
    obtain ⟨a, hm, ha⟩ := List.exists_of_findSome?_eq_some h
    obtain ⟨rfl, hcs⟩ := (hmatch a _).mp ha
    exact ⟨a.1, hm, hcs⟩
  · rintro ⟨spelling, hm, hcs⟩
    cases hread : read cs with
    | none =>
      have hnone := List.findSome?_eq_none_iff.mp hread (spelling, k) hm
      have hsome := (hmatch (spelling, k) (k, rest)).mpr ⟨rfl, hcs⟩
      exact absurd (hnone.symm.trans hsome) (by simp)
    | some found =>
      -- both spellings start the same text, so one of them starts with the
      -- other
      obtain ⟨a, hma, ha⟩ := List.exists_of_findSome?_eq_some hread
      obtain ⟨hk, hcs'⟩ := (hmatch a found).mp ha
      have hprefix : a.1.toList <+: cs := ⟨_, hcs'.symm⟩
      have heq : a = (spelling, k) := by
        rcases List.prefix_or_prefix_of_prefix hprefix ⟨rest, hcs.symm⟩ with h | h
        · exact spellings_prefixFree a hma (spelling, k) hm h
        · exact (spellings_prefixFree (spelling, k) hm a hma h).symm
      subst heq
      obtain rfl : rest = found.2 := List.append_cancel_left (hcs.symm.trans hcs')
      rw [show found = (k, found.2) from Prod.ext hk.symm rfl]

end Keyword

/-! ## Conditions -/

namespace Condition

theorem ofChars_of_not_mem {cs : List Char} (h : '!' ∉ cs) :
    ofChars cs = ⟨false, String.ofList (trimChars cs)⟩ := by
  have hnil : cs.dropWhile (· ≠ '!') = [] := by
    refine List.dropWhile_eq_nil_iff.mpr fun c hc => ?_
    have hne : c ≠ '!' := fun e => h (e ▸ hc)
    simpa using hne
  rw [ofChars, hnil]

theorem ofChars_append {front : List Char} (h : '!' ∉ front) (rest : List Char) :
    ofChars (front ++ '!' :: rest) = ⟨true, String.ofList (trimChars rest)⟩ := by
  have hdrop : (front ++ '!' :: rest).dropWhile (· ≠ '!') = '!' :: rest := by
    induction front with
    | nil => rfl
    | cons c front ih =>
      simp only [List.mem_cons, not_or] at h
      rw [List.cons_append, List.dropWhile_cons_of_pos (by simpa using Ne.symm h.1), ih h.2]
  rw [ofChars, hdrop]

end Condition

namespace Directive

variable {line keyword : String} {rest : List Char} {c : Condition} {d : Directive}

/-! ## The grammar -/

/-- An ordinary line: it is blank, or the first character that is not blank is
no `#`. -/
def Ordinary (line : String) : Prop :=
  Blank line.toList ∨ ∃ w c rest, Blank w ∧ isBlankChar c = false ∧ c ≠ '#' ∧
    line.toList = w ++ c :: rest

/-- A keyword with a symbol behind it. -/
def Carries (keyword line s : String) : Prop :=
  ∃ w w' w'' : String, Blank w.toList ∧ Blank w'.toList ∧ Blank w''.toList ∧ s ≠ "" ∧ Trimmed s.toList ∧
    line = w ++ keyword ++ w' ++ s ++ w''

/-- A keyword with a condition behind it. -/
inductive Asks (keyword line : String) : Condition → Prop
  | symbol {s : String} : Carries keyword line s → '!' ∉ s.toList → Asks keyword line ⟨false, s⟩
  /-- What stands in front of the `!` does not matter, and the symbol may be
  missing. -/
  | negated {w p w' s w'' : String} : Blank w.toList → '!' ∉ p.toList → Blank w'.toList →
    Trimmed s.toList → Blank w''.toList → line = w ++ keyword ++ p ++ "!" ++ w' ++ s ++ w'' →
    Asks keyword line ⟨true, s⟩

/-- What directives for later tools start with. -/
def laterWords : List String :=
  ["#warning", "#line", "#region", "#endregion", "#pragma "]

/-- The line has the form of the directive. No line has the form of an invalid
one. -/
inductive Form (line : String) : Directive → Prop
  | plain : Ordinary line → Form line (.plain line)
  | opening {c : Condition} : Asks "#if " line c → Form line (.opening c)
  | elseIf {c : Condition} : Asks "#elif " line c → Form line (.elseIf c)
  | otherwise {w w' : String} : Blank w.toList → Blank w'.toList → line = w ++ "#else" ++ w' →
    Form line .otherwise
  | endIf {w rest : String} : Blank w.toList → line = w ++ "#endif" ++ rest → Form line .endIf
  | error : Text.trim line = "#error" → Form line (.error "")
  /-- Any one character parts the message from the keyword. -/
  | errorMessage {c : Char} {message : String} : Text.trim line = "#error" ++ String.singleton c ++ message →
    Form line (.error message)
  | define {s : String} : Carries "#define " line s → Form line (.define s)
  | undefine {s : String} : Carries "#undef " line s → Form line (.undefine s)
  | passthrough {word rest : String} : word ∈ laterWords → Text.trim line = word ++ rest →
    Form line (.passthrough line)

/-! ## Forms of the trimmed line -/

theorem ordinary_iff : Ordinary line ↔ (trimChars line.toList).head? ≠ some '#' := by
  obtain ⟨w, w', hw, hw', hline⟩ := Text.exists_eq_trimChars line.toList
  have htrim := Text.trimmed_trimChars line.toList
  constructor
  · rintro (hblank | ⟨v, c, rest, hv, hc, hne, hline'⟩)
    · rw [Text.trimChars_of_blank hblank]
      exact Option.some_ne_none '#' ∘ Eq.symm
    · have hfront : Trimmed [c] := ⟨by simpa using hc, by simpa using hc⟩
      rw [hline', ← List.singleton_append, ← List.append_assoc,
        Text.trimChars_append hv hfront (List.cons_ne_nil _ _)]
      simpa using hne
  · intro hhead
    cases ht : trimChars line.toList with
    | nil =>
      refine .inl ?_
      rw [hline, ht]
      exact Text.blank_append.mpr ⟨Text.blank_append.mpr ⟨hw, Text.blank_nil⟩, hw'⟩
    | cons c rest =>
      rw [ht] at hhead htrim
      refine .inr ⟨w, c, rest ++ w', hw, htrim.first c rfl, by simpa using hhead, ?_⟩
      rw [hline, ht, List.append_assoc, List.cons_append]

/-- What is left of a line in which nothing but blank characters stands in
front of the keyword, if the keyword and what follows it end in a character
that is not blank. -/
theorem trimChars_keyword {w : String} (hw : Blank w.toList)
    (hkeyword : keyword.toList.head? = some '#') (front back : String)
    (hlast : ∀ c ∈ (keyword ++ front).toList.getLast?, isBlankChar c = false) :
    trimChars (w ++ (keyword ++ front) ++ back).toList =
      keyword.toList ++ (front.toList ++ Text.dropEndWhile isBlankChar back.toList) := by
  have hne : keyword.toList ≠ [] := by
    intro hnil
    rw [hnil] at hkeyword
    cases hkeyword
  have htrim : Trimmed (keyword ++ front).toList := by
    refine ⟨fun c hc => ?_, hlast⟩
    rw [String.toList_append, List.head?_append_of_ne_nil _ hne, hkeyword] at hc
    obtain rfl := Option.some.inj hc
    decide
  rw [String.toList_append, String.toList_append, Text.trimChars_append hw htrim (by simp [hne]),
    String.toList_append, List.append_assoc]

/-- Something that is not blank follows a keyword that ends in a space, if the
whole is trimmed. -/
theorem trimChars_ne_nil {cs : List Char} (htrim : Trimmed (cs ++ rest)) (hspace : cs.getLast? = some ' ') :
    trimChars rest ≠ [] := by
  intro hnil
  obtain ⟨w, w', hw, hw', hrest⟩ := Text.exists_eq_trimChars rest
  have hblank : Blank rest := by
    rw [hrest, hnil]
    exact Text.blank_append.mpr ⟨Text.blank_append.mpr ⟨hw, Text.blank_nil⟩, hw'⟩
  by_cases hne : rest = []
  · rw [hne, List.append_nil] at htrim
    exact absurd (htrim.last ' ' hspace) (by decide)
  · exact htrim.not_blank_back hne hblank

/-- Blank characters are no `!`. -/
theorem mark_mem_trimChars {cs : List Char} : '!' ∈ trimChars cs ↔ '!' ∈ cs := by
  obtain ⟨w, w', hw, hw', hcs⟩ := Text.exists_eq_trimChars cs
  have hmark {v : List Char} (hv : Blank v) : '!' ∉ v :=
    fun hm => absurd (hv.isBlankChar hm) (by decide)
  conv_rhs => rw [hcs]
  simp [hmark hw, hmark hw']

/-- The last character of a line that ends in a symbol is not blank. -/
theorem isBlankChar_getLast? {front s : String} (hne : s ≠ "") (hs : Trimmed s.toList) :
    ∀ c ∈ (front ++ s).toList.getLast?, isBlankChar c = false := by
  intro c hc
  rw [String.toList_append, List.getLast?_append_of_ne_nil _ (by simpa using hne)] at hc
  exact hs.last c hc

/-- The symbol behind a keyword that ends in a space. -/
theorem carries_iff {s : String} (hkeyword : keyword.toList.head? = some '#')
    (hspace : keyword.toList.getLast? = some ' ') : Carries keyword line s ↔
      ∃ rest, trimChars line.toList = keyword.toList ++ rest ∧ String.ofList (trimChars rest) = s := by
  constructor
  · rintro ⟨w, w', w'', hw, hw', hw'', hne, hs, rfl⟩
    refine ⟨w'.toList ++ s.toList, ?_, ?_⟩
    · have htrim := trimChars_keyword hw hkeyword (w' ++ s) w'' (by
        rw [← String.append_assoc]
        exact isBlankChar_getLast? hne hs)
      rw [← List.nil_append w''.toList, Text.dropEndWhile_blank hw''] at htrim
      simpa [String.append_assoc, Text.dropEndWhile] using htrim
    · rw [Text.trimChars_eq_iff.mpr ⟨hs, w'.toList, [], hw', Text.blank_nil, (List.append_nil _).symm⟩,
        String.ofList_toList]
  · rintro ⟨rest, ht, rfl⟩
    obtain ⟨w, w'', hw, hw'', hline⟩ := Text.exists_eq_trimChars line.toList
    obtain ⟨u, u', hu, hu', hrest⟩ := Text.exists_eq_trimChars rest
    have htrim := Text.trimmed_trimChars line.toList
    rw [ht] at hline htrim
    refine ⟨String.ofList w, String.ofList u, String.ofList (u' ++ w''), by simpa using hw,
      by simpa using hu, by simpa using Text.blank_append.mpr ⟨hu', hw''⟩, ?_,
      by simpa using Text.trimmed_trimChars rest, ?_⟩
    · simpa using trimChars_ne_nil htrim hspace
    · rw [← String.toList_inj, hline]
      nth_rewrite 1 [hrest]
      simp

/-- The condition behind a keyword that ends in a space. -/
theorem asks_iff (hkeyword : keyword.toList.head? = some '#') (hspace : keyword.toList.getLast? = some ' ') :
    Asks keyword line c ↔
      ∃ rest, trimChars line.toList = keyword.toList ++ rest ∧ Condition.ofChars rest = c := by
  constructor
  · intro h
    cases h with
    | symbol hcarries hmark =>
      obtain ⟨rest, ht, rfl⟩ := (carries_iff hkeyword hspace).mp hcarries
      rw [String.toList_ofList, mark_mem_trimChars] at hmark
      exact ⟨rest, ht, Condition.ofChars_of_not_mem hmark⟩
    | @negated w p w' s w'' hw hp hw' hs hw'' hline =>
      subst hline
      have htrim := trimChars_keyword hw hkeyword (p ++ "!") (w' ++ s ++ w'') (by
        rw [← String.append_assoc]
        exact isBlankChar_getLast? (by decide) (by decide))
      refine ⟨p.toList ++ '!' :: Text.dropEndWhile isBlankChar (w' ++ s ++ w'').toList, ?_, ?_⟩
      · simpa [String.append_assoc] using htrim
      · rw [Condition.ofChars_append hp, Text.trimChars_dropEndWhile, String.toList_append,
          String.toList_append, Text.trimChars_eq_iff.mpr ⟨hs, _, _, hw', hw'', rfl⟩, String.ofList_toList]
  · rintro ⟨rest, ht, rfl⟩
    by_cases hmark : '!' ∈ rest
    · obtain ⟨p, back, rfl, hp⟩ := List.eq_append_cons_of_mem hmark
      obtain ⟨w, w'', hw, hw'', hline⟩ := Text.exists_eq_trimChars line.toList
      obtain ⟨u, u', hu, hu', hback⟩ := Text.exists_eq_trimChars back
      have hform : line = String.ofList w ++ keyword ++ String.ofList p ++ "!" ++ String.ofList u ++
          String.ofList (trimChars back) ++ String.ofList (u' ++ w'') := by
        rw [← String.toList_inj, hline, ht]
        nth_rewrite 1 [hback]
        simp
      rw [Condition.ofChars_append hp]
      exact .negated (by simpa using hw) (by simpa using hp) (by simpa using hu)
        (by simpa using Text.trimmed_trimChars back)
        (by simpa using Text.blank_append.mpr ⟨hu', hw''⟩) hform
    · rw [Condition.ofChars_of_not_mem hmark]
      exact .symbol ((carries_iff hkeyword hspace).mpr ⟨rest, ht, rfl⟩)
        (by rwa [String.toList_ofList, mark_mem_trimChars])

/-! ## Reading a line -/

theorem ofLine_of_keyword {k : Keyword} (hk : (keyword, k) ∈ Keyword.spellings)
    (ht : trimChars line.toList = keyword.toList ++ rest) :
    ofLine line = ofKeyword line (trimChars line.toList) k rest := by
  have hhead : (trimChars line.toList).head? = some '#' := by
    have hkeyword := Keyword.head?_spelling (keyword, k) hk
    rw [ht, List.head?_append, hkeyword]
    rfl
  simp only [ofLine, hhead, ne_eq, not_true_eq_false, if_false, Keyword.read_eq_some_iff.mpr ⟨_, hk, ht⟩]

theorem trim_eq_iff {text : String} : Text.trim line = text ↔ trimChars line.toList = text.toList := by
  rw [← String.toList_inj, Text.trim, String.toList_ofList]

theorem passthrough_mem_spellings : ∀ word ∈ laterWords, (word, Keyword.passthrough) ∈ Keyword.spellings := by
  decide

/-- A line that has the form of a directive is read as that directive. -/
theorem Form.ofLine_eq (h : Form line d) : ofLine line = d := by
  cases h with
  | plain hline => simp only [ofLine, ordinary_iff.mp hline, ne_eq, not_false_eq_true, if_true]
  | opening hasks =>
    obtain ⟨rest, ht, rfl⟩ := (asks_iff (by decide) (by decide)).mp hasks
    exact ofLine_of_keyword (k := .opening) (by decide) ht
  | elseIf hasks =>
    obtain ⟨rest, ht, rfl⟩ := (asks_iff (by decide) (by decide)).mp hasks
    exact ofLine_of_keyword (k := .elseIf) (by decide) ht
  | @otherwise w w' hw hw' hline =>
    have ht : trimChars line.toList = "#else".toList ++ [] :=
      Text.trimChars_eq_iff.mpr ⟨by decide, w.toList, w'.toList, hw, hw', by simp [hline]⟩
    exact ofLine_of_keyword (k := .otherwise) (by decide) ht
  | @endIf w back hw hline =>
    have ht : trimChars line.toList = "#endif".toList ++ Text.dropEndWhile isBlankChar back.toList := by
      rw [hline, String.toList_append, String.toList_append]
      exact Text.trimChars_append hw (by decide) (by decide) back.toList
    exact ofLine_of_keyword (k := .endIf) (by decide) ht
  | error ht =>
    have hchars : trimChars line.toList = "#error".toList ++ [] := trim_eq_iff.mp ht
    exact ofLine_of_keyword (k := .error) (by decide) hchars
  | @errorMessage separator message ht =>
    have hchars : trimChars line.toList = "#error".toList ++ separator :: message.toList := by
      rw [trim_eq_iff.mp ht]
      simp
    rw [ofLine_of_keyword (k := .error) (by decide) hchars, ofKeyword, List.tail_cons, String.ofList_toList]
  | define hcarries =>
    obtain ⟨rest, ht, rfl⟩ := (carries_iff (by decide) (by decide)).mp hcarries
    exact ofLine_of_keyword (k := .define) (by decide) ht
  | undefine hcarries =>
    obtain ⟨rest, ht, rfl⟩ := (carries_iff (by decide) (by decide)).mp hcarries
    exact ofLine_of_keyword (k := .undefine) (by decide) ht
  | @passthrough word back hword ht =>
    have hk : (word, Keyword.passthrough) ∈ Keyword.spellings := passthrough_mem_spellings word hword
    exact ofLine_of_keyword hk (by rw [trim_eq_iff.mp ht, String.toList_append])

/-- What a keyword and the text behind it make is a directive whose form the
line has, unless something stands behind `#else`. -/
theorem form_ofKeyword {k : Keyword} (hk : (keyword, k) ∈ Keyword.spellings)
    (ht : trimChars line.toList = keyword.toList ++ rest) :
    Form line (ofKeyword line (trimChars line.toList) k rest) ∨
      ofKeyword line (trimChars line.toList) k rest = .invalid (Text.trim line) := by
  obtain ⟨w, w', hw, hw', hline⟩ := Text.exists_eq_trimChars line.toList
  have htrim : Text.trim line = keyword ++ String.ofList rest := trim_eq_iff.mpr (by simpa using ht)
  have hform : line = String.ofList w ++ keyword ++ String.ofList (rest ++ w') := by
    rw [← String.toList_inj, hline, ht]
    simp
  have later (hm : keyword ∈ laterWords) : Form line (.passthrough line) := .passthrough hm htrim
  simp only [Keyword.spellings, List.mem_cons, Prod.mk.injEq, List.not_mem_nil, or_false] at hk
  rcases hk with ⟨rfl, rfl⟩ | ⟨rfl, rfl⟩ | ⟨rfl, rfl⟩ | ⟨rfl, rfl⟩ | ⟨rfl, rfl⟩ | ⟨rfl, rfl⟩ |
    ⟨rfl, rfl⟩ | ⟨rfl, rfl⟩ | ⟨rfl, rfl⟩ | ⟨rfl, rfl⟩ | ⟨rfl, rfl⟩ | ⟨rfl, rfl⟩
  · exact .inl (.opening ((asks_iff (by decide) (by decide)).mpr ⟨rest, ht, rfl⟩))
  · exact .inl (.elseIf ((asks_iff (by decide) (by decide)).mpr ⟨rest, ht, rfl⟩))
  · cases rest with
    | nil => exact .inl (.otherwise (by simpa using hw) (by simpa using hw') hform)
    | cons c rest => exact .inr rfl
  · exact .inl (.endIf (by simpa using hw) hform)
  · cases rest with
    | nil => exact .inl (.error htrim)
    | cons c rest =>
      exact .inl (.errorMessage (c := c) (trim_eq_iff.mpr (by simpa using ht)))
  · exact .inl (.define ((carries_iff (by decide) (by decide)).mpr ⟨rest, ht, rfl⟩))
  · exact .inl (.undefine ((carries_iff (by decide) (by decide)).mpr ⟨rest, ht, rfl⟩))
  all_goals exact .inl (later (by decide))

/-- A line has the form of the directive that it is read as, unless that is
invalid. -/
theorem form_ofLine (line : String) : Form line (ofLine line) ∨ ofLine line = .invalid (Text.trim line) := by
  by_cases hhead : (trimChars line.toList).head? = some '#'
  · cases hread : Keyword.read (trimChars line.toList) with
    | none =>
      refine .inr ?_
      simp only [ofLine, hhead, ne_eq, not_true_eq_false, if_false, hread]
      rfl
    | some found =>
      obtain ⟨keyword, hk, ht⟩ := Keyword.read_eq_some_iff.mp hread
      rw [ofLine_of_keyword hk ht]
      exact form_ofKeyword hk ht
  · have hform : Form line (.plain line) := .plain (ordinary_iff.mpr hhead)
    exact .inl (by rwa [hform.ofLine_eq])

/-- A line is read as a directive exactly if it has the form of that directive,
and as an invalid one, trimmed, exactly if it has none of the forms. -/
theorem ofLine_eq_iff (line : String) (d : Directive) :
    ofLine line = d ↔ Form line d ∨ d = .invalid (Text.trim line) ∧ ∀ d', ¬Form line d' := by
  constructor
  · rintro rfl
    refine (form_ofLine line).imp_right fun hinvalid => ⟨hinvalid, fun d' hform => ?_⟩
    rw [hform.ofLine_eq] at hinvalid
    rw [hinvalid] at hform
    cases hform
  · rintro (hform | ⟨rfl, hnone⟩)
    · exact hform.ofLine_eq
    · exact (form_ofLine line).resolve_left (hnone _)

end Directive

end Amalgam
