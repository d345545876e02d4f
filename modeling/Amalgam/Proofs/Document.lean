import Amalgam.Document
import Amalgam.Proofs.Text.Lines
import Mathlib.Data.List.DropRight

/-!
# Documents in closed form

A document is built by appending one text after the other, and what stands in
it so far is known only through the string. `foldl_append` says what that
string is: the bodies of the texts, which are the texts without the terminators
at their ends, the blank ones left out, with an empty line between each two of
them and a `\n` at the end (`assemble`). What follows is stated of `assemble`:

* `assemble_append`: a document of two stretches of bodies is made of their
  documents;
* `assemble_bodies_chomp`: documents, appended as texts, make the document of
  all their bodies;
* `assemble_bodies_eq_iff`: when a document among some texts is the document of
  these texts;
* `lines_assemble`: the lines of a document are those of its bodies, with an
  empty line between each two of them;
* `bodies_map_unlines`: the bodies of texts that were put together from lines.
-/

namespace Amalgam

namespace Text

/-! ## Blank texts -/

theorem isBlank_append (s t : String) : isBlank (s ++ t) = (isBlank s && isBlank t) := by
  rw [isBlank, String.toList_append, List.all_append]
  rfl

/-- Lines put together are blank if each of them is. -/
theorem isBlank_unlines (ls : List String) : isBlank (unlines ls) = ls.all isBlank := by
  induction ls with
  | nil => rfl
  | cons line ls ih =>
    cases ls with
    | nil => simp [unlines]
    | cons line' ls =>
      rw [unlines, String.intercalate_cons_cons, isBlank_append, isBlank_append, List.all_cons, ← ih,
        show isBlank "\n" = true by decide, Bool.and_true]
      rfl

end Text

namespace Document

open Text (SingleLine unlines)

/-! ## Bodies -/

/-- The bodies of texts: the texts without the terminators at their ends, but
for the blank ones. -/
def bodies (texts : List String) : List String :=
  (texts.map stripTerminators).filter fun body => !Text.isBlank body

/-- A text that stands in documents as it is: it is not blank, and no
terminator ends it. -/
structure IsBody (body : String) : Prop where
  notBlank : Text.isBlank body = false
  stripped : stripTerminators body = body

@[simp] theorem bodies_nil : bodies [] = [] := rfl

theorem bodies_append (xs ys : List String) : bodies (xs ++ ys) = bodies xs ++ bodies ys := by
  simp [bodies]

theorem bodies_flatten (contents : List (List String)) :
    bodies contents.flatten = (contents.map bodies).flatten := by
  induction contents with
  | nil => rfl
  | cons texts contents ih => rw [List.flatten_cons, bodies_append, ih, List.map_cons, List.flatten_cons]

theorem bodies_singleton (text : String) : bodies [text] =
    if Text.isBlank (stripTerminators text) then [] else [stripTerminators text] := by
  cases h : Text.isBlank (stripTerminators text) <;> simp [bodies, h]

theorem stripTerminators_stripTerminators (text : String) :
    stripTerminators (stripTerminators text) = stripTerminators text := by
  simp only [stripTerminators, String.toList_ofList]
  exact congrArg String.ofList (List.rdropWhile_idempotent _ _)

/-- A text that ends in no terminator stays as it is. -/
theorem stripTerminators_eq_self {text : String}
    (h : ∀ c, text.toList.getLast? = some c → isTerminator c = false) :
    stripTerminators text = text := by
  have hchars : text.toList.rdropWhile isTerminator = text.toList := by
    refine List.rdropWhile_eq_self_iff.mpr fun hne => ?_
    rw [h _ (List.getLast?_eq_some_getLast hne)]
    decide
  exact (congrArg String.ofList hchars).trans String.ofList_toList

theorem isBody_of_mem_bodies {texts : List String} {body : String} (h : body ∈ bodies texts) :
    IsBody body := by
  obtain ⟨hm, hb⟩ := List.mem_filter.mp h
  obtain ⟨text, -, rfl⟩ := List.mem_map.mp hm
  exact ⟨by simpa using hb, stripTerminators_stripTerminators text⟩

theorem IsBody.bodies_singleton {body : String} (h : IsBody body) : bodies [body] = [body] := by
  rw [Document.bodies_singleton, h.stripped, h.notBlank]
  rfl

theorem IsBody.ne_empty {body : String} (h : IsBody body) : body ≠ "" := by
  rintro rfl
  exact absurd h.notBlank (by decide)

/-- No terminator ends a body. -/
theorem IsBody.not_isTerminator {body : String} (h : IsBody body) {c : Char}
    (hc : body.toList.getLast? = some c) : isTerminator c = false := by
  have hne : body.toList ≠ [] := by simpa using h.ne_empty
  have hself : body.toList.rdropWhile isTerminator = body.toList := by
    have hstrip := congrArg String.toList h.stripped
    rwa [stripTerminators, String.toList_ofList] at hstrip
  have hlast := List.rdropWhile_eq_self_iff.mp hself hne
  rw [List.getLast?_eq_some_getLast hne, Option.some.injEq] at hc
  simpa [hc] using hlast

/-- A body among some texts is one of their bodies. -/
theorem IsBody.mem_bodies {body : String} {texts : List String} (h : IsBody body) (hm : body ∈ texts) :
    body ∈ bodies texts :=
  List.mem_filter.mpr ⟨List.mem_map.mpr ⟨body, hm, h.stripped⟩, by simp [h.notBlank]⟩

/-- Terminators are blank. -/
theorem isBlank_stripTerminators (text : String) :
    Text.isBlank (stripTerminators text) = Text.isBlank text := by
  have hblank : (text.toList.rtakeWhile isTerminator).all Text.isBlankChar = true := by
    refine List.all_eq_true.mpr fun c hc => ?_
    have hterm := List.mem_rtakeWhile_imp hc
    simp only [isTerminator, Bool.or_eq_true, beq_iff_eq] at hterm
    rcases hterm with rfl | rfl <;> decide
  have hsplit : text.toList.rdropWhile isTerminator ++ text.toList.rtakeWhile isTerminator = text.toList :=
    List.rdropWhile_append_rtakeWhile
  have hall := congrArg (List.all · Text.isBlankChar) hsplit
  simp only [List.all_append, hblank, Bool.and_true] at hall
  rw [Text.isBlank, Text.isBlank, stripTerminators, String.toList_ofList, ← hall]
  rfl

/-- Every text that is not blank has a body. -/
theorem length_bodies (texts : List String) :
    (bodies texts).length = texts.countP fun text => !Text.isBlank text := by
  rw [bodies, ← List.countP_eq_length_filter, List.countP_map]
  exact List.countP_congr fun text _ => by simp [isBlank_stripTerminators]

theorem bodies_eq_nil_iff {texts : List String} : bodies texts = [] ↔ ∀ text ∈ texts, Text.isBlank text := by
  rw [← List.length_eq_zero_iff, length_bodies, List.countP_eq_zero]
  simp

/-! ## The document of some bodies -/

/-- The document of the given bodies: an empty line between each two of them
and a `\n` at the end. -/
def assemble (bodies : List String) : String :=
  if bodies = [] then "" else "\n\n".intercalate bodies ++ "\n"

theorem assemble_of_ne_nil {bodies : List String} (h : bodies ≠ []) :
    assemble bodies = "\n\n".intercalate bodies ++ "\n" :=
  if_neg h

/-- Only the document of no bodies is empty. -/
theorem assemble_eq_empty_iff {bodies : List String} : assemble bodies = "" ↔ bodies = [] := by
  refine ⟨fun h => ?_, fun h => h ▸ rfl⟩
  by_contra hne
  rw [assemble_of_ne_nil hne] at h
  have hlist := congrArg String.toList h
  simp at hlist

/-- The document of two stretches of bodies is made of their documents, with an
empty line between them unless one of them is empty. -/
theorem assemble_append (xs ys : List String) : assemble (xs ++ ys) =
    if xs = [] then assemble ys else if ys = [] then assemble xs
    else assemble xs ++ "\n" ++ assemble ys := by
  split
  · rename_i hx
    rw [hx, List.nil_append]
  · rename_i hx
    split
    · rename_i hy
      rw [hy, List.append_nil]
    · rename_i hy
      have hsep : "\n\n" = "\n" ++ "\n" := by decide
      rw [assemble_of_ne_nil (by simp [hx]), assemble_of_ne_nil hx, assemble_of_ne_nil hy,
        String.intercalate_append_of_ne_nil hx hy]
      nth_rewrite 2 [hsep]
      simp only [String.append_assoc]

/-- One more text adds its body. -/
theorem append_assemble (xs : List String) (text : String) :
    append (assemble xs) text = assemble (xs ++ bodies [text]) := by
  rw [append, bodies_singleton]
  split
  · rw [List.append_nil]
  · simp only [assemble_eq_empty_iff]
    rw [assemble_append, if_neg (List.cons_ne_nil _ _), assemble_of_ne_nil (List.cons_ne_nil _ _),
      String.intercalate_singleton, String.append_assoc]

/-- The document after some more texts. -/
theorem foldl_append (xs texts : List String) :
    texts.foldl append (assemble xs) = assemble (xs ++ bodies texts) := by
  induction texts generalizing xs with
  | nil => rw [List.foldl_nil, bodies_nil, List.append_nil]
  | cons text texts ih =>
    rw [List.foldl_cons, append_assemble, ih, List.append_assoc, ← bodies_append,
      List.singleton_append]

/-! ## Documents as texts -/

/-- What a document without its last `\n` is. -/
theorem chomp_assemble (xs : List String) : Text.chomp (assemble xs) = "\n\n".intercalate xs := by
  by_cases h : xs = []
  · subst h
    decide
  · rw [assemble_of_ne_nil h, Text.chomp_append_newline]

theorem exists_intercalate_concat (sep : String) (xs : List String) (last : String) :
    ∃ front, sep.intercalate (xs ++ [last]) = front ++ last := by
  by_cases h : xs = []
  · exact ⟨"", by simp [h]⟩
  · exact ⟨sep.intercalate xs ++ sep, by
      rw [String.intercalate_append_of_ne_nil h (List.cons_ne_nil _ _), String.intercalate_singleton]⟩

/-- Bodies put together are a body. -/
theorem isBody_intercalate {xs : List String} (hne : xs ≠ []) (h : ∀ body ∈ xs, IsBody body) :
    IsBody ("\n\n".intercalate xs) := by
  obtain ⟨init, last, rfl⟩ := (List.eq_nil_or_concat xs).resolve_left hne
  rw [List.concat_eq_append] at h ⊢
  have hlast : IsBody last := h last (by simp)
  obtain ⟨front, hfront⟩ := exists_intercalate_concat "\n\n" init last
  rw [hfront]
  refine ⟨?_, stripTerminators_eq_self fun c hc => ?_⟩
  · rw [Text.isBlank_append, hlast.notBlank, Bool.and_false]
  · have hne : last.toList ≠ [] := by simpa using hlast.ne_empty
    rw [String.toList_append, List.getLast?_append_of_ne_nil _ hne] at hc
    exact hlast.not_isTerminator hc

/-- A document appended as a text adds its bodies. -/
theorem append_chomp {bs : List String} (h : ∀ body ∈ bs, IsBody body) (xs : List String) :
    append (assemble xs) (Text.chomp (assemble bs)) = assemble (xs ++ bs) := by
  rw [append_assemble, chomp_assemble]
  by_cases hne : bs = []
  · subst hne
    rfl
  · have hbody := isBody_intercalate hne h
    rw [hbody.bodies_singleton, assemble_append, assemble_append, if_neg hne,
      if_neg (List.cons_ne_nil _ _), assemble_of_ne_nil (List.cons_ne_nil _ _), assemble_of_ne_nil hne,
      String.intercalate_singleton]

/-- Documents appended as texts make the document of all their bodies. -/
theorem assemble_bodies_chomp {groups : List (List String)}
    (h : ∀ group ∈ groups, ∀ body ∈ group, IsBody body) :
    assemble (bodies (groups.map fun group => Text.chomp (assemble group))) =
      assemble groups.flatten := by
  suffices hfold : ∀ xs, (groups.map fun group => Text.chomp (assemble group)).foldl append (assemble xs) =
      assemble (xs ++ groups.flatten) from (foldl_append [] _).symm.trans (hfold [])
  intro xs
  induction groups generalizing xs with
  | nil => simp
  | cons group groups ih =>
    rw [List.map_cons, List.foldl_cons, append_chomp (h group (List.mem_cons_self ..)),
      ih (fun g hg => h g (List.mem_cons_of_mem _ hg)), List.flatten_cons, List.append_assoc]

/-- A document is longer than each of its bodies, by as many characters as it
has bodies at least. -/
theorem add_length_le_assemble {xs : List String} :
    ∀ body ∈ xs, body.length + xs.length ≤ (assemble xs).length := by
  induction xs with
  | nil => exact fun _ hm => absurd hm List.not_mem_nil
  | cons x xs ih =>
    have hsingle : (assemble [x]).length = x.length + 1 := by
      rw [assemble_of_ne_nil (List.cons_ne_nil _ _), String.intercalate_singleton, String.length_append]
      rfl
    by_cases hxs : xs = []
    · subst hxs
      intro body hm
      rw [List.mem_singleton.mp hm, hsingle]
      rfl
    · have hlength : (assemble (x :: xs)).length = x.length + 2 + (assemble xs).length := by
        rw [← List.singleton_append, assemble_append, if_neg (List.cons_ne_nil _ _), if_neg hxs,
          String.length_append, String.length_append, hsingle]
        rfl
      obtain ⟨y, hy⟩ := List.exists_mem_of_ne_nil xs hxs
      have hrest := ih y hy
      rw [hlength, List.length_cons]
      rintro body (_ | ⟨_, hm⟩)
      · omega
      · have hbody := ih body hm
        omega

/-- A document that is taken for one of some texts is their document exactly if
it is the only one of them that is not blank, or if all of them are blank. -/
theorem assemble_bodies_eq_iff {bs texts : List String} (h : ∀ body ∈ bs, IsBody body)
    (hmem : Text.chomp (assemble bs) ∈ texts) (hempty : bs = [] → bodies texts = []) :
    assemble (bodies texts) = assemble bs ↔ (bodies texts).length ≤ 1 := by
  by_cases hbs : bs = []
  · rw [hempty hbs, hbs]
    simp
  rw [chomp_assemble] at hmem
  have hbody : "\n\n".intercalate bs ∈ bodies texts := (isBody_intercalate hbs h).mem_bodies hmem
  rw [assemble_of_ne_nil hbs]
  constructor
  · intro heq
    have hle := add_length_le_assemble _ hbody
    rw [heq, String.length_append] at hle
    exact Nat.le_of_add_le_add_left hle
  · intro hle
    obtain ⟨body, hone⟩ : ∃ body, bodies texts = [body] :=
      List.length_eq_one_iff.mp (Nat.le_antisymm hle (List.length_pos_of_mem hbody))
    rw [hone] at hbody ⊢
    rw [assemble_of_ne_nil (List.cons_ne_nil _ _), String.intercalate_singleton,
      List.mem_singleton.mp hbody]

/-! ## Texts put together from lines -/

/-- The lines without the empty ones at the end. -/
def trimLines (ls : List String) : List String :=
  ls.rdropWhile (· = "")

/-- The lines that sources contribute: those of every source that has a line
which is not blank, without the empty ones at its end. -/
def parts (kept : List (List String)) : List (List String) :=
  (kept.filter fun ls => ls.any fun line => !Text.isBlank line).map trimLines

/-- There are no parts if all lines are blank. -/
theorem parts_eq_nil_iff {kept : List (List String)} :
    parts kept = [] ↔ ∀ ls ∈ kept, ∀ line ∈ ls, Text.isBlank line := by
  simp [parts]

/-- Only empty lines are left out. -/
theorem exists_trimLines_append (ls : List String) :
    ∃ tail, trimLines ls ++ tail = ls ∧ ∀ line ∈ tail, line = "" :=
  ⟨ls.rtakeWhile (· = ""), List.rdropWhile_append_rtakeWhile, fun _ hm =>
    by simpa using List.mem_rtakeWhile_imp hm⟩

theorem mem_of_mem_trimLines {ls : List String} {line : String} (h : line ∈ trimLines ls) : line ∈ ls :=
  (List.rdropWhile_prefix _ ls).subset h

theorem all_isBlank_trimLines (ls : List String) :
    (trimLines ls).all Text.isBlank = ls.all Text.isBlank := by
  obtain ⟨tail, htail, hempty⟩ := exists_trimLines_append ls
  have hblank : tail.all Text.isBlank = true :=
    List.all_eq_true.mpr fun line hm => by rw [hempty line hm]; decide
  conv_rhs => rw [← htail]
  rw [List.all_append, hblank, Bool.and_true]

theorem filter_trimLines (ls : List String) :
    (trimLines ls).filter (· ≠ "") = ls.filter (· ≠ "") := by
  obtain ⟨tail, htail, hempty⟩ := exists_trimLines_append ls
  have hnone : tail.filter (· ≠ "") = [] :=
    List.filter_eq_nil_iff.mpr fun line hm => by simpa using hempty line hm
  conv_rhs => rw [← htail]
  rw [List.filter_append, hnone, List.append_nil]

/-- What ends in a line that is not empty has the last character of that
line. -/
theorem getLast?_unlines_concat (init : List String) {last : String} (h : last ≠ "") :
    (unlines (init ++ [last])).toList.getLast? = last.toList.getLast? := by
  obtain ⟨front, hfront⟩ := exists_intercalate_concat "\n" init last
  rw [unlines, hfront, String.toList_append, List.getLast?_append_of_ne_nil _ (by simpa using h)]

theorem not_isTerminator_of_singleLine {line : String} (h : SingleLine line) {c : Char}
    (hc : c ∈ line.toList) : isTerminator c = false := by
  have hr : c ≠ '\r' := fun e => h.1 (e ▸ hc)
  have hn : c ≠ '\n' := fun e => h.2 (e ▸ hc)
  simp [isTerminator, hr, hn]

/-- The terminators at the end of a text stand behind the empty lines at its
end. -/
theorem stripTerminators_unlines {ls : List String} (h : ∀ line ∈ ls, SingleLine line) :
    stripTerminators (unlines ls) = unlines (trimLines ls) := by
  induction ls using List.reverseRecOn with
  | nil => rfl
  | append_singleton init last ih =>
    by_cases hlast : last = ""
    · have hstrip : stripTerminators (unlines (init ++ [last])) = stripTerminators (unlines init) := by
        by_cases hinit : init = []
        · rw [hinit, hlast]
          rfl
        · have hcut : unlines (init ++ [last]) = unlines init ++ "\n" := by
            rw [unlines, String.intercalate_append_of_ne_nil hinit (List.cons_ne_nil _ _),
              String.intercalate_singleton, hlast, String.append_empty]
            rfl
          rw [hcut, stripTerminators, stripTerminators, String.toList_append]
          exact congrArg String.ofList (List.rdropWhile_concat_pos _ _ _ (by decide))
      rw [hstrip, ih fun line hm => h line (List.mem_append_left _ hm), trimLines, trimLines,
        List.rdropWhile_concat_pos _ _ _ (by simpa using hlast)]
    · rw [trimLines, List.rdropWhile_concat_neg _ _ _ (by simpa using hlast)]
      refine stripTerminators_eq_self fun c hc => ?_
      rw [getLast?_unlines_concat init hlast] at hc
      exact not_isTerminator_of_singleLine (h last (by simp)) (List.mem_of_getLast? hc)

/-- The bodies of texts that were put together from lines. -/
theorem bodies_map_unlines {kept : List (List String)}
    (h : ∀ ls ∈ kept, ∀ line ∈ ls, SingleLine line) :
    bodies (kept.map unlines) = (parts kept).map unlines := by
  induction kept with
  | nil => rfl
  | cons ls kept ih =>
    have hls : stripTerminators (unlines ls) = unlines (trimLines ls) :=
      stripTerminators_unlines (h ls (List.mem_cons_self ..))
    have hblank : Text.isBlank (unlines (trimLines ls)) = !ls.any fun line => !Text.isBlank line := by
      rw [Text.isBlank_unlines, all_isBlank_trimLines, List.not_any_eq_all_not]
      simp
    rw [List.map_cons, ← List.singleton_append, bodies_append, bodies_singleton, hls, hblank,
      ih fun ls hm => h ls (List.mem_cons_of_mem _ hm)]
    cases hany : ls.any fun line => !Text.isBlank line <;> simp [parts, hany]

/-! ## Lines of a document -/

/-- A part has lines. -/
theorem ne_nil_of_mem_parts {kept : List (List String)} {part : List String}
    (h : part ∈ parts kept) : part ≠ [] := by
  obtain ⟨ls, hm, rfl⟩ := List.mem_map.mp h
  intro hnil
  have hall := all_isBlank_trimLines ls
  rw [hnil, List.all_nil] at hall
  obtain ⟨line, hline, hb⟩ := List.any_eq_true.mp (List.mem_filter.mp hm).2
  rw [List.all_eq_true.mp hall.symm line hline] at hb
  cases hb

/-- The parts hold all lines of the sources that take part, but for empty
ones. -/
theorem filter_flatten_parts (kept : List (List String)) :
    (parts kept).flatten.filter (· ≠ "") =
      (kept.filter fun ls => ls.any fun line => !Text.isBlank line).flatten.filter (· ≠ "") := by
  rw [List.filter_flatten, List.filter_flatten, parts, List.map_map]
  exact congrArg List.flatten (List.map_congr_left fun ls _ => filter_trimLines ls)

theorem singleLine_of_mem_parts {kept : List (List String)}
    (h : ∀ ls ∈ kept, ∀ line ∈ ls, SingleLine line) :
    ∀ part ∈ parts kept, ∀ line ∈ part, SingleLine line := by
  intro part hm line hline
  obtain ⟨ls, hls, rfl⟩ := List.mem_map.mp hm
  exact h ls (List.mem_of_mem_filter hls) line (mem_of_mem_trimLines hline)

/-- The empty lines between parts apart, all lines are lines of the parts. -/
theorem filter_intercalate (ps : List (List String)) :
    ([""].intercalate ps).filter (· ≠ "") = ps.flatten.filter (· ≠ "") := by
  induction ps with
  | nil => rfl
  | cons part ps ih =>
    cases ps with
    | nil => simp
    | cons part' ps =>
      rw [List.intercalate_cons_cons, List.filter_append, List.filter_append, ih]
      simp

theorem intercalate_ne_nil {ps : List (List String)} (hps : ps ≠ []) (h : ∀ part ∈ ps, part ≠ []) :
    [""].intercalate ps ≠ [] := by
  obtain ⟨part, ps, rfl⟩ := List.exists_cons_of_ne_nil hps
  have hpart : part ≠ [] := h part (List.mem_cons_self ..)
  cases ps <;> simp [hpart]

/-- Parts that have lines, put together one by one, are their lines put
together, with an empty line between each two parts. -/
theorem intercalate_map_unlines {ps : List (List String)} (h : ∀ part ∈ ps, part ≠ []) :
    "\n\n".intercalate (ps.map unlines) = unlines ([""].intercalate ps) := by
  induction ps with
  | nil => rfl
  | cons part ps ih =>
    cases ps with
    | nil => simp
    | cons part' ps =>
      have hpart : part ≠ [] := h part (List.mem_cons_self ..)
      have hrest : [""].intercalate (part' :: ps) ≠ [] :=
        intercalate_ne_nil (List.cons_ne_nil _ _) fun p hp => h p (List.mem_cons_of_mem _ hp)
      have hsep : "\n\n" = "\n" ++ "" ++ "\n" := by decide
      rw [List.map_cons, List.map_cons, String.intercalate_cons_cons, ← List.map_cons,
        ih fun p hp => h p (List.mem_cons_of_mem _ hp), List.intercalate_cons_cons, unlines, unlines,
        unlines, List.append_assoc, String.intercalate_append_of_ne_nil hpart (by simp),
        String.intercalate_append_of_ne_nil (List.cons_ne_nil _ _) hrest,
        String.intercalate_singleton]
      nth_rewrite 1 [hsep]
      simp only [String.append_assoc]

/-- The document of parts is their lines put together, with an empty line
between each two parts and one at the end. -/
theorem assemble_map_unlines {ps : List (List String)} (hps : ps ≠ []) (h : ∀ part ∈ ps, part ≠ []) :
    assemble (ps.map unlines) = unlines ([""].intercalate ps ++ [""]) := by
  rw [assemble_of_ne_nil (by simpa using hps), intercalate_map_unlines h, unlines, unlines,
    String.intercalate_append_of_ne_nil (intercalate_ne_nil hps h) (List.cons_ne_nil _ _),
    String.intercalate_singleton, String.append_empty]

theorem singleLine_of_mem_intercalate {ps : List (List String)}
    (h : ∀ part ∈ ps, ∀ line ∈ part, SingleLine line) :
    ∀ line ∈ [""].intercalate ps ++ [""], SingleLine line := by
  intro line hm
  by_cases hline : line = ""
  · exact hline ▸ ⟨List.not_mem_nil, List.not_mem_nil⟩
  · have hmem : line ∈ ([""].intercalate ps).filter (· ≠ "") := by simpa [hline] using hm
    rw [filter_intercalate] at hmem
    obtain ⟨part, hpart, hm⟩ := List.mem_flatten.mp (List.mem_of_mem_filter hmem)
    exact h part hpart line hm

/-- The lines of a document are those of its parts, with an empty line between
each two of them. -/
theorem lines_assemble {ps : List (List String)} (hne : ∀ part ∈ ps, part ≠ [])
    (hsingle : ∀ part ∈ ps, ∀ line ∈ part, SingleLine line) :
    Text.lines (assemble (ps.map unlines)) = [""].intercalate ps := by
  by_cases hps : ps = []
  · subst hps
    rfl
  · rw [assemble_map_unlines hps hne, Text.lines_unlines (singleLine_of_mem_intercalate hsingle),
      Text.dropFinalEmpty_concat, if_pos rfl]

/-- A document holds no `\r` if its parts hold none. -/
theorem return_not_mem_assemble {ps : List (List String)} (hne : ∀ part ∈ ps, part ≠ [])
    (hsingle : ∀ part ∈ ps, ∀ line ∈ part, SingleLine line) :
    '\r' ∉ (assemble (ps.map unlines)).toList := by
  by_cases hps : ps = []
  · subst hps
    exact List.not_mem_nil
  · rw [assemble_map_unlines hps hne]
    exact Text.return_not_mem_unlines fun line hm => (singleLine_of_mem_intercalate hsingle line hm).1

/-- A document that is not empty ends in one `\n`. -/
theorem exists_assemble_eq {bs : List String} (hne : bs ≠ []) (h : ∀ body ∈ bs, IsBody body) :
    ∃ text, assemble bs = text ++ "\n" ∧ text.toList.getLast? ≠ some '\n' := by
  refine ⟨_, assemble_of_ne_nil hne, fun hlast => ?_⟩
  exact absurd ((isBody_intercalate hne h).not_isTerminator hlast) (by decide)

end Document

end Amalgam
