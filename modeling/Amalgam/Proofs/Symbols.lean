import Amalgam.Proofs.Text.Pieces
import Amalgam.Proofs.Text.Trim
import Amalgam.Symbols

/-!
# Lists of symbols

A list names symbols between its commas. Which symbols it names is told by its
items, so the table of a list does not know about their order, their number or
the blank characters around them:

* `mem_parseList_iff`: a symbol is in the table of a list if an item of the
  list names it;
* `isItem_intercalate_iff`: a list that is put together from lists has their
  items;
* `parseList_append`, `addAll_parseList`: the tables of such lists;
* `Names.isSymbol`, `parseList_intercalate`: the symbols that lists can name,
  and that a list of these names them and no others.
-/

namespace Amalgam.Symbols

variable {list item name : String} {given lists : List String}

/-! ## Items and the symbols that they name -/

/-- The list consists of texts with commas between them, and the item is one of
them. -/
structure IsItem (list item : String) : Prop where
  noComma : ',' ∉ item.toList
  listed : ∃ before after, list = ",".intercalate (before ++ item :: after)

/-- The item is one of some list. -/
def IsItemOf (lists : List String) (item : String) : Prop :=
  ∃ list ∈ lists, IsItem list item

/-- An item of the list, trimmed, is the name, and that is not empty. -/
def Names (list name : String) : Prop :=
  name ≠ "" ∧ ∃ item, IsItem list item ∧ Text.trim item = name

/-- A text that a list can name: it is not empty and holds no comma, and no
blank character stands at either end of it. -/
structure IsSymbol (name : String) : Prop where
  notEmpty : name ≠ ""
  trimmed : Text.Trimmed name.toList
  noComma : ',' ∉ name.toList

theorem isItemOf_nil_iff : IsItemOf [] item ↔ False := by
  simp [IsItemOf]

theorem isItemOf_cons_iff : IsItemOf (list :: lists) item ↔ IsItem list item ∨ IsItemOf lists item := by
  simp [IsItemOf]

theorem mem_pieces_iff : item ∈ pieces list ↔ IsItem list item :=
  Text.mem_pieces_iff.trans ⟨fun h => ⟨h.1, h.2⟩, fun h => ⟨h.noComma, h.listed⟩⟩

theorem mem_flatMap_pieces_iff : item ∈ lists.flatMap pieces ↔ IsItemOf lists item := by
  simp only [List.mem_flatMap, mem_pieces_iff, IsItemOf]

theorem mem_namesOf_iff {items : List String} :
    name ∈ namesOf items ↔ name ≠ "" ∧ ∃ item ∈ items, Text.trim item = name := by
  simp [namesOf, and_comm]

/-- A list that is put together from lists has the items of these. -/
theorem isItem_intercalate_iff (h : lists ≠ []) :
    IsItem (",".intercalate lists) item ↔ IsItemOf lists item := by
  have hpieces : pieces (",".intercalate lists) = lists.flatMap pieces := Text.pieces_intercalate ',' h
  rw [← mem_pieces_iff, hpieces, mem_flatMap_pieces_iff]

/-! ## Tables -/

@[simp] theorem mem_ofNames : name ∈ ofNames given ↔ name ∈ given := by
  rw [ofNames, Std.ExtTreeSet.mem_ofList, List.contains_iff_mem]

@[simp] theorem mem_addAll {symbols : Symbols} :
    name ∈ symbols.addAll given ↔ name ∈ symbols ∨ name ∈ given := by
  rw [addAll, Std.ExtTreeSet.mem_insertMany_list, List.contains_iff_mem]

/-- A symbol is in the table of a list if the list names it. -/
theorem mem_parseList_iff : name ∈ parseList list ↔ Names list name := by
  simp only [parseList, mem_ofNames, names, mem_namesOf_iff, mem_pieces_iff, Names]

/-- The table of a list that is put together from lists. -/
theorem mem_parseList_intercalate_iff (h : lists ≠ []) : name ∈ parseList (",".intercalate lists) ↔
    name ≠ "" ∧ ∃ item, IsItemOf lists item ∧ Text.trim item = name := by
  simp only [mem_parseList_iff, Names, isItem_intercalate_iff h]

/-- The items of further lists, trimmed and added to the table of a list, make
the table of all the lists put together. -/
theorem addAll_parseList (list : String) (lists : List String) :
    (parseList list).addAll (namesOf (lists.flatMap pieces)) =
      parseList (",".intercalate (list :: lists)) := by
  refine Std.ExtTreeSet.ext_mem fun name => ?_
  rw [mem_addAll, mem_parseList_iff, mem_namesOf_iff, mem_parseList_intercalate_iff (List.cons_ne_nil _ _)]
  simp only [Names, mem_flatMap_pieces_iff, isItemOf_cons_iff, or_and_right, exists_or, and_or_left]

/-- A comma between two lists makes the union of their tables. -/
theorem parseList_append (front back : String) :
    parseList (front ++ "," ++ back) = parseList front ∪ parseList back := by
  refine Std.ExtTreeSet.ext_mem fun name => ?_
  have hboth : front ++ "," ++ back = ",".intercalate [front, back] := by
    rw [String.intercalate_cons_cons, String.intercalate_singleton]
  rw [hboth, mem_parseList_intercalate_iff (List.cons_ne_nil _ _), Std.ExtTreeSet.mem_union_iff,
    mem_parseList_iff, mem_parseList_iff]
  simp only [Names, isItemOf_cons_iff, isItemOf_nil_iff, or_false, or_and_right, exists_or, and_or_left]

/-! ## The symbols that lists can name -/

theorem Names.isSymbol (h : Names list name) : IsSymbol name := by
  obtain ⟨hne, item, hitem, rfl⟩ := h
  refine ⟨hne, ?_, ?_⟩
  · rw [Text.trim, String.toList_ofList]
    exact Text.trimmed_trimChars item.toList
  · -- trimming only takes characters away
    obtain ⟨w, w', -, -, hchars⟩ := Text.exists_eq_trimChars item.toList
    intro hcomma
    rw [Text.trim, String.toList_ofList] at hcomma
    refine hitem.noComma ?_
    rw [hchars]
    exact List.mem_append_left _ (List.mem_append_right _ hcomma)

theorem IsSymbol.trim_eq (h : IsSymbol name) : Text.trim name = name := by
  have hchars : Text.trimChars name.toList = name.toList :=
    Text.trimChars_eq_iff.mpr ⟨h.trimmed, [], [], Text.blank_nil, Text.blank_nil, by simp⟩
  rw [Text.trim, hchars, String.ofList_toList]

/-- A symbol is a list with itself as its only item. -/
theorem IsSymbol.isItem_iff (h : IsSymbol name) : IsItem name item ↔ item = name := by
  have hpieces : pieces name = [name] := Text.pieces_eq_singleton h.noComma
  rw [← mem_pieces_iff, hpieces, List.mem_singleton]

/-- The table of a list that is put together from symbols holds these symbols
and no others. -/
theorem parseList_intercalate (h : ∀ name ∈ given, IsSymbol name) :
    parseList (",".intercalate given) = ofNames given := by
  refine Std.ExtTreeSet.ext_mem fun name => ?_
  by_cases hnil : given = []
  · subst hnil
    have hnone : names (",".intercalate []) = [] := by decide
    rw [parseList, hnone]
  rw [mem_parseList_intercalate_iff hnil, mem_ofNames]
  constructor
  · rintro ⟨-, item, ⟨symbol, hsymbol, hitem⟩, rfl⟩
    rw [(h symbol hsymbol).isItem_iff] at hitem
    rwa [hitem, (h symbol hsymbol).trim_eq]
  · intro hname
    have hsymbol := h name hname
    exact ⟨hsymbol.notEmpty, name, ⟨name, hname, hsymbol.isItem_iff.mpr rfl⟩, hsymbol.trim_eq⟩

end Amalgam.Symbols
