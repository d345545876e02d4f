import Amalgam.Text.Blank
import Amalgam.Text.Pieces
import Std.Data.ExtTreeSet

/-!
# Symbol tables

The set of the symbols that are defined. Tables with the same symbols are
equal, and `toList` gives the symbols in code point order. A symbol is any
text: only the readers of symbol lists trim.

* `Symbols.names`: the names in a comma-separated list;
* `Symbols.parseList`: the table of such a list;
* `Symbols.define`, `Symbols.undefine`: change a table and say whether that
  made a difference.
-/

namespace Amalgam

/-- A set of defined symbols. -/
abbrev Symbols := Std.ExtTreeSet String

namespace Symbols

/-- The texts between the commas of a list, as they stand. -/
def pieces (list : String) : List String :=
  Text.pieces ',' list

/-- The pieces that name a symbol, trimmed: a blank piece names none. -/
def namesOf (pieces : List String) : List String :=
  (pieces.map Text.trim).filter (· ≠ "")

/-- The names in a comma-separated list. -/
def names (list : String) : List String :=
  namesOf (pieces list)

/-- The table that holds exactly the given symbols. -/
def ofNames (names : List String) : Symbols :=
  Std.ExtTreeSet.ofList names

/-- The table of a comma-separated list such as `DEBUG, TRACE`. -/
def parseList (list : String) : Symbols :=
  ofNames (names list)

/-- Adds every one of the given symbols. -/
def addAll (symbols : Symbols) (names : List String) : Symbols :=
  symbols.insertMany names

/-- Adds a symbol, and says whether it is new. -/
def define (symbols : Symbols) (name : String) : Bool × Symbols :=
  (!symbols.contains name, symbols.insert name)

/-- Removes a symbol, and says whether it was there. -/
def undefine (symbols : Symbols) (name : String) : Bool × Symbols :=
  (symbols.contains name, symbols.erase name)

end Symbols

end Amalgam
