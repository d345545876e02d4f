/-!
# The pieces of a text

A separator cuts a text into pieces: slashes cut paths into names, commas cut
lists into items.
-/

namespace Amalgam.Text

/-- The texts between the separators, as they stand. -/
def pieces (sep : Char) (text : String) : List String :=
  (text.toList.splitOn sep).map String.ofList

end Amalgam.Text
