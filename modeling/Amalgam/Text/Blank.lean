/-!
# Blank characters and trimming

Which characters are blank, what trimming removes, and which texts are blank.
The blank characters are those with the Unicode property `White_Space`; the
information separators U+001C to U+001F, the zero width space U+200B and the
byte order mark U+FEFF do not have it.

The rules are stated on lists of characters. `trim` and `isBlank` are the same
rules on strings.
-/

namespace Amalgam.Text

/-! ## The property -/

/-- The ranges of code points, both ends included, that have `White_Space`. -/
def blankRanges : List (Nat × Nat) :=
  [(0x0009, 0x000D), (0x0020, 0x0020), (0x0085, 0x0085), (0x00A0, 0x00A0), (0x1680, 0x1680),
    (0x2000, 0x200A), (0x2028, 0x2029), (0x202F, 0x202F), (0x205F, 0x205F), (0x3000, 0x3000)]

/-- Whether a character has `White_Space`. -/
def isBlankChar (c : Char) : Bool :=
  blankRanges.any fun range => range.1 ≤ c.toNat && c.toNat ≤ range.2

/-! ## Trimming -/

/-- The characters without the longest ending on which `p` holds throughout. -/
def dropEndWhile (p : Char → Bool) (cs : List Char) : List Char :=
  (cs.reverse.dropWhile p).reverse

/-- The characters without the blank ones at both ends. -/
def trimChars (cs : List Char) : List Char :=
  dropEndWhile isBlankChar (cs.dropWhile isBlankChar)

/-- The text without the blank characters at both ends. -/
def trim (text : String) : String :=
  String.ofList (trimChars text.toList)

/-- Whether a text holds blank characters only. The empty text is blank. -/
def isBlank (text : String) : Bool :=
  text.toList.all isBlankChar

end Amalgam.Text
