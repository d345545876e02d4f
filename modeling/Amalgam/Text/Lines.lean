/-!
# Lines of a text

A line ends at `\n`, at `\r\n` or at a `\r` that no `\n` follows, and its
terminator is not part of it. A terminator at the very end starts no further
line, so `"a\n"` has the one line `"a"` and the empty text has none.

* `lines`: the lines of a text, in order;
* `unlines`: lines put together with `\n` between each two.
-/

namespace Amalgam.Text

/-- Reads on in a text: `done` are the lines ended so far, the last one first,
and `line` is what has been read of the current line, its last character
first. -/
def scanLines (done : List String) (line : List Char) : List Char → List String
  | [] => (if line.isEmpty then done else String.ofList line.reverse :: done).reverse
  | '\r' :: '\n' :: rest => scanLines (String.ofList line.reverse :: done) [] rest
  | '\r' :: rest => scanLines (String.ofList line.reverse :: done) [] rest
  | '\n' :: rest => scanLines (String.ofList line.reverse :: done) [] rest
  | c :: rest => scanLines done (c :: line) rest

/-- The lines of a text, without their terminators. -/
def lines (text : String) : List String :=
  scanLines [] [] text.toList

/-- The lines with `\n` between each two of them. -/
def unlines (ls : List String) : String :=
  "\n".intercalate ls

end Amalgam.Text
