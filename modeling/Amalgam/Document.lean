import Amalgam.Path
import Amalgam.Text.Blank

/-!
# Documents

How the texts of sources become one document. An `Assembler` receives every
text with the path it came from, in order, and then makes the document;
`Assembler.concatenation` is the one in use.
-/

namespace Amalgam

/-- A way to put sources together, with what it has received held in a `σ`. -/
structure Assembler (σ : Type) where
  start : σ
  /-- Receives the text of one source. -/
  add : σ → Path → String → σ
  /-- Makes the document. -/
  finish : σ → String

namespace Document

/-- Whether a character ends lines. -/
def isTerminator (c : Char) : Bool :=
  c == '\r' || c == '\n'

/-- The text without the line terminators at its end. -/
def stripTerminators (text : String) : String :=
  String.ofList (Text.dropEndWhile isTerminator text.toList)

/-- The document with one more source: a text that is blank is left out, any
other ends in one `\n`, and an empty line parts it from what stands before
it. -/
def append (document text : String) : String :=
  let body := stripTerminators text
  if Text.isBlank body then document
  else if document = "" then body ++ "\n"
  else document ++ "\n" ++ body ++ "\n"

end Document

/-- Sources one after the other. Paths do not show in the document. -/
def Assembler.concatenation : Assembler String where
  start := ""
  add document _ text := Document.append document text
  finish document := document

end Amalgam
