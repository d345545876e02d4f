import Amalgam.Symbols

/-!
# Directives

What a single line is to the selection of lines: ordinary text, or a directive
that starts with `#`. A line is read on its own, without the lines around it
and without regard to the language that the lines are written in.

* `Condition.parse`: the text after `#if ` or `#elif `;
* `Keyword.read`: the keyword that a directive starts with, and the text after
  it;
* `Directive.ofLine`: what a line is;
* `Directive.isMalformed`: the directives that no state of a run accepts.
-/

namespace Amalgam

/-! ## Conditions -/

/-- The condition of a branch: a symbol, to be defined or, if `negated`, not to
be. -/
structure Condition where
  negated : Bool
  /-- The symbol that is looked up; empty if the directive names none. -/
  symbol : String
  deriving DecidableEq, Repr

namespace Condition

/-- Reads a condition: behind the first `!` stands the symbol of a negated
condition, and without a `!` the whole text is the symbol. Blank characters
around the symbol do not belong to it. -/
def ofChars (cs : List Char) : Condition :=
  match cs.dropWhile (· ≠ '!') with
  | [] => ⟨false, String.ofList (Text.trimChars cs)⟩
  | _ :: rest => ⟨true, String.ofList (Text.trimChars rest)⟩

/-- `Condition.ofChars` on a text. -/
def parse (text : String) : Condition :=
  ofChars text.toList

/-- A condition without a symbol asks nothing. -/
def isValid (c : Condition) : Bool :=
  c.symbol ≠ ""

/-- Whether the condition holds for a set of defined symbols. -/
def holds (c : Condition) (symbols : Symbols) : Bool :=
  symbols.contains c.symbol != c.negated

end Condition

/-! ## Keywords -/

/-- What a directive starts with. -/
inductive Keyword
  | opening
  | elseIf
  | otherwise
  | endIf
  | error
  | define
  | undefine
  | passthrough
  deriving DecidableEq, Repr

namespace Keyword

/-- The spellings. A keyword that needs an argument is spelled with the space
before it. No spelling starts with another, so at most one of them starts a
given text. -/
def spellings : List (String × Keyword) :=
  [("#if ", opening), ("#elif ", elseIf), ("#else", otherwise), ("#endif", endIf),
    ("#error", error), ("#define ", define), ("#undef ", undefine), ("#warning", passthrough),
    ("#line", passthrough), ("#region", passthrough), ("#endregion", passthrough),
    ("#pragma ", passthrough)]

/-- The keyword that the text starts with and the text after it. -/
def read (cs : List Char) : Option (Keyword × List Char) :=
  spellings.findSome? fun (spelling, keyword) =>
    (spelling.toList.isPrefixOf? cs).map fun rest => (keyword, rest)

end Keyword

/-! ## Directives -/

/-- What a line is. -/
inductive Directive
  /-- An ordinary line. -/
  | plain (line : String)
  /-- `#if`: opens a block. -/
  | opening (condition : Condition)
  /-- `#elif`: starts a further branch of the innermost block. -/
  | elseIf (condition : Condition)
  /-- `#else`: starts the branch for all other cases. -/
  | otherwise
  /-- `#endif`: closes the innermost block. -/
  | endIf
  /-- `#error`: stops the run with a message. -/
  | error (message : String)
  /-- `#define`: adds a symbol. -/
  | define (symbol : String)
  /-- `#undef`: removes a symbol. -/
  | undefine (symbol : String)
  /-- A directive for a later tool, to be treated as an ordinary line. -/
  | passthrough (line : String)
  /-- A line that starts with `#` and is none of the above, trimmed. -/
  | invalid (text : String)
  deriving DecidableEq, Repr

namespace Directive

/-- The directive that a keyword and the text after it make; `line` is the
whole line and `trimmed` the line without blank characters at its ends. -/
def ofKeyword (line : String) (trimmed : List Char) : Keyword → List Char → Directive
  | .opening, rest => opening (Condition.ofChars rest)
  | .elseIf, rest => elseIf (Condition.ofChars rest)
  | .otherwise, [] => otherwise
  | .otherwise, _ :: _ => invalid (String.ofList trimmed)
  | .endIf, _ => endIf
  | .error, rest => error (String.ofList rest.tail)
  | .define, rest => define (String.ofList (Text.trimChars rest))
  | .undefine, rest => undefine (String.ofList (Text.trimChars rest))
  | .passthrough, _ => passthrough line

/-- What a line is. Blank characters at its ends do not matter to that, but
ordinary lines and directives for later tools keep them. -/
def ofLine (line : String) : Directive :=
  let trimmed := Text.trimChars line.toList
  if trimmed.head? ≠ some '#' then plain line
  else match Keyword.read trimmed with
    | none => invalid (String.ofList trimmed)
    | some (keyword, rest) => ofKeyword line trimmed keyword rest

/-- Whether the directive stops every run: it is no directive at all, or its
condition names no symbol. -/
def isMalformed : Directive → Bool
  | invalid _ => true
  | opening condition | elseIf condition => !condition.isValid
  | _ => false

end Directive

end Amalgam
