/-!
# Failures of a run

Why a run over the lines of a source can stop. Every failure is final: the
lines kept before it stand, and nothing is kept after it.
-/

namespace Amalgam.Selection

/-- Why a run stops. A `directive` is the offending line, trimmed. -/
inductive Failure
  /-- The line is no directive, or its condition names no symbol. -/
  | invalidDirective (directive : String)
  /-- An `#error` that counts. -/
  | userError (message : String)
  /-- A `#define` or `#undef` after content or inside a block. -/
  | definitionNotAtStart (directive : String)
  /-- A strict run ends with `depth` blocks open. -/
  | unterminatedConditional (depth : Nat)
  /-- A strict run meets `#elif`, `#else` or `#endif` with no block open. -/
  | unexpectedDirective (directive : String)
  deriving DecidableEq, Repr

/-- The text that reports a failure. -/
def Failure.message : Failure → String
  | invalidDirective directive => s!"Invalid preprocessor directive: {directive}"
  | userError message => message
  | definitionNotAtStart directive =>
    s!"Cannot define/undefine preprocessor symbols after first token in file: {directive}"
  | unterminatedConditional depth =>
    s!"Unexpected end of input: {depth} conditional block(s) left open."
  | unexpectedDirective directive =>
    s!"Unexpected preprocessor directive without matching #if: {directive}"

end Amalgam.Selection
