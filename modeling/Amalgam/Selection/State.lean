import Amalgam.Directive
import Amalgam.Event
import Amalgam.Selection.Failure

/-!
# One line at a time

The state of a run over the lines of one source, and what a single line does to
it. A run keeps the lines outside all blocks and, of a block, the lines of the
first branch whose condition holds. `#define` and `#undef` are accepted only
before the first content: a non-blank kept line, or a block.

* `State.step`: evaluates one line;
* `State.close`: checks the state after the last line.

A lenient run ignores a directive that belongs to a block when none is open,
and accepts blocks that are never closed; a strict run fails on both.
-/

namespace Amalgam.Selection

/-- The state of a run. -/
structure State where
  /-- The symbols as changed by the lines so far. -/
  symbols : Symbols
  mode : Mode := .outside
  /-- The modes to return to, one for each open block, the innermost first. -/
  frames : List Mode := []
  /-- The non-blank lines kept so far and the blocks entered so far. -/
  content : Nat := 0
  /-- The lines taken so far. -/
  lineNumber : Nat := 0

/-- What a line did: the state after it, what became of it, and what is worth
noting. -/
structure Step where
  state : State
  verdict : Verdict
  events : List Event := []

namespace State

/-- How many blocks are open. -/
def depth (s : State) : Nat :=
  s.frames.length

/-! ## Parts of a step -/

/-- Counts the line that is about to be evaluated. -/
def countLine (s : State) : State :=
  { s with lineNumber := s.lineNumber + 1 }

/-- Opens a block whose current branch is in `mode`. -/
def enter (s : State) (mode : Mode) : State :=
  { s with mode, frames := s.mode :: s.frames, content := s.content + 1 }

/-- Closes the innermost block. -/
def leave (s : State) : State :=
  match s.frames with
  | [] => s
  | mode :: frames => { s with mode, frames }

/-- The mode of a first branch: its lines are kept if its condition holds. -/
def branchMode (s : State) (condition : Condition) : Mode :=
  if condition.holds s.symbols then .keeping else .skipping false

/-- Whether the innermost block was opened inside a dropped branch. -/
def inDropped (s : State) : Bool :=
  match s.frames with
  | .skipping _ :: _ => true
  | _ => false

/-- Drops the line and goes on from this state. -/
def dropping (s : State) (events : List Event := []) : Except Failure Step :=
  .ok { state := s, verdict := .drop, events }

/-- Keeps the line. -/
def keep (s : State) (line : String) : Except Failure Step :=
  .ok { state := if Text.isBlank line then s else { s with content := s.content + 1 }
        verdict := .emit }

/-- Meets `#elif`, `#else` or `#endif` with no block open. -/
def stray (strict : Bool) (s : State) (line : String) : Except Failure Step :=
  if strict then .error (.unexpectedDirective (Text.trim line))
  else s.dropping [.strayDirective s.lineNumber (Text.trim line)]

/-- Meets `#define` or `#undef` after the first content. -/
def lateDefinition (line : String) : Except Failure Step :=
  .error (.definitionNotAtStart (Text.trim line))

/-! ## The three modes -/

/-- Evaluates a directive with no block open. -/
def stepOutside (strict : Bool) (s : State) (line : String) : Directive → Except Failure Step
  | .opening condition => (s.enter (s.branchMode condition)).dropping
  | .error message => .error (.userError message)
  | .define symbol =>
    if s.content > 0 then lateDefinition line
    else { s with symbols := (s.symbols.define symbol).2 }.dropping [.defined symbol]
  | .undefine symbol =>
    if s.content > 0 then lateDefinition line
    else { s with symbols := (s.symbols.undefine symbol).2 }.dropping [.undefined symbol]
  | .elseIf _ | .otherwise | .endIf => s.stray strict line
  | .plain _ | .passthrough _ | .invalid _ => s.keep line

/-- Evaluates a directive inside a kept branch. An `#elif` after it resolves
the chain; an `#else` does not, so that `#error` still counts in the `#else`
branch. -/
def stepKeeping (s : State) (line : String) : Directive → Except Failure Step
  | .opening condition => (s.enter (s.branchMode condition)).dropping
  | .endIf => s.leave.dropping
  | .elseIf _ => { s with mode := .skipping true }.dropping
  | .otherwise => { s with mode := .skipping false }.dropping
  | .error message => .error (.userError message)
  | .define _ | .undefine _ => lateDefinition line
  | .plain _ | .passthrough _ | .invalid _ => s.keep line

/-- Evaluates a directive inside a dropped branch. A block opened here stays
dropped throughout: its `#elif` and `#else` take no branch. -/
def stepSkipping (s : State) (resolved : Bool) (line : String) : Directive → Except Failure Step
  | .opening _ => (s.enter (.skipping resolved)).dropping
  | .endIf => s.leave.dropping
  | .define _ | .undefine _ => lateDefinition line
  | .elseIf condition =>
    if resolved || s.inDropped || !condition.holds s.symbols then s.dropping
    else { s with mode := .keeping }.dropping
  | .otherwise =>
    if resolved || s.inDropped then s.dropping else { s with mode := .keeping }.dropping
  | .error message => if resolved then s.dropping else .error (.userError message)
  | .plain _ | .passthrough _ | .invalid _ => s.dropping

/-! ## A whole line -/

/-- Evaluates a directive that is not malformed, by the current mode. -/
def stepDirective (strict : Bool) (s : State) (line : String) (d : Directive) :
    Except Failure Step :=
  match s.mode with
  | .outside => s.stepOutside strict line d
  | .keeping => s.stepKeeping line d
  | .skipping resolved => s.stepSkipping resolved line d

/-- The event that reports a step from `before`. -/
def evaluatedEvent (before : State) (t : Step) : Event :=
  .evaluated t.state.lineNumber before.mode t.state.mode t.state.depth t.verdict

/-- Evaluates one line. -/
def step (strict : Bool) (s : State) (line : String) : Except Failure Step :=
  let directive := Directive.ofLine line
  if directive.isMalformed then .error (.invalidDirective (Text.trim line))
  else match s.countLine.stepDirective strict line directive with
    | .error failure => .error failure
    | .ok t => .ok { t with events := t.events ++ [s.evaluatedEvent t] }

/-- Checks the state after the last line. -/
def close (strict : Bool) (s : State) : Except Failure (List Event) :=
  if s.depth = 0 then .ok []
  else if strict then .error (.unterminatedConditional s.depth)
  else .ok [.unterminated s.depth]

end State

end Amalgam.Selection
