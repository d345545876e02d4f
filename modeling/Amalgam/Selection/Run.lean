import Amalgam.Selection.State
import Amalgam.Text.Lines

/-!
# Whole runs

A run takes the lines of one source from first to last. It is a fold of single
steps, so a run over `xs ++ ys` is a run over `xs` that goes on with `ys`; the
first failure ends it.

* `Run.feed`: one more line;
* `select`: a run over all lines from a table of symbols;
* `preprocess`, `preprocessUnits`: runs over the lines of texts, the kept lines
  put together again.
-/

namespace Amalgam.Selection

/-- A run: its state, what it kept, and why it stopped, if it did. -/
structure Run where
  state : State
  kept : Array String := #[]
  failure? : Option Failure := none
  events : Array Event := #[]

namespace Run

/-- A run that has taken no line. -/
def start (symbols : Symbols) : Run :=
  { state := { symbols } }

/-- Takes one more line, unless the run has stopped. -/
def feed (strict : Bool) (r : Run) (line : String) : Run :=
  match r.failure? with
  | some _ => r
  | none =>
    match r.state.step strict line with
    | .error failure => { r with state := r.state.countLine, failure? := some failure }
    | .ok t =>
      { r with
        state := t.state
        kept := match t.verdict with
          | .emit => r.kept.push line
          | .drop => r.kept
        events := r.events ++ t.events }

/-- Ends a run after its last line. -/
def finish (strict : Bool) (r : Run) : Run :=
  match r.failure? with
  | some _ => r
  | none =>
    match r.state.close strict with
    | .error failure => { r with failure? := some failure }
    | .ok events => { r with events := r.events ++ events }

/-- What a run gives: the kept lines, or the failure that stopped it. -/
def result (r : Run) : Except Failure (List String) :=
  match r.failure? with
  | some failure => .error failure
  | none => .ok r.kept.toList

/-- What a run gives, the kept lines put together with `\n` between them. -/
def text (r : Run) : Except Failure String :=
  r.result.map Text.unlines

end Run

/-- The run over the given lines from a table of symbols. -/
def select (strict : Bool) (symbols : Symbols) (lines : List String) : Run :=
  (lines.foldl (Run.feed strict) (Run.start symbols)).finish strict

/-- The lenient run over the lines of a text. -/
def preprocess (symbols : Symbols) (source : String) : Run :=
  select false symbols (Text.lines source)

/-- The lenient runs over several texts. Each starts from `symbols`. -/
def preprocessUnits (symbols : Symbols) (units : List String) : List Run :=
  units.map (preprocess symbols)

end Amalgam.Selection
