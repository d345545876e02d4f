import Amalgam.Path
import Amalgam.Selection.Mode

/-!
# Events

What is worth noting while sources are searched, selected from and joined.
Events are data: every operation returns those it caused, in order, and only
the outermost layer decides which to show, by a `Log`.
-/

namespace Amalgam

open Selection (Mode Verdict)

/-- How important an event is, the most important level first. -/
inductive Level
  | error
  | warn
  | info
  | debug
  | trace
  deriving DecidableEq, Repr

namespace Level

/-- The name of a level in messages. -/
def name : Level → String
  | error => "ERROR"
  | warn => "WARN"
  | info => "INFO"
  | debug => "DEBUG"
  | trace => "TRACE"

/-- The place of a level, counted from the most important one. -/
def rank : Level → Nat
  | error => 0
  | warn => 1
  | info => 2
  | debug => 3
  | trace => 4

end Level

/-- Something that happened. Lines are counted from 1. -/
inductive Event
  /-- A symbol was defined. -/
  | defined (symbol : String)
  /-- A symbol was undefined. -/
  | undefined (symbol : String)
  /-- A directive that belongs to a block was ignored, because no block is
  open. -/
  | strayDirective (lineNumber : Nat) (directive : String)
  /-- The lines ended with blocks open. -/
  | unterminated (depth : Nat)
  /-- A line was evaluated. -/
  | evaluated (lineNumber : Nat) (before after : Mode) (depth : Nat) (verdict : Verdict)
  /-- A source was found below the input folder. -/
  | foundSource (path : Path)
  /-- No source was found below the input folder. -/
  | noSources (extension : String) (input : Path)
  /-- A source is about to be read. -/
  | processing (path : Path)
  /-- The document was written to a file. -/
  | wrote (path : Path)
  deriving DecidableEq, Repr

namespace Event

/-- How important an event is. -/
def level : Event → Level
  | strayDirective .. | unterminated .. | noSources .. => .warn
  | processing .. | wrote .. => .info
  | defined .. | undefined .. | foundSource .. => .debug
  | evaluated .. => .trace

/-- The text that reports an event. -/
def message : Event → String
  | defined symbol => s!"#define {symbol}"
  | undefined symbol => s!"#undef {symbol}"
  | strayDirective lineNumber directive =>
    s!"line {lineNumber}: ignoring '{directive}' without matching #if"
  | unterminated depth => s!"end of input with {depth} unterminated #if block(s)"
  | evaluated lineNumber before after depth verdict =>
    s!"line {lineNumber}: {before.describe} -> {after.describe} (depth {depth}), {verdict.describe}"
  | foundSource path => s!"found source {path.text}"
  | noSources extension input => s!"no .{extension} files found below {input.text}"
  | processing path => s!"Processing: {path.text}"
  | wrote path => s!"Wrote {path.text}"

/-- The message with its level in front. -/
def render (e : Event) : String :=
  e.level.name ++ " " ++ e.message

/-- Whether an event is at least as important as `level`. -/
def isAtLeast (level : Level) (e : Event) : Bool :=
  e.level.rank ≤ level.rank

/-- The events that are at least as important as `level`. -/
def atLeast (level : Level) (events : List Event) : List Event :=
  events.filter (isAtLeast level)

end Event

/-- Which events are shown while a program runs, and how. -/
structure Log where
  shows : Event → Bool
  /-- The line that shows an event, given how many were shown before it: a
  log may put the time or the place of an event into its line. -/
  line : Nat → Event → String

namespace Log

/-- Shows nothing. -/
def off : Log where
  shows _ := false
  line _ e := e.render

/-- Shows the events that are at least as important as `level`. -/
def upTo (level : Level) : Log where
  shows := Event.isAtLeast level
  line _ e := e.render

/-- What is shown of the given events, a line for each. -/
def text (log : Log) (events : List Event) : String :=
  String.join ((events.filter log.shows).mapIdx fun n e => log.line n e ++ "\n")

end Log

end Amalgam
