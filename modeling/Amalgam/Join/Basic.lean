import Amalgam.Document
import Amalgam.Selection.Run
import Amalgam.Settings

/-!
# Joining sources

Every source is read and its lines are selected in a run of its own; the texts
go to an assembler in the order of the paths. The first source that fails ends
the join.

* `findSources`: the sources below a folder;
* `processFile`: one source;
* `joinSources`: several sources;
* `joinFolder`: the sources below the input folder.

All of this only reads: no function here returns a file system.
-/

namespace Amalgam.Join

/-- A value or the failure in its place, and what is worth noting on the way to
it. -/
structure Report (α : Type) where
  result : Except Failure α
  events : Array Event

/-- A join: what the assembler has received, why the join stopped, if it did,
and what is worth noting. -/
structure Joined (σ : Type) where
  received : σ
  failure? : Option Failure := none
  events : Array Event := #[]

/-- What a join gives: the document, or the failure that stopped it. -/
def Joined.result {σ : Type} (assembler : Assembler σ) (j : Joined σ) : Except Failure String :=
  match j.failure? with
  | some failure => .error failure
  | none => .ok (assembler.finish j.received)

/-! ## Single sources -/

/-- The sources that a search finds. Those found before it fails are still
worth noting. -/
def findSources (fs : FileSystem) (search : Search) : Report (List Path) :=
  let findings := fs.sources search
  { result := findings.complete.mapError .search,
    events := (findings.paths.map Event.foundSource).toArray }

/-- The selected lines of one file, put together. -/
def processFile (fs : FileSystem) (symbols : Symbols) (strict : Bool) (path : Path) :
    Report String :=
  match fs.readText path with
  | .error fault => { result := .error (.io path fault), events := #[.processing path] }
  | .ok source =>
    let run := Selection.select strict symbols (Text.lines source)
    { result := run.text.mapError (.rejected path), events := #[.processing path] ++ run.events }

/-! ## Joins -/

/-- Hands the text of one more source to the assembler, unless the join has
stopped. -/
def Joined.feed {σ : Type} (fs : FileSystem) (symbols : Symbols) (strict : Bool)
    (assembler : Assembler σ) (j : Joined σ) (path : Path) : Joined σ :=
  match j.failure? with
  | some _ => j
  | none =>
    let report := processFile fs symbols strict path
    let events := j.events ++ report.events
    match report.result with
    | .error failure => { j with failure? := some failure, events }
    | .ok text => { j with received := assembler.add j.received path text, events }

/-- The join of the given files, in order. -/
def joinSources {σ : Type} (fs : FileSystem) (symbols : Symbols) (strict : Bool)
    (assembler : Assembler σ) (paths : List Path) : Joined σ :=
  paths.foldl (Joined.feed fs symbols strict assembler) { received := assembler.start }

/-- The warning that a search found nothing. -/
def emptySearch (settings : Settings) (paths : List Path) : Array Event :=
  if paths.isEmpty then #[.noSources settings.extension settings.input] else #[]

/-- The join of the sources below the input folder. -/
def joinFolder {σ : Type} (fs : FileSystem) (settings : Settings) (assembler : Assembler σ) :
    Joined σ :=
  match settings.validate fs with
  | .error failure => { received := assembler.start, failure? := some failure }
  | .ok () =>
    let found := findSources fs settings.search
    match found.result with
    | .error failure =>
      { received := assembler.start, failure? := some failure, events := found.events }
    | .ok paths =>
      let joined := joinSources fs settings.symbols settings.strict assembler paths
      { joined with events := found.events ++ emptySearch settings paths ++ joined.events }

end Amalgam.Join
