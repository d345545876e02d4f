import Amalgam.Settings

/-!
# Command line

How arguments become settings. Options are written `--name value`,
`--name=value`, `-n value`, `-nvalue` or `-n=value`; flags take no value, and
short flags can be put together. The one argument that is neither is the input
folder. Behind `--` every argument is taken for the input folder.

An argument that waits for its value is settled when the next option, flag or
input is taken up, or at the end. An unknown argument and a flag with a value
are reported at once, whatever still waits.

* `CommandLine.read`: reads the arguments;
* `Arguments.toSettings`: the settings that they ask for.
-/

namespace Amalgam

namespace CommandLine

/-- An option with a value. -/
inductive Key
  | output
  | define
  | extension
  | exclude
  deriving DecidableEq, Repr

/-- An argument without a value. -/
inductive Flag
  | strict
  | help
  | version
  deriving DecidableEq, Repr

/-- What a name on the command line stands for. -/
inductive Switch
  | key (k : Key)
  | flag (f : Flag)
  deriving DecidableEq, Repr

/-- The long names. -/
def longNames : List (String × Switch) :=
  [("output", .key .output), ("define", .key .define), ("extension", .key .extension),
    ("exclude", .key .exclude), ("strict", .flag .strict), ("help", .flag .help),
    ("version", .flag .version)]

/-- The short names. -/
def shortNames : List (Char × Switch) :=
  [('o', .key .output), ('d', .key .define), ('h', .flag .help), ('V', .flag .version)]

/-- What is wrong with the arguments. -/
inductive UsageError
  | unknownArgument
  | invalidValue
  | tooManyValues
  | argumentConflict
  | missingRequiredArgument
  deriving DecidableEq, Repr

/-- Why reading stops before there are settings. -/
inductive Stop
  | usage (error : UsageError)
  | help
  | version
  deriving DecidableEq, Repr

end CommandLine

open CommandLine

/-- The values of the arguments read so far. -/
structure Arguments where
  input? : Option Path := none
  output? : Option Path := none
  /-- The values of `--define`, split at their commas. -/
  defines : List String := []
  extension? : Option String := none
  excluded : List String := []
  strict : Bool := false
  deriving DecidableEq, Repr

namespace Arguments

/-- Stores the input folder. -/
def storeInput (a : Arguments) (value : String) : Except Stop Arguments :=
  if value = "" then .error (.usage .invalidValue) else .ok { a with input? := some ⟨value⟩ }

/-- Stores the value of an option. The output and the extension can be given
only once. -/
def store (a : Arguments) (value : String) : Key → Except Stop Arguments
  | .output =>
    if a.output?.isSome then .error (.usage .argumentConflict)
    else if value = "" then .error (.usage .invalidValue)
    else .ok { a with output? := some ⟨value⟩ }
  | .extension =>
    if a.extension?.isSome then .error (.usage .argumentConflict)
    else .ok { a with extension? := some value }
  | .define => .ok { a with defines := a.defines ++ Symbols.pieces value }
  | .exclude => .ok { a with excluded := a.excluded ++ [value] }

/-- Acts on a flag. -/
def act (a : Arguments) : Flag → Except Stop Arguments
  | .strict =>
    if a.strict then .error (.usage .argumentConflict) else .ok { a with strict := true }
  | .help => .error .help
  | .version => .error .version

/-- The settings that the arguments ask for, with the symbols listed in the
environment. Leading dots of the extension do not count, and given exclusions
stand in the place of the default ones. -/
def toSettings (a : Arguments) (input : Path) (environment? : Option String) : Settings :=
  let plain : Settings := { input }
  { input
    output? := a.output?
    symbols := (Symbols.parseList (environment?.getD "")).addAll (Symbols.namesOf a.defines)
    extension :=
      String.ofList ((a.extension?.getD plain.extension).toList.dropWhile (· = '.'))
    excluded := if a.excluded.isEmpty then plain.excluded else a.excluded
    strict := a.strict }

end Arguments

namespace CommandLine

/-- What has been taken up and not been settled. -/
inductive Pending
  | nothing
  /-- An option that waits for its value. -/
  | waiting (k : Key)
  /-- An option with its value. -/
  | value (k : Key) (text : String)
  /-- The input folder. -/
  | input (text : String)
  deriving DecidableEq, Repr

/-- The state of reading. -/
structure Reader where
  arguments : Arguments := {}
  pending : Pending := .nothing
  /-- Whether `--` has been read. -/
  inputOnly : Bool := false
  deriving DecidableEq, Repr

namespace Reader

/-- Settles what is pending. -/
def settle (r : Reader) : Except Stop Reader := do
  let arguments ← match r.pending with
    | .nothing => .ok r.arguments
    | .waiting _ => .error (.usage .invalidValue)
    | .value k text => r.arguments.store text k
    | .input text => r.arguments.storeInput text
  return { r with arguments, pending := .nothing }

/-- Whether the input folder has been given. -/
def hasInput (r : Reader) : Bool :=
  match r.pending with
  | .input _ => true
  | _ => r.arguments.input?.isSome

/-- Takes up an argument that is neither an option nor a flag nor a value of
one. -/
def takeInput (r : Reader) (text : String) : Except Stop Reader := do
  if r.hasInput then throw (.usage .unknownArgument)
  let r ← r.settle
  return { r with pending := .input text }

/-- Takes up an option, with the value attached to it, if there is one. -/
def takeKey (r : Reader) (k : Key) (attached? : Option (List Char)) : Except Stop Reader := do
  let r ← r.settle
  match attached? with
  | none => return { r with pending := .waiting k }
  | some value => return { r with arguments := ← r.arguments.store (String.ofList value) k }

/-- Takes up a flag. -/
def takeFlag (r : Reader) (f : Flag) : Except Stop Reader := do
  let r ← r.settle
  return { r with arguments := ← r.arguments.act f }

/-- Reads an argument behind its `--`. -/
def readLong (r : Reader) (cs : List Char) : Except Stop Reader :=
  let name := cs.takeWhile (· ≠ '=')
  let attached? := (cs.dropWhile (· ≠ '=')).tail?
  match longNames.lookup (String.ofList name) with
  | none => .error (.usage .unknownArgument)
  | some (.key k) => r.takeKey k attached?
  | some (.flag f) =>
    match attached? with
    | none => r.takeFlag f
    | some _ => .error (.usage .tooManyValues)

/-- Reads an argument behind its `-`: flags, and an option with what is left as
its value. -/
def readShort (r : Reader) : List Char → Except Stop Reader
  | [] => .ok r
  | c :: rest =>
    match shortNames.lookup c with
    | none => .error (.usage .unknownArgument)
    | some (.flag f) => do (← r.takeFlag f).readShort rest
    | some (.key k) =>
      match rest with
      | [] => r.takeKey k none
      | '=' :: value => r.takeKey k (some value)
      | value => r.takeKey k (some value)

/-- Reads an argument that is not an option: the value waited for, or the input
folder. -/
def readValue (r : Reader) (text : String) : Except Stop Reader :=
  match r.pending with
  | .waiting k => .ok { r with pending := .value k text }
  | _ => r.takeInput text

/-- Reads one argument. -/
def readArgument (r : Reader) (argument : String) : Except Stop Reader :=
  if r.inputOnly then r.takeInput argument
  else if argument = "--" then .ok { r with inputOnly := true }
  else match argument.toList with
    | '-' :: '-' :: cs => r.readLong cs
    | '-' :: c :: cs => r.readShort (c :: cs)
    | _ => r.readValue argument

end Reader

/-- Reads the arguments: their values and the input folder, which has to be
given. -/
def read (arguments : List String) : Except Stop (Arguments × Path) := do
  let r ← arguments.foldlM Reader.readArgument {}
  let r ← r.settle
  match r.arguments.input? with
  | none => throw (.usage .missingRequiredArgument)
  | some input => return (r.arguments, input)

/-- The settings that the arguments and the environment ask for. -/
def settings (arguments : List String) (environment? : Option String) : Except Stop Settings := do
  let (values, input) ← read arguments
  return values.toSettings input environment?

end CommandLine

end Amalgam
