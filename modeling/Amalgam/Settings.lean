import Amalgam.Join.Failure
import Amalgam.Symbols

/-!
# Settings

What a join needs to know, and whether it fits the file system.
-/

namespace Amalgam

/-- Everything that one join needs to know. -/
structure Settings where
  /-- The folder that holds the sources. -/
  input : Path
  /-- The file for the document; standard output if there is none. -/
  output? : Option Path := none
  /-- The symbols that every source starts with. -/
  symbols : Symbols := ∅
  /-- The extension of the sources, without the dot. -/
  extension : String := "cs"
  /-- Names below the input folder that are not searched. -/
  excluded : List String := ["bin", "obj"]
  /-- Whether unbalanced directives are failures. -/
  strict : Bool := false

namespace Settings

/-- The search for the sources. -/
def search (s : Settings) : Search where
  root := s.input
  extension := s.extension
  excluded := s.excluded

/-- Checks that the input is a folder and that the output, if it is a file,
carries the extension of the sources. A missing extension counts as an empty
one. -/
def validate (s : Settings) (fs : FileSystem) : Except Join.Failure Unit :=
  if !fs.hasEntry s.input then .error (.inputNotFound s.input)
  else if !fs.isDirectory s.input then .error (.inputNotDirectory s.input)
  else match s.output? with
    | none => .ok ()
    | some output =>
      let found := output.extension?.getD ""
      if found = s.extension then .ok () else .error (.outputExtension s.extension found)

end Settings

end Amalgam
