import Amalgam.Join.Basic

/-!
# Delivering the document

Where the document goes, and a whole run from settings to the file system after
it. Everything is read before anything is written, so a run that fails leaves
the file system as it was.

* `deliver`: writes a document;
* `run`: joins the sources and delivers the document.
-/

namespace Amalgam.Join

/-- What a run leaves behind. -/
structure Outcome where
  result : Except Failure Unit
  files : FileSystem
  stdout : String := ""
  events : Array Event := #[]

/-- Writes a document to a file, or to standard output if none is given. -/
def deliver (fs : FileSystem) (output? : Option Path) (document : String) : Outcome :=
  match output? with
  | none => { result := .ok (), files := fs, stdout := document }
  | some path =>
    match fs.write path document.toUTF8 with
    | .error fault => { result := .error (.io path fault), files := fs }
    | .ok files => { result := .ok (), files, events := #[.wrote path] }

/-- Joins the sources below the input folder and delivers the document. -/
def run (fs : FileSystem) (settings : Settings) : Outcome :=
  let joined := joinFolder fs settings Assembler.concatenation
  match joined.result Assembler.concatenation with
  | .error failure => { result := .error failure, files := fs, events := joined.events }
  | .ok document =>
    let delivered := deliver fs settings.output? document
    { delivered with events := joined.events ++ delivered.events }

end Amalgam.Join
