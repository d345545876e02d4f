import Amalgam.FileSystem.Search
import Amalgam.Selection.Failure

/-!
# Failures of a join

Why sources cannot be joined into a document, and the text that reports it.
-/

namespace Amalgam.Join

/-- Why a join stops. -/
inductive Failure
  | inputNotFound (path : Path)
  | inputNotDirectory (path : Path)
  /-- The output file does not carry the extension of the sources; `found` is
  empty if it has none. -/
  | outputExtension (expected found : String)
  /-- A file cannot be read or written. -/
  | io (path : Path) (fault : FileSystem.Fault)
  /-- The input folder cannot be searched. -/
  | search (fault : SearchFault)
  /-- The lines of a source are rejected. -/
  | rejected (path : Path) (failure : Selection.Failure)
  deriving DecidableEq, Repr

/-- The text that reports a failure. -/
def Failure.message : Failure → String
  | inputNotFound path => s!"{path.text}: input folder does not exist."
  | inputNotDirectory path => s!"{path.text}: input is not a folder."
  | outputExtension expected found =>
    s!"Expected '.{expected}' as extension for output file, but was '{found}'."
  | io path fault => s!"{path.text}: {fault.message}"
  | search fault => s!"Failed to scan input folder: {fault.message}"
  | rejected path failure => s!"{path.text}: {failure.message}"

end Amalgam.Join
