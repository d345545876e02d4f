import Amalgam.Text.Pieces

/-!
# Paths

A path is kept as the text that was given or joined, because that text is what
messages show. Its meaning is the list of its components: doubled and final
slashes and a `.` other than a leading one do not count, and `..` is kept as it
stands.

* `Path.components`: the components of a path;
* `Path.Same`: two paths with the same components;
* `Path.join`: a path below another one;
* `Path.waypoints`: the paths that a path passes through;
* `Path.extension?`: the extension of the last component.
-/

namespace Amalgam

/-- A path, as its text. -/
structure Path where
  text : String
  deriving DecidableEq, Repr

namespace Path

/-! ## Components -/

/-- A component of a path. -/
inductive Component
  /-- The slash that an absolute path starts with. -/
  | root
  /-- A leading `.`. -/
  | here
  /-- `..`. -/
  | up
  | name (text : String)
  deriving DecidableEq, Repr

/-- Whether the path starts at the root. -/
def isAbsolute (p : Path) : Bool :=
  p.text.toList.head? == some '/'

/-- The texts between the slashes. -/
def pieces (p : Path) : List String :=
  Text.pieces '/' p.text

/-- The component that a piece stands for, where it is not the first piece. -/
def Component.ofPiece? : String → Option Component
  | "" => none
  | "." => none
  | ".." => some .up
  | piece => some (.name piece)

/-- The components of a path. -/
def components (p : Path) : List Component :=
  let rest := p.pieces.filterMap Component.ofPiece?
  if p.isAbsolute then .root :: rest
  else if p.pieces.head? = some "." then .here :: rest
  else rest

/-- Two paths are the same if their components are. -/
def Same (p q : Path) : Prop :=
  p.components = q.components

instance (p q : Path) : Decidable (p.Same q) :=
  inferInstanceAs (Decidable (p.components = q.components))

/-! ## Joining -/

/-- The path `q` seen from `p`: an absolute `q` stands for itself, any other is
put behind `p`, with a slash between them unless `p` is empty or ends in
one. -/
def join (p q : Path) : Path :=
  if q.isAbsolute then q
  else if p.text = "" ∨ p.text.toList.getLast? = some '/' then ⟨p.text ++ q.text⟩
  else ⟨p.text ++ "/" ++ q.text⟩

/-- The paths that a path passes through, itself last: `a`, `a/b` and `a/b/c`
for `a/b/c`. -/
def waypoints (p : Path) : List Path :=
  ((List.range p.pieces.length).map fun n => ⟨"/".intercalate (p.pieces.take (n + 1))⟩).filter
    fun q => q.text ≠ ""

/-! ## Extensions -/

/-- The last component, if it is a name. -/
def fileName? (p : Path) : Option String :=
  match p.components.getLast? with
  | some (.name text) => some text
  | _ => none

/-- What follows the last dot of a name, if something stands before that dot.
It may be empty. -/
def extensionOfName? (name : String) : Option String :=
  let reversed := name.toList.reverse
  match reversed.dropWhile (· ≠ '.') with
  | _ :: _ :: _ => some (String.ofList (reversed.takeWhile (· ≠ '.')).reverse)
  | _ => none

/-- The extension of a path, without the dot. -/
def extension? (p : Path) : Option String :=
  p.fileName?.bind extensionOfName?

end Path

end Amalgam
