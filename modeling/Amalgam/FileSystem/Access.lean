import Amalgam.FileSystem.Basic

/-!
# Access by path

What a path leads to, and reading and writing files by path. A path is walked
name by name; `.` and `..` are taken literally, a link on the way is replaced
by its target, and at most 40 links are followed.

* `FileSystem.resolve`: where a path leads;
* `FileSystem.read`, `FileSystem.readText`: the content of a file;
* `FileSystem.write`: a file with new content, made if it is missing;
* `FileSystem.hasEntry`, `FileSystem.isDirectory`: what a path leads to, if
  anything.
-/

namespace Amalgam

namespace FileSystem

/-! ## Faults -/

/-- Why an access fails. -/
inductive Fault
  | notFound
  | alreadyExists
  | notDirectory
  | isDirectory
  | nameTooLong
  | tooManyLinks
  /-- The path holds the character NUL, which no name can. -/
  | nulInName
  /-- The content is asked for as text and is not UTF-8. -/
  | notText
  deriving DecidableEq, Repr

/-- The text that reports a fault. -/
def Fault.message : Fault → String
  | notFound => "No such file or directory (os error 2)"
  | alreadyExists => "File exists (os error 17)"
  | notDirectory => "Not a directory (os error 20)"
  | isDirectory => "Is a directory (os error 21)"
  | nameTooLong => "File name too long (os error 36)"
  | tooManyLinks => "Too many levels of symbolic links (os error 40)"
  | nulInName => "file name contained an unexpected NUL byte"
  | notText => "stream did not contain valid UTF-8"

/-! ## Walking along a path -/

/-- A step of a walk. -/
inductive Segment
  | name (text : String)
  | here
  | up
  /-- The slash that a path ends in: what stands before it has to be a
  directory. -/
  | slash
  deriving DecidableEq, Repr

/-- The step that a piece of a path asks for. -/
def Segment.ofPiece? : String → Option Segment
  | "" => none
  | "." => some .here
  | ".." => some .up
  | piece => some (.name piece)

/-- The steps that a path asks for. -/
def segments (p : Path) : List Segment :=
  p.pieces.filterMap Segment.ofPiece? ++
    if p.text.toList.getLast? = some '/' then [.slash] else []

/-- What a walk is for. -/
inductive Intent
  /-- To look at an entry; a link at the end is the entry itself. -/
  | inspect
  /-- To use what the path leads to. -/
  | follow
  /-- To write a file, which may be missing. -/
  | create
  deriving DecidableEq, Repr

/-- Where a walk ends: at an entry, or at a free place in a directory. -/
inductive Target
  | found (l : Location) (e : Entry)
  | vacant (l : Location)

/-- How far a walk gets by itself. -/
inductive Progress
  | arrived (target : Target)
  | failed (fault : Fault)
  /-- A link in `dir` has to be followed before `rest`. -/
  | atLink (dir : Location) (target : Path) (rest : List Segment)

/-- The bytes that a name may have. -/
def nameLimit : Nat := 255

/-- The bytes that a path may have. -/
def pathLimit : Nat := 4095

/-- The links that a walk may follow. -/
def linkLimit : Nat := 40

/-- Walks from `dir` up to the end or to the first link that has to be
followed. -/
def advance (fs : FileSystem) (intent : Intent) (dir : Location) : List Segment → Progress
  | [] => .arrived (.found dir .directory)
  | .here :: rest => fs.advance intent dir rest
  | .slash :: rest => fs.advance intent dir rest
  | .up :: rest => fs.advance intent dir.dropLast rest
  | .name text :: rest =>
    let l := dir ++ [text]
    if intent = .create ∧ rest = [.slash] then .failed .isDirectory
    else if text.utf8ByteSize > nameLimit then .failed .nameTooLong
    else match fs.entry? l with
      | none => if rest = [] then .arrived (.vacant l) else .failed .notFound
      | some .directory => fs.advance intent l rest
      | some (.file content) =>
        if rest = [] then .arrived (.found l (.file content)) else .failed .notDirectory
      | some (.link target) =>
        if rest = [] ∧ intent = .inspect then .arrived (.found l (.link target))
        else .atLink dir target rest

/-- The directory that a path starts from, seen from `dir`. -/
def startOf (p : Path) (dir : Location) : Location :=
  if p.isAbsolute then [] else dir

/-- Walks from `dir` to the end, following at most the given number of
links. -/
def walk (fs : FileSystem) (intent : Intent) (links : Nat) (dir : Location)
    (route : List Segment) : Except Fault Target :=
  match fs.advance intent dir route with
  | .arrived target => .ok target
  | .failed fault => .error fault
  | .atLink origin target rest =>
    match links with
    | 0 => .error .tooManyLinks
    | links + 1 => fs.walk intent links (startOf target origin) (segments target ++ rest)

/-- Where a path leads. -/
def resolve (fs : FileSystem) (intent : Intent) (p : Path) : Except Fault Target :=
  if '\x00' ∈ p.text.toList then .error .nulInName
  else if p.text = "" then .error .notFound
  else if p.text.utf8ByteSize > pathLimit then .error .nameTooLong
  else fs.walk intent linkLimit (startOf p fs.current) (segments p)

/-- The entry that a path leads to. -/
def lookup (fs : FileSystem) (intent : Intent) (p : Path) : Except Fault (Location × Entry) :=
  match fs.resolve intent p with
  | .error fault => .error fault
  | .ok (.vacant _) => .error .notFound
  | .ok (.found l e) => .ok (l, e)

/-! ## Files -/

/-- Whether the path leads to an entry. -/
def hasEntry (fs : FileSystem) (p : Path) : Bool :=
  (fs.lookup .follow p).isOk

/-- Whether the path leads to a directory. -/
def isDirectory (fs : FileSystem) (p : Path) : Bool :=
  match fs.lookup .follow p with
  | .ok (_, .directory) => true
  | _ => false

/-- The content of the file that a path leads to. -/
def read (fs : FileSystem) (p : Path) : Except Fault ByteArray :=
  match fs.lookup .follow p with
  | .error fault => .error fault
  | .ok (_, .file content) => .ok content
  | .ok (_, .directory) => .error .isDirectory
  | .ok (_, .link _) => .error .tooManyLinks

/-- The content of the file that a path leads to, as text. -/
def readText (fs : FileSystem) (p : Path) : Except Fault String :=
  match fs.read p with
  | .error fault => .error fault
  | .ok content =>
    match String.fromUTF8? content with
    | some text => .ok text
    | none => .error .notText

/-- Makes `content` the content of the file that a path leads to. -/
def write (fs : FileSystem) (p : Path) (content : ByteArray) : Except Fault FileSystem :=
  match fs.resolve .create p with
  | .error fault => .error fault
  | .ok (.found _ .directory) => .error .isDirectory
  | .ok (.found l _) | .ok (.vacant l) => .ok (fs.put l (.file content))

end FileSystem

end Amalgam
