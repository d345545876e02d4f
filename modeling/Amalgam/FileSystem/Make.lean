import Amalgam.FileSystem.Access

/-!
# Making entries by path

Directories, files and links made where a path leads. What stands on the way to
an entry is made or followed, name by name: a missing directory is made, a link
to a directory is entered, and `..` leaves the directory that the names before
it lead to.

* `FileSystem.makeDirectory`, `FileSystem.makeLink`: a single entry;
* `FileSystem.makeEntry`: an entry of any kind and the directories on the way
  to it;
* `FileSystem.ofEntries`: the file system with the given entries.
-/

namespace Amalgam.FileSystem

/-! ## Single entries -/

/-- Makes a directory in one that is there already. Where the path leads to a
directory, nothing changes. -/
def makeDirectory (fs : FileSystem) (p : Path) : Except Fault FileSystem :=
  if fs.isDirectory p then .ok fs
  else match fs.resolve .inspect p with
    | .error fault => .error fault
    | .ok (.found ..) => .error .alreadyExists
    | .ok (.vacant l) => .ok (fs.put l .directory)

/-- Makes a link in a directory that is there already. -/
def makeLink (fs : FileSystem) (p target : Path) : Except Fault FileSystem :=
  match fs.resolve .inspect p with
  | .error fault => .error fault
  | .ok (.found ..) => .error .alreadyExists
  | .ok (.vacant l) => .ok (fs.put l (.link target))

/-! ## Entries with the directories on the way -/

/-- Makes the directories with the given paths, in order. -/
def makeDirectories (fs : FileSystem) (paths : List Path) : Except Fault FileSystem :=
  paths.foldlM makeDirectory fs

/-- Makes an entry and the directories on the way to it. A file takes the place
of the content that the path leads to; a directory that is there already
stays. -/
def makeEntry (fs : FileSystem) (p : Path) : Entry → Except Fault FileSystem
  | .directory => fs.makeDirectories p.waypoints
  | .file content => do (← fs.makeDirectories p.waypoints.dropLast).write p content
  | .link target => do (← fs.makeDirectories p.waypoints.dropLast).makeLink p target

/-- The file system with the given entries, made in order, seen from
`current`. -/
def ofEntries (current : Location) (entries : List (Path × Entry)) : Except Fault FileSystem :=
  entries.foldlM (fun fs (p, e) => fs.makeEntry p e) (empty current)

end Amalgam.FileSystem
