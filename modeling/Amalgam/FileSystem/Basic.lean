import Amalgam.Path
import Std.Data.ExtTreeMap

/-!
# File systems

A file system is a finite map from locations to entries, and the directory that
relative paths start from. Two file systems with the same entries are equal,
whatever the order in which the entries were made. Locations are ordered name
by name, so a directory comes before what lies below it and the names in one
directory come in code point order.

* `FileSystem.entry?`: what stands at a location;
* `FileSystem.put`: changes one location;
* `FileSystem.children`: the names in a directory, in order;
* `FileSystem.create`: makes an entry and the directories above it.
-/

namespace Amalgam

/-- A place in a file system: the names on the way to it from the root. -/
abbrev Location := List String

/-- What stands at a location. -/
inductive Entry
  | directory
  | file (content : ByteArray)
  /-- A symbolic link. -/
  | link (target : Path)

/-- A file system. -/
structure FileSystem where
  entries : Std.ExtTreeMap Location Entry
  /-- The directory that relative paths start from. -/
  current : Location := []

namespace FileSystem

/-- What stands at a location. The root is always a directory. -/
def entry? (fs : FileSystem) (l : Location) : Option Entry :=
  if l = [] then some .directory else fs.entries[l]?

/-- Puts an entry at a location, in the place of what stood there. -/
def put (fs : FileSystem) (l : Location) (e : Entry) : FileSystem :=
  { fs with entries := fs.entries.insert l e }

/-- The names in a directory with their entries, in code point order. -/
def children (fs : FileSystem) (dir : Location) : List (String × Entry) :=
  fs.entries.toList.filterMap fun (l, e) =>
    match dir.isPrefixOf? l with
    | some [name] => some (name, e)
    | _ => none

/-- The number of names on the way to the deepest entry. -/
def height (fs : FileSystem) : Nat :=
  fs.entries.toList.foldl (fun h (l, _) => max h l.length) 0

/-! ## Making entries -/

/-- Makes the directories on the way from `dir` along the given names, where
nothing stands yet. -/
def ensureDirectories (fs : FileSystem) (dir : Location) : List String → FileSystem
  | [] => fs
  | name :: names =>
    let l := dir ++ [name]
    let fs := if (fs.entry? l).isSome then fs else fs.put l .directory
    fs.ensureDirectories l names

/-- Makes an entry and the directories above it. -/
def create (fs : FileSystem) (l : Location) (e : Entry) : FileSystem :=
  (fs.ensureDirectories [] l.dropLast).put l e

/-- A file system that holds nothing but the directory that relative paths
start from. -/
def empty (current : Location) : FileSystem :=
  ({ entries := ∅, current } : FileSystem).ensureDirectories [] current

end FileSystem

end Amalgam
