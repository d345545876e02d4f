import Amalgam.FileSystem.Access

/-!
# Searching for sources

The files below a root that carry an extension. Directories are searched from
top to bottom, the names in each in code point order, and what is excluded is
not entered. A link below the root is neither a file nor a directory; a link
given as the root is followed. A search ends at the first directory that cannot
be entered, because its path is too long.

* `Search.admits`: what a single file has to satisfy;
* `FileSystem.visits`: the files and faults met, in order;
* `Findings`: the files that a search finds, and the fault that ends it;
* `FileSystem.sources`: the findings of a search.
-/

namespace Amalgam

/-- What is searched for, from a root. -/
structure Search where
  root : Path
  /-- The extension, without the dot. -/
  extension : String
  /-- Names, seen from the root, that are left out with all that lies below
  them. -/
  excluded : List String

namespace Search

/-- Whether a path is one of the excluded names, seen from the root. -/
def excludes (s : Search) (p : Path) : Bool :=
  s.excluded.any fun name => (p.Same (s.root.join ⟨name⟩) : Bool)

/-- Whether a file with this path carries the extension. -/
def carriesExtension (s : Search) (p : Path) : Bool :=
  p.extension? = some s.extension

/-- Whether a file with this path is searched for, provided that its directory
is. -/
def admits (s : Search) (p : Path) : Bool :=
  !s.excludes p && s.carriesExtension p

end Search

/-- A search that cannot go on, and the path at which it fails. -/
structure SearchFault where
  path : Path
  fault : FileSystem.Fault
  deriving DecidableEq, Repr

/-- The text that reports a failed search. -/
def SearchFault.message (f : SearchFault) : String :=
  s!"IO error for operation on {f.path.text}: {f.fault.message}"

/-- What a search finds. -/
structure Findings where
  /-- The files found before the search ended, in order. -/
  paths : List Path := []
  /-- The fault that ended the search, if one did. -/
  fault? : Option SearchFault := none

namespace Findings

/-- The findings up to the first fault met. -/
def ofVisits : List (Except SearchFault Path) → Findings
  | [] => {}
  | .error fault :: _ => { fault? := some fault }
  | .ok path :: visits =>
    let findings := ofVisits visits
    { findings with paths := path :: findings.paths }

/-- All the files that are searched for, or the fault that kept the search from
finding them. -/
def complete (findings : Findings) : Except SearchFault (List Path) :=
  match findings.fault? with
  | some fault => .error fault
  | none => .ok findings.paths

end Findings

namespace FileSystem

/-- The visits to the files that are searched for in the directory at `dir`,
which has the path `p`, down to the given number of levels. A directory whose
path is too long is a fault in place of what lies below it. -/
def visitsBelow (fs : FileSystem) (s : Search) (levels : Nat) (dir : Location) (p : Path) :
    List (Except SearchFault Path) :=
  match levels with
  | 0 => []
  | levels + 1 =>
    if p.text.utf8ByteSize > pathLimit then [.error ⟨p, .nameTooLong⟩]
    else (fs.children dir).flatMap fun (name, e) =>
      let q := p.join ⟨name⟩
      match e with
      | .directory => if s.excludes q then [] else fs.visitsBelow s levels (dir ++ [name]) q
      | .file _ => if s.admits q then [.ok q] else []
      | .link _ => []

/-- The visits of a search, in order. A root that is a file is the only
candidate. Where the root is a link to a directory, an excluded root does not
keep the search out of it. -/
def visits (fs : FileSystem) (s : Search) : List (Except SearchFault Path) :=
  match fs.lookup .inspect s.root with
  | .error fault => [.error ⟨s.root, fault⟩]
  | .ok (l, .directory) =>
    if s.excludes s.root then [] else fs.visitsBelow s (fs.height + 1) l s.root
  | .ok (_, .file _) => if s.admits s.root then [.ok s.root] else []
  | .ok (_, .link _) =>
    match fs.lookup .follow s.root with
    | .error fault => [.error ⟨s.root, fault⟩]
    | .ok (l, .directory) => fs.visitsBelow s (fs.height + 1) l s.root
    | .ok _ => []

/-- What a search finds. -/
def sources (fs : FileSystem) (s : Search) : Findings :=
  .ofVisits (fs.visits s)

end FileSystem

end Amalgam
