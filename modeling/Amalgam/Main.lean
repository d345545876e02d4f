import Amalgam.Program

/-!
# The executable

Runs the program on the disk. What a run can see is copied from the disk into a
`FileSystem`, the run itself is `Program.runSettings`, and its effects are then
carried out. Only what the settings name is copied: the entries on the way to
the input and the output, the names below the input folder, and the contents of
the sources.
-/

namespace Amalgam.Disk

/-- The absolute path of a location. -/
def pathText (l : Location) : String :=
  "/" ++ "/".intercalate l

/-- The location of an absolute path that holds no link. -/
def locationOf (text : String) : Location :=
  (Path.mk text).components.filterMap fun
    | .name name => some name
    | _ => none

/-- What stands at a location of the disk, a link not being followed. -/
def kindAt? (l : Location) : IO (Option IO.FS.FileType) := do
  try
    let dir ← IO.FS.realPath (pathText l.dropLast)
    return some (← (dir / l.getLast?.getD "").symlinkMetadata).type
  catch _ => return none

/-- The location that a link leads to in the end, if it leads anywhere. -/
def linkEnd? (l : Location) : IO (Option Location) := do
  try
    let target ← IO.FS.realPath (pathText l)
    return some (locationOf target.toString)
  catch _ => return none

/-- The entry without content for what stands at a location of the disk. -/
def entryOf : IO.FS.FileType → Entry
  | .dir => .directory
  | _ => .file .empty

/-- Copies the entries on the way from `dir` along a route. A link that leads
nowhere is left out. -/
def copyRoute (fs : FileSystem) (dir : Location) : List FileSystem.Segment → IO FileSystem
  | [] => return fs
  | .here :: rest | .slash :: rest => copyRoute fs dir rest
  | .up :: rest => copyRoute fs dir.dropLast rest
  | .name text :: rest => do
    let l := dir ++ [text]
    match ← kindAt? l with
    | none => return fs
    | some .symlink =>
      let some target ← linkEnd? l | return fs
      let some kind ← kindAt? target | return fs
      let fs := (fs.create l (.link ⟨pathText target⟩)).create target (entryOf kind)
      copyRoute fs target rest
    | some kind => copyRoute (fs.create l (entryOf kind)) l rest

/-- Copies the entries on the way to a path. -/
def copyPath (fs : FileSystem) (p : Path) : IO FileSystem :=
  copyRoute fs (FileSystem.startOf p fs.current) (FileSystem.segments p)

/-- Copies the names of the directories and files below a directory. -/
partial def copyBelow (fs : FileSystem) (dir : Location) : IO FileSystem := do
  let mut fs := fs
  for child in ← (← IO.FS.realPath (pathText dir)).readDir do
    let l := dir ++ [child.fileName]
    match ← kindAt? l with
    | some .dir => fs ← copyBelow (fs.create l .directory) l
    | some .file => fs := fs.create l (.file .empty)
    | _ => pure ()
  return fs

/-- Copies the content of a file. -/
def copyContent (fs : FileSystem) (p : Path) : IO FileSystem := do
  match fs.lookup .follow p with
  | .ok (l, .file _) => return fs.put l (.file (← IO.FS.readBinFile (pathText l)))
  | _ => return fs

/-- Copies what a run with the given settings can see. -/
def copyFor (settings : Settings) : IO FileSystem := do
  let current := locationOf (← IO.FS.realPath (← IO.currentDir)).toString
  let mut fs ← copyPath (FileSystem.empty current) settings.input
  if let some output := settings.output? then
    fs ← copyPath fs output
  if let .ok (l, .directory) := fs.lookup .follow settings.input then
    fs ← copyBelow fs l
  (fs.sources settings.search).paths.foldlM copyContent fs

/-- Prints what a run prints. -/
def report (exit : Program.Exit) : IO Unit := do
  IO.print exit.stdout
  IO.eprint exit.stderr

/-- Carries out a run on the disk. -/
def run (settings : Settings) : IO UInt32 := do
  let exit := Program.runSettings (← copyFor settings) settings Program.defaultLog
  if exit.status = 0 then
    if let some output := settings.output? then
      if let .ok content := exit.files.read output then
        IO.FS.writeBinFile output.text content
  report exit
  return exit.status

end Amalgam.Disk

/-- Joins the sources below a folder into one document. -/
def main (arguments : List String) : IO UInt32 := do
  let environment? ← IO.getEnv Amalgam.Program.environmentVariable
  match Amalgam.CommandLine.settings arguments environment? with
  | .ok settings => Amalgam.Disk.run settings
  | .error reason =>
    let exit := Amalgam.Program.stop (Amalgam.FileSystem.empty []) reason
    Amalgam.Disk.report exit
    return exit.status
