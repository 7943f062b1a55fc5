import FileStash.Logging.Date
import FileStash.Settings.Load
import FileStash.Sweep.Command

/-!
The sweep as a program. It takes a picture of the directory to sweep and of its
log file, runs the command on the picture, and then does to the disk what the
command did to the picture.
-/

namespace FileStash.Main

/-- What holds for a whole run: the time in seconds, and the working
directory. -/
structure Surroundings where
  now : Int
  home : String
  temporary : String

def currentTime : IO Int := do
  let (_, file) ← IO.FS.createTempFile
  let data ← file.metadata
  IO.FS.removeFile file
  return data.modified.sec

def temporaryDirectory : IO String := do
  return (← IO.getEnv "TMPDIR").getD "/tmp"

def surroundings : IO Surroundings := do
  return ⟨← currentTime, (← IO.currentDir).toString, ← temporaryDirectory⟩

def realText (s : String) : IO String := do
  try
    return (← IO.FS.realPath s).toString
  catch _ => return s

def addDirectories (t : FileTree) (loc : Location) : FileTree :=
  (List.range loc.length).foldl (fun t n => t.put (loc.take (n + 1)) .directory) t

/-- Adds one entry of a directory. Files are pictured by their size and time. -/
def addEntry (t : FileTree) (dir : Location) (entry : IO.FS.DirEntry) :
    IO FileTree := do
  let loc := dir ++ [entry.fileName]
  let data ← entry.path.symlinkMetadata
  match data.type with
  | .file =>
      let content := List.replicate data.byteSize.toNat (0 : UInt8)
      return t.put loc (.file content data.modified.sec)
  | .symlink => return t.put loc (.link "")
  | .dir => return t.put loc .directory
  | .other => return t

def addTarget (t : FileTree) (real : String) : IO FileTree := do
  let loc := (Path.ofText real).parts
  try
    let entries ← IO.FS.realPath real >>= fun p => p.readDir
    entries.foldlM (fun t e => addEntry t loc e) (addDirectories t loc)
  catch _ => return t

def addLogDirectory (t : FileTree) (file : String) : IO FileTree := do
  let parent ← realText (Path.ofText file).parent.text
  try
    let _ ← IO.FS.realPath parent >>= fun p => p.readDir
    return addDirectories t (Path.ofText parent).parts
  catch _ => return t

def appendLines (file : Path) (content : List UInt8) : IO Unit := do
  IO.FS.createDirAll file.parent.text
  IO.FS.withFile file.text .append fun h => h.write ⟨content.toArray⟩

def apply (before after : Journal) : IO Unit := do
  for (loc, node) in before.tree.nodes do
    if node ≠ .directory && (after.tree.get? loc).isNone then
      IO.FS.removeFile (FileTree.pathOf loc).text
  for handler in (after.loggers.get packageLogger).handlers do
    match handler.file with
    | none => pure ()
    | some (path, loc) =>
        let size := match before.tree.get? loc with
          | some (.file content _) => content.length
          | _ => 0
        match after.tree.get? loc with
        | some (.file content _) => appendLines path (content.drop size)
        | _ => pure ()

/-- The directory that the environment and the file of assignments name. -/
def configured : IO (Except (List SettingProblem) Value) := do
  let names := [Setting.cacheDir.name, Setting.temporaryDir.name]
  let environment ← names.filterMapM fun name => do
    return (← IO.getEnv name).map fun value => (name, value)
  let file ← try
      pure (some (← IO.FS.readFile ".env"))
    catch _ => pure none
  return (Settings.load { environment := environment, file := file }).map Settings.scratchDir

def usage : String :=
  "usage: sweep [-h] [--path PATH] [--older-than-hours HOURS] [--force] [--verbose] " ++
    "[--log-file FILE]"

def perform (a : Sweep.Arguments) (scratch : Value) : IO UInt32 := do
  let s ← surroundings
  let start : Sweep.Context := {
    temporary := Path.ofText s.temporary
    configured := scratch
    now := s.now
    stamp := ⟨Date.text s.now, "sweep"⟩ }
  match Sweep.meant start a with
  | .error f =>
      IO.eprintln f.message
      return 1
  | .ok target =>
      let real ← realText target.text
      let t ← addTarget { home := (Path.ofText s.home).parts, clock := s.now } real
      let t ← match a.logFile with
        | .value file => addLogDirectory t file
        | _ => pure t
      let before : Journal := { tree := t }
      let (ending, after) := Sweep.perform start { a with path := .value real } before
      for line in after.console do
        IO.eprintln line
      apply before after
      match ending with
      | .exit code => return code.toUInt32
      | .failed e =>
          IO.eprintln e.message
          return 1
      | .misused fault =>
          IO.eprintln fault.message
          return 2

end FileStash.Main

def main (arguments : List String) : IO UInt32 := do
  match FileStash.Sweep.readArguments arguments with
  | .error fault =>
      IO.eprintln FileStash.Main.usage
      IO.eprintln ("sweep: error: " ++ fault.message)
      return 2
  | .ok .help =>
      IO.println FileStash.Main.usage
      return 0
  | .ok (.sweep a) =>
      match ← FileStash.Main.configured with
      | .error problems =>
          for p in problems do
            IO.eprintln (p.setting.name ++ ": " ++ p.fault.kind)
          return 1
      | .ok scratch => FileStash.Main.perform a scratch
