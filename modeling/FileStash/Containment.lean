import FileStash.FileTree.Resolve
import FileStash.Value.Convert

namespace FileStash.FileTree

/-- The real path of a name in a directory, refused where it is not strictly
below the directory. -/
def safePath (t : FileTree) (base : Path) (name : Value) : Access Path := do
  let root ← t.resolve base
  let below ← name.toPath
  let full ← t.resolve (root.join below)
  if !full.isBelowOrAt root then .error (.illFormed (.outsideDirectory (← name.plain)))
  else if full = root then .error (.illFormed (.directoryItself (← name.shown)))
  else .ok full

end FileStash.FileTree
