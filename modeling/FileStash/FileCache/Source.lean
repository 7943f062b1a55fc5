import FileStash.FileTree.Access
import FileStash.Program
import FileStash.Store.Checks

namespace FileStash

/-- An open file answers a request for its content once, with a value or an
error. -/
inductive FileSource
  | value (v : Value)
  | opened (name : Option Value) (content : Except ClientError Value)

namespace FileSource

/-- The name of an open file, where it is a text or path that is not empty. -/
def usableName? : Option Value → Option Path
  | some (.text s) => if s.isEmpty then none else some (Path.ofText s)
  | some (.path p) => some p
  | _ => none

def contentOf (name : String) :
    Except ClientError Value → Except StoreError (List UInt8)
  | .error e =>
      if e.family = .system then .error (.fileIO (.unreadable name (.client e)))
      else .error (.bare (.client e))
  | .ok (.text _) => .error (.invalidArgument (.textMode name))
  | .ok v => Store.bare v.toBytes

/-- The failure to read a file; trouble with the system is a failure of the
cache. -/
def readFailure (p : Path) (f : Failure) : StoreError :=
  if f.isSystem then .fileIO (.unreadable p.text f) else .bare f

def read : FileSource → Program (String × List UInt8)
  | .opened name content =>
      match usableName? name with
      | none => .fail (.invalidArgument .namelessFile)
      | some p => do
          let bytes ← .ofExcept (contentOf p.name content)
          .done (p.name, bytes)
  | .value v => do
      let p ← .ofConverted v.toPath
      if p.name.isEmpty then
        let shown ← .ofConverted v.shown
        .fail (.invalidArgument (.noFileName shown))
      else
        match (← Program.currentTree).read p with
        | .ok bytes => .done (p.name, bytes)
        | .error f => .fail (readFailure p f)

end FileSource

end FileStash
