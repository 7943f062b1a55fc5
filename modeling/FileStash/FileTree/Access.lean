import FileStash.FileTree.Walk

namespace FileStash.FileTree

abbrev Access := Except Failure

def resolving (t : FileTree) (follow : Bool) (p : Path) : Access Place :=
  if p.hasNul then .error (.illFormed .embeddedNul)
  else (t.lookUp follow p).mapError fun code => .system code p.text

def failing {α : Type} (p : Path) (code : SystemCode) : Access α :=
  .error (.system code p.text)

def stat (t : FileTree) (p : Path) : Access (Location × Node) := do
  match ← t.resolving true p with
  | .found loc n => .ok (loc, n)
  | .vacant _ => failing p .noEntry

def isAbsence : Failure → Bool
  | .system code _ => code = .noEntry || code = .notDirectory || code = .linkLoop
  | .illFormed .embeddedNul => true
  | _ => false

/-- A question about what a path leads to; nothing there is an answer, other
trouble is not. -/
def asks (t : FileTree) (p : Path) (question : Node → Bool) : Access Bool :=
  match t.stat p with
  | .ok r => .ok (question r.2)
  | .error f => if isAbsence f then .ok false else .error f

def isFile (t : FileTree) (p : Path) : Access Bool :=
  t.asks p fun n => match n with
    | .file .. => true
    | _ => false

def isDirectory (t : FileTree) (p : Path) : Access Bool :=
  t.asks p (· = .directory)

def exists? (t : FileTree) (p : Path) : Access Bool :=
  t.asks p fun _ => true

def isLink (t : FileTree) (p : Path) : Access Bool :=
  match t.resolving false p with
  | .ok (.found _ (.link _)) => .ok true
  | .ok _ => .ok false
  | .error f => if isAbsence f then .ok false else .error f

def read (t : FileTree) (p : Path) : Access (List UInt8) := do
  match ← t.stat p with
  | (_, .file content _) => .ok content
  | _ => failing p .isDirectory

/-- The place of the file that a path opens for writing, which may not be there
yet. -/
def openPlace (t : FileTree) (p : Path) : Access (Location × List UInt8) := do
  match ← t.resolving true p with
  | .found loc (.file content _) => .ok (loc, content)
  | .vacant loc => .ok (loc, [])
  | .found .. => failing p .isDirectory

/-- Opens the file that a path leads to, which creates or empties it, and puts so
much into it. -/
def write (t : FileTree) (p : Path) (content : List UInt8) :
    Access FileTree := do
  let r ← t.openPlace p
  .ok (t.put r.1 (.file content t.clock))

/-- Opens the file that a path leads to for appending; it is there
afterwards. -/
def openAppend (t : FileTree) (p : Path) : Access (Location × FileTree) := do
  let r ← t.openPlace p
  match t.get? r.1 with
  | some _ => .ok (r.1, t)
  | none => .ok (r.1, t.put r.1 (.file r.2 t.clock))

/-- Appends to a file that was opened; one that has been removed meanwhile takes
nothing. -/
def append (t : FileTree) (loc : Location) (more : List UInt8) : FileTree :=
  match t.get? loc with
  | some (.file content _) => t.put loc (.file (content ++ more) t.clock)
  | _ => t

def makeDirectory (t : FileTree) (p : Path) : Access FileTree := do
  match ← t.resolving false p with
  | .found .. => failing p .exists
  | .vacant loc => .ok (t.put loc .directory)

/-- The outcome of a change, and the tree afterwards: a change that fails may
have had effects. -/
abbrev Change := Except Failure Unit × FileTree

/-- How a write into an open file breaks off: how many octets have been taken, and
the number and text of the trouble. -/
structure Break where
  taken : Nat
  number : Nat
  text : String
deriving DecidableEq, Repr

def Break.failure (b : Break) : Failure :=
  .client (.ofSystem b.number b.text)

/-- Writes the file that a path leads to. A write that breaks off leaves the file
with what has been taken until then. -/
def fill (t : FileTree) (p : Path) (content : List UInt8) (broken : Option Break) : Change :=
  match broken with
  | none =>
      match t.write p content with
      | .error f => (.error f, t)
      | .ok t' => (.ok (), t')
  | some b =>
      match t.write p (content.take b.taken) with
      | .error f => (.error f, t)
      | .ok t' => (.error b.failure, t')

/-- A failure to make a directory is none where the directory is there. -/
def unlessDirectory (t : FileTree) (p : Path) (f : Failure) : Change :=
  if f.isSystem then
    match t.isDirectory p with
    | .ok true => (.ok (), t)
    | .ok false => (.error f, t)
    | .error f' => (.error f', t)
  else (.error f, t)

/-- Makes a directory unless it is there; `above` makes the missing ones above
it. -/
def ensureDirectory (t : FileTree) (p : Path) (above : Failure → Change) :
    Change :=
  match t.makeDirectory p with
  | .ok t' => (.ok (), t')
  | .error f =>
      match f with
      | .system .noEntry _ => above f
      | _ => t.unlessDirectory p f

/-- Makes a directory and the missing ones above it; so many parts of the path
may be missing. -/
def makeDirectoriesUpTo (t : FileTree) (p : Path) : Nat → Change
  | 0 => t.ensureDirectory p fun f => (.error f, t)
  | above + 1 =>
      t.ensureDirectory p fun _ =>
        match makeDirectoriesUpTo t p.parent above with
        | (.error f, t') => (.error f, t')
        | (.ok (), t') => t'.ensureDirectory p fun f => (.error f, t')

def makeDirectories (t : FileTree) (p : Path) : Change :=
  t.makeDirectoriesUpTo p p.parts.length

def makeLink (t : FileTree) (p : Path) (target : String) : Access FileTree := do
  match ← t.resolving false p with
  | .found .. => failing p .exists
  | .vacant loc => .ok (t.put loc (.link target))

def unlink (t : FileTree) (p : Path) : Access FileTree := do
  match ← t.resolving false p with
  | .found _ .directory => failing p .isDirectory
  | .found loc _ => .ok (t.remove loc)
  | .vacant _ => failing p .noEntry

def listing (t : FileTree) (p : Path) : Access (List String) := do
  match ← t.stat p with
  | (loc, .directory) => .ok (t.names loc)
  | _ => failing p .notDirectory

end FileStash.FileTree
