import FileStash.FileTree.Access
import FileStash.Program
import FileStash.Value.Basic

/-!
Removing the old files of a directory. Only regular files directly in the
directory are removed, no links and nothing below. Trouble with one entry is
recorded and does not keep the sweep from the others.
-/

namespace FileStash.Sweep

def logger : String := libraryLogger "cleanup_scratch"

/-- Trouble that the system makes over single entries, by their names: when it
is asked what kind of thing an entry is, when it is asked for size and time, and
when an entry is to be removed. -/
structure Obstacles where
  kind : String → Option SystemCode := fun _ => none
  status : String → Option SystemCode := fun _ => none
  removal : String → Option SystemCode := fun _ => none

/-- What a sweep is to do. An entry is old enough unless its age in hours is
less than `older`. -/
structure Order where
  now : Int
  dryRun : Bool
  older : Value := .null
  obstacles : Obstacles := {}

/-- How many files there were, and their size. -/
structure Tally where
  files : Nat := 0
  octets : Nat := 0
deriving DecidableEq, Repr

def Tally.add (t : Tally) (size : Nat) : Tally :=
  ⟨t.files + 1, t.octets + size⟩

def hours (seconds : Int) : Binary64 :=
  .ofRatio (seconds < 0) seconds.natAbs 3600

def isYoung (older : Value) (age : Binary64) : Except Failure Bool :=
  match older with
  | .null => .ok false
  | v =>
      match v with
      | .bool _ | .int _ | .float _ => .ok (Binary64.numLt age.extended? v.extended?)
      | _ => .error .wrongType

/-- A failure that the system makes, or else an answer of the tree. -/
def unlessObstacle {α : Type} (obstacle : Option SystemCode) (p : Path)
    (answer : FileTree.Access α) : FileTree.Access α :=
  match obstacle with
  | some code => .error (.system code p.text)
  | none => answer

def isPlainFile (o : Obstacles) (t : FileTree) (p : Path) :
    FileTree.Access Bool := do
  let file ← unlessObstacle (o.kind p.name) p (t.isFile p)
  if !file then .ok false
  else .ok (!(← t.isLink p))

def measure (o : Order) (t : FileTree) (p : Path) :
    FileTree.Access (Nat × Int) :=
  unlessObstacle (o.obstacles.status p.name) p do
    match ← t.stat p with
    | (_, .file content modified) => .ok (content.length, o.now - modified)
    | _ => .ok (0, 0)

def selected? (o : Order) (t : FileTree) (p : Path) :
    FileTree.Access (Option Nat) := do
  if !(← isPlainFile o.obstacles t p) then .ok none
  else
    let (size, age) ← measure o t p
    if ← isYoung o.older (hours age) then .ok none else .ok (some size)

def removal (o : Order) (t : FileTree) (p : Path) : FileTree.Access FileTree :=
  match unlessObstacle (o.obstacles.removal p.name) p (t.unlink p) with
  | .error (.system .noEntry _) => .ok t
  | r => r

/-- Records trouble with the system and goes on; any other failure ends the
sweep. -/
def troubled (p : Path) (f : Failure) : Program Unit :=
  if f.isSystem then
    Program.note .warning logger ("Failed to process " ++ p.text ++ ": " ++ f.message)
  else .fail (.bare f)

/-- Removes an entry that was selected, unless the sweep is a dry run. -/
def removeSelected (o : Order) (p : Path) : Program Unit :=
  if o.dryRun then .done ()
  else do
    match removal o (← Program.currentTree) p with
    | .ok t => Program.replaceTree t
    | .error f => troubled p f

/-- Looks at one entry, and counts and removes it where it is to go. -/
def visit (o : Order) (tally : Tally) (p : Path) : Program Tally := do
  match selected? o (← Program.currentTree) p with
  | .error f =>
      troubled p f
      .done tally
  | .ok none => .done tally
  | .ok (some size) =>
      removeSelected o p
      .done (tally.add size)

def visitAll (o : Order) (dir : Path) (tally : Tally) :
    List String → Program Tally
  | [] => .done tally
  | name :: names => do
      let tally ← visit o tally (dir.child name)
      visitAll o dir tally names

def sweep (o : Order) (dir : Path) : Program Tally := do
  let t ← Program.currentTree
  let names ← .ofConverted (t.listing dir)
  visitAll o dir {} names

end FileStash.Sweep
