import FileStash.Logging.Run
import FileStash.Sweep.Arguments
import FileStash.Sweep.Basic
import FileStash.Sweep.Size

namespace FileStash.Sweep

/-- Where and when a command runs: the directory of temporary files, the
directory from the settings, the time, and what stands in the way of removing
single entries. -/
structure Context where
  temporary : Path
  configured : Value := .null
  now : Int
  obstacles : Obstacles := {}
  stamp : Stamp

/-- How a command ends: with an exit code, with a failure that nobody handles,
or without having understood its arguments. -/
inductive Ending
  | exit (code : Nat)
  | failed (f : StoreError)
  | misused (fault : UsageFault)
deriving DecidableEq, Repr

/-- The exit code of a command that refuses to sweep the root directory. -/
def refusalCode : Nat := 3

/-- The directory that is meant: the one in the arguments, else the configured
one, else the one for temporary files. -/
def meant (c : Context) (a : Arguments) : Except Failure Path :=
  let path : Value :=
    match a.path with
    | .absent => c.configured
    | given => given.toValue .text
  if path.truth then path.toPath else .ok c.temporary

def note (message : String) : Program Unit :=
  Program.note .info logger message

def sweepAndReport (o : Order) (dir : Path) : Program Unit := do
  note ((if o.dryRun then "Cleaning (dry-run) " else "Cleaning ") ++ dir.text)
  let tally ← sweep o dir
  note ("Files " ++ (if o.dryRun then "to remove" else "removed") ++ ": " ++ toString tally.files)
  let size ← .ofConverted (readableSize (.int tally.octets))
  note ("Space " ++ (if o.dryRun then "to free" else "freed") ++ ": " ++ size)
  if o.dryRun then note "Run again with --force to apply changes."

def isSweepable (t : FileTree) (p : Path) : FileTree.Access Bool := do
  if ← t.exists? p then t.isDirectory p else .ok false

def orderOf (c : Context) (a : Arguments) : Order where
  now := c.now
  dryRun := !a.force
  older := a.older.toValue .float
  obstacles := c.obstacles

/-- The work of the command once logging is set up; it answers with an exit
code. -/
def work (c : Context) (a : Arguments) : Program Nat := do
  let t ← Program.currentTree
  let dir ← .ofConverted ((meant c a).bind t.resolve)
  if !(← .ofConverted (isSweepable t dir)) then
    note ("Nothing to clean: " ++ dir.text ++ " does not exist or is not a directory.")
    .done 0
  else if dir = Path.ofText "/" then
    Program.note .error logger "Refusing to operate on root directory."
    .done refusalCode
  else
    sweepAndReport (orderOf c a) dir
    .done 0

def noClient : Client Unit :=
  fun s _ => (.error .wrongType, s)

def logLevel (a : Arguments) : Value :=
  .int (if a.verbose then Severity.debug.level else Severity.info.level)

def perform (c : Context) (a : Arguments) (j : Journal) : Ending × Journal :=
  match j.enable (logLevel a) (a.logFile.toValue .text) with
  | (.error f, j) => (.failed (.bare f), j)
  | (.ok (), j) =>
      match (work c a).journaled noClient c.stamp () j with
      | (.ok code, _, j) => (.exit code, j)
      | (.error e, _, j) => (.failed e, j)

def command (c : Context) (arguments : List String) (j : Journal) :
    Ending × Journal :=
  match readArguments arguments with
  | .error fault => (.misused fault, j)
  | .ok .help => (.exit 0, j)
  | .ok (.sweep a) => perform c a j

end FileStash.Sweep
