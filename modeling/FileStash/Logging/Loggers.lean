import FileStash.FileTree.Access
import FileStash.Logging.Level
import FileStash.Logging.Record

/-!
Loggers form a hierarchy by the dots in their names, with the root logger above
all. A record goes to the handlers of its logger and of those above it, up to
the first that does not pass records on.
-/

namespace FileStash

/-- A handler writes records of its level and above, to the console or to a file
that it has opened. -/
structure Handler where
  level : Level
  file : Option (Path × Location) := none
deriving DecidableEq, Repr

structure Logger where
  level : Level := .unset
  propagate : Bool := true
  handlers : List Handler := []
deriving DecidableEq, Repr

structure Loggers where
  root : Logger := { level := .warning }
  named : Dict String Logger := []
deriving DecidableEq, Repr

namespace Loggers

def rootName : String := "root"

def isRoot (name : String) : Bool :=
  name.isEmpty || name = rootName

def get (l : Loggers) (name : String) : Logger :=
  if isRoot name then l.root else (Dict.get? l.named name).getD {}

def put (l : Loggers) (name : String) (g : Logger) : Loggers :=
  if isRoot name then { l with root := g } else { l with named := Dict.insert l.named name g }

def ensure (l : Loggers) (name : String) : Loggers :=
  l.put name (l.get name)

def dots (name : List Char) : List Nat :=
  ((name.zipIdx.filter (·.1 = '.')).map (·.2)).reverse

def isOlder (l : Loggers) (name other : String) : Bool :=
  ((Dict.keys l.named).takeWhile (· ≠ other)).contains name

/-- Whether a logger of some name is above one whose name it starts: it must be
there, and where the root logger's name starts the same way, it comes only above
those that are younger. -/
def isAbove (l : Loggers) (part name : String) : Bool :=
  Dict.contains l.named part &&
    !(part.toList.isPrefixOf rootName.toList && l.isOlder name part)

/-- The names of the loggers above a name, the nearest first, where `below` is
the last that was found. The dot right before a part that does not count is
passed over, and so is a dot at the start. -/
def above (l : Loggers) (name : List Char) (below : String) (limit : Nat) :
    List Nat → List String
  | [] => []
  | dot :: dots =>
      if dot = 0 ∨ limit ≤ dot then above l name below limit dots
      else
        let part := String.ofList (name.take dot)
        if l.isAbove part below then part :: above l name part dot dots
        else above l name below (dot - 1) dots

def lineage (l : Loggers) (name : String) : List Logger :=
  if isRoot name then [l.root]
  else
    let cs := name.toList
    l.get name :: (l.above cs name cs.length (dots cs)).map l.get ++ [l.root]

def effectiveLevel (lineage : List Logger) : Int :=
  ((lineage.map (·.level.value)).find? (· ≠ 0)).getD 0

def reached : List Logger → List Logger
  | [] => []
  | g :: gs => if g.propagate then g :: reached gs else [g]

def handlers (l : Loggers) (name : String) : List Handler :=
  (reached (l.lineage name)).flatMap (·.handlers)

/-- Whether a logger takes records of a level at all; none at zero or below is
taken. -/
def takes (l : Loggers) (name : String) (level : Int) : Bool :=
  0 < level && effectiveLevel (l.lineage name) ≤ level

end Loggers

end FileStash
