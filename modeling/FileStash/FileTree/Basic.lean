import FileStash.Dict
import FileStash.Path

/-!
Trees of files, directories and symbolic links. A place in a tree is the list of
the names on the way down from the root, which is always a directory.
-/

namespace FileStash

abbrev Location := List String

inductive Node
  | file (content : List UInt8) (modified : Int)
  | directory
  | link (target : String)
deriving DecidableEq, Repr

/-- The tree as a process sees it: relative paths start from `home`, and a file
that is written gets the time of the clock. -/
structure FileTree where
  nodes : Dict Location Node := []
  home : Location := []
  clock : Int := 0
deriving DecidableEq, Repr, Inhabited

namespace FileTree

def get? (t : FileTree) (loc : Location) : Option Node :=
  if loc = [] then some .directory else Dict.get? t.nodes loc

def put (t : FileTree) (loc : Location) (n : Node) : FileTree :=
  { t with nodes := Dict.insert t.nodes loc n }

def remove (t : FileTree) (loc : Location) : FileTree :=
  { t with nodes := Dict.erase t.nodes loc }

def link? (t : FileTree) (loc : Location) : Option String :=
  match t.get? loc with
  | some (.link target) => some target
  | _ => none

def names (t : FileTree) (dir : Location) : List String :=
  t.nodes.filterMap fun e =>
    match e.1.getLast? with
    | some name => if e.1.dropLast = dir then some name else none
    | none => none

def below (t : FileTree) (loc : Location) : List (Location × Node) :=
  t.nodes.filterMap fun e =>
    if loc.isPrefixOf e.1 && e.1.length ≠ loc.length then some (e.1.drop loc.length, e.2) else none

/-- The trees that an operating system can hold: whatever is in a tree lies in a
directory of it. -/
def WellFormed (t : FileTree) : Prop :=
  ∀ loc n, t.get? loc = some n → t.get? loc.dropLast = some .directory

def LinkFree (t : FileTree) : Prop :=
  ∀ loc, t.link? loc = none

theorem get?_root (t : FileTree) : t.get? [] = some .directory := rfl

theorem get?_put_self (t : FileTree) {loc : Location} (n : Node) (h : loc ≠ []) :
    (t.put loc n).get? loc = some n := by
  simp [get?, put, h, Dict.get?_insert_self]

theorem get?_put_of_ne (t : FileTree) {loc loc' : Location} (n : Node)
    (h : loc' ≠ loc) :
    (t.put loc n).get? loc' = t.get? loc' := by
  simp [get?, put, Dict.get?_insert_of_ne _ _ h]

theorem get?_remove_self (t : FileTree) {loc : Location} (h : loc ≠ []) :
    (t.remove loc).get? loc = none := by
  simp [get?, remove, h, Dict.get?_erase_self]

theorem get?_remove_of_ne (t : FileTree) {loc loc' : Location} (h : loc' ≠ loc) :
    (t.remove loc).get? loc' = t.get? loc' := by
  simp [get?, remove, Dict.get?_erase_of_ne _ h]

end FileTree

end FileStash
