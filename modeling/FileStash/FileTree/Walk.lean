import FileStash.Failure
import FileStash.FileTree.Basic

/-!
Looking up a path the way an operating system does: name by name, following
symbolic links, at most forty of them in one look-up.
-/

namespace FileStash.FileTree

/-- Where a look-up ends: at something that is there, or at a name that its
directory does not hold. -/
inductive Place
  | found (loc : Location) (node : Node)
  | vacant (loc : Location)
deriving DecidableEq, Repr

abbrev LookUp := Except SystemCode Place

def maxLinks : Nat := 40

def maxName : Nat := 255

def maxPath : Nat := 4095

def startOf (target : String) (dir : Location) : Location :=
  if target.toList.head? = some '/' then [] else dir

/-- Goes down the names from a place. A link is handed to `expand` with the
directory it lies in and the names that remain; a link at the very end only
where `follow` says so. -/
def descend (t : FileTree) (follow : Bool)
    (expand : Location → List String → LookUp) :
    Location → List String → LookUp
  | loc, [] =>
      match t.get? loc with
      | some n => .ok (.found loc n)
      | none => .error .noEntry
  | loc, c :: cs =>
      if t.get? loc ≠ some .directory then .error .notDirectory
      else if c = "" ∨ c = "." then descend t follow expand loc cs
      else if c = ".." then descend t follow expand loc.dropLast cs
      else if maxName < Text.Utf8.size c then .error .nameTooLong
      else
        match t.get? (loc ++ [c]) with
        | none => if cs = [] then .ok (.vacant (loc ++ [c])) else .error .noEntry
        | some (.link target) =>
            if cs = [] ∧ !follow then .ok (.found (loc ++ [c]) (.link target))
            else expand (startOf target loc) (Path.pieces target.toList ++ cs)
        | some _ => descend t follow expand (loc ++ [c]) cs

def walk (t : FileTree) (follow : Bool) : Nat → Location → List String → LookUp
  | 0 => descend t follow fun _ _ => .error .linkLoop
  | links + 1 => descend t follow (walk t follow links)

def lookUp (t : FileTree) (follow : Bool) (p : Path) : LookUp :=
  if maxPath < Text.Utf8.size p.text then .error .nameTooLong
  else walk t follow maxLinks (if p.isAbsolute then [] else t.home) p.parts

theorem descend_nil (t : FileTree) (follow : Bool)
    (expand : Location → List String → LookUp) {loc : Location} {n : Node}
    (h : t.get? loc = some n) :
    descend t follow expand loc [] = .ok (.found loc n) := by
  simp [descend, h]

end FileStash.FileTree
