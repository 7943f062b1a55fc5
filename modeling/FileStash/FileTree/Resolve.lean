import FileStash.FileTree.Access

/-!
The real path of a path: absolute, with links replaced by what they lead to and
double dots applied component by component. What is missing is kept as text. A
link that leads back to itself is kept too, with all that follows it; only if
the system then fails to follow the result for its links is there no real path.
-/

namespace FileStash.FileTree

/-- A place on the way, and whether the path to it is still spelled from the
current directory. -/
structure Spot where
  relative : Bool
  loc : Location
deriving DecidableEq, Repr

def Spot.down (s : Spot) (name : String) : Spot :=
  ⟨s.relative, s.loc ++ [name]⟩

def Spot.up (s : Spot) : Spot :=
  ⟨s.relative, s.loc.dropLast⟩

/-- The links met so far, with what they lead to once that is known. -/
abbrev Seen := Dict Spot (Option Spot)

/-- `stuck` holds the path of a link that leads back to itself, with what
follows it. -/
inductive Progress
  | reached (spot : Spot) (seen : Seen)
  | stuck (path : Path)
deriving DecidableEq, Repr

def pathOf (loc : Location) : Path :=
  ⟨.single, loc⟩

/-- A path with the text that follows it; where that starts with a slash it is a
path of its own. -/
def joinRest (path : Path) (rest : List String) : Path :=
  path.join (Path.ofText (String.intercalate "/" rest))

def hasNul (s : String) : Bool :=
  s.toList.contains '\x00'

/-- Goes through the components from a spot; `expand` goes through the target of
a link. -/
def trace (t : FileTree) (expand : Spot → String → Seen → Access Progress) :
    Spot → Seen → List String → Access Progress
  | spot, seen, [] => .ok (.reached spot seen)
  | spot, seen, c :: cs =>
      if c = "" ∨ c = "." then trace t expand spot seen cs
      else if c = ".." then trace t expand spot.up seen cs
      else if hasNul c then .error (.illFormed .embeddedNul)
      else
        let next := spot.down c
        match t.link? next.loc with
        | none => trace t expand next seen cs
        | some target =>
            match Dict.get? seen next with
            | some (some done) => trace t expand done seen cs
            | some none => .ok (.stuck (joinRest (pathOf next.loc) cs))
            | none =>
                match expand spot target (Dict.insert seen next none) with
                | .error f => .error f
                | .ok (.stuck path) => .ok (.stuck (joinRest path cs))
                | .ok (.reached done seen') =>
                    trace t expand done (Dict.insert seen' next (some done)) cs

def spotOf (target : String) (dir : Spot) : Spot :=
  if target.toList.head? = some '/' then ⟨false, []⟩ else dir

/-- Goes through the target of a link that lies in a directory, at most so many
links deep. -/
def expandLink (t : FileTree) : Nat → Spot → String → Seen → Access Progress
  | 0 => fun dir target _ => .ok (.stuck (joinRest (pathOf dir.loc) (Path.pieces target.toList)))
  | depth + 1 => fun dir target seen =>
      trace t (expandLink t depth) (spotOf target dir) seen (Path.pieces target.toList)

def maxDepth (t : FileTree) : Nat :=
  2 * t.nodes.length + 1

/-- The path with its double dots applied without a look at the tree. -/
def normalise (p : Path) : Path :=
  ⟨p.root, p.parts.foldl (fun done c => if c = ".." then done.dropLast else done ++ [c]) []⟩

/-- A path as far as it can be followed, its components resolved one after the
other. -/
def follow (t : FileTree) (p : Path) : Access Path := do
  let start : Spot := if p.isAbsolute then ⟨false, []⟩ else ⟨true, t.home⟩
  match ← trace t (expandLink t t.maxDepth) start [] p.parts with
  | .reached spot _ => .ok (pathOf spot.loc)
  | .stuck path => .ok (normalise path)

/-- The real path. It fails where the system cannot follow the result for its
links. -/
def resolve (t : FileTree) (p : Path) : Access Path := do
  let real ← t.follow p
  match t.stat real with
  | .error (.system .linkLoop path) => .error (.linkLoop path)
  | .error (.illFormed .embeddedNul) => .error (.illFormed .embeddedNul)
  | _ => .ok real

end FileStash.FileTree
