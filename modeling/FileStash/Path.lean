import FileStash.Text.Split
import FileStash.Text.Utf8

namespace FileStash

inductive PathRoot
  | relative
  | single
  | double
deriving DecidableEq, Repr

structure Path where
  root : PathRoot
  parts : List String
deriving DecidableEq, Repr

namespace Path

def pieces (cs : List Char) : List String :=
  (Text.splitOn '/' cs).map String.ofList

def isPart (s : String) : Bool :=
  s ≠ "" && s ≠ "."

def rootOf : List Char → PathRoot
  | '/' :: '/' :: '/' :: _ => .single
  | '/' :: '/' :: _ => .double
  | '/' :: _ => .single
  | _ => .relative

def ofText (s : String) : Path :=
  ⟨rootOf s.toList, (pieces s.toList).filter isPart⟩

def isAbsolute (p : Path) : Bool :=
  p.root ≠ .relative

def rootText : PathRoot → String
  | .relative => ""
  | .single => "/"
  | .double => "//"

def text (p : Path) : String :=
  if p.root = .relative ∧ p.parts = [] then "."
  else rootText p.root ++ String.intercalate "/" p.parts

def name (p : Path) : String :=
  p.parts.getLast?.getD ""

def parent (p : Path) : Path :=
  ⟨p.root, p.parts.dropLast⟩

def join (a b : Path) : Path :=
  if b.isAbsolute then b else ⟨a.root, a.parts ++ b.parts⟩

def child (p : Path) (name : String) : Path :=
  ⟨p.root, p.parts ++ [name]⟩

def isBelowOrAt (p base : Path) : Bool :=
  p.root = base.root && base.parts.isPrefixOf p.parts

def hasNul (p : Path) : Bool :=
  p.parts.any fun s => s.toList.contains '\x00'

theorem isBelowOrAt_self (p : Path) : p.isBelowOrAt p = true := by
  simp [isBelowOrAt]

end Path

end FileStash
