import FileStash.Number.Binary64
import FileStash.Text.Blank
import FileStash.Text.Digit

namespace FileStash

/-- The blanks and digits of the texts that numbers are read from. -/
structure Alphabet where
  blank : Char → Bool
  digit : Char → Option Nat

def Alphabet.wide : Alphabet := ⟨Text.isNumberBlank, Text.digitValue?⟩

def Alphabet.ascii : Alphabet := ⟨Text.isAsciiBlank, Text.asciiDigit?⟩

def maxIntegerDigits : Nat := 4300

inductive LiteralFault
  | malformed
  | tooManyDigits (count : Nat)
deriving DecidableEq, Repr

def takeSign : List Char → Bool × List Char
  | '-' :: cs => (true, cs)
  | '+' :: cs => (false, cs)
  | cs => (false, cs)

/-- A run of digits with single underscores inside it, and what follows the run.
The run must end with a digit; `after` says whether a digit has just been
read. -/
def takeDigits (digit : Char → Option Nat) (after : Bool) :
    List Char → Option (List Nat × List Char)
  | [] => if after then some ([], []) else none
  | c :: cs =>
      match digit c with
      | some d => (takeDigits digit true cs).map fun r => (d :: r.1, r.2)
      | none =>
          if c = '_' then if after then takeDigits digit false cs else none
          else if after then some ([], c :: cs) else none

def ofDigits (ds : List Nat) : Nat :=
  ds.foldl (fun n d => 10 * n + d) 0

def readInteger (a : Alphabet) (cs : List Char) : Except LiteralFault Int :=
  let (negative, body) := takeSign (Text.trim a.blank cs)
  match takeDigits a.digit false body with
  | none => .error .malformed
  | some (ds, rest) =>
      if maxIntegerDigits < ds.length then .error (.tooManyDigits ds.length)
      else if !rest.isEmpty then .error .malformed
      else .ok (if negative then -(ofDigits ds : Int) else ofDigits ds)

def integerText? (n : Int) : Option String :=
  let digits := Text.natDigits n.natAbs
  if maxIntegerDigits < digits.length then none
  else some (String.ofList (if n < 0 then '-' :: digits else digits))

def plainDigits (a : Alphabet) (cs : List Char) : List Char :=
  cs.map fun c => match a.digit c with
    | some d => Nat.digitChar d
    | none => c

def dropUnderscores (after : Bool) : List Char → Option (List Char)
  | [] => some []
  | '_' :: c :: cs =>
      if after && c.isDigit then (dropUnderscores true cs).map (c :: ·) else none
  | c :: cs => if c = '_' then none else (dropUnderscores c.isDigit cs).map (c :: ·)

def readExponent : List Char → Option Int
  | [] => some 0
  | c :: cs =>
      if c = 'e' ∨ c = 'E' then
        let (negative, ds) := takeSign cs
        if ds.isEmpty || !ds.all Char.isDigit then none
        else
          let n : Int := ofDigits (ds.map (·.toNat - 48))
          some (if negative then -n else n)
      else none

def readDecimal (negative : Bool) (cs : List Char) : Option Binary64 :=
  let whole := cs.takeWhile Char.isDigit
  let rest := cs.dropWhile Char.isDigit
  let (places, tail) := match rest with
    | '.' :: r => (r.takeWhile Char.isDigit, r.dropWhile Char.isDigit)
    | r => ([], r)
  if whole.isEmpty && places.isEmpty then none
  else do
    let e ← readExponent tail
    some (Binary64.ofDecimal negative (ofDigits ((whole ++ places).map (·.toNat - 48)))
      (e - places.length))

/-- Reads a floating-point number that has ASCII digits and neither blanks nor
underscores; also an infinite or undefined one by name. -/
def readBareFloat (cs : List Char) : Option Binary64 :=
  let (negative, body) := takeSign cs
  let word := String.ofList (Text.lower body)
  if word = "inf" ∨ word = "infinity" then some (.infinite negative)
  else if word = "nan" then some .nan
  else readDecimal negative body

/-- Reads a floating-point number between blanks, with single underscores
between digits. -/
def readFloat (a : Alphabet) (cs : List Char) : Option Binary64 :=
  (dropUnderscores false (plainDigits a (Text.trim a.blank cs))).bind readBareFloat

end FileStash
