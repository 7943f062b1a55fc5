import FileStash.Failure
import FileStash.Value.Shown

namespace FileStash.Value

abbrev Converted := Except Failure

def shown (v : Value) : Converted String :=
  match v.shown? with
  | some s => .ok s
  | none => .error (.illFormed .digitLimit)

def plain (v : Value) : Converted String :=
  match v.plain? with
  | some s => .ok s
  | none => .error (.illFormed .digitLimit)

/-- The characters that octets stand for when a number is read from them. -/
def octetChars (b : List UInt8) : List Char :=
  b.map fun x => Char.ofNat x.toNat

def literalFailure (shown : String) : LiteralFault → Failure
  | .malformed => .illFormed (.notInteger shown)
  | .tooManyDigits count => .illFormed (.tooManyDigits count)

def toInt : Value → Converted Int
  | .bool b => .ok (if b then 1 else 0)
  | .int n => .ok n
  | .float x =>
      match x, x.truncate? with
      | _, some n => .ok n
      | .nan, none => .error (.illFormed .undefinedInteger)
      | _, none => .error .overflow
  | .text s => (readInteger .wide s.toList).mapError (literalFailure (Text.quote s))
  | .bytes b => (readInteger .ascii (octetChars b)).mapError (literalFailure (Text.quoteBytes b))
  | _ => .error .wrongType

def toFloat : Value → Converted Binary64
  | .bool b => .ok ((Binary64.ofInt? (if b then 1 else 0)).getD .zero)
  | .int n =>
      match Binary64.ofInt? n with
      | some x => .ok x
      | none => .error .overflow
  | .float x => .ok x
  | .text s =>
      match readFloat .wide s.toList with
      | some x => .ok x
      | none => .error (.illFormed (.notFloat (Text.quote s)))
  | .bytes b =>
      match readFloat .ascii (octetChars b) with
      | some x => .ok x
      | none => .error (.illFormed (.notFloat (Text.quoteBytes b)))
  | _ => .error .wrongType

/-- The elements of a value: the characters of a text, the octets of bytes, the
keys of a map. -/
def elements : Value → Converted (List Value)
  | .text s => .ok (s.toList.map fun c => .text (String.singleton c))
  | .bytes b => .ok (b.map fun x => .int x.toNat)
  | .list xs => .ok xs
  | .map es => .ok (es.map (·.1))
  | .set ms => .ok ms
  | _ => .error .wrongType

def addMember (ms : List Value) (m : Value) : List Value :=
  if ms.any (· == m) then ms else ms ++ [m]

def toSet (v : Value) : Converted (List Value) := do
  let xs ← v.elements
  if xs.all isKey then .ok (xs.foldl addMember []) else .error .wrongType

def addPairs (index : Nat) (d : Dict Value Value) :
    List Value → Converted (Dict Value Value)
  | [] => .ok d
  | v :: vs =>
      match v.elements with
      | .error f => .error f
      | .ok [k, x] =>
          if k.isKey then addPairs (index + 1) (Dict.insert d k x) vs else .error .wrongType
      | .ok xs => .error (.illFormed (.pairLength index xs.length))

def toMap : Value → Converted (Dict Value Value)
  | .map es => .ok es
  | v => do addPairs 0 [] (← v.elements)

def maxCount : Int := Int.pow 2 63 - 1

def octets : List Value → Converted (List UInt8)
  | [] => .ok []
  | v :: vs =>
      match v with
      | .bool b => (octets vs).map ((if b then 1 else 0) :: ·)
      | .int n =>
          if 0 ≤ n ∧ n < 256 then (octets vs).map (UInt8.ofNat n.toNat :: ·)
          else .error (.illFormed .octetRange)
      | _ => .error .wrongType

def zeroOctets (n : Int) : Converted (List UInt8) :=
  if maxCount < n ∨ n < -maxCount - 1 then .error .overflow
  else if n < 0 then .error (.illFormed .negativeCount)
  else .ok (List.replicate n.toNat 0)

/-- The octets that a value stands for: bytes themselves, a count of zeros, a
run of integers, or the text of a path. -/
def toBytes : Value → Converted (List UInt8)
  | .bytes b => .ok b
  | .bool b => .ok (List.replicate (if b then 1 else 0) 0)
  | .int n => zeroOctets n
  | .list xs => octets xs
  | .map es => octets (es.map (·.1))
  | .set ms => octets ms
  | .path p => .ok (Text.Utf8.encode p.text)
  | _ => .error .wrongType

def toPath : Value → Converted Path
  | .text s => .ok (Path.ofText s)
  | .path p => .ok p
  | _ => .error .wrongType

/-- A map built from entries as they are written, later ones over earlier
ones. -/
def ofEntries (entries : List (Value × Value)) : Value :=
  .map (Dict.ofEntries entries)

def ofMembers (members : List Value) : Value :=
  .set (members.foldl addMember [])

end FileStash.Value
