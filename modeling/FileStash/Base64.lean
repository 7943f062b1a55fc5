/-!
Base64 with the standard alphabet. Writing pads the last group; reading is
strict: each character outside the alphabet, and padding that is missing or out
of place, is a fault of its own.
-/

namespace FileStash.Base64

def symbol (n : Nat) : Char :=
  if n < 26 then Char.ofNat (65 + n)
  else if n < 52 then Char.ofNat (71 + n)
  else if n < 62 then Char.ofNat (n - 4)
  else if n = 62 then '+' else '/'

def index? (c : Char) : Option Nat :=
  let n := c.toNat
  if 65 ≤ n ∧ n ≤ 90 then some (n - 65)
  else if 97 ≤ n ∧ n ≤ 122 then some (n - 71)
  else if 48 ≤ n ∧ n ≤ 57 then some (n + 4)
  else if c = '+' then some 62
  else if c = '/' then some 63
  else none

/-- Three octets become four characters; a last group of one or two octets is
padded. -/
def encode : List UInt8 → List Char
  | [] => []
  | [a] => [symbol (a.toNat / 4), symbol (a.toNat % 4 * 16), '=', '=']
  | [a, b] =>
      [symbol (a.toNat / 4), symbol (a.toNat % 4 * 16 + b.toNat / 16),
        symbol (b.toNat % 16 * 4), '=']
  | a :: b :: c :: rest =>
      symbol (a.toNat / 4) :: symbol (a.toNat % 4 * 16 + b.toNat / 16) ::
        symbol (b.toNat % 16 * 4 + c.toNat / 64) :: symbol (c.toNat % 64) :: encode rest

inductive Fault
  | leadingPadding
  | foreignCharacter
  | innerPadding
  | excessData
  | loneCharacter (count : Nat)
  | missingPadding
  | nonAscii
deriving DecidableEq, Repr

def Fault.message : Fault → String
  | .leadingPadding => "Leading padding not allowed"
  | .foreignCharacter => "Only base64 data is allowed"
  | .innerPadding => "Discontinuous padding not allowed"
  | .excessData => "Excess data after padding"
  | .loneCharacter count =>
      "Invalid base64-encoded string: number of data characters (" ++ toString count ++
        ") cannot be 1 more than a multiple of 4"
  | .missingPadding => "Incorrect padding"
  | .nonAscii => "string argument should contain only ASCII characters"

/-- What has been read: the characters of the open group, the padding since the
last data character, whether any padding was met, and the number of octets
written. -/
structure State where
  quad : Nat
  carry : Nat
  pads : Nat
  started : Bool
  written : Nat

def State.start : State := ⟨0, 0, 0, false, 0⟩

def State.octet? (s : State) (v : Nat) : Option UInt8 :=
  match s.quad with
  | 1 => some (UInt8.ofNat (s.carry * 4 + v / 16))
  | 2 => some (UInt8.ofNat (s.carry * 16 + v / 4))
  | 3 => some (UInt8.ofNat (s.carry * 64 + v))
  | _ => none

def State.push (s : State) (v : Nat) : State :=
  match s.quad with
  | 0 => { s with quad := 1, carry := v, pads := 0 }
  | 1 => { s with quad := 2, carry := v % 16, pads := 0, written := s.written + 1 }
  | 2 => { s with quad := 3, carry := v % 4, pads := 0, written := s.written + 1 }
  | _ => { s with quad := 0, carry := 0, pads := 0, written := s.written + 1 }

def decodeFrom (s : State) : List Char → Except Fault (List UInt8)
  | [] =>
      if s.quad = 0 then .ok []
      else if s.quad = 1 then .error (.loneCharacter (s.written / 3 * 4 + 1))
      else .error .missingPadding
  | c :: cs =>
      if c = '=' then
        if 2 ≤ s.quad ∧ 4 ≤ s.quad + (s.pads + 1) then
          if cs.isEmpty then .ok [] else .error .excessData
        else
          let pads := if 2 ≤ s.quad then s.pads + 1 else s.pads
          decodeFrom { s with started := true, pads := pads } cs
      else match index? c with
        | none => .error .foreignCharacter
        | some v =>
            if s.started then .error .innerPadding
            else
              let rest := decodeFrom (s.push v) cs
              match s.octet? v with
              | some b => rest.map (b :: ·)
              | none => rest

/-- Reads a text. Octets may be given in place of a text, as the characters they
are in ASCII. -/
def decode (cs : List Char) : Except Fault (List UInt8) :=
  if cs.any fun c => 0x7f < c.toNat then .error .nonAscii
  else if cs.head? = some '=' then .error .leadingPadding
  else decodeFrom .start cs

/-- Reads octets that hold the text; an octet beyond ASCII is foreign to the
alphabet. -/
def decodeOctets (bytes : List UInt8) : Except Fault (List UInt8) :=
  let cs := bytes.map fun b => Char.ofNat b.toNat
  if cs.head? = some '=' then .error .leadingPadding else decodeFrom .start cs

end FileStash.Base64
