/-!
Binary floating-point numbers of 64 bits as exact numbers: a sign, a significand
below `2 ^ 53` and an exponent. Every result is the exact one rounded once, to
the nearest number and on a tie to the even significand.
-/

namespace FileStash

/-- `finite negative m e` is `m * 2 ^ e` with its sign. Zero has the least
exponent. -/
inductive Binary64
  | nan
  | infinite (negative : Bool)
  | finite (negative : Bool) (significand : Nat) (exponent : Int)
deriving DecidableEq, Repr, Inhabited

/-- The quotient rounded to the nearest whole number, a half to the even
neighbour. -/
def roundDiv (num den : Nat) : Nat :=
  let q := num / den
  let r := num % den
  if 2 * r < den then q
  else if den < 2 * r then q + 1
  else if q % 2 = 0 then q else q + 1

theorem two_mul_roundDiv_le (num den : Nat) (h : 0 < den) :
    2 * (den * roundDiv num den) ≤ 2 * num + den ∧
      2 * num ≤ 2 * (den * roundDiv num den) + den := by
  have hdiv := Nat.div_add_mod num den
  have hlt := Nat.mod_lt num h
  unfold roundDiv
  dsimp only
  split
  · omega
  · split
    · rw [Nat.mul_add]
      omega
    · split
      · omega
      · rw [Nat.mul_add]
        omega

namespace Binary64

def minExponent : Int := -1074

def maxExponent : Int := 971

def zero : Binary64 := .finite false 0 minExponent

def belowPower (num den : Nat) (e : Int) : Bool :=
  if 0 ≤ e then num < den * Nat.pow 2 e.toNat else num * Nat.pow 2 (-e).toNat < den

/-- The exponent of the last place of the number nearest to a positive
quotient. -/
def lastPlace (num den : Nat) : Int :=
  let e := (num.log2 : Int) - den.log2
  let e := if belowPower num den e then e - 1 else e
  max (e - 52) minExponent

def pack (negative : Bool) (m : Nat) (e : Int) : Binary64 :=
  if maxExponent < e then .infinite negative else .finite negative m e

def ofRatio (negative : Bool) (num den : Nat) : Binary64 :=
  let e := if num = 0 then minExponent else lastPlace num den
  let m :=
    if 0 ≤ e then roundDiv num (den * Nat.pow 2 e.toNat)
    else roundDiv (num * Nat.pow 2 (-e).toNat) den
  if m = Nat.pow 2 53 then pack negative (Nat.pow 2 52) (e + 1) else pack negative m e

def ofInt? (n : Int) : Option Binary64 :=
  match ofRatio (n < 0) n.natAbs 1 with
  | .infinite _ => none
  | x => some x

/-- The nearest number to `digits * 10 ^ exponent`; far beyond either end of the
range no power is computed. -/
def ofDecimal (negative : Bool) (digits : Nat) (exponent : Int) : Binary64 :=
  let size := ((Nat.toDigits 10 digits).length : Int) + exponent
  if digits = 0 ∨ size < -330 then .finite negative 0 minExponent
  else if 310 < size then .infinite negative
  else if 0 ≤ exponent then ofRatio negative (digits * Nat.pow 10 exponent.toNat) 1
  else ofRatio negative digits (Nat.pow 10 (-exponent).toNat)

def magnitude (m : Nat) (e : Int) : Nat × Nat :=
  if 0 ≤ e then (m * Nat.pow 2 e.toNat, 1) else (m, Nat.pow 2 (-e).toNat)

def divNat (x : Binary64) (d : Nat) : Binary64 :=
  match x with
  | .finite negative m e =>
      let r := magnitude m e
      ofRatio negative r.1 (r.2 * d)
  | x => x

def units (negative : Bool) (m : Nat) (e : Int) : Int :=
  let n : Int := m * Nat.pow 2 (e - minExponent).toNat
  if negative then -n else n

/-- Numbers on the common scale of least units, with the infinite ones at both
ends. -/
inductive Extended
  | bottom
  | mid (n : Int)
  | top
deriving DecidableEq, Repr

def Extended.lt : Extended → Extended → Bool
  | .bottom, .bottom => false
  | .bottom, _ => true
  | .mid _, .bottom => false
  | .mid a, .mid b => a < b
  | .mid _, .top => true
  | .top, _ => false

/-- The place of a number on the common scale; an undefined number has none. -/
def extended? : Binary64 → Option Extended
  | .nan => none
  | .infinite true => some .bottom
  | .infinite false => some .top
  | .finite negative m e => some (.mid (units negative m e))

def extendedInt (n : Int) : Extended :=
  .mid (n * Nat.pow 2 1074)

/-- Equality of numbers: an undefined one equals nothing, both zeros are
equal. -/
def numEq (a b : Option Extended) : Bool :=
  match a, b with
  | some x, some y => x = y
  | _, _ => false

def numLt (a b : Option Extended) : Bool :=
  match a, b with
  | some x, some y => x.lt y
  | _, _ => false

def truncate? : Binary64 → Option Int
  | .finite negative m e =>
      let r := magnitude m e
      let n : Int := r.1 / r.2
      some (if negative then -n else n)
  | _ => none

def isZero : Binary64 → Bool
  | .finite _ m _ => m = 0
  | _ => false

end Binary64

end FileStash
