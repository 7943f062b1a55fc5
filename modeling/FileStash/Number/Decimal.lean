import FileStash.Number.Binary64

namespace FileStash.Binary64

/-- Decimal digits with the place of the point: `0.d₁d₂… * 10 ^ point`. -/
structure Digits where
  digits : List Char
  point : Int
deriving DecidableEq, Repr

/-- The open or closed interval of quotients over one denominator that round to
a number. -/
structure Basin where
  low : Nat
  value : Nat
  high : Nat
  den : Nat
  closed : Bool
deriving DecidableEq, Repr

/-- The quotients that round to `m * 2 ^ e`: half a unit to both sides, half of
that below the least significand of an exponent. -/
def basin (m : Nat) (e : Int) : Basin :=
  let narrow := m = Nat.pow 2 52 ∧ minExponent < e
  let below := if narrow then 1 else 2
  let num := 4 * m
  let up := Nat.pow 2 e.toNat
  let down := 4 * Nat.pow 2 (-e).toNat
  ⟨(num - below) * up, num * up, (num + 2) * up, down, m % 2 = 0⟩

def Basin.holds (b : Basin) (n : Nat) (p : Int) : Bool :=
  let point := n * Nat.pow 10 p.toNat * b.den
  let scale := Nat.pow 10 (-p).toNat
  if b.closed then b.low * scale ≤ point && point ≤ b.high * scale
  else b.low * scale < point && point < b.high * scale

def decimalExponent (num den : Nat) : Int :=
  if den ≤ num then ((Nat.toDigits 10 (num / den)).length : Int) - 1
  else
    -- the reciprocal rounded up has as many digits as the quotient has leading
    -- zeros
    -((Nat.toDigits 10 ((den + num - 1) / num - 1)).length : Int)

/-- The neighbour of the value on the grid of `10 ^ p` that lies in the basin;
of two the nearer, on a tie the even one. -/
def Basin.neighbour? (b : Basin) (p : Int) : Option Nat :=
  let num := b.value * Nat.pow 10 (-p).toNat
  let den := b.den * Nat.pow 10 p.toNat
  let lower := num / den
  match b.holds lower p && lower != 0, b.holds (lower + 1) p with
  | true, true => some (roundDiv num den)
  | true, false => some lower
  | false, true => some (lower + 1)
  | false, false => none

def Basin.shortest (b : Basin) (top : Int) : Nat → Nat × Int
  | 0 =>
      (b.value * Nat.pow 10 (-(top - 16)).toNat / (b.den * Nat.pow 10 (top - 16).toNat), top - 16)
  | fuel + 1 =>
      let p := top - (16 - fuel : Nat)
      match b.neighbour? p with
      | some n => (n, p)
      | none => b.shortest top fuel

/-- The fewest digits that read back as the positive number `m * 2 ^ e`. -/
def shortestDigits (m : Nat) (e : Int) : Digits :=
  let b := basin m e
  let r := b.shortest (decimalExponent b.value b.den) 17
  let digits := Nat.toDigits 10 r.1
  let kept := (digits.reverse.dropWhile (· = '0')).reverse
  ⟨kept, digits.length + r.2⟩

/-- How a number is written: positional for exponents from `firstPositional` up
to but not including `firstScientific`, with at least one place after the point,
else with a signed exponent of at least two digits. -/
structure Layout where
  firstPositional : Int
  firstScientific : Int

def layout : Layout := ⟨-4, 16⟩

def Digits.positional (d : Digits) : List Char :=
  if d.point ≤ 0 then '0' :: '.' :: List.replicate (-d.point).toNat '0' ++ d.digits
  else
    let n := d.point.toNat
    let whole := d.digits.take n ++ List.replicate (n - d.digits.length) '0'
    let places := d.digits.drop n
    whole ++ '.' :: (if places.isEmpty then ['0'] else places)

def Digits.scientific (d : Digits) : List Char :=
  let e := d.point - 1
  let power := Nat.toDigits 10 e.natAbs
  let lead := d.digits.take 1
  let places := d.digits.drop 1
  lead ++ (if places.isEmpty then [] else '.' :: places) ++
    'e' :: (if e < 0 then '-' else '+') :: (if power.length < 2 then '0' :: power else power)

def Digits.text (d : Digits) (l : Layout) : List Char :=
  let e := d.point - 1
  if l.firstPositional ≤ e ∧ e < l.firstScientific then d.positional else d.scientific

def text (x : Binary64) : String :=
  match x with
  | .nan => "nan"
  | .infinite negative => if negative then "-inf" else "inf"
  | .finite negative m e =>
      let digits := if m = 0 then ⟨['0'], 1⟩ else shortestDigits m e
      String.ofList ((if negative then ['-'] else []) ++ digits.text layout)

def tenthsText (negative : Bool) (tenths : Nat) : List Char :=
  (if negative then ['-'] else []) ++ Nat.toDigits 10 (tenths / 10) ++
    '.' :: Nat.toDigits 10 (tenths % 10)

/-- A number with one decimal place; the exact value is rounded, a tie to the
even digit. -/
def oneDecimal (x : Binary64) : String :=
  match x with
  | .nan => "nan"
  | .infinite negative => if negative then "-inf" else "inf"
  | .finite negative m e =>
      let r := magnitude m e
      String.ofList (tenthsText negative (roundDiv (10 * r.1) r.2))

end FileStash.Binary64
