import FileStash.Number.Literal
import FileStash.Settings.Basic
import FileStash.Text.Utf8

namespace FileStash.Settings

abbrev Reading := Except SettingFault

/-- The text in a value, if it is one; octets that are no text have the given
fault. -/
def textIn? (fault : SettingFault) : Value → Reading (Option String)
  | .text s => .ok (some s)
  | .bytes b =>
      match Text.Utf8.decode b with
      | .ok s => .ok (some s)
      | .error _ => .error fault
  | _ => .ok none

def readText (v : Value) : Reading String := do
  match ← textIn? .textEncoding v with
  | some s => .ok s
  | none => .error .notText

/-- Digits with a minus in front of them or nothing, and without superfluous
zeros. None is read from anything else. -/
def digitsOnly? (cs : List Char) : Reading (Option Int) :=
  let negative := cs.head? = some '-'
  let body := if negative then cs.drop 1 else cs
  let digits := body.takeWhile Char.isDigit
  if digits.isEmpty || (digits.head? = some '0' && 1 < digits.length) then .ok none
  else if maxIntegerDigits < digits.length then .error .tooManyDigits
  else if digits.length < body.length then .ok none
  else
    let n : Int := ofDigits (digits.map (·.toNat - 48))
    .ok (some (if negative then -n else n))

/-- Drops the zeros, with underscores among them, in front of what else a number
holds; the last zero stays before a point or at the end. -/
def dropZeros (last : Char) : List Char → Option (List Char)
  | [] => some [last]
  | c :: cs =>
      if c = '0' || c = '_' then dropZeros c cs
      else if c = '.' then some (last :: c :: cs)
      else if c.isDigit || c = '-' then some (c :: cs)
      else none

/-- Drops a point with zeros behind it, of which there must be one. -/
def dropPlaces (cs : List Char) : List Char :=
  let whole := cs.takeWhile (· ≠ '.')
  let places := cs.drop (whole.length + 1)
  if !places.isEmpty && places.all (· = '0') then whole else cs

def hasDouble (c : Char) : List Char → Bool
  | a :: b :: cs => (a = c && b = c) || hasDouble c (b :: cs)
  | _ => false

/-- Removes underscores where each stands alone between other characters. -/
def joinGroups? (cs : List Char) : Option (List Char) :=
  if cs.head? = some '_' || cs.getLast? = some '_' || hasDouble '_' cs then none
  else some (cs.filter (· ≠ '_'))

def trimZeros? (cs : List Char) : Option (List Char) :=
  match cs with
  | '0' :: rest => dropZeros '0' rest
  | c :: _ => if c.isDigit then some cs else none
  | [] => none

/-- A number as it is written, brought into the form of plain digits: without a
plus, superfluous zeros, decimal places that are zero, and underscores. -/
def plainForm? (cs : List Char) : Option (List Char) :=
  let trimmed :=
    match cs with
    | '+' :: rest => trimZeros? rest
    | '-' :: rest => (trimZeros? rest).map ('-' :: ·)
    | cs => trimZeros? cs
  trimmed.bind fun t => joinGroups? (dropPlaces t)

/-- A whole number in a text. Only a text that is plain digits from the start
can have too many of them. -/
def integerOfText (s : String) : Reading Int := do
  let cs := Text.trim Text.isNumberBlank s.toList
  match ← digitsOnly? cs with
  | some n => .ok n
  | none =>
      match plainForm? cs with
      | none => .error .malformedInteger
      | some plain =>
          match digitsOnly? plain with
          | .ok (some n) => .ok n
          | _ => .error .malformedInteger

example : ["-007", " +1_000.0", "0-7"].map (fun s => (integerOfText s).toOption) =
    [some (-7), some 1000, some (-7)] := by decide +kernel

example : ["5.", "0_", "1__0"].map (fun s => (integerOfText s).toOption) =
    [none, none, none] := by decide +kernel

/-- What a word of the machine holds of a sign and 63 bits, without the least
number. -/
def fitsWord (n : Int) : Bool :=
  -Int.pow 2 63 < n && n < Int.pow 2 63

/-- The whole number that a floating-point number is; it must not be too large
for a word. -/
def integerOfFloat (x : Binary64) : Reading Int :=
  match x.truncate? with
  | none => .error .notFinite
  | some n =>
      if !Binary64.numEq x.extended? (some (Binary64.extendedInt n)) then .error .fraction
      else if fitsWord n then .ok n
      else .error .tooManyDigits

def readInteger (v : Value) : Reading Int := do
  match v with
  | .int n => .ok n
  | .bool b => .ok (if b then 1 else 0)
  | .float x => integerOfFloat x
  | v =>
      match ← textIn? .malformedInteger v with
      | some s => integerOfText s
      | none => .error .notInteger

def floatOfText (s : String) : Reading Binary64 :=
  match readBareFloat (Text.trim Text.isNumberBlank s.toList) with
  | some x => .ok x
  | none =>
      match (joinGroups? s.toList).bind readBareFloat with
      | some x => .ok x
      | none => .error .malformedFloat

def readFloating (v : Value) : Reading Binary64 := do
  match v with
  | .float x => .ok x
  | .int n =>
      match Binary64.ofInt? n with
      | some x => .ok x
      | none => .error .notFloat
  | .bool b => .ok (.ofRatio false (if b then 1 else 0) 1)
  | v =>
      match ← textIn? .malformedFloat v with
      | some s => floatOfText s
      | none => .error .notFloat

def trueWords : List String := ["1", "on", "t", "true", "y", "yes"]

def falseWords : List String := ["0", "off", "f", "false", "n", "no"]

def truthOfText (s : String) : Reading Bool :=
  let word := String.ofList (Text.lower s.toList)
  if trueWords.contains word then .ok true
  else if falseWords.contains word then .ok false
  else .error .malformedTruth

def truthOfInteger (n : Int) : Reading Bool :=
  if n = 0 then .ok false else if n = 1 then .ok true else .error .malformedTruth

def readTruth (v : Value) : Reading Bool := do
  match v with
  | .bool b => .ok b
  | .int n => if n = -Int.pow 2 63 || fitsWord n then truthOfInteger n else .error .notTruth
  | .float x =>
      match integerOfFloat x with
      | .ok n => truthOfInteger n
      | .error _ => .error .notTruth
  | v =>
      match ← textIn? .malformedTruth v with
      | some s => truthOfText s
      | none => .error .notTruth

def readOptional {α : Type} (read : Value → Reading α) :
    Value → Reading (Option α)
  | .null => .ok none
  | v => (read v).map some

def readPositiveFloat (v : Value) : Reading Binary64 := do
  let x ← readFloating v
  if Binary64.numLt (some (Binary64.extendedInt 0)) x.extended? then .ok x else .error .notAbove

def readPositive (v : Value) : Reading Int := do
  let n ← readInteger v
  if 0 < n then .ok n else .error .notAbove

def readNatural (v : Value) : Reading Int := do
  let n ← readInteger v
  if 0 ≤ n then .ok n else .error .below

def readNonempty (v : Value) : Reading String := do
  let s ← readText v
  if s.isEmpty then .error .textTooShort else .ok s

def read : (f : Setting) → Value → Reading f.Held
  | .address => readText
  | .socketTimeout => readPositiveFloat
  | .connectTimeout => readPositiveFloat
  | .healthCheckInterval => readNatural
  | .retryOnTimeout => readTruth
  | .keyPrefix => readNonempty
  | .cacheDir => readOptional readText
  | .fileTtl => readOptional readPositive
  | .temporaryDir => readOptional readText

end FileStash.Settings
