import FileStash.Failure
import FileStash.Value.Basic

namespace FileStash.Sweep

def unit : String := "B"

/-- The units above the first, each `step` times the one before it. -/
def largerUnits : List String := ["KB", "MB", "GB", "TB"]

def lastUnit : String := "PB"

def step : Nat := 1024

/-- Goes through the units, dividing where a number has too many of them. -/
def readableFloat (x : Binary64) : List String → String
  | [] => x.oneDecimal ++ " " ++ lastUnit
  | unit :: larger =>
      if Binary64.numLt x.extended? (some (Binary64.extendedInt step)) then
        x.oneDecimal ++ " " ++ unit
      else readableFloat (x.divNat step) larger

/-- A count of units. It is exact as long as it is not divided, and out of range
where no floating-point number is near. -/
def readableInteger (n : Int) : Except Failure String :=
  if n < step then
    match Binary64.ofInt? n with
    | some x => .ok (x.oneDecimal ++ " " ++ unit)
    | none => .error .overflow
  else
    match Binary64.ofRatio false n.toNat step with
    | .infinite _ => .error .overflow
    | x => .ok (readableFloat x largerUnits)

def readableSize : Value → Except Failure String
  | .bool b => readableInteger (if b then 1 else 0)
  | .int n => readableInteger n
  | .float x => .ok (readableFloat x (unit :: largerUnits))
  | _ => .error .wrongType

end FileStash.Sweep
