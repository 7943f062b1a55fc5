import FileStash.Dict
import FileStash.Number.Decimal
import FileStash.Path

namespace FileStash

inductive Value
  | null
  | bool (b : Bool)
  | int (n : Int)
  | float (x : Binary64)
  | text (s : String)
  | bytes (b : List UInt8)
  | list (items : List Value)
  | map (entries : List (Value × Value))
  | set (members : List Value)
  | path (p : Path)
deriving Repr, Inhabited

namespace Value

/-- The place of a number on the common scale; truth values count as one and
zero. -/
def extended? : Value → Option Binary64.Extended
  | .bool b => some (Binary64.extendedInt (if b then 1 else 0))
  | .int n => some (Binary64.extendedInt n)
  | .float x => x.extended?
  | _ => none

/-- Whether two values are the same key of a map: numbers by their value, all
else by kind and content. Values that cannot be keys are never the same. -/
def sameKey : Value → Value → Bool
  | .null, .null => true
  | .text s, .text t => s == t
  | .bytes a, .bytes b => a == b
  | .path p, .path q => p == q
  | a, b => Binary64.numEq a.extended? b.extended?

instance : BEq Value := ⟨sameKey⟩

/-- Lists, maps and sets cannot be keys of a map or members of a set. -/
def isKey : Value → Bool
  | .list _ | .map _ | .set _ => false
  | _ => true

def isNull : Value → Bool
  | .null => true
  | _ => false

/-- What counts as true: a number other than zero, a text or collection that is
not empty. -/
def truth : Value → Bool
  | .null => false
  | .bool b => b
  | .int n => n ≠ 0
  | .float x => !x.isZero
  | .text s => !s.isEmpty
  | .bytes b => !b.isEmpty
  | .list xs => !xs.isEmpty
  | .map es => !es.isEmpty
  | .set ms => !ms.isEmpty
  | .path _ => true

theorem text_beq_text (s t : String) :
    (Value.text s == Value.text t) = (s == t) := rfl

end Value

end FileStash
