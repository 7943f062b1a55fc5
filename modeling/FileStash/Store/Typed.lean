import FileStash.Store.Checks

namespace FileStash

/-- The types a stored value can be asked for as. Others are known by name
only. -/
inductive ValueType
  | text
  | bytes
  | int
  | float
  | bool
  | unsupported (name : String)
deriving DecidableEq, Repr

def ValueType.name : ValueType → String
  | .text => "str"
  | .bytes => "bytes"
  | .int => "int"
  | .float => "float"
  | .bool => "bool"
  | .unsupported name => name

def ValueType.ofName (name : String) : ValueType :=
  match name with
  | "str" => .text
  | "bytes" => .bytes
  | "int" => .int
  | "float" => .float
  | "bool" => .bool
  | _ => .unsupported name

namespace Store

def requireType : Option ValueType → Checked Unit
  | some (.unsupported name) => .error (.invalidArgument (.unsupportedType name))
  | _ => .ok ()

def trueWords : List String := ["1", "true", "yes", "on"]

def falseWords : List String := ["0", "false", "no", "off"]

/-- The truth value that a word stands for, in any case and between blanks. -/
def wordTruth? (s : String) : Option Bool :=
  let word := String.ofList (Text.lower (Text.trim Text.isBlank s.toList))
  if trueWords.contains word then some true
  else if falseWords.contains word then some false
  else none

def convert (v : Value) : ValueType → Except Failure Value
  | .text => (v.plain).map .text
  | .bytes =>
      match v with
      | .bytes b => .ok (.bytes b)
      | v => (v.plain).map fun s => .bytes (Text.Utf8.encode s)
  | .bool => do
      let s ← v.plain
      match wordTruth? s with
      | some b => .ok (.bool b)
      | none => .error (.illFormed (.notBoolean (← v.shown)))
  | .int => (v.toInt).map .int
  | .float => (v.toFloat).map .float
  | .unsupported _ => .error .wrongType

def decoded (v : Value) (t : ValueType) : Except Failure Value :=
  match v with
  | .bytes b =>
      if t = .bytes then .ok v
      else
        match Text.Utf8.decode b with
        | .ok s => .ok (.text s)
        | .error f => .error (.encoding f)
  | v => .ok v

def coerce (v : Value) (type : Option ValueType) : Checked Value := do
  requireType type
  match type with
  | none => .ok v
  | some t =>
      if v.isNull then .ok v
      else do
        let v ← bare (decoded v t)
        match convert v t with
        | .ok r => .ok r
        | .error f =>
            if isMisfit f then do
              let shown ← bare v.shown
              .error (.typeMismatch (.storedValue shown t.name f))
            else .error (.bare f)

theorem coerce_null (t : Option ValueType) (h : requireType t = .ok ()) :
    coerce .null t = .ok .null := by
  cases t <;> simp [coerce, h, bind, Except.bind, Value.isNull]

end Store

end FileStash
