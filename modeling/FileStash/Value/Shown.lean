import FileStash.Number.Literal
import FileStash.Text.Quoted
import FileStash.Value.Basic

namespace FileStash.Value

def boolText (b : Bool) : String :=
  if b then "True" else "False"

def enclosed (first last : String) (items : List String) : String :=
  first ++ String.intercalate ", " items ++ last

mutual

def shown? : Value → Option String
  | .null => some "None"
  | .bool b => some (boolText b)
  | .int n => integerText? n
  | .float x => some x.text
  | .text s => some (Text.quote s)
  | .bytes b => some (Text.quoteBytes b)
  | .list xs => (shownAll? xs).map (enclosed "[" "]")
  | .map es => (shownEntries? es).map (enclosed "\x7b" "\x7d")
  | .set ms =>
      if ms.isEmpty then some "set()" else (shownAll? ms).map (enclosed "\x7b" "\x7d")
  | .path p => some ("PosixPath(" ++ Text.quote p.text ++ ")")

def shownAll? : List Value → Option (List String)
  | [] => some []
  | v :: vs =>
      match shown? v, shownAll? vs with
      | some s, some ss => some (s :: ss)
      | _, _ => none

def shownEntries? : List (Value × Value) → Option (List String)
  | [] => some []
  | (k, v) :: es =>
      match shown? k, shown? v, shownEntries? es with
      | some s, some t, some ss => some ((s ++ ": " ++ t) :: ss)
      | _, _, _ => none

end

def plain? : Value → Option String
  | .text s => some s
  | .path p => some p.text
  | v => v.shown?

theorem shown?_text (s : String) : shown? (.text s) = some (Text.quote s) := by
  simp [shown?]

end FileStash.Value
