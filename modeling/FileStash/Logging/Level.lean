import FileStash.Failure
import FileStash.Value.Basic

namespace FileStash

inductive Level
  | number (n : Int)
  | truth (b : Bool)
deriving DecidableEq, Repr

namespace Level

def value : Level → Int
  | .number n => n
  | .truth b => if b then 1 else 0

/-- The level of loggers that leave the decision to those above them. -/
def unset : Level := .number 0

def info : Level := .number 20

def warning : Level := .number 30

/-- The names that levels can be given by; of two for one number the first is
used in lines. -/
def names : Dict String Int :=
  [("CRITICAL", 50), ("FATAL", 50), ("ERROR", 40), ("WARNING", 30), ("WARN", 30), ("INFO", 20),
    ("DEBUG", 10), ("NOTSET", 0)]

def ofValue : Value → Except Failure Level
  | .int n => .ok (.number n)
  | .bool b => .ok (.truth b)
  | .text s =>
      match Dict.get? names s with
      | some n => .ok (.number n)
      | none => .error (.illFormed (.unknownLevel (Text.quote s)))
  | _ => .error .wrongType

def ofNumber : Value → Except Failure Level
  | .int n => .ok (.number n)
  | .bool b => .ok (.truth b)
  | _ => .error .wrongType

def shown (l : Level) : String :=
  match names.find? (·.2 = l.value), l with
  | some e, _ => e.1
  | none, .number n => "Level " ++ toString n
  | none, .truth b => if b then "Level True" else "Level False"

def toValue : Level → Value
  | .number n => .int n
  | .truth b => .bool b

end Level

end FileStash
