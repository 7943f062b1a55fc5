import FileStash.Program
import FileStash.Store.Checks

namespace FileStash.Store

def logger : String := libraryLogger "facade"

def meaning {α : Type} (operation key : String) : Failure → Program α
  | .client e =>
      match e.family with
      | .rejection =>
          if e.reportsWrongKind then .fail (.typeMismatch (.otherKind operation key e))
          else
            .log ⟨.error, logger, "Redis rejected " ++ onKey operation key ++ ": " ++ e.text⟩
              (.fail (.unavailable (.failed operation key e)))
      | .badInput => .fail (.invalidArgument (.refusedInput operation key e))
      | .unavailable =>
          .log
            ⟨.warning, logger, "Redis unavailable during " ++ onKey operation key ++ ": " ++ e.text⟩
            (.fail (.unavailable (.failed operation key e)))
      | .system | .foreign | .interruption => .fail (.bare (.client e))
  | f => .fail (.bare f)

def calling (operation key : String) (c : Call) : Program Reply :=
  .call c fun r =>
    match r with
    | .ok reply => .done reply
    | .error f => meaning operation key f

def valueOf : Reply → Program Value
  | .value v => .done v
  | .transaction => .fail (.bare .wrongType)

def ask (operation key : String) (c : Command) : Program Value := do
  valueOf (← calling operation key (.run c))

def count (v : Value) : Program Int :=
  if v.isNull then .done 0 else .ofConverted v.toInt

def flag (v : Value) : Bool :=
  v.truth

def checked {α : Type} (c : Checked α) : Program α :=
  .ofExcept c

def ping : Program Bool := do
  .done (flag (← ask "PING" "-" .ping))

end FileStash.Store
