import FileStash.Store.Basic
import FileStash.Store.Typed

namespace FileStash.Store

def hashPut (key field value : Value) : Program Value := do
  let k ← checked (requireKey key)
  let _ ← ask "HSET" k (.hset k field value)
  .done value

def enqueue (operation key : String) (c : Command) : Program Unit := do
  let _ ← calling operation key (.queue c)
  .done ()

def openTransaction (operation key : String) : Program Unit := do
  match ← calling operation key .openTransaction with
  | .transaction => .done ()
  | .value _ => .fail (.bare .wrongType)

/-- Writes fields and their time limit in one transaction, so that neither is
there without the other. -/
def putWithin (key : String) (mapping : Value) (seconds : Int) :
    Program Unit := do
  let operation := "HSET+EXPIRE"
  openTransaction operation key
  let entries ← .ofConverted mapping.toMap
  let write := Command.hsetAll key entries
  let limit := Command.expire key seconds
  enqueue operation key write
  enqueue operation key limit
  let _ ← calling operation key (.commit [write, limit])
  .done ()

/-- Writes all fields of a mapping at once and answers with the mapping. -/
def hashPutAll (key mapping ttl : Value) : Program Value := do
  let k ← checked (requireKey key)
  let seconds ← checked (optionalDuration ttl)
  if !mapping.truth then .done mapping
  else
    match seconds with
    | none => do
        let entries ← .ofConverted mapping.toMap
        let _ ← ask "HSET" k (.hsetAll k entries)
        .done mapping
    | some n => do
        putWithin k mapping n
        .done mapping

def hashGet (key field : Value) (type : Option ValueType) : Program Value := do
  let k ← checked (requireKey key)
  checked (requireType type)
  let v ← ask "HGET" k (.hget k field)
  checked (coerce v type)

/-- The values of several fields in their order, absent ones included. -/
def hashMultiGet (key fields : Value) : Program (List Value) := do
  let k ← checked (requireKey key)
  let fs ← .ofConverted fields.elements
  if fs.isEmpty then .done []
  else do
    let v ← ask "HMGET" k (.hmget k fs)
    if v.isNull then .done (List.replicate fs.length .null) else .ofConverted v.elements

def hashGetAll (key : Value) : Program (Dict Value Value) := do
  let k ← checked (requireKey key)
  let v ← ask "HGETALL" k (.hgetall k)
  if v.truth then .ofConverted v.toMap else .done []

def hashDeleteKeys (key fields : Value) : Program Int := do
  let k ← checked (requireKey key)
  let fs ← .ofConverted fields.elements
  if fs.isEmpty then .done 0
  else do count (← ask "HDEL" k (.hdel k fs))

def hashDeleteKey (key field : Value) : Program Int :=
  hashDeleteKeys key (.list [field])

end FileStash.Store
