import FileStash.Store.Basic
import FileStash.Store.Typed

namespace FileStash.Store

/-- Stores a value, for a limited time where a duration is given, and answers
with the value. -/
def setValue (key value ttl : Value) : Program Value := do
  let k ← checked (requireKey key)
  let seconds ← checked (optionalDuration ttl)
  let _ ← ask "SET" k (.set k value seconds)
  .done value

def getValue (key : Value) (type : Option ValueType) : Program Value := do
  let k ← checked (requireKey key)
  checked (requireType type)
  let v ← ask "GET" k (.get k)
  checked (coerce v type)

/-- Whether a key is there, or a field of its hash where one is given. -/
def hasKey (key field : Value) : Program Bool := do
  let k ← checked (requireKey key)
  if field.isNull then
    let n ← count (← ask "EXISTS" k (.exists k))
    .done (decide (0 < n))
  else
    .done (flag (← ask "HEXISTS" k (.hexists k field)))

def delete (key : Value) : Program Bool := do
  let k ← checked (requireKey key)
  let n ← count (← ask "DEL" k (.delete [k]))
  .done (decide (0 < n))

def requireKeys : List Value → Checked (List String)
  | [] => .ok []
  | v :: vs =>
      match requireKey v with
      | .error e => .error e
      | .ok k => (requireKeys vs).map (k :: ·)

def deleteKeys (keys : Value) : Program Int := do
  let vs ← .ofConverted keys.elements
  let ks ← checked (requireKeys vs)
  match ks with
  | [] => .done 0
  | k :: _ => do count (← ask "DEL" k (.delete ks))

def expire (key seconds : Value) : Program Bool := do
  let k ← checked (requireKey key)
  let n ← checked (requireDuration seconds)
  .done (flag (← ask "EXPIRE" k (.expire k n)))

/-- The seconds that a key still has: -1 for a lasting key, -2 where there is
none. -/
def ttl (key : Value) : Program Int := do
  let k ← checked (requireKey key)
  let v ← ask "TTL" k (.ttl k)
  if v.isNull then .done (-2) else .ofConverted v.toInt

end FileStash.Store
