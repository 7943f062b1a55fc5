import FileStash.Store.Basic

namespace FileStash.Store

/-- A command with elements; without elements nothing is asked and nothing has
changed. -/
def withElements (operation : String) (key : Value) (elements : List Value)
    (command : String → List Value → Command) : Program Int := do
  let k ← checked (requireKey key)
  if elements.isEmpty then .done 0
  else do count (← ask operation k (command k elements))

def setAdd (key : Value) (members : List Value) : Program Int :=
  withElements "SADD" key members .sadd

def setDelete (key : Value) (members : List Value) : Program Int :=
  withElements "SREM" key members .srem

def setGetAll (key : Value) : Program (List Value) := do
  let k ← checked (requireKey key)
  let v ← ask "SMEMBERS" k (.smembers k)
  if v.truth then .ofConverted v.toSet else .done []

def scoredAdd (key scores : Value) : Program Int := do
  let k ← checked (requireKey key)
  if !scores.truth then .done 0
  else do
    let entries ← .ofConverted scores.toMap
    count (← ask "ZADD" k (.zadd k entries))

def scoredDelete (key : Value) (members : List Value) : Program Int :=
  withElements "ZREM" key members .zrem

def listPush (key value : Value) : Program Int := do
  let k ← checked (requireKey key)
  count (← ask "RPUSH" k (.rpush k [value]))

def listPushAll (key values : Value) : Program Int := do
  let k ← checked (requireKey key)
  let vs ← .ofConverted values.elements
  if vs.isEmpty then .done 0
  else do count (← ask "RPUSH" k (.rpush k vs))

/-- The elements from the first to the last index, both included; -1 stands for
the last element. -/
def listGet (key first last : Value) : Program (List Value) := do
  let k ← checked (requireKey key)
  let v ← ask "LRANGE" k (.lrange k first last)
  if v.truth then .ofConverted v.elements else .done []

def listGetAll (key : Value) : Program (List Value) :=
  listGet key (.int 0) (.int (-1))

end FileStash.Store
