import FileStash.Client.Call
import FileStash.Server.Basic

/-!
What the server does with a command. A command on a key that holds another kind
of value is refused. Elements are taken one by one, so that a bad one leaves the
effect of those before it; a transaction is undone as a whole.
-/

namespace FileStash.Server

abbrev Answer (α : Type) := Except Failure α × Server

def wrongKind : Failure :=
  .client .wrongKind

/-- Looks at a key as one kind of collection. An absent one reads as
`default`. -/
def reading {α : Type} (s : Server) (key : String) (view : Content → Option α)
    (default : α) (k : Server → α → Answer Value) : Answer Value :=
  let s := s.purge key
  match Dict.get? s.entries key with
  | none => k s default
  | some e =>
      match view e.content with
      | some a => k s a
      | none => (.error wrongKind, s)

/-- Looks at a key as one kind of collection that is about to grow: an absent
one is created. -/
def growing {α : Type} (s : Server) (key : String) (view : Content → Option α)
    (empty : α) (wrap : α → Content) (k : Server → α → Answer Value) :
    Answer Value :=
  let s := s.purge key
  match Dict.get? s.entries key with
  | none => k (s.put key ⟨wrap empty, none⟩) empty
  | some e =>
      match view e.content with
      | some a => k s a
      | none => (.error wrongKind, s)

def Content.text? : Content → Option (Option String)
  | .text s => some (some s)
  | _ => none

def Content.hash? : Content → Option (Dict String String)
  | .hash fields => some fields
  | _ => none

def Content.set? : Content → Option (List String)
  | .set members => some members
  | _ => none

def Content.scored? : Content → Option (Dict String Binary64)
  | .scored scores => some scores
  | _ => none

def Content.sequence? : Content → Option (List String)
  | .sequence items => some items
  | _ => none

def textOrNull : Option String → Value
  | some s => .text s
  | none => .null

/-- A field as it is given, not as it would be sent: only a text can name a
field that is there. -/
def field? (fields : Dict String String) :
    Value → Except Failure (Option String)
  | .text f => .ok (Dict.get? fields f)
  | f => if f.isKey then .ok none else .error .wrongType

def fieldAll (fields : Dict String String) :
    List Value → Except Failure (List Value)
  | [] => .ok []
  | f :: fs => do
      let v ← field? fields f
      .ok (textOrNull v :: (← fieldAll fields fs))

/-- Both parts of an item as they are sent; the value is looked at first. -/
def encodeItem (item : Value × Value) : Except Failure (String × String) := do
  let value ← encode item.2
  let field ← encode item.1
  .ok (field, value)

/-- Writes items one by one, counting those whose field is not there yet. -/
def writeItems (fields : Dict String String) (added : Nat) :
    List (Value × Value) → Except Failure Nat × Dict String String
  | [] => (.ok added, fields)
  | item :: rest =>
      let isNew := match item.1 with
        | .text f => !Dict.contains fields f
        | _ => true
      match encodeItem item with
      | .error f => (.error f, fields)
      | .ok (field, value) =>
          writeItems (Dict.insert fields field value) (if isNew then added + 1 else added) rest

/-- Removes fields one by one; where none are left the others are not looked
at. -/
def removeFields (fields : Dict String String) (removed : Nat) :
    List Value → Except Failure Nat × Dict String String
  | [] => (.ok removed, fields)
  | f :: fs =>
      if fields.isEmpty then (.ok removed, fields)
      else
        match field? fields f with
        | .error e => (.error e, fields)
        | .ok none => removeFields fields removed fs
        | .ok (some _) =>
            match f with
            | .text name => removeFields (Dict.erase fields name) (removed + 1) fs
            | _ => removeFields fields removed fs

def addAll (add : List String → String → List String) (xs : List String) :
    List Value → Except Failure Unit × List String
  | [] => (.ok (), xs)
  | v :: vs =>
      match encode v with
      | .error f => (.error f, xs)
      | .ok x => addAll add (add xs x) vs

def addMember (ms : List String) (m : String) : List String :=
  if ms.contains m then ms else ms ++ [m]

def removeAll {α : Type} (contains : α → String → Bool) (erase : α → String → α)
    (ms : α) (removed : Nat) : List Value → Except Failure Nat × α
  | [] => (.ok removed, ms)
  | v :: vs =>
      match encode v with
      | .error f => (.error f, ms)
      | .ok m =>
          if contains ms m then removeAll contains erase (erase ms m) (removed + 1) vs
          else removeAll contains erase ms removed vs

/-- Writes scores one by one, counting new members; a member counts before its
score is looked at. -/
def writeScores (scores : Dict String Binary64) (added : Nat) :
    List (Value × Value) → Except Failure Nat × Dict String Binary64
  | [] => (.ok added, scores)
  | (m, v) :: rest =>
      match encode m with
      | .error f => (.error f, scores)
      | .ok member =>
          match v.toFloat with
          | .error f => (.error f, scores)
          | .ok x =>
              writeScores (Dict.insert scores member x)
                (if Dict.contains scores member then added else added + 1) rest

def index? : Value → Option Int
  | .int n => some n
  | .bool b => some (if b then 1 else 0)
  | _ => none

/-- The place before which a window ends: behind the last element for minus one,
else behind the element that is named. -/
def windowEnd (length : Nat) (last : Value) : Option Int :=
  if last == .int (-1) then some length
  else (index? last).map (· + 1)

def windowStart : Value → Option Int
  | .null => some 0
  | v => index? v

/-- A place in a sequence counted from its end where it is negative, kept within
the sequence. -/
def clampIndex (length : Nat) (i : Int) : Nat :=
  if i < 0 then (i + length).toNat else min i.toNat length

/-- The elements from the first place up to but not including the second. -/
def slice (xs : List String) (first last : Int) : List String :=
  let start := clampIndex xs.length first
  (xs.drop start).take (clampIndex xs.length last - start)

/-- A number of milliseconds in whole seconds, a half to the even neighbour,
never below zero. -/
def wholeSeconds (milliseconds : Int) : Int :=
  roundDiv milliseconds.toNat 1000

def count (n : Nat) : Value := .int n

def runScalar (s : Server) (key : String) (value : Value) (seconds : Option Int) :
    Answer Value :=
  match encode value with
  | .error f => (.error f, s)
  | .ok x => (.ok (.bool true), s.put key ⟨.text x, seconds.map fun n => s.now + 1000 * n⟩)

def runWriteItems (s : Server) (key : String) (items : List (Value × Value)) :
    Answer Value :=
  if items.isEmpty then (.error (.client (.badInput "'hset' with no key value pairs")), s)
  else
    s.growing key Content.hash? [] .hash fun s fields =>
      let r := writeItems fields 0 items
      (r.1.map count, s.update key (.hash r.2))

def runGrow (s : Server) (key : String) (view : Content → Option (List String))
    (wrap : List String → Content) (add : List String → String → List String)
    (answer : List String → List String → Nat) (items : List Value) :
    Answer Value :=
  s.growing key view [] wrap fun s xs =>
    let r := addAll add xs items
    (r.1.map fun _ => count (answer xs r.2), s.update key (wrap r.2))

/-- Removes elements of a collection, and the key with the last of them. -/
def runRemove {α : Type} (s : Server) (key : String) (view : Content → Option α)
    (empty : α) (wrap : α → Content) (remove : α → Except Failure Nat × α) :
    Answer Value :=
  s.reading key view empty fun s xs =>
    let r := remove xs
    let s := if Dict.contains s.entries key then s.update key (wrap r.2) else s
    match r.1 with
    | .error f => (.error f, s)
    | .ok n => (.ok (count n), s.dropIfEmpty key)

def runDelete (s : Server) (removed : Nat) : List String → Answer Value
  | [] => (.ok (count removed), s)
  | key :: keys =>
      let s := s.purge key
      let there := Dict.contains s.entries key
      (s.drop key).runDelete (if there then removed + 1 else removed) keys

def runExpire (s : Server) (key : String) (seconds : Int) : Answer Value :=
  let s := s.purge key
  match Dict.get? s.entries key with
  | none => (.ok (.bool false), s)
  | some e => (.ok (.bool true), s.put key { e with deadline := some (s.now + 1000 * seconds) })

def runTtl (s : Server) (key : String) : Answer Value :=
  let s := s.purge key
  match Dict.get? s.entries key with
  | none => (.ok (.int (-2)), s)
  | some e =>
      match e.deadline with
      | none => (.ok (.int (-1)), s)
      | some d => (.ok (.int (wholeSeconds (d - s.now))), s)

def run (s : Server) : Command → Answer Value
  | .ping => (.ok (.bool true), s)
  | .set key value seconds => s.runScalar key value seconds
  | .get key => s.reading key Content.text? none fun s v => (.ok (textOrNull v), s)
  | .hset key field value =>
      if field.isNull then s.runWriteItems key []
      else if field.isKey then s.runWriteItems key [(field, value)]
      else (.error .wrongType, s)
  | .hsetAll key entries => s.runWriteItems key entries
  | .hget key field =>
      s.reading key Content.hash? [] fun s fields => ((field? fields field).map textOrNull, s)
  | .hmget key fields =>
      s.reading key Content.hash? [] fun s h => ((fieldAll h fields).map .list, s)
  | .hgetall key =>
      s.reading key Content.hash? [] fun s h =>
        (.ok (.map (h.map fun e => (.text e.1, .text e.2))), s)
  | .hdel key fields =>
      s.runRemove key Content.hash? [] .hash fun h => removeFields h 0 fields
  | .hexists key field =>
      s.reading key Content.hash? [] fun s h =>
        ((field? h field).map fun v => .bool v.isSome, s)
  | .sadd key members =>
      s.runGrow key Content.set? .set addMember (fun old new => new.length - old.length) members
  | .srem key members =>
      s.runRemove key Content.set? [] .set fun ms =>
        removeAll List.contains (fun ms m => ms.filter (· ≠ m)) ms 0 members
  | .smembers key =>
      s.reading key Content.set? [] fun s ms => (.ok (.set (ms.map .text)), s)
  | .zadd key scores =>
      s.growing key Content.scored? [] .scored fun s z =>
        let r := writeScores z 0 scores
        (r.1.map count, s.update key (.scored r.2))
  | .zrem key members =>
      s.runRemove key Content.scored? [] .scored fun z =>
        removeAll Dict.contains Dict.erase z 0 members
  | .rpush key items =>
      s.runGrow key Content.sequence? .sequence (fun xs x => xs ++ [x]) (fun _ new => new.length)
        items
  | .lrange key first last =>
      s.reading key Content.sequence? [] fun s xs =>
        match windowStart first, windowEnd xs.length last with
        | some i, some j => (.ok (.list ((slice xs i j).map .text)), s)
        | _, _ => (.error .wrongType, s)
  | .exists key =>
      let s := s.purge key
      (.ok (count (if Dict.contains s.entries key then 1 else 0)), s)
  | .delete keys => s.runDelete 0 keys
  | .expire key seconds => s.runExpire key seconds
  | .ttl key => s.runTtl key

end FileStash.Server
