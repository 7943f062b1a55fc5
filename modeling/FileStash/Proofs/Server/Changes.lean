import FileStash.Proofs.Server.Agreement

namespace FileStash

theorem Dict.erase_of_not_contains {κ ν : Type} [BEq κ] {d : Dict κ ν} {k : κ}
    (h : contains d k = false) : erase d k = d := by
  induction d with
  | nil => rfl
  | cons e d ih =>
      by_cases he : e.1 == k
      · simp [contains, get?, he] at h
      · simp only [contains, get?, he] at h
        have ih' : List.filter (fun e => !(e.1 == k)) d = d := ih h
        simp [erase, he, ih']

open Server (encode encodeItem addMember)

/-- A change of a collection by what is sent: a field, a member, a score or an
item is put, or taken away. -/
inductive Change
  | field (name value : String)
  | member (m : String)
  | noMember (m : String)
  | score (m : String) (x : Binary64)
  | noScore (m : String)
  | item (x : String)

/-- A collection after a change; a change is made in a collection of its own kind
only. -/
def Content.change : Content → Change → Content
  | .hash fields, .field name value => .hash (Dict.insert fields name value)
  | .set ms, .member m => .set (addMember ms m)
  | .set ms, .noMember m => .set (ms.filter (· ≠ m))
  | .scored z, .score m x => .scored (Dict.insert z m x)
  | .scored z, .noScore m => .scored (Dict.erase z m)
  | .sequence xs, .item x => .sequence (xs ++ [x])
  | c, _ => c

def Content.changeAll (c : Content) (changes : List Change) : Content :=
  changes.foldl Content.change c

def putField (item : Value × Value) : Except Failure Change :=
  (encodeItem item).map fun e => .field e.1 e.2

def putScore (item : Value × Value) : Except Failure Change := do
  let m ← encode item.1
  let x ← item.2.toFloat
  .ok (.score m x)

/-- Whether a value can stand for a field at all. -/
def namesField (field : Value) : Bool :=
  !field.isNull && field.isKey

/-- The changes that a write asks for, one for each of its elements; what cannot
be sent is a failure. -/
def Command.changes : Command → List (Except Failure Change)
  | .hset _ field value => if namesField field then [putField (field, value)] else []
  | .hsetAll _ entries => entries.map putField
  | .sadd _ members => members.map fun v => (encode v).map .member
  | .srem _ members => members.map fun v => (encode v).map .noMember
  | .zadd _ scores => scores.map putScore
  | .zrem _ members => members.map fun v => (encode v).map .noScore
  | .rpush _ items => items.map fun v => (encode v).map .item
  | _ => []

/-- The collection that a write creates where there is none; removals create
nothing. -/
def Command.fresh : Command → Option Content
  | .hset _ field _ => if namesField field then some (.hash []) else none
  | .hsetAll _ entries => if entries.isEmpty then none else some (.hash [])
  | .sadd .. => some (.set [])
  | .zadd .. => some (.scored [])
  | .rpush .. => some (.sequence [])
  | _ => none

/-- The changes before the first that cannot be made. -/
def made : List (Except Failure Change) → List Change
  | .ok c :: cs => c :: made cs
  | _ => []

/-- The failure of the first change that cannot be made. -/
def fault? : List (Except Failure Change) → Option Failure
  | [] => none
  | .ok _ :: cs => fault? cs
  | .error f :: _ => some f

def failure? {α : Type} : Except Failure α → Option Failure
  | .ok _ => none
  | .error f => some f

/-- What a write leaves of a key when it fails. -/
def Command.halted (c : Command) : Option Entry → Option Entry
  | some e => some { e with content := e.content.changeAll (made c.changes) }
  | none => c.fresh.map fun start => ⟨start.changeAll (made c.changes), none⟩

/-- An error reply of the server, as against what the client itself refuses to
send. -/
def Failure.Rejects (f : Failure) : Prop :=
  ∃ e, f = .client e ∧ e.family = .rejection

def Change.grows : Change → Bool
  | .noMember _ | .noScore _ => false
  | _ => true

/-- The writes that take their elements one by one, and the write of a single
value. -/
def Command.Direct : Command → Prop
  | .set .. | .hset .. | .hsetAll .. | .sadd .. | .srem .. | .zadd .. | .zrem .. | .rpush .. => True
  | _ => False

namespace Server

/-- A part of a write that makes its changes in order and fails with the first of
them that it cannot make. -/
structure Makes {α β : Type} (wrap : α → Content) (changes : List (Except Failure Change))
    (a : α) (r : Except Failure β × α) : Prop where
  left : wrap r.2 = (wrap a).changeAll (made changes)
  failure : failure? r.1 = fault? changes

section Elementwise

theorem makes_writeItems (items : List (Value × Value)) (fields : Dict String String)
    (added : Nat) :
    Makes Content.hash (items.map putField) fields (writeItems fields added items) := by
  induction items generalizing fields added with
  | nil => exact ⟨rfl, rfl⟩
  | cons item items ih =>
      simp only [writeItems, List.map_cons, putField]
      cases encodeItem item with
      | error f => exact ⟨rfl, rfl⟩
      | ok e => exact ⟨(ih _ _).left, (ih _ _).failure⟩

theorem makes_addAll {add : List String → String → List String}
    {wrap : List String → Content} {put : String → Change}
    (h : ∀ xs x, (wrap xs).change (put x) = wrap (add xs x)) (items : List Value)
    (xs : List String) :
    Makes wrap (items.map fun v => (encode v).map put) xs (addAll add xs items) := by
  induction items generalizing xs with
  | nil => exact ⟨rfl, rfl⟩
  | cons v items ih =>
      simp only [addAll, List.map_cons]
      cases encode v with
      | error f => exact ⟨rfl, rfl⟩
      | ok x =>
          have hrest := ih (add xs x)
          refine ⟨?_, hrest.failure⟩
          rw [hrest.left, ← h]
          rfl

theorem makes_removeAll {α : Type} {contains : α → String → Bool} {erase : α → String → α}
    {wrap : α → Content} {take : String → Change}
    (h : ∀ a m, (wrap a).change (take m) = wrap (erase a m))
    (hnot : ∀ a m, contains a m = false → erase a m = a) (members : List Value) (a : α)
    (removed : Nat) :
    Makes wrap (members.map fun v => (encode v).map take) a
      (removeAll contains erase a removed members) := by
  induction members generalizing a removed with
  | nil => exact ⟨rfl, rfl⟩
  | cons v members ih =>
      simp only [removeAll, List.map_cons]
      cases encode v with
      | error f => exact ⟨rfl, rfl⟩
      | ok m =>
          have hstep : ∀ n, Makes wrap
              (.ok (take m) :: members.map fun v => (encode v).map take) a
              (removeAll contains erase (erase a m) n members) := by
            intro n
            have hrest := ih (erase a m) n
            refine ⟨?_, hrest.failure⟩
            rw [hrest.left, ← h]
            rfl
          dsimp only
          by_cases hm : contains a m
          · rw [if_pos hm]
            exact hstep _
          · have hgone := hstep removed
            rw [hnot a m (by simpa using hm)] at hgone
            rw [if_neg hm]
            exact hgone

theorem makes_writeScores (items : List (Value × Value)) (scores : Dict String Binary64)
    (added : Nat) :
    Makes Content.scored (items.map putScore) scores (writeScores scores added items) := by
  induction items generalizing scores added with
  | nil => exact ⟨rfl, rfl⟩
  | cons item items ih =>
      obtain ⟨m, v⟩ := item
      simp only [writeScores, List.map_cons, putScore, bind, Except.bind]
      cases encode m with
      | error f => exact ⟨rfl, rfl⟩
      | ok member =>
          cases v.toFloat with
          | error f => exact ⟨rfl, rfl⟩
          | ok x => exact ⟨(ih _ _).left, (ih _ _).failure⟩

theorem Makes.map {α β γ : Type} {wrap : α → Content} {changes : List (Except Failure Change)}
    {a : α} {r : Except Failure β × α} (h : Makes wrap changes a r) (g : β → γ) :
    Makes wrap changes a (r.1.map g, r.2) := by
  refine ⟨h.left, ?_⟩
  rw [← h.failure]
  cases r.1 <;> rfl

end Elementwise

/-! What cannot be sent is no matter of the server. -/

section Sent

variable {v : Value} {f : Failure}

theorem not_rejects_badInput {text : String} : ¬(Failure.client (.badInput text)).Rejects := by
  rintro ⟨e, he, hfamily⟩
  cases he
  cases hfamily

theorem not_rejects_encode (h : encode v = .error f) : ¬f.Rejects := by
  unfold encode at h
  split at h
  · cases h
    exact not_rejects_badInput
  · cases h
    exact not_rejects_badInput
  · rename_i b
    rintro ⟨e, rfl, -⟩
    cases hb : Text.Utf8.decode b <;> rw [hb] at h <;> cases h
  · rintro ⟨e, rfl, -⟩
    unfold Value.plain at h
    split at h <;> cases h

theorem not_rejects_toFloat (h : v.toFloat = .error f) : ¬f.Rejects := by
  rintro ⟨e, rfl, -⟩
  unfold Value.toFloat at h
  split at h <;> (try split at h) <;> cases h

end Sent

theorem changes_hset_of_names (key : String) (value : Value) {field : Value}
    (h : namesField field = true) :
    (Command.hset key field value).changes = [(field, value)].map putField ∧
      (Command.hset key field value).fresh = some (.hash []) := by
  simp [Command.changes, Command.fresh, h]

end Server

end FileStash
