import FileStash.Server.Run

namespace FileStash.Server

variable {α : Type}

/-- What is left of an entry at a time: nothing once its deadline has come. -/
def alive (now : Int) (e : Option Entry) : Option Entry :=
  e.filter fun e => !Entry.expired e now

theorem live?_eq_alive (s : Server) (key : String) :
    s.live? key = alive s.now (Dict.get? s.entries key) := by
  unfold live? alive
  cases Dict.get? s.entries key with
  | none => rfl
  | some e => by_cases h : Entry.expired e s.now <;> simp [Option.filter, h]

theorem alive_some_of_not_expired {now : Int} {e : Entry}
    (h : Entry.expired e now = false) :
    alive now (some e) = some e := by
  simp [alive, h]

theorem alive_alive (now : Int) (e : Option Entry) :
    alive now (alive now e) = alive now e := by
  simp [alive]

theorem alive_live? (s : Server) (key : String) :
    alive s.now (s.live? key) = s.live? key := by
  rw [live?_eq_alive, alive_alive]

theorem alive_content {now : Int} {e : Entry} (h : alive now (some e) = some e)
    (c : Content) :
    alive now (some { e with content := c }) = some { e with content := c } := by
  have hx : Entry.expired e now = false := by
    by_cases hx : Entry.expired e now
    · simp [alive, hx] at h
    · simpa using hx
  exact alive_some_of_not_expired hx

theorem live?_congr {s s' : Server} {key : String} (hnow : s'.now = s.now)
    (h : Dict.get? s'.entries key = Dict.get? s.entries key) :
    s'.live? key = s.live? key := by
  rw [live?_eq_alive, live?_eq_alive, hnow, h]

theorem expired_add {e : Entry} {now : Int} (h : Entry.expired e now = true)
    (milliseconds : Nat) :
    Entry.expired e (now + milliseconds) = true := by
  unfold Entry.expired at h ⊢
  cases hd : e.deadline with
  | none => simp [hd] at h
  | some d =>
      simp only [hd, decide_eq_true_eq] at h ⊢
      omega

theorem alive_of_le {now later : Int} (h : now ≤ later) (e : Option Entry) :
    alive later (alive now e) = alive later e := by
  cases e with
  | none => rfl
  | some e =>
      by_cases hx : Entry.expired e now
      · obtain ⟨n, hn⟩ := Int.le.dest h
        have hlater : Entry.expired e later = true := hn ▸ expired_add hx n
        simp [alive, Option.filter, hx, hlater]
      · have hnot : Entry.expired e now = false := by simpa using hx
        rw [alive_some_of_not_expired hnot]

theorem live?_advance (s : Server) (milliseconds : Nat) (key : String) :
    (s.advance milliseconds).live? key = alive (s.now + milliseconds)
    (s.live? key) := by
  rw [live?_eq_alive, live?_eq_alive]
  change alive (s.now + milliseconds) (Dict.get? s.entries key) = _
  cases Dict.get? s.entries key with
  | none => rfl
  | some e =>
      by_cases hx : Entry.expired e s.now
      · simp [alive, Option.filter, hx, expired_add hx milliseconds]
      · have hnot : Entry.expired e s.now = false := by simpa using hx
        rw [alive_some_of_not_expired hnot]

/-! The single changes of a server. -/

@[simp] theorem now_purge (s : Server) (key : String) :
    (s.purge key).now = s.now := by
  unfold purge
  split
  · split <;> rfl
  · rfl

@[simp] theorem now_put (s : Server) (key : String) (e : Entry) :
    (s.put key e).now = s.now := rfl

@[simp] theorem now_drop (s : Server) (key : String) :
    (s.drop key).now = s.now := rfl

@[simp] theorem now_update (s : Server) (key : String) (c : Content) :
    (s.update key c).now = s.now := by
  unfold update
  split <;> rfl

@[simp] theorem now_dropIfEmpty (s : Server) (key : String) :
    (s.dropIfEmpty key).now = s.now := by
  unfold dropIfEmpty
  split
  · split <;> rfl
  · rfl

theorem get?_purge_self (s : Server) (key : String) :
    Dict.get? (s.purge key).entries key = s.live? key := by
  unfold purge live?
  cases h : Dict.get? s.entries key with
  | none => simp [h]
  | some e =>
      by_cases hx : Entry.expired e s.now
      · simp [hx, Dict.get?_erase_self]
      · simp [hx, h]

theorem get?_put_self (s : Server) (key : String) (e : Entry) :
    Dict.get? (s.put key e).entries key = some e :=
  Dict.get?_insert_self _ _ _

theorem get?_put_of_ne (s : Server) {key key' : String} (e : Entry)
    (h : key' ≠ key) :
    Dict.get? (s.put key e).entries key' = Dict.get? s.entries key' :=
  Dict.get?_insert_of_ne _ _ h

theorem get?_drop_self (s : Server) (key : String) :
    Dict.get? (s.drop key).entries key = none :=
  Dict.get?_erase_self _ _

theorem get?_drop_of_ne (s : Server) {key key' : String} (h : key' ≠ key) :
    Dict.get? (s.drop key).entries key' = Dict.get? s.entries key' :=
  Dict.get?_erase_of_ne _ h

theorem live?_drop_self (s : Server) (key : String) : (s.drop key).live? key = none := by
  rw [live?_eq_alive, get?_drop_self]
  rfl

theorem live?_drop_of_ne (s : Server) {key key' : String} (h : key' ≠ key) :
    (s.drop key).live? key' = s.live? key' :=
  live?_congr (now_drop s key) (get?_drop_of_ne s h)

theorem update_of_some {s : Server} {key : String} {e : Entry} (c : Content)
    (h : Dict.get? s.entries key = some e) :
    s.update key c = s.put key { e with content := c } := by
  simp [update, h]

theorem get?_dropIfEmpty_self {s : Server} {key : String} {e : Entry}
    (h : Dict.get? s.entries key = some e) :
    Dict.get? (s.dropIfEmpty key).entries key = if e.content.isEmpty then none else some e := by
  by_cases hc : e.content.isEmpty <;> simp [dropIfEmpty, h, hc, get?_drop_self]

theorem dropIfEmpty_of_none {s : Server} {key : String}
    (h : Dict.get? s.entries key = none) :
    s.dropIfEmpty key = s := by
  simp [dropIfEmpty, h]

theorem get?_dropIfEmpty_of_ne (s : Server) {key key' : String} (h : key' ≠ key) :
    Dict.get? (s.dropIfEmpty key).entries key' = Dict.get? s.entries key' := by
  unfold dropIfEmpty
  split
  · split
    · exact get?_drop_of_ne s h
    · rfl
  · rfl

/-! Commands as functions of what one key holds. -/

/-- What becomes of a key: the answer, and what it holds afterwards. -/
abbrev Effect := Option Entry → Except Failure Value × Option Entry

def readEffect (view : Content → Option α) (default : α)
    (f : α → Except Failure Value) : Effect
  | none => (f default, none)
  | some e =>
      match view e.content with
      | some a => (f a, some e)
      | none => (.error wrongKind, some e)

/-- The growth of one kind of collection; a new one has no deadline, an old one
keeps its own. -/
def growEffect (view : Content → Option α) (empty : α) (wrap : α → Content)
    (f : α → Except Failure Value × α) : Effect
  | none => ((f empty).1, some ⟨wrap (f empty).2, none⟩)
  | some e =>
      match view e.content with
      | some a => ((f a).1, some { e with content := wrap (f a).2 })
      | none => (.error wrongKind, some e)

/-- What is left of an entry when elements have been removed without a
failure. -/
def unlessEmpty (e : Entry) : Option Entry :=
  if e.content.isEmpty then none else some e

/-- The removal of elements; the key goes with the last of them. -/
def shrinkEffect (view : Content → Option α) (empty : α) (wrap : α → Content)
    (remove : α → Except Failure Nat × α) : Effect
  | none => ((remove empty).1.map count, none)
  | some e =>
      match view e.content with
      | some a =>
          match remove a with
          | (.error f, a') => (.error f, some { e with content := wrap a' })
          | (.ok n, a') => (.ok (count n), unlessEmpty { e with content := wrap a' })
      | none => (.error wrongKind, some e)

def writeItemsEffect (items : List (Value × Value)) : Effect :=
  if items.isEmpty then fun e => (.error (.client (.badInput "'hset' with no key value pairs")), e)
  else
    growEffect Content.hash? [] .hash fun fields =>
      ((writeItems fields 0 items).1.map count, (writeItems fields 0 items).2)

def extendEffect (view : Content → Option (List String))
    (wrap : List String → Content) (add : List String → String → List String)
    (answer : List String → List String → Nat) (items : List Value) : Effect :=
  growEffect view [] wrap fun xs =>
    ((addAll add xs items).1.map fun _ => count (answer xs (addAll add xs items).2),
      (addAll add xs items).2)

/-- The remaining time of an entry as it is answered. -/
def remaining (now : Int) : Option Entry → Int
  | none => -2
  | some e =>
      match e.deadline with
      | none => -1
      | some d => wholeSeconds (d - now)

/-- What a command on one key makes of what it holds. -/
def effect (now : Int) : Command → Effect
  | .ping => fun e => (.ok (.bool true), e)
  | .set _ value seconds => fun e =>
      match encode value with
      | .error f => (.error f, e)
      | .ok x => (.ok (.bool true), some ⟨.text x, seconds.map fun n => now + 1000 * n⟩)
  | .get _ => readEffect Content.text? none fun v => .ok (textOrNull v)
  | .hset _ field value =>
      if field.isNull then writeItemsEffect []
      else if field.isKey then writeItemsEffect [(field, value)]
      else fun e => (.error .wrongType, e)
  | .hsetAll _ entries => writeItemsEffect entries
  | .hget _ field =>
      readEffect Content.hash? [] fun h => (field? h field).map textOrNull
  | .hmget _ fields =>
      readEffect Content.hash? [] fun h => (fieldAll h fields).map .list
  | .hgetall _ =>
      readEffect Content.hash? [] fun h =>
        .ok (.map (h.map fun e => (.text e.1, .text e.2)))
  | .hdel _ fields =>
      shrinkEffect Content.hash? [] .hash fun h => removeFields h 0 fields
  | .hexists _ field =>
      readEffect Content.hash? [] fun h => (field? h field).map fun v => .bool v.isSome
  | .sadd _ members =>
      extendEffect Content.set? .set addMember
        (fun old new => new.length - old.length) members
  | .srem _ members =>
      shrinkEffect Content.set? [] .set fun ms =>
        removeAll List.contains (fun ms m => ms.filter (· ≠ m)) ms 0 members
  | .smembers _ => readEffect Content.set? [] fun ms => .ok (.set (ms.map .text))
  | .zadd _ scores =>
      growEffect Content.scored? [] .scored fun z =>
        ((writeScores z 0 scores).1.map count, (writeScores z 0 scores).2)
  | .zrem _ members =>
      shrinkEffect Content.scored? [] .scored fun z =>
        removeAll Dict.contains Dict.erase z 0 members
  | .rpush _ items =>
      extendEffect Content.sequence? .sequence (fun xs x => xs ++ [x])
        (fun _ new => new.length)
        items
  | .lrange _ first last =>
      readEffect Content.sequence? [] fun xs =>
        match windowStart first, windowEnd xs.length last with
        | some i, some j => .ok (.list ((slice xs i j).map .text))
        | _, _ => .error .wrongType
  | .exists _ => fun e => (.ok (count (if e.isSome then 1 else 0)), e)
  | .delete _ => fun e => (.ok (count (if e.isSome then 1 else 0)), none)
  | .expire _ seconds => fun e =>
      match e with
      | none => (.ok (.bool false), none)
      | some e =>
          (.ok (.bool true), some { e with deadline := some (now + 1000 * seconds) })
  | .ttl _ => fun e => (.ok (.int (remaining now e)), e)

/-- An answer that a server gives from what one key holds, changing that key
only. -/
structure ActsOn (s : Server) (key : String) (f : Effect) (r : Answer Value) :
    Prop where
  answer : r.1 = (f (s.live? key)).1
  now : r.2.now = s.now
  here : r.2.live? key = alive s.now (f (s.live? key)).2
  elsewhere : ∀ k, k ≠ key → Dict.get? r.2.entries k = Dict.get? s.entries k

theorem actsOn_refuse (s : Server) (key : String) (a : Except Failure Value) :
    ActsOn s key (fun e => (a, e)) (a, s) :=
  ⟨rfl, rfl, (alive_live? s key).symm, fun _ _ => rfl⟩

theorem actsOn_purge {s : Server} {key : String} {f : Effect}
    {a : Except Failure Value} (h : f (s.live? key) = (a, s.live? key)) :
    ActsOn s key f (a, s.purge key) where
  answer := by rw [h]
  now := now_purge s key
  here := by rw [h, live?_purge, alive_live?]
  elsewhere k hk := get?_purge_of_ne s hk

theorem actsOn_put {s s' : Server} {key : String} {f : Effect}
    {a : Except Failure Value} {e : Entry} (h : f (s.live? key) = (a, some e))
    (hnow : s'.now = s.now)
    (helse : ∀ k, k ≠ key → Dict.get? s'.entries k = Dict.get? s.entries k) :
    ActsOn s key f (a, s'.put key e) where
  answer := by rw [h]
  now := hnow
  here := by rw [h, live?_eq_alive, get?_put_self, now_put, hnow]
  elsewhere k hk := (get?_put_of_ne s' e hk).trans (helse k hk)

theorem actsOn_reading (s : Server) (key : String) (view : Content → Option α)
    (default : α) (f : α → Except Failure Value) :
    ActsOn s key (readEffect view default f)
      (s.reading key view default fun s a => (f a, s)) := by
  unfold reading
  simp only [get?_purge_self]
  cases hlive : s.live? key with
  | none => exact actsOn_purge (by simp [hlive, readEffect])
  | some e =>
      cases hview : view e.content with
      | none => simpa [hview] using actsOn_purge (by simp [hlive, hview, readEffect])
      | some a => simpa [hview] using actsOn_purge (by simp [hlive, hview, readEffect])

theorem actsOn_growing (s : Server) (key : String) (view : Content → Option α)
    (empty : α) (wrap : α → Content) (f : α → Except Failure Value × α) :
    ActsOn s key (growEffect view empty wrap f)
      (s.growing key view empty wrap fun s a => ((f a).1, s.update key (wrap (f a).2))) := by
  unfold growing
  simp only [get?_purge_self]
  cases hlive : s.live? key with
  | none =>
      have hput :
          ((s.purge key).put key ⟨wrap empty, none⟩).update key (wrap (f empty).2) =
          ((s.purge key).put key ⟨wrap empty, none⟩).put key ⟨wrap (f empty).2, none⟩ :=
        update_of_some _ (get?_put_self _ _ _)
      simp only [hput]
      refine actsOn_put (by simp [hlive, growEffect]) (now_purge s key) fun k hk => ?_
      exact (get?_put_of_ne _ _ hk).trans (get?_purge_of_ne s hk)
  | some e =>
      cases hview : view e.content with
      | none => simpa [hview] using actsOn_purge (by simp [hlive, hview, growEffect])
      | some a =>
          have hget : Dict.get? (s.purge key).entries key = some e := by
            rw [get?_purge_self, hlive]
          simp only [hview, update_of_some _ hget]
          exact actsOn_put (by simp [hlive, hview, growEffect]) (now_purge s key)
            fun k hk => get?_purge_of_ne s hk

theorem actsOn_runWriteItems (s : Server) (key : String)
    (items : List (Value × Value)) :
    ActsOn s key (writeItemsEffect items) (s.runWriteItems key items) := by
  unfold writeItemsEffect runWriteItems
  by_cases h : items.isEmpty
  · simpa [h] using actsOn_refuse s key _
  · simpa [h] using actsOn_growing s key Content.hash? [] .hash fun fields =>
      ((writeItems fields 0 items).1.map count, (writeItems fields 0 items).2)

theorem actsOn_runGrow (s : Server) (key : String)
    (view : Content → Option (List String)) (wrap : List String → Content)
    (add : List String → String → List String)
    (answer : List String → List String → Nat) (items : List Value) :
    ActsOn s key (extendEffect view wrap add answer items)
      (s.runGrow key view wrap add answer items) :=
  actsOn_growing s key view [] wrap fun xs =>
    ((addAll add xs items).1.map fun _ => count (answer xs (addAll add xs items).2),
      (addAll add xs items).2)

theorem actsOn_runRemove (s : Server) (key : String) (view : Content → Option α)
    (empty : α) (wrap : α → Content) (remove : α → Except Failure Nat × α) :
    ActsOn s key (shrinkEffect view empty wrap remove)
      (s.runRemove key view empty wrap remove) := by
  unfold runRemove reading
  simp only [get?_purge_self]
  cases hlive : s.live? key with
  | none =>
      have hget : Dict.get? (s.purge key).entries key = none := by
        rw [get?_purge_self, hlive]
      have hdrop := dropIfEmpty_of_none hget
      cases hr : (remove empty).1 with
      | error f =>
          simpa [Dict.contains, hget, hr] using
            actsOn_purge (by simp [hlive, shrinkEffect, hr, Except.map])
      | ok n =>
          simpa [Dict.contains, hget, hr, hdrop] using
            actsOn_purge (by simp [hlive, shrinkEffect, hr, Except.map])
  | some e =>
      cases hview : view e.content with
      | none => simpa [hview] using actsOn_purge (by simp [hlive, hview, shrinkEffect])
      | some a =>
          have hget : Dict.get? (s.purge key).entries key = some e := by
            rw [get?_purge_self, hlive]
          have hcontains : Dict.contains (s.purge key).entries key = true := by
            simp [Dict.contains, hget]
          have helse : ∀ k, k ≠ key →
              Dict.get? (s.purge key).entries k = Dict.get? s.entries k :=
            fun k hk => get?_purge_of_ne s hk
          rcases hr : remove a with ⟨f | n, a'⟩
          · simp only [hview, hr, hcontains, if_true, update_of_some _ hget]
            exact actsOn_put (by simp [hlive, hview, shrinkEffect, hr])
              (now_purge s key) helse
          · simp only [hview, hr, hcontains, if_true, update_of_some _ hget]
            refine ⟨by simp [hlive, hview, shrinkEffect, hr], by simp, ?_, fun k hk => ?_⟩
            · rw [live?_eq_alive, get?_dropIfEmpty_self (get?_put_self _ _ _)]
              simp [hlive, hview, shrinkEffect, hr, unlessEmpty]
            · exact (get?_dropIfEmpty_of_ne _ hk).trans
                ((get?_put_of_ne _ _ hk).trans (helse k hk))

theorem actsOn_runScalar (s : Server) (key : String) (value : Value)
    (seconds : Option Int) :
    ActsOn s key (effect s.now (.set key value seconds))
      (s.runScalar key value seconds) := by
  unfold runScalar
  cases h : encode value with
  | error f => simpa [effect, h] using actsOn_refuse s key (.error f)
  | ok x => exact actsOn_put (by simp [effect, h]) rfl fun _ _ => rfl

theorem actsOn_runExpire (s : Server) (key : String) (seconds : Int) :
    ActsOn s key (effect s.now (.expire key seconds)) (s.runExpire key seconds) := by
  unfold runExpire
  simp only [get?_purge_self]
  cases hlive : s.live? key with
  | none => exact actsOn_purge (by simp [hlive, effect])
  | some e =>
      exact actsOn_put (by simp [hlive, effect]) (now_purge s key)
        fun k hk => get?_purge_of_ne s hk

theorem actsOn_runTtl (s : Server) (key : String) :
    ActsOn s key (effect s.now (.ttl key)) (s.runTtl key) := by
  unfold runTtl
  simp only [get?_purge_self]
  cases hlive : s.live? key with
  | none => exact actsOn_purge (by simp [hlive, effect, remaining])
  | some e =>
      cases hd : e.deadline with
      | none => simpa [hd] using actsOn_purge (by simp [hlive, effect, remaining, hd])
      | some d => simpa [hd] using actsOn_purge (by simp [hlive, effect, remaining, hd])

theorem actsOn_exists (s : Server) (key : String) :
    ActsOn s key (effect s.now (.exists key)) (s.run (.exists key)) := by
  have h : ActsOn s key (effect s.now (.exists key)) (_, s.purge key) :=
    actsOn_purge rfl
  simpa [run, Dict.contains, get?_purge_self] using h

theorem actsOn_delete (s : Server) (key : String) :
    ActsOn s key (effect s.now (.delete [key])) (s.run (.delete [key])) where
  answer := by
    simp [run, runDelete, effect, Dict.contains, get?_purge_self]
  now := by simp [run, runDelete]
  here := by
    simp [run, runDelete, effect, live?_eq_alive, get?_drop_self, alive]
  elsewhere k hk := (get?_drop_of_ne _ hk).trans (get?_purge_of_ne s hk)

/-- Every command that names one key is answered from what this key holds, and
changes no other. -/
theorem actsOn_run (s : Server) {c : Command} {key : String}
    (h : c.keys = [key]) :
    ActsOn s key (effect s.now c) (s.run c) := by
  cases c <;> cases h
  case set value seconds => exact actsOn_runScalar s key value seconds
  case expire seconds => exact actsOn_runExpire s key seconds
  case ttl => exact actsOn_runTtl s key
  case «exists» => exact actsOn_exists s key
  case delete => exact actsOn_delete s key
  all_goals simp only [run, effect]
  case hset field value =>
    split
    · exact actsOn_runWriteItems s key []
    · split
      · exact actsOn_runWriteItems s key _
      · exact actsOn_refuse s key _
  case hsetAll entries => exact actsOn_runWriteItems s key entries
  case get | hget | hmget | hgetall | hexists | smembers => exact actsOn_reading s key _ _ _
  case hdel | srem | zrem => exact actsOn_runRemove s key _ _ _ _
  case sadd | rpush => exact actsOn_runGrow s key _ _ _ _ _
  case zadd => exact actsOn_growing s key _ _ _ _
  case lrange first last =>
    let answerOf (xs : List String) : Except Failure Value :=
      match windowStart first, windowEnd xs.length last with
      | some i, some j => .ok (.list ((slice xs i j).map .text))
      | _, _ => .error .wrongType
    refine Eq.mp (congrArg _ (congrArg _ ?_))
      (actsOn_reading s key Content.sequence? [] answerOf)
    funext s' xs
    simp only [answerOf]
    cases windowStart first <;> cases windowEnd xs.length last <;> rfl

theorem runDelete_cons (s : Server) (removed : Nat) (key : String)
    (keys : List String) :
    s.runDelete removed (key :: keys) =
      ((s.purge key).drop key).runDelete
        (if (s.live? key).isSome then removed + 1 else removed) keys := by
  simp only [runDelete, Dict.contains, get?_purge_self]

theorem get?_runDelete_of_not_mem (s : Server) (removed : Nat)
    {keys : List String} {k : String} (h : k ∉ keys) :
    Dict.get? (s.runDelete removed keys).2.entries k = Dict.get? s.entries k := by
  induction keys generalizing s removed with
  | nil => rfl
  | cons key keys ih =>
      rw [List.mem_cons, not_or] at h
      rw [runDelete_cons, ih _ _ h.2]
      exact (get?_drop_of_ne _ h.1).trans (get?_purge_of_ne s h.1)

theorem live?_runDelete (s : Server) (removed : Nat) (keys : List String) (key : String) :
    (s.runDelete removed keys).2.live? key = none ∨
      (s.runDelete removed keys).2.live? key = s.live? key := by
  induction keys generalizing s removed with
  | nil => exact .inr rfl
  | cons k keys ih =>
      rw [runDelete_cons]
      have hdropped : ((s.purge k).drop k).live? key = none ∨
          ((s.purge k).drop k).live? key = s.live? key := by
        by_cases hk : key = k
        · rw [hk]
          exact .inl (live?_drop_self _ k)
        · rw [live?_drop_of_ne _ hk]
          exact .inr (live?_purge s k key)
      rcases ih ((s.purge k).drop k) _ with hgone | hsame
      · exact .inl hgone
      · rw [hsame]
        exact hdropped

theorem now_runDelete (s : Server) (removed : Nat) (keys : List String) :
    (s.runDelete removed keys).2.now = s.now := by
  induction keys generalizing s removed with
  | nil => rfl
  | cons key keys ih => rw [runDelete_cons, ih, now_drop, now_purge]

theorem Command.keys_cases (c : Command) :
    c = .ping ∨ (∃ key, c.keys = [key]) ∨ ∃ keys, c = .delete keys := by
  cases c <;> simp [Command.keys]

theorem now_run (s : Server) (c : Command) : (s.run c).2.now = s.now := by
  rcases Command.keys_cases c with rfl | ⟨key, hkey⟩ | ⟨keys, rfl⟩
  · rfl
  · exact (actsOn_run s hkey).now
  · exact now_runDelete s 0 keys

theorem get?_run_of_not_mem (s : Server) {c : Command} {k : String}
    (h : k ∉ c.keys) :
    Dict.get? (s.run c).2.entries k = Dict.get? s.entries k := by
  rcases Command.keys_cases c with rfl | ⟨key, hkey⟩ | ⟨keys, rfl⟩
  · rfl
  · rw [hkey, List.mem_singleton] at h
    exact (actsOn_run s hkey).elsewhere k h
  · exact get?_runDelete_of_not_mem s 0 h

end FileStash.Server
