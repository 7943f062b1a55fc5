import FileStash.Proofs.Server.Agreement
import FileStash.Proofs.Server.Deadline

namespace FileStash

/-- The looks at one key whose answer depends on no clock. -/
def Command.Sees : Command → Prop
  | .get _ | .hget .. | .hmget .. | .hgetall _ | .hexists .. | .smembers _ | .lrange ..
  | .exists _ => True
  | _ => False

/-- A command that gives its key a deadline. -/
def Command.Limits : Command → Prop
  | .set _ _ (some _) | .expire .. => True
  | _ => False

/-- A command that puts something under its key, for ever where the key is new. -/
def Command.Puts : Command → Prop
  | .set _ _ none | .hset .. | .hsetAll .. | .sadd .. | .zadd .. | .rpush .. => True
  | _ => False

namespace Server

variable {α : Type} {view : Content → Option α} {empty : α} {wrap : α → Content}

theorem effect_sees {c : Command} (h : c.Sees) (now later : Int) :
    effect later c = effect now c := by
  cases c <;> first | rfl | exact h.elim

def Endless (held : Option Entry) : Prop :=
  ∀ e, held = some e → e.deadline = none

theorem endless_none : Endless none := nofun

theorem Endless.content {e : Entry} (h : Endless (some e)) (c : Content) :
    Endless (some { e with content := c }) := by
  rintro e' ⟨⟩
  exact h e rfl

theorem Endless.filter {held : Option Entry} {p : Entry → Bool} (h : Endless held) :
    Endless (held.filter p) := by
  intro e he
  obtain ⟨hsome, -⟩ := Option.filter_eq_some_iff.mp he
  exact h e hsome

theorem remaining_of_endless {held : Option Entry} (h : Endless held) (now : Int) :
    remaining now held = if held.isSome then -1 else -2 := by
  cases held with
  | none => rfl
  | some e => simp [remaining, h e rfl]

section Effects

variable {held : Option Entry}

theorem Endless.read {f : α → Except Failure Value} (h : Endless held) :
    Endless (readEffect view empty f held).2 := by
  cases held with
  | none => exact h
  | some e =>
      simp only [readEffect]
      split <;> exact h

theorem Endless.grow {f : α → Except Failure Value × α} (h : Endless held) :
    Endless (growEffect view empty wrap f held).2 := by
  cases held with
  | none =>
      rintro e ⟨⟩
      rfl
  | some e =>
      simp only [growEffect]
      split
      · exact h.content _
      · exact h

theorem Endless.shrink {remove : α → Except Failure Nat × α} (h : Endless held) :
    Endless (shrinkEffect view empty wrap remove held).2 := by
  cases held with
  | none => exact h
  | some e =>
      simp only [shrinkEffect]
      split
      · split
        · exact h.content _
        · simp only [unlessEmpty]
          split
          · exact endless_none
          · exact h.content _
      · exact h

theorem Endless.writeItems {items : List (Value × Value)} (h : Endless held) :
    Endless (writeItemsEffect items held).2 := by
  unfold writeItemsEffect
  split
  · exact h
  · exact h.grow

theorem Endless.effect {c : Command} (hc : ¬c.Limits) (h : Endless held) (now : Int) :
    Endless (effect now c held).2 := by
  cases c with
  | ping | «exists» | ttl => exact h
  | set key value seconds =>
      cases seconds with
      | some n => exact (hc trivial).elim
      | none =>
          simp only [Server.effect]
          split
          · exact h
          · rintro e ⟨⟩
            rfl
  | get | hget | hmget | hgetall | hexists | smembers | lrange => exact h.read
  | hset key field value =>
      simp only [Server.effect]
      split
      · exact h.writeItems
      · split
        · exact h.writeItems
        · exact h
  | hsetAll => exact h.writeItems
  | sadd | zadd | rpush => exact h.grow
  | hdel | srem | zrem => exact h.shrink
  | delete keys => exact endless_none
  | expire => exact (hc trivial).elim

theorem not_limits_of_puts {c : Command} (hc : c.Puts) : ¬c.Limits := by
  cases c with
  | set key value seconds =>
      cases seconds with
      | none => exact id
      | some n => exact hc.elim
  | expire => exact hc.elim
  | _ => exact id

theorem there_of_puts {c : Command} (hc : c.Puts) {now : Int} {v : Value}
    (h : (effect now c none).1 = .ok v) : ∃ e, (effect now c none).2 = some e := by
  have hitems : ∀ {items}, (writeItemsEffect items none).1 = .ok v →
      ∃ e, (writeItemsEffect items none).2 = some e := by
    intro items hok
    unfold writeItemsEffect at hok ⊢
    split at hok
    · cases hok
    · rename_i hne
      simp only [hne]
      exact ⟨_, rfl⟩
  cases c with
  | set key value seconds =>
      simp only [effect] at h ⊢
      cases hv : encode value with
      | error f => simp [hv] at h
      | ok x => exact ⟨_, rfl⟩
  | hset key field value =>
      simp only [effect] at h ⊢
      split at h
      · simp [writeItemsEffect] at h
      · split at h
        · rename_i hnull hfield
          simp only [hnull, hfield]
          exact hitems h
        · cases h
  | hsetAll key items => exact hitems h
  | sadd | zadd | rpush => exact ⟨_, rfl⟩
  | _ => exact hc.elim

end Effects

/-- The same for a server: whatever a command is about, a key keeps no deadline
unless it is given one. -/
theorem Endless.run {s : Server} {key : String} (h : Endless (s.live? key)) {c : Command}
    (hc : ¬c.Limits) : Endless ((s.run c).2.live? key) := by
  rcases Command.keys_cases c with rfl | ⟨k, hk⟩ | ⟨keys, rfl⟩
  · exact h
  · have hact := actsOn_run s hk
    by_cases hkey : key = k
    · subst hkey
      rw [hact.here]
      exact (h.effect hc s.now).filter
    · rw [live?_congr hact.now (hact.elsewhere key hkey)]
      exact h
  · rcases live?_runDelete s 0 keys key with hgone | hsame
    · exact fun e he => by cases hgone.symm.trans he
    · exact fun e he => h e (hsame.symm.trans he)

theorem live?_of_puts {s : Server} {key : String} (h : s.live? key = none) {c : Command}
    (hkey : c.keys = [key]) (hc : c.Puts) {v : Value} (hok : (s.run c).1 = .ok v) :
    ∃ e, (s.run c).2.live? key = some e ∧ e.deadline = none := by
  have hact := actsOn_run s hkey
  rw [hact.answer, h] at hok
  obtain ⟨e, he⟩ := there_of_puts hc hok
  have hend : e.deadline = none :=
    endless_none.effect (not_limits_of_puts hc) s.now e he
  refine ⟨e, ?_, hend⟩
  rw [hact.here, h, he]
  exact alive_some_of_not_expired (by simp [Entry.expired, hend])

end Server

end FileStash
