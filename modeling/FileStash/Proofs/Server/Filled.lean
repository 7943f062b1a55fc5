import FileStash.Proofs.Server.Writing

namespace FileStash.Server

def Whole (held : Option Entry) : Prop :=
  ∀ e, held = some e → e.content.isEmpty = false

/-- A key that is there holds a text, or a collection with something in it. -/
def Filled (s : Server) : Prop :=
  ∀ key, Whole (s.live? key)

/-- A write that leaves no empty collection where it fails. -/
def Spares (s : Server) (c : Command) : Prop :=
  c.Direct → ∀ key ∈ c.keys, (∃ f, (effect s.now c (s.live? key)).1 = .error f) →
    Whole (c.halted (s.live? key))

theorem whole_none : Whole none := nofun

theorem Whole.alive {now : Int} {held : Option Entry} (h : Whole held) :
    Whole (alive now held) := by
  intro e he
  obtain ⟨hsome, -⟩ := Option.filter_eq_some_iff.mp he
  exact h e hsome

/-- What is not empty stays so: fields are looked for only where there are any. -/
theorem isEmpty_removeFields {vs : List Value} {fields : Dict String String} {removed : Nat}
    {f : Failure} (h : (removeFields fields removed vs).1 = .error f) :
    (removeFields fields removed vs).2.isEmpty = false := by
  induction vs generalizing fields removed with
  | nil => cases h
  | cons v vs ih =>
      unfold removeFields at h ⊢
      split at h
      · cases h
      · rename_i hfields
        simp only [hfields]
        split at h
        · simpa using hfields
        · exact ih h
        · split at h
          · exact ih h
          · exact ih h

theorem whole_readEffect {α : Type} {view : Content → Option α} {default : α}
    {f : α → Except Failure Value} {held : Option Entry} (h : Whole held) :
    Whole (readEffect view default f held).2 := by
  cases held with
  | none => exact h
  | some e =>
      simp only [readEffect]
      split <;> exact h

theorem whole_removeFields {key : String} {fields : List Value} {now : Int}
    {held : Option Entry} (h : Whole held) : Whole (effect now (.hdel key fields) held).2 := by
  cases hr : (effect now (.hdel key fields) held).1 with
  | ok v => exact whole_of_shrinkEffect hr
  | error f =>
      simp only [effect] at hr ⊢
      cases held with
      | none => exact whole_none
      | some e =>
          cases hkind : Content.hash? e.content with
          | none =>
              simp only [shrinkEffect, hkind]
              exact h
          | some d =>
              rcases hremove : removeFields d 0 fields with ⟨f' | n, d'⟩
              · have hleft := isEmpty_removeFields (f := f') (by rw [hremove])
                rw [hremove] at hleft
                simp only [shrinkEffect, hkind, hremove]
                rintro e' ⟨⟩
                exact hleft
              · simp [shrinkEffect, hkind, hremove] at hr

theorem whole_effect {c : Command} {now : Int} {held : Option Entry}
    (hloaded : c.fresh ≠ none → c.changes ≠ [])
    (hspares : c.Direct → (∃ f, (effect now c held).1 = .error f) → Whole (c.halted held))
    (h : Whole held) : Whole (effect now c held).2 := by
  have hwrite : c.Direct → Whole (effect now c held).2 := by
    intro hdirect
    cases hr : (effect now c held).1 with
    | ok v => exact (shape_effect hdirect now).whole hloaded hr
    | error f =>
        rw [(shape_effect hdirect now).left hr]
        exact hspares hdirect ⟨f, hr⟩
  cases c with
  | set | hset | hsetAll | sadd | srem | zadd | zrem | rpush => exact hwrite trivial
  | get | hget | hmget | hgetall | hexists | smembers | lrange => exact whole_readEffect h
  | ping | «exists» | ttl => exact h
  | hdel key fields => exact whole_removeFields h
  | delete keys => exact whole_none
  | expire key seconds =>
      cases held with
      | none => exact h
      | some e =>
          rintro e' ⟨⟩
          exact h e rfl

namespace Filled

variable {s : Server}

theorem run (h : Filled s) {c : Command} (hloaded : c.fresh ≠ none → c.changes ≠ [])
    (hspares : Spares s c) : Filled (s.run c).2 := by
  rcases Command.keys_cases c with rfl | ⟨key, hkey⟩ | ⟨keys, rfl⟩
  · exact h
  · intro k
    have hact := actsOn_run s hkey
    by_cases hk : k = key
    · subst hk
      rw [hact.here]
      exact (whole_effect hloaded (fun hdirect => hspares hdirect k (by simp [hkey])) (h k)).alive
    · rw [live?_congr hact.now (hact.elsewhere k hk)]
      exact h k
  · intro k
    rcases live?_runDelete s 0 keys k with hgone | hsame
    · exact fun e he => by cases hgone.symm.trans he
    · exact fun e he => h k e (hsame.symm.trans he)

theorem advance (h : Filled s) (milliseconds : Nat) : Filled (s.advance milliseconds) := by
  intro key
  rw [live?_advance]
  exact (h key).alive

theorem of_agrees {s' : Server} (h : Filled s) (hagrees : Agrees s' s) : Filled s' := by
  intro key
  rw [hagrees.live]
  exact h key

theorem empty (now : Int) : Filled { entries := [], now := now } :=
  fun _ => nofun

end Filled

end FileStash.Server
