import FileStash.Proofs.Server.Agreement

namespace FileStash

namespace Server

/-- The same clock, and the same under a key for anybody who looks now. -/
structure SameUnder (key : String) (s s' : Server) : Prop where
  now : s.now = s'.now
  live : s.live? key = s'.live? key

namespace SameUnder

variable {key : String} {s s' : Server}

theorem advance (h : SameUnder key s s') (milliseconds : Nat) :
    SameUnder key (s.advance milliseconds) (s'.advance milliseconds) where
  now := by simp [Server.advance, h.now]
  live := by rw [live?_advance, live?_advance, h.live, h.now]

theorem runDelete (h : SameUnder key s s') (removed removed' : Nat) (keys : List String) :
    SameUnder key (s.runDelete removed keys).2 (s'.runDelete removed' keys).2 := by
  induction keys generalizing s s' removed removed' with
  | nil => exact h
  | cons k keys ih =>
      rw [runDelete_cons, runDelete_cons]
      refine ih ⟨by simp [h.now], ?_⟩ _ _
      by_cases hk : key = k
      · rw [hk, live?_drop_self, live?_drop_self]
      · rw [live?_drop_of_ne _ hk, live?_drop_of_ne _ hk, live?_purge, live?_purge, h.live]

theorem answer_runDelete (h : SameUnder key s s') (removed : Nat) {keys : List String}
    (hkeys : ∀ k ∈ keys, k = key) :
    (s.runDelete removed keys).1 = (s'.runDelete removed keys).1 := by
  induction keys generalizing s s' removed with
  | nil => rfl
  | cons k keys ih =>
      obtain rfl := hkeys k (List.mem_cons_self ..)
      rw [runDelete_cons, runDelete_cons, h.live]
      refine ih ⟨by simp [h.now], ?_⟩ _ fun k' hk' => hkeys k' (List.mem_cons_of_mem _ hk')
      rw [live?_drop_self, live?_drop_self]

theorem run (h : SameUnder key s s') (c : Command) :
    SameUnder key (s.run c).2 (s'.run c).2 := by
  refine ⟨by rw [now_run, now_run, h.now], ?_⟩
  rcases Command.keys_cases c with rfl | ⟨k, hk⟩ | ⟨keys, rfl⟩
  · exact h.live
  · have hs := actsOn_run s hk
    have hs' := actsOn_run s' hk
    by_cases hsame : key = k
    · subst hsame
      rw [hs.here, hs'.here, h.now, h.live]
    · rw [live?_congr hs.now (hs.elsewhere key hsame),
        live?_congr hs'.now (hs'.elsewhere key hsame), h.live]
  · exact (h.runDelete 0 0 keys).live

theorem answer_run (h : SameUnder key s s') {c : Command} (hc : ∀ k ∈ c.keys, k = key) :
    (s.run c).1 = (s'.run c).1 := by
  rcases Command.keys_cases c with rfl | ⟨k, hk⟩ | ⟨keys, rfl⟩
  · rfl
  · obtain rfl := hc k (by simp [hk])
    rw [(actsOn_run s hk).answer, (actsOn_run s' hk).answer, h.now, h.live]
  · exact h.answer_runDelete 0 hc

end SameUnder

end Server

namespace ScriptedServer

/-- Servers under one script that hold the same under a key. -/
structure SameUnder (key : String) (s s' : ScriptedServer) : Prop where
  script : s.script = s'.script
  server : s.server.SameUnder key s'.server

namespace SameUnder

variable {key : String} {s s' : ScriptedServer}

theorem scripted? (h : SameUnder key s s') (name : String) :
    s.scripted? name = s'.scripted? name := by
  simp [ScriptedServer.scripted?, h.script]

theorem of_keeps (h : SameUnder key s s') {a a' : ScriptedServer}
    (ha : Keeps key s a) (ha' : Keeps key s' a') : SameUnder key a a' where
  script := by rw [ha.script, ha'.script, h.script]
  server := ⟨by rw [ha.now, ha'.now, h.server.now], by rw [ha.live?, ha'.live?, h.server.live]⟩

theorem answer (h : SameUnder key s s') (c : Command) :
    SameUnder key (s.answer c).2 (s'.answer c).2 := by
  simp only [ScriptedServer.answer, h.scripted? c.name]
  cases s'.scripted? c.name with
  | some r => exact h
  | none => exact ⟨h.script, h.server.run c⟩

theorem reply_answer (h : SameUnder key s s') {c : Command} (hc : ∀ k ∈ c.keys, k = key) :
    (s.answer c).1 = (s'.answer c).1 := by
  simp only [ScriptedServer.answer, h.scripted? c.name]
  cases s'.scripted? c.name with
  | some r => rfl
  | none => exact h.server.answer_run hc

theorem answerAll (h : SameUnder key s s') {cs : List Command}
    (hcs : ∀ c ∈ cs, ∀ k ∈ c.keys, k = key) :
    (s.answerAll cs).1 = (s'.answerAll cs).1 ∧
      SameUnder key (s.answerAll cs).2 (s'.answerAll cs).2 := by
  induction cs generalizing s s' with
  | nil => exact ⟨rfl, h⟩
  | cons c cs ih =>
      have hreply := h.reply_answer (hcs c (List.mem_cons_self ..))
      have hstate := h.answer c
      simp only [ScriptedServer.answerAll]
      rcases hs : s.answer c with ⟨f | v, a⟩ <;> rcases hs' : s'.answer c with ⟨r, a'⟩ <;>
        rw [hs, hs'] at hreply hstate <;> cases hreply
      · exact ⟨rfl, hstate⟩
      · obtain ⟨hrest, hend⟩ := ih hstate fun d hd => hcs d (List.mem_cons_of_mem c hd)
        exact ⟨by simp only [hrest], hend⟩

/-- A transaction about the key alone is answered alike, and undone by both
servers or by none. -/
theorem commit (h : SameUnder key s s') {cs : List Command}
    (hcs : ∀ c ∈ cs, ∀ k ∈ c.keys, k = key) :
    (s.commit cs).1 = (s'.commit cs).1 ∧ SameUnder key (s.commit cs).2 (s'.commit cs).2 := by
  obtain ⟨hreply, hstate⟩ := h.answerAll hcs
  simp only [ScriptedServer.commit]
  rcases hs : s.answerAll cs with ⟨f | vs, a⟩ <;> rcases hs' : s'.answerAll cs with ⟨r, a'⟩ <;>
    rw [hs, hs'] at hreply hstate <;> cases hreply
  · refine ⟨rfl, ?_⟩
    by_cases hf : f.interrupts
    · simpa only [if_pos hf] using hstate
    · simpa only [if_neg hf] using h
  · exact ⟨rfl, hstate⟩

theorem call (h : SameUnder key s s') {c : Call} (hc : ∀ k ∈ c.keys, k = key) :
    (s.call c).1 = (s'.call c).1 ∧ SameUnder key (s.call c).2 (s'.call c).2 := by
  cases c with
  | connect address options => exact ⟨rfl, h⟩
  | close => exact ⟨rfl, h⟩
  | run c =>
      have hreply := h.reply_answer hc
      exact ⟨by simp only [ScriptedServer.call, hreply], h.answer c⟩
  | openTransaction =>
      simp only [ScriptedServer.call, h.scripted?]
      cases s'.scripted? openingName <;> exact ⟨rfl, h⟩
  | queue c => exact ⟨rfl, h⟩
  | commit cs =>
      obtain ⟨hreply, hstate⟩ := h.commit fun c hmem k hk =>
        hc k (List.mem_flatMap.mpr ⟨c, hmem, hk⟩)
      exact ⟨by simp only [ScriptedServer.call, hreply], hstate⟩

end SameUnder

end ScriptedServer

end FileStash
