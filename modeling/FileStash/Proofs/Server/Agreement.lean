import FileStash.Proofs.Program.Effects
import FileStash.Proofs.Server.Locality
import FileStash.Server.Scripted

namespace FileStash

namespace Server

theorem effect_of_reads {c : Command} (h : c.Reads) (now : Int) (e : Option Entry) :
    (effect now c e).2 = e := by
  have hread : ∀ {α : Type} (view : Content → Option α) (default : α)
      (f : α → Except Failure Value), (readEffect view default f e).2 = e := by
    intro α view default f
    cases e with
    | none => rfl
    | some e =>
        simp only [readEffect]
        cases view e.content <;> rfl
  cases c <;> first | exact h.elim | exact hread .. | rfl

/-- The clock and what every key holds for anybody who looks now. -/
structure Agrees (s s' : Server) : Prop where
  now : s.now = s'.now
  live : ∀ key, s.live? key = s'.live? key

namespace Agrees

variable {s s' s'' : Server}

theorem refl (s : Server) : Agrees s s := ⟨rfl, fun _ => rfl⟩

theorem symm (h : Agrees s s') : Agrees s' s :=
  ⟨h.now.symm, fun key => (h.live key).symm⟩

theorem trans (h : Agrees s s') (h' : Agrees s' s'') : Agrees s s'' :=
  ⟨h.now.trans h'.now, fun key => (h.live key).trans (h'.live key)⟩

theorem purge (s : Server) (key : String) : Agrees (s.purge key) s :=
  ⟨now_purge s key, live?_purge s key⟩

theorem drop (h : Agrees s s') (key : String) :
    Agrees (s.drop key) (s'.drop key) where
  now := h.now
  live k := by
    by_cases hk : k = key
    · rw [hk, live?_drop_self, live?_drop_self]
    · rw [live?_drop_of_ne s hk, live?_drop_of_ne s' hk, h.live]

theorem runDelete (h : Agrees s s') (removed : Nat) (keys : List String) :
    (s.runDelete removed keys).1 = (s'.runDelete removed keys).1 ∧
      Agrees (s.runDelete removed keys).2 (s'.runDelete removed keys).2 := by
  induction keys generalizing s s' removed with
  | nil => exact ⟨rfl, h⟩
  | cons key keys ih =>
      rw [runDelete_cons, runDelete_cons, h.live key]
      exact ih (((purge s key).trans (h.trans (purge s' key).symm)).drop key) _

theorem run (h : Agrees s s') (c : Command) :
    (s.run c).1 = (s'.run c).1 ∧ Agrees (s.run c).2 (s'.run c).2 := by
  rcases Command.keys_cases c with rfl | ⟨key, hkey⟩ | ⟨keys, rfl⟩
  · exact ⟨rfl, h⟩
  · have hs := actsOn_run s hkey
    have hs' := actsOn_run s' hkey
    have heffect : effect s.now c (s.live? key) = effect s'.now c (s'.live? key) := by
      rw [h.now, h.live]
    refine ⟨by rw [hs.answer, hs'.answer, heffect], ?_, fun k => ?_⟩
    · rw [hs.now, hs'.now, h.now]
    · by_cases hk : k = key
      · subst hk
        rw [hs.here, hs'.here, heffect, h.now]
      · rw [live?_congr hs.now (hs.elsewhere k hk),
          live?_congr hs'.now (hs'.elsewhere k hk), h.live]
  · exact h.runDelete 0 keys

theorem of_unchanged {c : Command} {key : String} (hkey : c.keys = [key])
    (heffect : (effect s.now c (s.live? key)).2 = s.live? key) :
    Agrees (s.run c).2 s := by
  have hact := actsOn_run s hkey
  refine ⟨hact.now, fun k => ?_⟩
  by_cases hk : k = key
  · subst hk
    rw [hact.here, heffect, alive_live?]
  · exact live?_congr hact.now (hact.elsewhere k hk)

theorem of_reads {c : Command} (h : c.Reads) (s : Server) : Agrees (s.run c).2 s := by
  rcases Command.keys_cases c with rfl | ⟨key, hkey⟩ | ⟨keys, rfl⟩
  · exact refl s
  · exact of_unchanged hkey (effect_of_reads h s.now _)
  · exact h.elim

theorem advance (h : Agrees s s') (milliseconds : Nat) :
    Agrees (s.advance milliseconds) (s'.advance milliseconds) where
  now := by simp [Server.advance, h.now]
  live key := by rw [live?_advance, live?_advance, h.live key, h.now]

end Agrees

end Server

namespace ScriptedServer

structure Agrees (s s' : ScriptedServer) : Prop where
  script : s.script = s'.script
  server : s.server.Agrees s'.server

namespace Agrees

variable {s s' : ScriptedServer}

theorem refl (s : ScriptedServer) : Agrees s s := ⟨rfl, .refl _⟩

theorem symm (h : Agrees s s') : Agrees s' s :=
  ⟨h.script.symm, h.server.symm⟩

theorem trans {s'' : ScriptedServer} (h : Agrees s s') (h' : Agrees s' s'') :
    Agrees s s'' :=
  ⟨h.script.trans h'.script, h.server.trans h'.server⟩

theorem scripted? (h : Agrees s s') (name : String) :
    s.scripted? name = s'.scripted? name := by
  simp [ScriptedServer.scripted?, h.script]

theorem answer (h : Agrees s s') (c : Command) :
    (s.answer c).1 = (s'.answer c).1 ∧ Agrees (s.answer c).2 (s'.answer c).2 := by
  simp only [ScriptedServer.answer, h.scripted? c.name]
  cases s'.scripted? c.name with
  | some r => exact ⟨rfl, h⟩
  | none => exact ⟨(h.server.run c).1, h.script, (h.server.run c).2⟩

theorem answerAll (h : Agrees s s') (cs : List Command) :
    (s.answerAll cs).1 = (s'.answerAll cs).1 ∧ Agrees (s.answerAll cs).2
    (s'.answerAll cs).2 := by
  induction cs generalizing s s' with
  | nil => exact ⟨rfl, h⟩
  | cons c cs ih =>
      obtain ⟨hreply, hstate⟩ := h.answer c
      simp only [ScriptedServer.answerAll]
      rcases hs : s.answer c with ⟨f | v, a⟩
      · rcases hs' : s'.answer c with ⟨r, a'⟩
        rw [hs, hs'] at hreply hstate
        cases hreply
        exact ⟨rfl, hstate⟩
      · rcases hs' : s'.answer c with ⟨r, a'⟩
        rw [hs, hs'] at hreply hstate
        cases hreply
        obtain ⟨hrest, hend⟩ := ih hstate
        exact ⟨by simp only [hrest], hend⟩

theorem commit (h : Agrees s s') (cs : List Command) :
    (s.commit cs).1 = (s'.commit cs).1 ∧ Agrees (s.commit cs).2 (s'.commit cs).2 := by
  obtain ⟨hreply, hstate⟩ := h.answerAll cs
  simp only [ScriptedServer.commit]
  rcases hs : s.answerAll cs with ⟨f | vs, a⟩ <;> rcases hs' : s'.answerAll cs with ⟨r, a'⟩ <;>
    rw [hs, hs'] at hreply hstate <;> cases hreply
  · refine ⟨rfl, ?_⟩
    by_cases hf : f.interrupts
    · simpa only [if_pos hf] using hstate
    · simpa only [if_neg hf] using h
  · exact ⟨rfl, hstate⟩

theorem call (h : Agrees s s') (c : Call) :
    (s.call c).1 = (s'.call c).1 ∧ Agrees (s.call c).2 (s'.call c).2 := by
  cases c with
  | connect address options => exact ⟨rfl, h⟩
  | close => exact ⟨rfl, h⟩
  | run c =>
      obtain ⟨hreply, hstate⟩ := h.answer c
      exact ⟨by simp only [ScriptedServer.call, hreply], hstate⟩
  | openTransaction =>
      simp only [ScriptedServer.call, h.scripted?]
      cases s'.scripted? openingName <;> exact ⟨rfl, h⟩
  | queue c => exact ⟨rfl, h⟩
  | commit cs =>
      obtain ⟨hreply, hstate⟩ := h.commit cs
      exact ⟨by simp only [ScriptedServer.call, hreply], hstate⟩

theorem run {α : Type} (h : Agrees s s') (p : Program α) (t : FileTree) :
    Program.SameRun Agrees (p.run ScriptedServer.call s t)
      (p.run ScriptedServer.call s' t) :=
  Program.run_sameRun (fun _ _ c hc => hc.call c) p t h

theorem of_reads {α : Type} {p : Program α} {Q : FileTree → Prop}
    (hp : p.Within Call.Reads Q) (s : ScriptedServer) (t : FileTree) :
    Agrees (p.run ScriptedServer.call s t).state s := by
  refine hp.state_run (I := fun s' => Agrees s' s) (fun s' c hc hs' => ?_) t (refl s)
  refine trans ?_ hs'
  obtain ⟨d, rfl, hd⟩ := hc
  simp only [ScriptedServer.call, ScriptedServer.answer]
  cases s'.scripted? d.name with
  | some r => exact refl s'
  | none => exact ⟨rfl, Server.Agrees.of_reads hd s'.server⟩

end Agrees

/-! No call takes time. -/

theorem now_answer (s : ScriptedServer) (c : Command) :
    (s.answer c).2.server.now = s.server.now := by
  simp only [answer]
  cases s.scripted? c.name with
  | some r => rfl
  | none => exact Server.now_run s.server c

theorem now_answerAll (s : ScriptedServer) (cs : List Command) :
    (s.answerAll cs).2.server.now = s.server.now := by
  induction cs generalizing s with
  | nil => rfl
  | cons c cs ih =>
      have hfirst := now_answer s c
      simp only [answerAll]
      rcases hs : s.answer c with ⟨f | v, a⟩ <;> rw [hs] at hfirst
      · exact hfirst
      · exact (ih a).trans hfirst

theorem now_call (s : ScriptedServer) (c : Call) :
    (s.call c).2.server.now = s.server.now := by
  cases c with
  | connect address options => rfl
  | close => rfl
  | run c => exact now_answer s c
  | openTransaction =>
      simp only [call]
      cases s.scripted? openingName <;> rfl
  | queue c => rfl
  | commit cs =>
      have hall := now_answerAll s cs
      simp only [call, commit]
      rcases hs : s.answerAll cs with ⟨f | vs, a⟩ <;> rw [hs] at hall
      · show (if f.interrupts then a else s).server.now = s.server.now
        split
        · exact hall
        · rfl
      · exact hall

theorem now_run {α : Type} (p : Program α) (s : ScriptedServer) (t : FileTree) :
    (p.run call s t).state.server.now = s.server.now := by
  induction p generalizing s t with
  | done a => rfl
  | fail e => rfl
  | call c next ih => exact (ih _ _ t).trans (now_call s c)
  | look next ih => exact ih t s t
  | save t' next ih => exact ih s t'
  | log r next ih => exact ih s t

/-! No call changes the script. -/

theorem script_answer (s : ScriptedServer) (c : Command) : (s.answer c).2.script = s.script := by
  simp only [answer]
  cases s.scripted? c.name <;> rfl

theorem script_answerAll (s : ScriptedServer) (cs : List Command) :
    (s.answerAll cs).2.script = s.script := by
  induction cs generalizing s with
  | nil => rfl
  | cons c cs ih =>
      have hfirst := script_answer s c
      simp only [answerAll]
      rcases hs : s.answer c with ⟨f | v, a⟩ <;> rw [hs] at hfirst
      · exact hfirst
      · exact (ih a).trans hfirst

theorem script_call (s : ScriptedServer) (c : Call) : (s.call c).2.script = s.script := by
  cases c with
  | connect address options => rfl
  | close => rfl
  | run c => exact script_answer s c
  | openTransaction =>
      simp only [call]
      cases s.scripted? openingName <;> rfl
  | queue c => rfl
  | commit cs =>
      have hall := script_answerAll s cs
      simp only [call, commit]
      rcases hs : s.answerAll cs with ⟨f | vs, a⟩ <;> rw [hs] at hall
      · show (if f.interrupts then a else s).script = s.script
        split
        · exact hall
        · rfl
      · exact hall

theorem script_run {α : Type} (p : Program α) (s : ScriptedServer) (t : FileTree) :
    (p.run call s t).state.script = s.script := by
  induction p generalizing s t with
  | done a => rfl
  | fail e => rfl
  | call c next ih => exact (ih _ _ t).trans (script_call s c)
  | look next ih => exact ih t s t
  | save t' next ih => exact ih s t'
  | log r next ih => exact ih s t

/-- What lies under a key, the clock and the script are as before. -/
structure Keeps (key : String) (s s' : ScriptedServer) : Prop where
  script : s'.script = s.script
  now : s'.server.now = s.server.now
  entry : Dict.get? s'.server.entries key = Dict.get? s.server.entries key

namespace Keeps

variable {key : String} {s s' s'' : ScriptedServer}

theorem refl (key : String) (s : ScriptedServer) :
    Keeps key s s := ⟨rfl, rfl, rfl⟩

theorem trans (h : Keeps key s s') (h' : Keeps key s' s'') : Keeps key s s'' :=
  ⟨h'.script.trans h.script, h'.now.trans h.now, h'.entry.trans h.entry⟩

theorem live? (h : Keeps key s s') : s'.server.live? key = s.server.live? key :=
  Server.live?_congr h.now h.entry

theorem answer (s : ScriptedServer) {c : Command} (h : key ∉ c.keys) :
    Keeps key s (s.answer c).2 := by
  simp only [ScriptedServer.answer]
  cases s.scripted? c.name with
  | some r => exact refl key s
  | none =>
      exact ⟨rfl, Server.now_run s.server c, Server.get?_run_of_not_mem s.server h⟩

theorem answerAll (s : ScriptedServer) {cs : List Command}
    (h : ∀ c ∈ cs, key ∉ c.keys) :
    Keeps key s (s.answerAll cs).2 := by
  induction cs generalizing s with
  | nil => exact refl key s
  | cons c cs ih =>
      have hfirst := answer s (h c (List.mem_cons_self ..))
      simp only [ScriptedServer.answerAll]
      rcases hs : s.answer c with ⟨f | v, a⟩ <;> rw [hs] at hfirst
      · exact hfirst
      · exact hfirst.trans (ih a fun d hd => h d (List.mem_cons_of_mem c hd))

theorem commit (s : ScriptedServer) {cs : List Command}
    (h : ∀ c ∈ cs, key ∉ c.keys) :
    Keeps key s (s.commit cs).2 := by
  have hall := answerAll s h
  simp only [ScriptedServer.commit]
  rcases hs : s.answerAll cs with ⟨f | vs, a⟩ <;> rw [hs] at hall
  · show Keeps key s (if f.interrupts then a else s)
    split
    · exact hall
    · exact refl key s
  · exact hall

theorem call (s : ScriptedServer) {c : Call} (h : key ∉ c.keys) :
    Keeps key s (s.call c).2 := by
  cases c with
  | connect address options => exact refl key s
  | close => exact refl key s
  | run c => exact answer s h
  | openTransaction =>
      simp only [ScriptedServer.call]
      cases s.scripted? openingName <;> exact refl key s
  | queue c => exact refl key s
  | commit cs =>
      refine commit s fun c hc hkey => h ?_
      exact List.mem_flatMap.mpr ⟨c, hc, hkey⟩

theorem run {α : Type} {p : Program α} {Q : FileTree → Prop}
    (hp : p.Within (fun c => key ∉ c.keys) Q) (s : ScriptedServer)
    (t : FileTree) :
    Keeps key s (p.run ScriptedServer.call s t).state :=
  hp.state_run (I := Keeps key s) (fun _ _ hc hkeep => hkeep.trans (call _ hc)) t
    (refl key s)

end Keeps

end ScriptedServer

end FileStash
