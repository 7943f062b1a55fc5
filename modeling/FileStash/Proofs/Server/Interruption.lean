import FileStash.Proofs.Server.TextHash

/-!
A server where calls meet with errors: any call from outside, and any command by
a script that raises. A write within a time limit that fails leaves the server as it
was, unless an interruption came in place of the limit; and a transaction that
succeeds has had each of its commands answered by the server itself.
-/

namespace FileStash

/-! The server interrupts nobody by itself. -/

namespace Server

theorem interrupts_encode {v : Value} {f : Failure} (h : encode v = .error f) :
    f.interrupts = false := by
  unfold encode at h
  split at h
  · cases h
    rfl
  · cases h
    rfl
  · rename_i b
    cases hb : Text.Utf8.decode b <;> rw [hb] at h <;> cases h
    rfl
  · unfold Value.plain at h
    split at h <;> cases h
    rfl

theorem interrupts_writeItems {items : List (Value × Value)} {fields : Dict String String}
    {added : Nat} {f : Failure} (h : (writeItems fields added items).1 = .error f) :
    f.interrupts = false := by
  induction items generalizing fields added with
  | nil => cases h
  | cons item items ih =>
      simp only [writeItems] at h
      cases hitem : encodeItem item with
      | error f' =>
          simp only [hitem, Except.error.injEq] at h
          subst h
          simp only [encodeItem, bind, Except.bind] at hitem
          cases hvalue : encode item.2 with
          | error f' =>
              rw [hvalue] at hitem
              cases hitem
              exact interrupts_encode hvalue
          | ok value =>
              rw [hvalue] at hitem
              cases hfield : encode item.1 <;> rw [hfield] at hitem <;> cases hitem
              exact interrupts_encode hfield
      | ok e =>
          rw [hitem] at h
          exact ih h

theorem interrupts_hsetAll {s : Server} {key : String} {items : List (Value × Value)}
    {f : Failure} (h : (s.run (.hsetAll key items)).1 = .error f) : f.interrupts = false := by
  simp only [run, runWriteItems, growing] at h
  have hwritten : ∀ fields, (writeItems fields 0 items).1.map count = .error f →
      f.interrupts = false := by
    intro fields hmap
    cases hwrite : (writeItems fields 0 items).1 with
    | error f' =>
        rw [hwrite] at hmap
        cases hmap
        exact interrupts_writeItems hwrite
    | ok n =>
        rw [hwrite] at hmap
        cases hmap
  split at h
  · cases h
    rfl
  · split at h
    · exact hwritten _ h
    · split at h
      · exact hwritten _ h
      · cases h
        rfl

end Server

namespace ScriptedServer

/-- A server where any call may meet with an error in its place. -/
def interrupted (fault : ScriptedServer → Call → Option ClientError) :
    Client ScriptedServer :=
  fun s c =>
    match fault s c with
    | some e => (.error (.client e), s)
    | none => s.call c

variable {fault : ScriptedServer → Call → Option ClientError}

theorem state_interrupted {c : Call} (h : ∀ s : ScriptedServer, (s.call c).2 = s)
    (s : ScriptedServer) : (interrupted fault s c).2 = s := by
  unfold interrupted
  cases fault s c with
  | some e => rfl
  | none => exact h s

theorem interrupted_error {c : Call} {R : Failure → ScriptedServer → ScriptedServer → Prop}
    (hrefl : ∀ f s, R f s s)
    (h : ∀ (s : ScriptedServer) f, (s.call c).1 = .error f → R f (s.call c).2 s)
    (s : ScriptedServer) (f : Failure)
    (hf : (interrupted fault s c).1 = .error f) :
    R f (interrupted fault s c).2 s := by
  unfold interrupted at hf ⊢
  cases hfault : fault s c with
  | some e => exact hrefl f s
  | none =>
      rw [hfault] at hf
      exact h s f hf

theorem interrupted_run_value (s : ScriptedServer) (c : Command) (reply : Reply)
    (h : (interrupted fault s (.run c)).1 = .ok reply) :
    ∃ v, reply = .value v := by
  unfold interrupted at h
  cases hfault : fault s (.run c) with
  | some e => simp [hfault] at h
  | none =>
      simp only [hfault, call] at h
      cases hanswer : (s.answer c).1 with
      | error f => simp [hanswer, Except.map] at h
      | ok v =>
          simp only [hanswer, Except.map, Except.ok.injEq] at h
          exact ⟨v, h.symm⟩

def Raises (s : ScriptedServer) : Prop :=
  ∀ name v, s.scripted? name ≠ some (.ok v)

theorem raises_of_plain {s : ScriptedServer} (h : s.script = []) : s.Raises := by
  intro name v
  simp [scripted?, h, Dict.get?]

theorem interrupted_never :
    interrupted (fun _ _ => none) = ScriptedServer.call := rfl

theorem of_interrupted_ok {s : ScriptedServer} {c : Call} {r : Reply}
    (h : (interrupted fault s c).1 = .ok r) :
    interrupted fault s c = s.call c ∧ (s.call c).1 = .ok r := by
  unfold interrupted at h ⊢
  cases hfault : fault s c with
  | some e => simp [hfault] at h
  | none =>
      simp only [hfault] at h
      exact ⟨rfl, h⟩

theorem of_answer_ok {s : ScriptedServer} (hs : s.Raises) {c : Command} {v : Value}
    (h : (s.answer c).1 = .ok v) :
    (s.server.run c).1 = .ok v ∧ (s.answer c).2 = { s with server := (s.server.run c).2 } := by
  simp only [answer] at h ⊢
  cases hscript : s.scripted? c.name with
  | some r =>
      simp only [hscript] at h
      exact absurd (h ▸ hscript) (hs c.name v)
  | none =>
      simp only [hscript] at h
      exact ⟨h, rfl⟩

theorem of_commit_ok {s : ScriptedServer} (hs : s.Raises) {a b : Command} {r : Reply}
    (h : (s.call (.commit [a, b])).1 = .ok r) :
    ∃ v v', (s.server.run a).1 = .ok v ∧ ((s.server.run a).2.run b).1 = .ok v' ∧
      (s.call (.commit [a, b])).2 =
        { s with server := ((s.server.run a).2.run b).2 } := by
  simp only [call, commit, answerAll] at h ⊢
  rcases ha : s.answer a with ⟨f | v, s₁⟩
  · simp [ha, Except.map] at h
  · obtain ⟨hrun, hs₁⟩ := of_answer_ok hs (c := a) (by rw [ha])
    rw [ha] at hs₁
    subst hs₁
    rcases hb : ScriptedServer.answer { s with server := (s.server.run a).2 } b with
      ⟨f | v', s₂⟩
    · simp [ha, hb, Except.map] at h
    · obtain ⟨hrun', hs₂⟩ := of_answer_ok
        (s := { s with server := (s.server.run a).2 }) hs (c := b) (by rw [hb])
      rw [hb] at hs₂
      subst hs₂
      exact ⟨v, v', hrun, hrun', by simp only [hb, Except.map]⟩

theorem commit_ok {s : ScriptedServer} (hs : s.script = []) {a b : Command}
    {v v' : Value} (ha : (s.server.run a).1 = .ok v)
    (hb : ((s.server.run a).2.run b).1 = .ok v') :
    ∃ r, (s.call (.commit [a, b])).1 = .ok r := by
  refine ⟨.value (.list [v, v']), ?_⟩
  simp [call, commit, answerAll, answer, scripted?, hs, Dict.get?, ha, hb, Except.map]

/-- The error is an interruption that the script raises in place of a time
limit. -/
def InterruptsLimit (s : ScriptedServer) (e : StoreError) : Prop :=
  ∃ i, Dict.get? s.script "expire" = some (.error i) ∧ i.family = .interruption ∧
    e = .bare (.client i)

theorem not_interruptsLimit_of_plain {s : ScriptedServer} (h : s.script = []) (e : StoreError) :
    ¬s.InterruptsLimit e := by
  rintro ⟨i, hi, -⟩
  simp [h, Dict.get?] at hi

theorem state_of_interrupted_write {s : ScriptedServer} {key : String}
    {items : List (Value × Value)} {f : Failure}
    (h : (s.answer (.hsetAll key items)).1 = .error f) (hf : f.interrupts = true) :
    (s.answer (.hsetAll key items)).2 = s := by
  simp only [answer] at h ⊢
  cases hscript : s.scripted? (Command.hsetAll key items).name with
  | some r => rfl
  | none =>
      simp only [hscript] at h
      simp [Server.interrupts_hsetAll h] at hf

theorem interruptsLimit_of_answer {s : ScriptedServer} {key : String} {n : Int} {f : Failure}
    (h : (s.answer (.expire key n)).1 = .error f) (hf : f.interrupts = true) :
    s.InterruptsLimit (.bare f) := by
  simp only [answer, scripted?, Command.name] at h
  cases hscript : Dict.get? s.script "expire" with
  | none =>
      simp only [hscript, Option.map_none] at h
      rw [(Server.actsOn_run s.server (c := .expire key n) rfl).answer] at h
      cases hlive : s.server.live? key <;> rw [hlive] at h <;> cases h
  | some r =>
      rw [hscript] at h
      cases r with
      | ok v => cases h
      | error i =>
          cases h
          exact ⟨i, hscript, by simpa [Failure.interrupts] using hf, rfl⟩

theorem call_commit_error {s s' : ScriptedServer} {cs : List Command} {f : Failure}
    (h : s.answerAll cs = (.error f, s')) :
    s.call (.commit cs) = (.error f, if f.interrupts then s' else s) := by
  simp only [call, commit, h, Except.map]

/-- A write within a time limit that fails is undone, unless the limit is
interrupted. -/
theorem commit_error {s : ScriptedServer} {key : String} {items : List (Value × Value)} {n : Int}
    {f : Failure} (h : (s.call (.commit [.hsetAll key items, .expire key n])).1 = .error f) :
    s.InterruptsLimit (.bare f) ∨ (s.call (.commit [.hsetAll key items, .expire key n])).2 = s := by
  rcases hall : s.answerAll [.hsetAll key items, .expire key n] with ⟨f' | vs, s'⟩
  · rw [call_commit_error hall] at h ⊢
    cases h
    by_cases hf : f.interrupts
    · rw [if_pos hf]
      simp only [answerAll] at hall
      rcases hwrite : s.answer (.hsetAll key items) with ⟨f' | v, s₁⟩
      · -- The server interrupts no write by itself, so the script did, and nothing was written.
        have hsame := state_of_interrupted_write (congrArg Prod.fst hwrite)
        rw [hwrite] at hall hsame
        cases hall
        exact .inr (hsame hf)
      · have hkept := script_answer s (.hsetAll key items)
        rcases hlimit : s₁.answer (.expire key n) with ⟨f' | v', s₂⟩
        · rw [hwrite] at hkept
          simp only [hwrite, hlimit, Except.map, Prod.mk.injEq, Except.error.injEq] at hall
          obtain ⟨rfl, -⟩ := hall
          obtain ⟨i, hi, hfamily, he⟩ :=
            interruptsLimit_of_answer (congrArg Prod.fst hlimit) hf
          exact .inl ⟨i, hkept ▸ hi, hfamily, he⟩
        · simp [hwrite, hlimit, Except.map] at hall
    · exact .inr (if_neg hf)
  · simp [call, commit, hall, Except.map] at h

theorem openTransaction_state (s : ScriptedServer) :
    (s.call .openTransaction).2 = s := by
  simp only [call]
  cases s.scripted? openingName <;> rfl

theorem hsetAll_texts_error {s : ScriptedServer} {key : String}
    {entries : List (String × String)} (hne : entries ≠ []) {f : Failure}
    (h : (s.call (.run (.hsetAll key (Server.textItems entries)))).1 = .error f) :
    (s.call (.run (.hsetAll key (Server.textItems entries)))).2.Agrees s := by
  simp only [call, answer] at h ⊢
  cases hscript : s.scripted? (Command.hsetAll key (Server.textItems entries)).name with
  | some r => exact .refl s
  | none =>
      simp only [hscript] at h
      cases hrun : (s.server.run (.hsetAll key (Server.textItems entries))).1 with
      | error f' => exact ⟨rfl, Server.agrees_of_hsetAll_texts_error hne hrun⟩
      | ok v =>
          rw [hrun] at h
          cases h

end ScriptedServer
end FileStash
