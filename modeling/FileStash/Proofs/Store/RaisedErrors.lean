import FileStash.Proofs.Store.Asking
import FileStash.Proofs.Store.Plan

namespace FileStash

namespace Program

variable {σ α β : Type} {client : Client σ}

/-- The calls of a run, each with what it was answered. -/
def exchanges (client : Client σ) :
    Program α → σ → FileTree → List (Call × Except Failure Reply)
  | .done _, _, _ => []
  | .fail _, _, _ => []
  | .call c next, s, t =>
      let reply := client s c
      (c, reply.1) :: (next reply.1).exchanges client reply.2 t
  | .look next, s, t => (next t).exchanges client s t
  | .save t next, s, _ => next.exchanges client s t
  | .log _ next, s, t => next.exchanges client s t

theorem map_exchanges (p : Program α) (s : σ) (t : FileTree) :
    (p.exchanges client s t).map (·.1) = (p.run client s t).calls := by
  induction p generalizing s t with
  | done a => rfl
  | fail e => rfl
  | call c next ih => exact congrArg (c :: ·) (ih _ _ t)
  | look next ih => exact ih t s t
  | save t' next ih => exact ih s t'
  | log r next ih => exact ih s t

theorem exchanges_andThen (p : Program α) (f : α → Program β) (s : σ) (t : FileTree) :
    (p.andThen f).exchanges client s t = p.exchanges client s t ++
      match (p.run client s t).result with
      | .ok a => (f a).exchanges client (p.run client s t).state (p.run client s t).tree
      | .error _ => [] := by
  induction p generalizing s t with
  | done a => rfl
  | fail e => rfl
  | call c next ih => exact congrArg (_ :: ·) (ih _ _ t)
  | look next ih => exact ih t s t
  | save t' next ih => exact ih s t'
  | log r next ih => exact ih s t

/-- What was exchanged before a failure: answers only, and never for the same
call. -/
def Leads (before : List (Call × Except Failure Reply)) (c : Call) : Prop :=
  ∀ x ∈ before, x.1 ≠ c ∧ ∃ reply, x.2 = .ok reply

/-- A failure of the client ends the program with an error that it `Means`. -/
def Heeds (client : Client σ) (Means : Failure → StoreError → Prop) (p : Program α) : Prop :=
  ∀ s t c f, (c, .error f) ∈ p.exchanges client s t →
    (∃ before, p.exchanges client s t = before ++ [(c, .error f)] ∧ Leads before c) ∧
      ∃ e, (p.run client s t).result = .error e ∧ Means f e

section Heeds

variable {Means : Failure → StoreError → Prop} {P : Call → Prop} {Q : FileTree → Prop}

theorem mem_of_exchanges {p : Program α} (hp : p.Within P Q) {s : σ} {t : FileTree}
    {x : Call × Except Failure Reply} (hx : x ∈ p.exchanges client s t) : P x.1 := by
  have hcall : x.1 ∈ (p.run client s t).calls := by
    rw [← map_exchanges]
    exact List.mem_map_of_mem hx
  exact hp.calls_run s t x.1 hcall

theorem exchanges_of_silent {p : Program α} (hp : p.Within (fun _ => False) Q) (s : σ)
    (t : FileTree) : p.exchanges client s t = [] :=
  List.eq_nil_iff_forall_not_mem.mpr fun _ hx => mem_of_exchanges hp hx

theorem heeds_of_silent {p : Program α} (hp : p.Within (fun _ => False) Q) :
    p.Heeds client Means := by
  intro s t c f h
  exact (mem_of_exchanges hp h).elim

/-- Two programs one after the other, the second of which makes no call that the
first one makes. -/
theorem Heeds.andThen {p : Program α} {f : α → Program β} (hp : p.Heeds client Means)
    (hcalls : p.Within P Q) (hf : ∀ a, (f a).Heeds client Means)
    (hothers : ∀ a, (f a).Asks fun c => ¬P c) :
    (p.andThen f).Heeds client Means := by
  intro s t c fault h
  rw [exchanges_andThen] at h ⊢
  cases hresult : (p.run client s t).result with
  | error e =>
      simp only [hresult, List.append_nil] at h ⊢
      obtain ⟨hbefore, e', he', hmeans⟩ := hp s t c fault h
      rw [run_andThen_error he']
      exact ⟨hbefore, e', rfl, hmeans⟩
  | ok a =>
      simp only [hresult] at h ⊢
      -- The first program has succeeded, so that none of its calls failed.
      have hnone : ∀ x ∈ p.exchanges client s t, ∃ reply, x.2 = .ok reply := by
        rintro ⟨c', _ | reply⟩ hx
        · obtain ⟨-, e, he, -⟩ := hp s t c' _ hx
          cases hresult.symm.trans he
        · exact ⟨reply, rfl⟩
      rcases List.mem_append.mp h with hfirst | hrest
      · obtain ⟨reply, hreply⟩ := hnone _ hfirst
        cases hreply
      · obtain ⟨⟨before, hbefore, hleads⟩, e, he, hmeans⟩ := hf a _ _ c fault hrest
        refine ⟨⟨p.exchanges client s t ++ before, ?_, ?_⟩, e, ?_, hmeans⟩
        · rw [hbefore, List.append_assoc]
        · intro x hx
          rcases List.mem_append.mp hx with hx | hx
          · refine ⟨?_, hnone x hx⟩
            intro hsame
            have hfirst : P x.1 := mem_of_exchanges hcalls hx
            rw [hsame] at hfirst
            exact mem_of_exchanges (hothers a) hrest hfirst
          · exact hleads x hx
        · rw [run_andThen_ok hresult]
          exact he

theorem Heeds.andThen_silent {p : Program α} {f : α → Program β}
    (hp : p.Heeds client Means) (hf : ∀ a, (f a).Within (fun _ => False) Q) :
    (p.andThen f).Heeds client Means := by
  intro s t c fault h
  have hsame : (p.andThen f).exchanges client s t = p.exchanges client s t := by
    rw [exchanges_andThen]
    cases (p.run client s t).result with
    | error e => exact List.append_nil _
    | ok a =>
        simp only [exchanges_of_silent (hf a), List.append_nil]
  rw [hsame] at h ⊢
  obtain ⟨hbefore, e, he, hmeans⟩ := hp s t c fault h
  rw [run_andThen_error he]
  exact ⟨hbefore, e, rfl, hmeans⟩

theorem Heeds.ofExcept_andThen {c : Except StoreError α} {f : α → Program β}
    (hf : ∀ a, (f a).Heeds client Means) : ((ofExcept c).andThen f).Heeds client Means := by
  cases c with
  | error e => exact fun s t c f h => by cases h
  | ok a => exact hf a

end Heeds

end Program

/-- The error that is meant for a failure of the client: a mismatch where the
server says that the key holds another kind of value, a bad argument where a value
cannot be sent, no server for any other trouble with it, always with the failure
as the cause; and the failure itself where it has nothing to do with the server. -/
def StoreError.MeantFor (f : Failure) (e : StoreError) : Prop :=
  match f with
  | .client raised =>
      match raised.family with
      | .rejection =>
          (if raised.reportsWrongKind then ∃ fault, e = .typeMismatch fault
            else ∃ fault, e = .unavailable fault) ∧ e.cause? = some f
      | .badInput => (∃ fault, e = .invalidArgument fault) ∧ e.cause? = some f
      | .unavailable => (∃ fault, e = .unavailable fault) ∧ e.cause? = some f
      | .system | .foreign | .interruption => e = .bare f
  | _ => e = .bare f

namespace Store

open StoreError (MeantFor)

variable {σ : Type} {client : Client σ}

theorem errorOf_means (operation key : String) (f : Failure) :
    MeantFor f (errorOf operation key f) := by
  cases f with
  | client raised =>
      simp only [errorOf, MeantFor]
      cases hfamily : raised.family with
      | rejection =>
          by_cases hkind : raised.reportsWrongKind
          · simp only [hkind, if_true]
            exact ⟨⟨_, rfl⟩, rfl⟩
          · simp only [hkind]
            exact ⟨⟨_, rfl⟩, rfl⟩
      | badInput | unavailable => exact ⟨⟨_, rfl⟩, rfl⟩
      | system | foreign | interruption => rfl
  | _ => rfl

theorem exchanges_calling (operation key : String) (c : Call) (s : σ) (t : FileTree) :
    (calling operation key c).exchanges client s t = [(c, (client s c).1)] := by
  simp only [calling, Program.exchanges]
  cases (client s c).1 with
  | ok reply => rfl
  | error f =>
      rw [Program.exchanges_of_silent (Q := fun _ => False) (within_meaning operation key f)]

theorem heeds_calling (operation key : String) (c : Call) :
    (calling operation key c).Heeds client MeantFor := by
  intro s t c' f h
  rw [exchanges_calling, List.mem_singleton] at h
  obtain ⟨rfl, hfailed⟩ := Prod.mk.inj h
  refine ⟨⟨[], ?_, by simp [Program.Leads]⟩, ?_⟩
  · rw [exchanges_calling, hfailed]
    rfl
  · simp only [calling, Program.run, ← hfailed]
    exact ⟨_, result_meaning operation key f _ t, errorOf_means operation key f⟩

theorem heeds_ask (operation key : String) (c : Command) :
    (ask operation key c).Heeds client MeantFor := by
  refine (heeds_calling operation key _).andThen_silent (Q := fun _ => False) fun reply => ?_
  cases reply <;> trivial

theorem within_enqueue {P : Call → Prop} {operation key : String} {c : Command}
    (h : P (.queue c)) : (enqueue operation key c).Within P fun _ => False :=
  (within_calling h).bind fun _ => trivial

theorem heeds_putWithin (key : String) (mapping : Value) (n : Int) :
    (putWithin key mapping n).Heeds client MeantFor := by
  have hqueue : ∀ c, (enqueue "HSET+EXPIRE" key c).Heeds client MeantFor := fun c =>
    (heeds_calling _ _ _).andThen_silent (Q := fun _ => False) fun _ => trivial
  have hopen : (openTransaction "HSET+EXPIRE" key).Heeds client MeantFor := by
    refine (heeds_calling _ _ _).andThen_silent (Q := fun _ => False) fun reply => ?_
    cases reply <;> trivial
  have hopens : (openTransaction "HSET+EXPIRE" key).Within (· = .openTransaction)
      fun _ => False := by
    refine (within_calling (P := (· = .openTransaction)) rfl).bind fun reply => ?_
    cases reply <;> trivial
  have hcommit : ∀ cs, ((calling "HSET+EXPIRE" key (.commit cs)).andThen
      fun _ => Program.done ()).Heeds client MeantFor := fun cs =>
    (heeds_calling _ _ _).andThen_silent (Q := fun _ => False) fun _ => trivial
  have hcommits : ∀ {P : Call → Prop} cs, P (.commit cs) →
      ((calling "HSET+EXPIRE" key (.commit cs)).andThen fun _ => Program.done ()).Within P
        fun _ => False := fun cs h => (within_calling h).andThen fun _ => trivial
  unfold putWithin
  refine hopen.andThen hopens (fun _ => ?_) fun _ => ?_
  · rw [Program.ofConverted_eq]
    refine Program.Heeds.ofExcept_andThen fun entries => ?_
    refine (hqueue _).andThen (within_enqueue (P := (· = .queue (.hsetAll key entries))) rfl)
      (fun _ => ?_) fun _ => ?_
    · refine (hqueue _).andThen (within_enqueue (P := (· = .queue (.expire key n))) rfl)
        (fun _ => hcommit _) fun _ => hcommits _ nofun
    · refine (within_enqueue nofun).andThen fun _ => hcommits _ nofun
  · refine Program.Within.ofConverted_bind fun entries _ => ?_
    refine (within_enqueue nofun).andThen fun _ => ?_
    exact (within_enqueue nofun).andThen fun _ => hcommits _ nofun

theorem heeds_plan (p : Plan) : p.program.Heeds client MeantFor := by
  cases p with
  | answer v => exact Program.heeds_of_silent (Q := fun _ => False) trivial
  | ask operation key c conclude =>
      exact (heeds_ask operation key c).andThen_silent (Q := fun _ => False)
        fun v => Program.within_ofExcept _
  | transact key mapping n =>
      exact (heeds_putWithin key mapping n).andThen_silent (Q := fun _ => False)
        fun _ => trivial

/-- An error that the client raises in any call of an operation ends the operation:
the call was the last one and had been made only once, every call before it had
been answered, and the operation fails with the error that is meant for it. Where
nothing was asked the client has no part in the result. -/
theorem raised_error_ends_operation {σ : Type} (client : Client σ) (op : Operation) (s : σ)
    (t : FileTree) :
    (∀ c f, (c, .error f) ∈ op.program.exchanges client s t →
      (∃ before, op.program.exchanges client s t = before ++ [(c, .error f)] ∧
        ∀ x ∈ before, x.1 ≠ c ∧ ∃ reply, x.2 = .ok reply) ∧
      ∃ e, (op.program.run client s t).result = .error e ∧ MeantFor f e) ∧
    (op.program.exchanges client s t = [] →
      ∃ r, ∀ (τ : Type) (client' : Client τ) s' t',
        (op.program.run client' s' t').result = r) := by
  rw [op.program_eq]
  constructor
  · intro c f h
    exact Program.Heeds.ofExcept_andThen heeds_plan s t c f h
  · intro h
    cases hplan : op.plan with
    | error e => exact ⟨.error e, fun _ _ _ _ => rfl⟩
    | ok p =>
        rw [hplan] at h
        cases p with
        | answer v => exact ⟨.ok v, fun _ _ _ _ => rfl⟩
        | ask operation key c conclude =>
            simp [Program.ofExcept, Program.andThen, Plan.program, ask, Program.bind_eq_andThen,
              Program.exchanges_andThen, exchanges_calling] at h
        | transact key mapping n =>
            simp [Program.ofExcept, Program.andThen, Plan.program, putWithin, openTransaction,
              Program.bind_eq_andThen, Program.exchanges_andThen, exchanges_calling] at h

/-- A commit that finds the connection lost, and a look-up in a client that is not
made for it. -/
theorem raised_error_ends_transaction_and_look :
    let lost : Failure := .client (.ofLibrary "ConnectionError" "lost")
    let absent : Failure := .client (.ofGeneral "KeyError" (some "k"))
    let client : Client Unit := fun s c =>
      match c with
      | .commit _ => (.error lost, s)
      | .run _ => (.error absent, s)
      | _ => (.ok .transaction, s)
    let write := Operation.hashPutAll (.text "k") (.map [(.text "f", .int 1)]) (.int 60)
    let look := Operation.getValue (.text "k") (some .int)
    let set := Command.hsetAll "k" [(.text "f", .int 1)]
    let limit := Command.expire "k" 60
    ((.commit [set, limit], .error lost) ∈ write.program.exchanges client () {} ∧
      (write.program.run client () {}).calls =
        [.openTransaction, .queue set, .queue limit, .commit [set, limit]] ∧
      ∃ e, (write.program.run client () {}).result = .error e ∧
        (∃ fault, e = .unavailable fault) ∧ e.cause? = some lost) ∧
    ((.run (.get "k"), .error absent) ∈ look.program.exchanges client () {} ∧
      (look.program.run client () {}).result = .error (.bare absent)) := by
  intro lost absent client write look set limit
  have hwrite : (.commit [set, limit], .error lost) ∈ write.program.exchanges client () {} :=
    .tail _ (.tail _ (.tail _ (.head _)))
  have hlook : (.run (.get "k"), .error absent) ∈ look.program.exchanges client () {} :=
    .head _
  obtain ⟨-, e, he, hmeant⟩ :=
    (raised_error_ends_operation client write () {}).1 _ lost hwrite
  obtain ⟨-, e', he', hmeant'⟩ :=
    (raised_error_ends_operation client look () {}).1 _ absent hlook
  have hsame : e' = .bare absent := hmeant'
  exact ⟨⟨hwrite, rfl, e, he, hmeant⟩, hlook, hsame ▸ he'⟩

end Store

end FileStash
