import FileStash.Proofs.Store.Operation
import FileStash.Server.Scripted

namespace FileStash.Store

/-- The error that an operation makes of a failure of the client. -/
def errorOf (operation key : String) : Failure → StoreError
  | .client e =>
      match e.family with
      | .rejection =>
          if e.reportsWrongKind then .typeMismatch (.otherKind operation key e)
          else .unavailable (.failed operation key e)
      | .badInput => .invalidArgument (.refusedInput operation key e)
      | .unavailable => .unavailable (.failed operation key e)
      | .system | .foreign | .interruption => .bare (.client e)
  | f => .bare f

theorem errorOf_wrongKind {e : ClientError} {key : String} (operation : String)
    (hfamily : e.family = .rejection) (hkind : e.reportsWrongKind = true) :
    errorOf operation key (.client e) = .typeMismatch (.otherKind operation key e) := by
  simp only [errorOf, hfamily, hkind, if_true]

theorem errorOf_interruption {i : ClientError} (operation key : String)
    (hfamily : i.family = .interruption) :
    errorOf operation key (.client i) = .bare (.client i) := by
  simp only [errorOf, hfamily]

section Calling

variable {σ : Type} {client : Client σ}

theorem state_calling (operation key : String) (c : Call) (s : σ) (t : FileTree) :
    ((calling operation key c).run client s t).state = (client s c).2 := by
  simp only [calling, Program.run]
  rcases client s c with ⟨f | reply, s'⟩
  · exact Program.Within.state_run (P := fun _ => False) (Q := fun _ => False)
      (I := (· = s'))
      (within_meaning operation key f) (fun _ _ h => h.elim) t rfl
  · rfl

theorem state_asking (operation key : String) (c : Command) (s : σ) (t : FileTree) :
    ((ask operation key c).run client s t).state = (client s (.run c)).2 := by
  simp only [ask, Program.bind_eq_andThen]
  rw [Program.state_andThen (Q := fun _ => True), state_calling]
  rintro (v | _) <;> trivial

theorem result_calling_ok {operation key : String} {c : Call} {s : σ}
    {reply : Reply} (h : (client s c).1 = .ok reply) (t : FileTree) :
    ((calling operation key c).run client s t).result = .ok reply := by
  simp only [calling, Program.run, h]

theorem result_meaning {α : Type} (operation key : String) (f : Failure) (s : σ)
    (t : FileTree) :
    ((meaning operation key f : Program α).run client s t).result =
      .error (errorOf operation key f) := by
  cases f with
  | client e =>
      simp only [meaning, errorOf]
      cases e.family with
      | rejection => by_cases h : e.reportsWrongKind <;> simp [h, Program.run]
      | _ => rfl
  | _ => rfl

theorem result_calling_error {operation key : String} {c : Call} {s : σ} {f : Failure}
    (h : (client s c).1 = .error f) (t : FileTree) :
    ((calling operation key c).run client s t).result = .error (errorOf operation key f) := by
  simp only [calling, Program.run, h]
  exact result_meaning operation key f _ t

theorem result_ask_failed {operation key : String} {c : Command} {s : σ} {f : Failure}
    (h : (client s (.run c)).1 = .error f) (t : FileTree) :
    ((ask operation key c).run client s t).result = .error (errorOf operation key f) := by
  simp only [ask, Program.bind_eq_andThen]
  rw [Program.run_andThen_error (result_calling_error h t)]

theorem result_ask_ok {operation key : String} {c : Command} {s : σ} {v : Value}
    (h : (client s (.run c)).1 = .ok (.value v)) (t : FileTree) :
    ((ask operation key c).run client s t).result = .ok v := by
  simp only [ask, Program.bind_eq_andThen]
  rw [Program.run_andThen_ok (result_calling_ok h t)]
  rfl

theorem error_of_meaning {α : Type} (operation key : String) (f : Failure)
    (s : σ) (t : FileTree) :
    ∃ e, ((meaning operation key f : Program α).run client s t).result = .error e :=
  ⟨_, result_meaning operation key f s t⟩

theorem run_answering {α : Type} (show? : α → Value) (p : Program α) (s : σ)
    (t : FileTree) :
    (answering show? p).run client s t =
      let r := p.run client s t
      ⟨r.result.map show?, r.state, r.tree, r.calls, r.records⟩ := by
  unfold answering
  rw [Program.run_andThen]
  rcases p.run client s t with ⟨e | a, s', t', cs, rs⟩
  · rfl
  · simp [Program.run, Except.map]

theorem result_answering {α : Type} (show? : α → Value) (p : Program α) (s : σ)
    (t : FileTree) :
    ((answering show? p).run client s t).result =
      (p.run client s t).result.map show? := by
  rw [run_answering]

end Calling

section Plain

variable {s : ScriptedServer} {t : FileTree} {operation key : String} {c : Command}

theorem call_plain (hplain : s.script = []) (c : Command) :
    s.call (.run c) =
      ((s.server.run c).1.map .value, { s with server := (s.server.run c).2 }) := by
  have hscript : s.scripted? c.name = none := by
    simp [ScriptedServer.scripted?, hplain, Dict.get?]
  simp only [ScriptedServer.call, ScriptedServer.answer, hscript]

theorem run_ask (hplain : s.script = []) {v : Value}
    (h : (s.server.run c).1 = .ok v) :
    (ask operation key c).run ScriptedServer.call s t =
      { result := .ok v, state := { s with server := (s.server.run c).2 }, tree := t,
        calls := [.run c] } := by
  have hcall : s.call (.run c) =
      (.ok (.value v), { s with server := (s.server.run c).2 }) := by
    rw [call_plain hplain, h]
    rfl
  simp only [ask, calling, Program.bind_eq_andThen, Program.andThen, Program.run, hcall]
  rfl

/-- A command that fails ends the operation with the error that is made of it. -/
theorem result_ask_error (hplain : s.script = []) {f : Failure}
    (h : (s.server.run c).1 = .error f) :
    ((ask operation key c).run ScriptedServer.call s t).result =
      .error (errorOf operation key f) := by
  have hfailed : (s.call (.run c)).1 = .error f := by
    rw [call_plain hplain, h]
    rfl
  exact result_ask_failed hfailed t

theorem run_ask_error (hplain : s.script = []) {f : Failure}
    (h : (s.server.run c).1 = .error f) :
    ∃ e, ((ask operation key c).run ScriptedServer.call s t).result = .error e :=
  ⟨_, result_ask_error hplain h⟩

theorem state_ask (hplain : s.script = []) :
    ((ask operation key c).run ScriptedServer.call s t).state =
      { s with server := (s.server.run c).2 } := by
  rw [state_asking]
  exact congrArg Prod.snd (call_plain hplain c)

end Plain

end FileStash.Store
