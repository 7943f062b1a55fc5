import FileStash.Proofs.Session.Unchanged
import FileStash.Proofs.Store.Question
import FileStash.Proofs.Store.Transaction

/-!
Everything that one operation can do to a server that answers by no script. It
does nothing at all, or sends one command and makes its answer of the reply, or
commits one transaction whose two commands are both answered or leave nothing
behind.
-/

namespace FileStash

namespace Store

open ScriptedServer (interrupted)

/-- What an operation makes of the reply to its command. -/
def conclusion (operation key : String) (conclude : Value → Checked Value) :
    Except Failure Value → Except StoreError Value
  | .ok v => conclude v
  | .error f => .error (errorOf operation key f)

theorem error_conclusion {operation key : String} {conclude : Value → Checked Value}
    {r : Except Failure Value} {f : Failure} (h : r = .error f) :
    conclusion operation key conclude r = .error (errorOf operation key f) := by
  rw [h]
  rfl

/-- A question to a server without a script: the reply is that of the command, and
nothing else happens to the server. -/
theorem run_plan_ask {s : ScriptedServer} (hplain : s.script = []) (t : FileTree)
    (operation key : String) (c : Command) (conclude : Value → Checked Value) :
    let run := (Plan.ask operation key c conclude).program.run ScriptedServer.call s t
    run.result = conclusion operation key conclude (s.server.run c).1 ∧
      run.state = { s with server := (s.server.run c).2 } := by
  show (((ask operation key c).andThen fun v => Program.ofExcept (conclude v)).run
    ScriptedServer.call s t).result = _ ∧ (((ask operation key c).andThen fun v =>
      Program.ofExcept (conclude v)).run ScriptedServer.call s t).state = _
  cases hreply : (s.server.run c).1 with
  | error f =>
      rw [Program.run_andThen_error (result_ask_error hplain hreply)]
      exact ⟨rfl, state_ask hplain⟩
  | ok v =>
      rw [Program.run_andThen_ok (by rw [run_ask hplain hreply]), run_ask hplain hreply]
      cases hconclude : conclude v with
      | ok a => simp [conclusion, hconclude, Program.ofExcept, Program.run]
      | error e => simp [conclusion, hconclude, Program.ofExcept, Program.run]

/-- The question of a direct write that fails is one that the server does not
answer. -/
theorem failed_of_conclusion {op : Operation} {e : StoreError} {operation key : String} {c : Command}
    {conclude : Value → Checked Value}
    (hplan : op.plan = .ok (.ask operation key c conclude)) (hdirect : op.Direct) {s : Server}
    (h : conclusion operation key conclude (s.run c).1 = .error e) :
    ∃ f, (Server.effect s.now c (s.live? key)).1 = .error f ∧ e = errorOf operation key f := by
  have hquestion := Operation.question hplan
  have hact := Server.actsOn_run s (hquestion.own_of_direct hdirect).1
  rw [hact.answer] at h
  cases hreply : (Server.effect s.now c (s.live? key)).1 with
  | error f =>
      rw [hreply] at h
      exact ⟨f, rfl, (Except.error.inj h).symm⟩
  | ok v =>
      have hcounts := (Server.shape_effect (hquestion.direct.mpr hdirect) s.now).counts hreply
      obtain ⟨n, hn⟩ : ∃ n, v.toInt = .ok n := by
        rcases hcounts with rfl | ⟨n, rfl⟩ <;> exact ⟨_, rfl⟩
      obtain ⟨a, ha⟩ := hquestion.answers hdirect v n hn
      rw [hreply] at h
      cases ha.symm.trans h

theorem putWithin_of_toMap {mapping : Value} {items : List (Value × Value)}
    (h : mapping.toMap = .ok items) (key : String) (n : Int) :
    putWithin key mapping n = putWithin key (.map items) n := by
  have hsame : mapping.toMap = (Value.map items).toMap := h
  simp only [putWithin, hsame]

/-- The server behind the two commands of a transaction. -/
def writtenWithin (s : Server) (key : String) (items : List (Value × Value)) (n : Int) : Server :=
  ((s.run (.hsetAll key items)).2.run (.expire key n)).2

theorem toMap_of_putWithin {s : ScriptedServer} {t : FileTree} {key : String} {mapping : Value}
    {n : Int} (h : ((putWithin key mapping n).run ScriptedServer.call s t).result = .ok ()) :
    ∃ items, mapping.toMap = .ok items := by
  cases hitems : mapping.toMap with
  | ok items => exact ⟨items, rfl⟩
  | error f =>
      have hopen : (openTransaction "HSET+EXPIRE" key).Returns (interrupted fun _ _ => none) _ :=
        Program.Harmless.returns (harmless_openTransaction _ _)
      have hreturns : (putWithin key mapping n).Returns (interrupted fun _ _ => none)
          fun _ _ _ => False := by
        unfold putWithin
        rw [hitems]
        refine (hopen.andThen fun _ => Program.returns_fail (.bare f)).mono ?_
        rintro _ _ _ ⟨_, _, _, hfalse⟩
        exact hfalse
      exact (hreturns s t () h).elim

theorem state_putWithin {s : ScriptedServer} (hplain : s.script = []) {t : FileTree}
    {key : String} {mapping : Value} {n : Int}
    (h : ((putWithin key mapping n).run ScriptedServer.call s t).result = .ok ()) :
    ∃ items v, mapping.toMap = .ok items ∧ (s.server.run (.hsetAll key items)).1 = .ok v ∧
      ((putWithin key mapping n).run ScriptedServer.call s t).state =
        { s with server := writtenWithin s.server key items n } := by
  obtain ⟨items, hitems⟩ := toMap_of_putWithin h
  rw [putWithin_of_toMap hitems] at h ⊢
  have hreturns : (putWithin key (.map items) n).Returns (interrupted fun _ _ => none) _ :=
    returns_putWithin key items n
  obtain ⟨v, hv, hstate⟩ := hreturns s t () h (ScriptedServer.raises_of_plain hplain)
  exact ⟨items, v, hitems, hv, hstate⟩

end Store

/-- An operation of the store, or some time that passes. -/
def Step.Operates : Step → Prop
  | .request (.operate _) | .wait _ => True
  | _ => False

namespace World

open ScriptedServer (interrupted)
open Store (Operation Plan conclusion writtenWithin requireKey_eq_ok_iff)

def Plain (w : World) : Prop :=
  w.server.script = []

/-- The world with another server in the place of its own. -/
def withServer (w : World) (s : Server) : World :=
  { w with server.server := s }

inductive Operated (w : World) (op : Operation) : Except StoreError Value → World → Prop
  | refused {e : StoreError} (plan : op.plan = .error e) : Operated w op (.error e) w
  | idle {v : Value} (plan : op.plan = .ok (.answer v)) : Operated w op (.ok v) w
  | asked {operation key : String} {c : Command} {conclude : Value → Store.Checked Value}
      (plan : op.plan = .ok (.ask operation key c conclude)) :
      Operated w op (conclusion operation key conclude (w.server.server.run c).1)
        (w.withServer (w.server.server.run c).2)
  | undone {key : String} {mapping : Value} {n : Int} {e : StoreError} {w' : World}
      (plan : op.plan = .ok (.transact key mapping n)) (agrees : Agrees w' w) :
      Operated w op (.error e) w'
  | committed {key : String} {mapping : Value} {n : Int} {items : List (Value × Value)} {v : Value}
      (plan : op.plan = .ok (.transact key mapping n)) (entries : mapping.toMap = .ok items)
      (written : (w.server.server.run (.hsetAll key items)).1 = .ok v) :
      Operated w op (.ok mapping) (w.withServer (writtenWithin w.server.server key items n))

theorem perform_operate (w : World) (op : Operation) :
    w.perform (.operate op) =
      ((Program.ofExcept op.plan).andThen Plan.program).run ScriptedServer.call w.server w.tree := by
  show op.program.run _ _ _ = _
  rw [op.program_eq]

theorem tree_operate (w : World) (op : Operation) :
    (w.step (.request (.operate op))).tree = w.tree :=
  op.asks_program.tree_run w.server w.tree

theorem operated {w : World} (hplain : w.Plain) (op : Operation) :
    Operated w op (w.answer (.operate op)) (w.step (.request (.operate op))) := by
  have htree := w.tree_operate op
  simp only [answer, step, perform_operate] at htree ⊢
  cases hplan : op.plan with
  | error e => exact .refused hplan
  | ok p =>
      rw [hplan] at htree
      simp only [Program.ofExcept, Program.andThen_done] at htree ⊢
      rw [htree]
      cases p with
      | answer v => exact .idle hplan
      | ask operation key c conclude =>
          obtain ⟨hresult, hstate⟩ :=
            Store.run_plan_ask hplain w.tree operation key c conclude
          rw [hresult, hstate]
          exact .asked hplan
      | transact key mapping n =>
          cases hput : ((Store.putWithin key mapping n).run ScriptedServer.call w.server
              w.tree).result with
          | error e =>
              have hundone : (Store.putWithin key mapping n).Undone
                  (interrupted fun _ _ => none) Store.Traceless :=
                Store.undone_putWithin key mapping n
              have hagrees := (hundone w.server w.tree e hput).resolve_left
                (ScriptedServer.not_interruptsLimit_of_plain hplain e)
              simp only [Plan.program, Program.bind_eq_andThen]
              rw [Program.run_andThen_error hput]
              exact .undone hplan ⟨hagrees, rfl⟩
          | ok u =>
              obtain ⟨items, v, hitems, hv, hstate⟩ := Store.state_putWithin hplain hput
              simp only [Plan.program, Program.bind_eq_andThen]
              rw [Program.run_andThen_ok hput]
              simp only [Program.run, hstate]
              exact .committed hplan hitems hv

section Answers

variable {w : World} {op : Operation}

theorem answer_refused {e : StoreError} (hplan : op.plan = .error e) :
    w.answer (.operate op) = .error e := by
  simp only [answer, perform_operate, hplan, Program.ofExcept, Program.andThen_fail, Program.run]

theorem step_refused {e : StoreError} (hplan : op.plan = .error e) :
    w.step (.request (.operate op)) = w := by
  simp only [step, perform_operate, hplan, Program.ofExcept, Program.andThen_fail, Program.run]

theorem answer_idle {v : Value} (hplan : op.plan = .ok (.answer v)) :
    w.answer (.operate op) = .ok v := by
  simp only [answer, perform_operate, hplan, Program.ofExcept, Program.andThen_done, Plan.program,
    Program.run]

theorem step_idle {v : Value} (hplan : op.plan = .ok (.answer v)) :
    w.step (.request (.operate op)) = w := by
  simp only [step, perform_operate, hplan, Program.ofExcept, Program.andThen_done, Plan.program,
    Program.run]

theorem asked (hplain : w.Plain) {operation key : String} {c : Command}
    {conclude : Value → Store.Checked Value}
    (hplan : op.plan = .ok (.ask operation key c conclude)) :
    w.answer (.operate op) = conclusion operation key conclude (w.server.server.run c).1 ∧
      w.step (.request (.operate op)) = w.withServer (w.server.server.run c).2 := by
  have htree := w.tree_operate op
  obtain ⟨hresult, hstate⟩ := Store.run_plan_ask hplain w.tree operation key c conclude
  simp only [answer, step, perform_operate, hplan, Program.ofExcept, Program.andThen_done]
    at htree ⊢
  rw [hresult, hstate, htree]
  exact ⟨rfl, rfl⟩

theorem transacted (hplain : w.Plain) {key : String} {items : List (Value × Value)} {n : Int}
    (hplan : op.plan = .ok (.transact key (.map items) n))
    (hput : ((Store.putWithin key (.map items) n).run ScriptedServer.call w.server w.tree).result =
      .ok ()) :
    w.answer (.operate op) = .ok (.map items) ∧
      w.step (.request (.operate op)) =
        w.withServer (writtenWithin w.server.server key items n) := by
  have htree := w.tree_operate op
  obtain ⟨written, v, hitems, -, hstate⟩ := Store.state_putWithin hplain hput
  cases hitems
  have hrun : w.perform (.operate op) = ((Store.putWithin key (.map items) n).andThen fun _ =>
      .done (.map items)).run ScriptedServer.call w.server w.tree := by
    rw [perform_operate, hplan]
    rfl
  rw [Program.run_andThen_ok hput] at hrun
  refine ⟨by rw [answer, hrun]; rfl, ?_⟩
  simp only [step, hrun, Program.run, hstate] at htree ⊢
  rw [htree]
  rfl

theorem answer_hasKey (hplain : w.Plain) {key : String} (hblank : Text.allBlank key = false) :
    w.answer (.operate (.hasKey (.text key) .null)) =
      .ok (.bool (w.server.server.live? key).isSome) := by
  have hkey := (requireKey_eq_ok_iff (.text key) key).mpr ⟨rfl, hblank⟩
  have hplan : (Operation.hasKey (.text key) .null).plan =
      .ok (.ask "EXISTS" key (.exists key) Store.someCounted) := by
    simp [Operation.plan, hkey, bind, Except.bind, Value.isNull]
  have hact := Server.actsOn_run w.server.server (c := .exists key) rfl
  rw [(asked hplain hplan).1, hact.answer]
  cases w.server.server.live? key <;> rfl

theorem Plain.step (hplain : w.Plain) {st : Step} (hoperates : st.Operates) :
    (w.step st).Plain := by
  cases st with
  | request r =>
      cases r with
      | operate op =>
          have hop := operated hplain op
          generalize w.answer (.operate op) = r at hop
          generalize w.step (.request (.operate op)) = w' at hop ⊢
          cases hop with
          | undone _ hagrees => exact hagrees.server.script.trans hplain
          | _ => exact hplain
      | _ => exact hoperates.elim
  | wait milliseconds => exact hplain
  | files t => exact hoperates.elim

end Answers

end World

end FileStash
