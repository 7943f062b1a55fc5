import FileStash.Proofs.Session.World
import FileStash.Proofs.Store.Plan

namespace FileStash

namespace Program

variable {σ α β : Type}

/-- A program that neither looks at the files nor saves any. -/
def Fileless : Program α → Prop
  | .done _ => True
  | .fail _ => True
  | .call _ next => ∀ r, (next r).Fileless
  | .look _ => False
  | .save _ _ => False
  | .log _ next => next.Fileless

theorem Fileless.andThen {p : Program α} {f : α → Program β} (hp : p.Fileless)
    (hf : ∀ a, (f a).Fileless) : (p.andThen f).Fileless := by
  induction p with
  | done a => exact hf a
  | fail e => trivial
  | call c next ih => exact fun r => ih r (hp r)
  | look next => exact hp.elim
  | save t next => exact hp.elim
  | log r next ih => exact ih hp

theorem fileless_ofExcept (c : Except StoreError α) : (ofExcept c).Fileless := by
  cases c <;> trivial

theorem fileless_ofConverted (c : Except Failure α) : (ofConverted c).Fileless := by
  cases c <;> trivial

theorem Fileless.run_eq {p : Program α} (hp : p.Fileless) (client : Client σ) (s : σ)
    (t t' : FileTree) : p.run client s t' = { p.run client s t with tree := t' } := by
  induction p generalizing s with
  | done a => rfl
  | fail e => rfl
  | call c next ih => simp only [run, ih _ (hp _)]
  | look next => exact hp.elim
  | save t next => exact hp.elim
  | log r next ih => simp only [run, ih hp]

end Program

namespace Store

open Program (fileless_ofExcept fileless_ofConverted)

theorem fileless_meaning {α : Type} (operation key : String) (f : Failure) :
    (meaning operation key f : Program α).Fileless := by
  unfold meaning
  split
  · split
    · split <;> trivial
    all_goals trivial
  · trivial

theorem fileless_calling (operation key : String) (c : Call) :
    (calling operation key c).Fileless := by
  rintro (f | reply)
  · exact fileless_meaning operation key f
  · trivial

theorem fileless_ask (operation key : String) (c : Command) :
    (ask operation key c).Fileless := by
  refine (fileless_calling operation key (.run c)).andThen ?_
  rintro (v | _) <;> trivial

theorem fileless_putWithin (key : String) (mapping : Value) (seconds : Int) :
    (putWithin key mapping seconds).Fileless := by
  have henqueue : ∀ c, (enqueue "HSET+EXPIRE" key c).Fileless := fun c =>
    (fileless_calling _ key (.queue c)).andThen fun _ => trivial
  have hopen : (openTransaction "HSET+EXPIRE" key).Fileless := by
    refine (fileless_calling _ key .openTransaction).andThen ?_
    rintro (v | _) <;> trivial
  refine hopen.andThen fun _ => (fileless_ofConverted _).andThen fun entries => ?_
  refine (henqueue _).andThen fun _ => (henqueue _).andThen fun _ => ?_
  exact (fileless_calling _ key _).andThen fun _ => trivial

theorem Plan.fileless_program (plan : Plan) : plan.program.Fileless := by
  cases plan with
  | answer v => trivial
  | ask operation key c conclude =>
      exact (fileless_ask operation key c).andThen fun _ => fileless_ofExcept _
  | transact key mapping seconds =>
      exact (fileless_putWithin key mapping seconds).andThen fun _ => trivial

theorem Operation.fileless_program (op : Operation) : op.program.Fileless := by
  rw [op.program_eq]
  exact (fileless_ofExcept op.plan).andThen Plan.fileless_program

end Store

open Program (fileless_ofExcept fileless_ofConverted)

namespace FileCache

variable (c : FileCache)

theorem fileless_entries (name : String) : (c.entries name).Fileless := by
  refine (fileless_ofConverted _).andThen fun key => (fileless_ofExcept _).andThen fun k => ?_
  refine (Store.fileless_ask _ k _).andThen fun v => ?_
  split
  · exact fileless_ofConverted _
  · trivial

theorem fileless_restoreBytes (name : Value) : (c.restoreBytes name).Fileless := by
  refine (fileless_ofExcept _).andThen fun n => (c.fileless_entries n).andThen fun es => ?_
  split
  · exact fileless_ofExcept _
  · exact fileless_ofExcept _

theorem fileless_exists (name : Value) : (c.exists? name).Fileless := by
  refine (fileless_ofExcept _).andThen fun n => (fileless_ofConverted _).andThen fun key => ?_
  refine (fileless_ofExcept _).andThen fun k => ?_
  refine Program.Fileless.andThen (Store.fileless_ask "EXISTS" k (.exists k)) fun v => ?_
  refine Program.Fileless.andThen ?_ fun _ => trivial
  rw [Store.count_eq]
  exact fileless_ofExcept _

end FileCache

def Request.Fileless : Request → Prop
  | .store .. | .restore .. => False
  | _ => True

theorem Request.fileless_program {r : Request} (h : r.Fileless) : r.program.Fileless := by
  cases r with
  | store | restore => exact h.elim
  | restoreBytes c name => exact (c.fileless_restoreBytes name).andThen fun _ => trivial
  | contains c name => exact (c.fileless_exists name).andThen fun _ => trivial
  | operate op => exact op.fileless_program

/-- With other files the request is answered alike and leaves the same server. -/
theorem World.perform_fileless (w : World) (t : FileTree) {r : Request} (h : r.Fileless) :
    ({ w with tree := t } : World).perform r = { w.perform r with tree := t } :=
  (Request.fileless_program h).run_eq ScriptedServer.call w.server w.tree t

end FileStash
