import FileStash.Proofs.Session.World

namespace FileStash

namespace Request

def Reads : Request → Prop
  | .store .. => False
  | .restore .. | .restoreBytes .. | .contains .. => True
  | .operate op => op.Reads

theorem within_of_reads {r : Request} (h : r.Reads) :
    r.program.Within Call.Reads fun _ => True := by
  cases r with
  | store c file limit => exact h.elim
  | restore c name =>
      refine Store.within_answering (FileCache.within_restore fun n key _ _ => ?_)
      exact ⟨_, rfl, trivial⟩
  | restoreBytes c name =>
      refine Store.within_answering (FileCache.within_restoreBytes fun n key _ _ => ?_)
      exact ⟨_, rfl, trivial⟩
  | contains c name =>
      refine Store.within_answering (FileCache.within_exists fun n key _ _ => ?_)
      exact ⟨_, rfl, trivial⟩
  | operate op =>
      have hasks : op.program.Asks Call.Reads := op.asks_program.mono fun c hc => hc.looks h
      exact hasks.mono_trees fun _ h => h.elim

/-- A request that may change what is under a key. -/
def Changes (key : String) (r : Request) : Prop :=
  ¬r.Reads ∧ r.Names key

end Request

def Step.Changes (key : String) : Step → Prop
  | .request r => r.Changes key
  | .wait _ | .files _ => False

theorem Step.Names.of_changes {key : String} {st : Step} (h : st.Changes key) :
    st.Names key := by
  cases st with
  | request r => exact h.2
  | wait milliseconds => exact h.elim
  | files t => exact h.elim

namespace World

variable {key : String}

theorem agrees_of_reads (w : World) {r : Request} (h : r.Reads) :
    (w.step (.request r)).server.Agrees w.server :=
  .of_reads (Request.within_of_reads h) w.server w.tree

def waited : List Step → Nat
  | [] => 0
  | .wait milliseconds :: steps => milliseconds + waited steps
  | .request _ :: steps | .files _ :: steps => waited steps

theorem now_after (w : World) (steps : List Step) :
    (w.after steps).server.server.now = w.server.server.now + waited steps := by
  induction steps generalizing w with
  | nil => simp [World.after, waited]
  | cons st steps ih =>
      have hrest := ih (w.step st)
      cases st with
      | request r =>
          rw [show (w.step (.request r)).server.server.now = w.server.server.now from
            ScriptedServer.now_run r.program w.server w.tree] at hrest
          exact hrest
      | wait milliseconds =>
          have hwait : (w.step (.wait milliseconds)).server.server.now =
              w.server.server.now + milliseconds := rfl
          rw [hwait] at hrest
          simp only [waited, Int.natCast_add]
          exact hrest.trans (Int.add_assoc ..)
      | files t => exact hrest

namespace Lasts

theorem step_unchanged (w : World) {st : Step} (h : ¬st.Changes key) :
    Lasts key w (w.step st) := by
  by_cases hnames : st.Names key
  · cases st with
    | request r =>
        have hreads : r.Reads :=
          Classical.byContradiction fun hwrites => h ⟨hwrites, hnames⟩
        have hagrees := w.agrees_of_reads hreads
        refine ⟨hagrees.script, Int.le_of_eq hagrees.server.now.symm, ?_⟩
        rw [hagrees.server.live, hagrees.server.now, Server.alive_live?]
    | wait milliseconds => exact hnames.elim
    | files t => exact hnames.elim
  · exact step w hnames

theorem after_unchanged (w : World) {steps : List Step}
    (h : ∀ st ∈ steps, ¬st.Changes key) : Lasts key w (w.after steps) := by
  induction steps generalizing w with
  | nil => exact refl key w
  | cons st steps ih =>
      have hfirst := step_unchanged w (h st (List.mem_cons_self ..))
      exact hfirst.trans (ih (w.step st) fun st' hst' =>
        h st' (List.mem_cons_of_mem st hst'))

theorem after (w : World) {steps : List Step} (h : ∀ st ∈ steps, ¬st.Names key) :
    Lasts key w (w.after steps) :=
  after_unchanged w fun st hst hchanges => h st hst (.of_changes hchanges)

end Lasts

end World

end FileStash
