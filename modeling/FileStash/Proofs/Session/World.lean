import FileStash.Proofs.FileCache.Reading
import FileStash.Proofs.FileCache.Storing
import FileStash.Proofs.Server.Agreement

namespace FileStash

open Store (answering)

inductive Request
  | store (c : FileCache) (file : FileSource) (limit : Value)
  | restore (c : FileCache) (name : Value)
  | restoreBytes (c : FileCache) (name : Value)
  | contains (c : FileCache) (name : Value)
  | operate (op : Store.Operation)

namespace Request

def pathValue : Option Path → Value
  | some p => .path p
  | none => .null

def program : Request → Program Value
  | .store c file limit => answering .text (c.store file limit)
  | .restore c name => answering pathValue (c.restore name)
  | .restoreBytes c name => answering .bytes (c.restoreBytes name)
  | .contains c name => answering .bool (c.exists? name)
  | .operate op => op.program

def Names (key : String) : Request → Prop
  | .store c file _ => ∃ p, file.path? = some p ∧ c.cacheKey (.text p.name) = .ok key
  | .restore c name | .restoreBytes c name | .contains c name =>
      ∃ n, name = .text n ∧ c.cacheKey (.text n) = .ok key
  | .operate op => op.Names key

end Request

inductive Step
  | request (r : Request)
  | wait (milliseconds : Nat)
  | files (t : FileTree)

def Step.Names (key : String) : Step → Prop
  | .request r => r.Names key
  | .wait _ | .files _ => False

structure World where
  server : ScriptedServer := {}
  tree : FileTree := {}

namespace World

def perform (w : World) (r : Request) : Run ScriptedServer Value :=
  r.program.run ScriptedServer.call w.server w.tree

def answer (w : World) (r : Request) : Except StoreError Value :=
  (w.perform r).result

def step (w : World) : Step → World
  | .request r => ⟨(w.perform r).state, (w.perform r).tree⟩
  | .wait milliseconds =>
      { w with server.server := w.server.server.advance milliseconds }
  | .files t => { w with tree := t }

def after (w : World) (steps : List Step) : World :=
  steps.foldl step w

/-- The answers of a session, in the order of the requests. -/
def answers (w : World) : List Step → List (Except StoreError Value)
  | [] => []
  | .request r :: steps => w.answer r :: answers (w.step (.request r)) steps
  | .wait milliseconds :: steps => answers (w.step (.wait milliseconds)) steps
  | .files t :: steps => answers (w.step (.files t)) steps

section Programs

variable (w : World) (c : FileCache)

theorem answer_store (file : FileSource) (limit : Value) :
    w.answer (.store c file limit) =
      ((c.store file limit).run ScriptedServer.call w.server w.tree).result.map .text :=
  Store.result_answering ..

theorem step_store (file : FileSource) (limit : Value) :
    w.step (.request (.store c file limit)) =
      ⟨((c.store file limit).run ScriptedServer.call w.server w.tree).state, w.tree⟩ := by
  simp only [step, perform, Request.program]
  rw [Store.run_answering, FileCache.tree_store]

theorem answer_restore (name : Value) :
    w.answer (.restore c name) =
      ((c.restore name).run ScriptedServer.call w.server w.tree).result.map Request.pathValue :=
  Store.result_answering ..

theorem tree_step_restore (name : Value) :
    (w.step (.request (.restore c name))).tree =
      ((c.restore name).run ScriptedServer.call w.server w.tree).tree := by
  simp only [step, perform, Request.program]
  rw [Store.run_answering]

theorem answer_restoreBytes (name : Value) :
    w.answer (.restoreBytes c name) =
      ((c.restoreBytes name).run ScriptedServer.call w.server w.tree).result.map .bytes :=
  Store.result_answering ..

theorem answer_contains (name : Value) :
    w.answer (.contains c name) =
      ((c.exists? name).run ScriptedServer.call w.server w.tree).result.map .bool :=
  Store.result_answering ..

end Programs

/-- The same files, and servers that nobody can tell apart. -/
structure Agrees (w w' : World) : Prop where
  server : w.server.Agrees w'.server
  tree : w.tree = w'.tree

namespace Agrees

variable {w w' w'' : World}

theorem refl (w : World) : Agrees w w :=
  ⟨.refl _, rfl⟩

theorem symm (h : Agrees w w') : Agrees w' w :=
  ⟨h.server.symm, h.tree.symm⟩

theorem trans (h : Agrees w w') (h' : Agrees w' w'') : Agrees w w'' :=
  ⟨h.server.trans h'.server, h.tree.trans h'.tree⟩

theorem perform (h : Agrees w w') (r : Request) :
    Program.SameRun ScriptedServer.Agrees (w.perform r) (w'.perform r) := by
  unfold World.perform
  rw [h.tree]
  exact h.server.run r.program w'.tree

theorem answer (h : Agrees w w') (r : Request) : w.answer r = w'.answer r :=
  (h.perform r).result

theorem step (h : Agrees w w') (st : Step) :
    Agrees (w.step st) (w'.step st) := by
  cases st with
  | request r => exact ⟨(h.perform r).state, (h.perform r).tree⟩
  | wait milliseconds =>
      exact ⟨⟨h.server.script, h.server.server.advance milliseconds⟩, h.tree⟩
  | files t => exact ⟨h.server, rfl⟩

theorem after (h : Agrees w w') (steps : List Step) :
    Agrees (w.after steps) (w'.after steps) := by
  induction steps generalizing w w' with
  | nil => exact h
  | cons st steps ih => exact ih (h.step st)

theorem answers (h : Agrees w w') (steps : List Step) :
    w.answers steps = w'.answers steps := by
  induction steps generalizing w w' with
  | nil => rfl
  | cons st steps ih =>
      have hrest := ih (h.step st)
      cases st with
      | request r => simp only [World.answers, h.answer r, hrest]
      | wait milliseconds => exact hrest
      | files t => exact hrest

end Agrees

end World

namespace Request

open ScriptedServer (Keeps)

variable {key : String}

theorem keeps_run {r : Request} (h : ¬r.Names key) (s : ScriptedServer)
    (t : FileTree) :
    Keeps key s (r.program.run ScriptedServer.call s t).state := by
  cases r with
  | store c file limit =>
      simp only [program, answering]
      rw [Program.run_andThen, FileCache.run_store]
      cases hpack : c.pack file limit t with
      | error e => exact Keeps.refl key s
      | ok p =>
          obtain ⟨hread, hkey, -⟩ := FileCache.of_pack hpack
          obtain ⟨path, hpath, hname⟩ := FileSource.path?_of_readIn hread
          have hne : key ≠ p.key := by
            rintro rfl
            exact h ⟨path, hpath, by rw [hname, hkey]⟩
          have hsend : Keeps key s (p.send.run ScriptedServer.call s t).state := by
            refine Keeps.run (Q := fun _ => True)
              (p.within_send fun c hc hmem => ?_) s t
            exact hne (hc key hmem)
          dsimp only
          rcases hrun : p.send.run ScriptedServer.call s t with
            ⟨e | a, s', t', cs, rs⟩ <;>
            rw [hrun] at hsend <;> exact hsend
  | restore c name =>
      refine Keeps.run (Q := fun _ => True) (Store.within_answering ?_) s t
      refine FileCache.within_restore fun n k hname hk hmem => h ⟨n, hname, ?_⟩
      rw [hk, List.mem_singleton.mp hmem]
  | restoreBytes c name =>
      refine Keeps.run (Q := fun _ => True) (Store.within_answering ?_) s t
      refine FileCache.within_restoreBytes fun n k hname hk hmem => h ⟨n, hname, ?_⟩
      rw [hk, List.mem_singleton.mp hmem]
  | contains c name =>
      refine Keeps.run (Q := fun _ => True) (Store.within_answering ?_) s t
      refine FileCache.within_exists fun n k hname hk hmem => h ⟨n, hname, ?_⟩
      rw [hk, List.mem_singleton.mp hmem]
  | operate op =>
      refine Keeps.run (Q := fun _ => False) ?_ s t
      exact op.asks_program.mono fun c hc hmem => h (hc.own key hmem)

end Request

namespace World

variable {key : String}

/-- What a key holds after some time, when nobody has been about it: what it
held, unless its deadline has come. -/
structure Lasts (key : String) (w w' : World) : Prop where
  script : w'.server.script = w.server.script
  now : w.server.server.now ≤ w'.server.server.now
  live : w'.server.server.live? key =
    Server.alive w'.server.server.now (w.server.server.live? key)

namespace Lasts

theorem refl (key : String) (w : World) : Lasts key w w :=
  ⟨rfl, Int.le_refl _, (Server.alive_live? _ _).symm⟩

theorem trans {w w' w'' : World} (h : Lasts key w w') (h' : Lasts key w' w'') :
    Lasts key w w'' where
  script := h'.script.trans h.script
  now := Int.le_trans h.now h'.now
  live := by rw [h'.live, h.live, Server.alive_of_le h'.now]

theorem step (w : World) {st : Step} (h : ¬st.Names key) :
    Lasts key w (w.step st) := by
  cases st with
  | request r =>
      have hkeep := Request.keeps_run h w.server w.tree
      have hnow : (w.step (.request r)).server.server.now = w.server.server.now :=
        hkeep.now
      refine ⟨hkeep.script, Int.le_of_eq hnow.symm, ?_⟩
      rw [hnow, Server.alive_live?]
      exact hkeep.live?
  | wait milliseconds =>
      refine ⟨rfl, ?_, Server.live?_advance _ _ _⟩
      simp only [World.step, Server.advance]
      omega
  | files t => exact ⟨rfl, Int.le_refl _, (Server.alive_live? _ _).symm⟩

end Lasts

end World

end FileStash
