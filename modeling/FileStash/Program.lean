import FileStash.Client.Call
import FileStash.Failure
import FileStash.FileTree.Basic
import FileStash.Logging.Record

/-!
What operations do, step by step: calls of the client, looks at and changes of
the file tree, and records. A program does not say which client answers; it is
run against one.
-/

namespace FileStash

inductive Program (α : Type)
  | done (a : α)
  | fail (e : StoreError)
  | call (c : Call) (next : Except Failure Reply → Program α)
  | look (next : FileTree → Program α)
  | save (t : FileTree) (next : Program α)
  | log (r : Record) (next : Program α)

namespace Program

def andThen {α β : Type} (p : Program α) (f : α → Program β) : Program β :=
  match p with
  | .done a => f a
  | .fail e => .fail e
  | .call c next => .call c fun r => (next r).andThen f
  | .look next => .look fun t => (next t).andThen f
  | .save t next => .save t (next.andThen f)
  | .log r next => .log r (next.andThen f)

instance : Monad Program where
  pure := .done
  bind := andThen

theorem andThen_done {α β : Type} (a : α) (f : α → Program β) :
    (done a).andThen f = f a := rfl

theorem andThen_fail {α β : Type} (e : StoreError) (f : α → Program β) :
    (fail e : Program α).andThen f = fail e := rfl

theorem andThen_assoc {α β γ : Type} (p : Program α) (f : α → Program β)
    (g : β → Program γ) :
    (p.andThen f).andThen g = p.andThen fun a => (f a).andThen g := by
  induction p with
  | done a => rfl
  | fail e => rfl
  | call c next ih => simp [andThen, ih]
  | look next ih => simp [andThen, ih]
  | save t next ih => simp [andThen, ih]
  | log r next ih => simp [andThen, ih]

/-- The result of a check or conversion; its failure is the error. -/
def ofExcept {α : Type} : Except StoreError α → Program α
  | .ok a => .done a
  | .error e => .fail e

def ofConverted {α : Type} : Except Failure α → Program α
  | .ok a => .done a
  | .error f => .fail (.bare f)

def note (severity : Severity) (logger message : String) : Program Unit :=
  .log ⟨severity, logger, message⟩ (.done ())

def currentTree : Program FileTree :=
  .look .done

def replaceTree (t : FileTree) : Program Unit :=
  .save t (.done ())

end Program

end FileStash
