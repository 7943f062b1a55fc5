import FileStash.Logging.Journal
import FileStash.Run

namespace FileStash.Program

variable {σ α : Type}

/-- Runs a program against a client, a journal and the tree in it. -/
def journaled (client : Client σ) (stamp : Stamp) :
    Program α → σ → Journal → Except StoreError α × σ × Journal
  | .done a, s, j => (.ok a, s, j)
  | .fail e, s, j => (.error e, s, j)
  | .call c next, s, j =>
      let reply := client s c
      (next reply.1).journaled client stamp reply.2 j
  | .look next, s, j => (next j.tree).journaled client stamp s j
  | .save t next, s, j => next.journaled client stamp s { j with tree := t }
  | .log r next, s, j => next.journaled client stamp s (j.emit stamp r.notice)

theorem journaled_andThen {β : Type} (client : Client σ) (stamp : Stamp)
    (p : Program α) (f : α → Program β) (s : σ) (j : Journal) :
    (p.andThen f).journaled client stamp s j =
      match p.journaled client stamp s j with
      | (.error e, s', j') => (.error e, s', j')
      | (.ok a, s', j') => (f a).journaled client stamp s' j' := by
  induction p generalizing s j with
  | done a => rfl
  | fail e => rfl
  | call c next ih => simp only [andThen, journaled, ih]
  | look next ih => simp only [andThen, journaled, ih]
  | save t next ih => simp only [andThen, journaled, ih]
  | log r next ih => simp only [andThen, journaled, ih]

end FileStash.Program
