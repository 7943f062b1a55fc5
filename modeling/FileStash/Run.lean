import FileStash.Program

namespace FileStash

abbrev Client (σ : Type) := σ → Call → Except Failure Reply × σ

structure Run (σ α : Type) where
  result : Except StoreError α
  state : σ
  tree : FileTree
  calls : List Call := []
  records : List Record := []

namespace Program

variable {σ α : Type}

def run (client : Client σ) : Program α → σ → FileTree → Run σ α
  | .done a, s, t => { result := .ok a, state := s, tree := t }
  | .fail e, s, t => { result := .error e, state := s, tree := t }
  | .call c next, s, t =>
      let reply := client s c
      let rest := (next reply.1).run client reply.2 t
      { rest with calls := c :: rest.calls }
  | .look next, s, t => (next t).run client s t
  | .save t next, s, _ => next.run client s t
  | .log r next, s, t =>
      let rest := next.run client s t
      { rest with records := r :: rest.records }

theorem run_andThen {β : Type} (client : Client σ) (p : Program α)
    (f : α → Program β) (s : σ) (t : FileTree) :
    (p.andThen f).run client s t =
      match p.run client s t with
      | ⟨.error e, s', t', cs, rs⟩ => ⟨.error e, s', t', cs, rs⟩
      | ⟨.ok a, s', t', cs, rs⟩ =>
          let rest := (f a).run client s' t'
          ⟨rest.result, rest.state, rest.tree, cs ++ rest.calls, rs ++ rest.records⟩ := by
  induction p generalizing s t with
  | done a => rfl
  | fail e => rfl
  | call c next ih =>
      simp only [andThen, run, ih]
      rcases (next (client s c).1).run client (client s c).2 t with ⟨r, s', t', cs, rs⟩
      cases r <;> rfl
  | look next ih => simp only [andThen, run, ih]
  | save t' next ih => simp only [andThen, run, ih]
  | log r next ih =>
      simp only [andThen, run, ih]
      rcases next.run client s t with ⟨r', s', t', cs, rs⟩
      cases r' <;> rfl

end Program

end FileStash
