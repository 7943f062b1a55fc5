import FileStash.Proofs.Program.Effects

namespace FileStash.Program

variable {σ α β : Type}

/-- Runs a program where every record changes the tree by `write`. -/
def written (client : Client σ) (write : Record → FileTree → FileTree) :
    Program α → σ → FileTree → Run σ α
  | .done a, s, t => { result := .ok a, state := s, tree := t }
  | .fail e, s, t => { result := .error e, state := s, tree := t }
  | .call c next, s, t =>
      let reply := client s c
      let rest := (next reply.1).written client write reply.2 t
      { rest with calls := c :: rest.calls }
  | .look next, s, t => (next t).written client write s t
  | .save t next, s, _ => next.written client write s t
  | .log r next, s, t =>
      let rest := next.written client write s (write r t)
      { rest with records := r :: rest.records }

theorem run_eq_written (client : Client σ) (p : Program α) (s : σ) (t : FileTree) :
    p.run client s t = p.written client (fun _ t => t) s t := by
  induction p generalizing s t with
  | done a => rfl
  | fail e => rfl
  | call c next ih => simp only [run, written, ih]
  | look next ih => simp only [run, written, ih]
  | save t next ih => simp only [run, written, ih]
  | log r next ih => simp only [run, written, ih]

section Sequence

variable {client : Client σ} {write : Record → FileTree → FileTree} {p : Program α}
  {f : α → Program β} {s : σ} {t : FileTree}

theorem written_andThen_ok {a : α} (h : (p.written client write s t).result = .ok a) :
    (p.andThen f).written client write s t =
      let first := p.written client write s t
      let rest := (f a).written client write first.state first.tree
      ⟨rest.result, rest.state, rest.tree, first.calls ++ rest.calls,
        first.records ++ rest.records⟩ := by
  induction p generalizing s t with
  | done b =>
      cases h
      rfl
  | fail e => cases h
  | call c next ih =>
      have hrest := ih (client s c).1 h
      simp only [andThen, written, hrest]
      rfl
  | look next ih => exact ih t h
  | save t' next ih => exact ih h
  | log r next ih =>
      have hrest := ih h
      simp only [andThen, written, hrest]
      rfl

theorem written_andThen_error {e : StoreError}
    (h : (p.written client write s t).result = .error e) :
    (p.andThen f).written client write s t =
      let first := p.written client write s t
      ⟨.error e, first.state, first.tree, first.calls, first.records⟩ := by
  induction p generalizing s t with
  | done a => cases h
  | fail e' =>
      cases h
      rfl
  | call c next ih =>
      have hrest := ih (client s c).1 h
      simp only [andThen, written, hrest]
  | look next ih => exact ih t h
  | save t' next ih => exact ih h
  | log r next ih =>
      have hrest := ih h
      simp only [andThen, written, hrest]

end Sequence

end FileStash.Program
