import FileStash.Proofs.Program.Effects

namespace FileStash

/-- A call that is carried out at once. Opening a transaction and queueing in it is
not. -/
def Call.decides : Call → Bool
  | .run _ | .commit _ => true
  | _ => false

namespace Program

variable {σ α β : Type}

structure Stage (σ α : Type) where
  rest : Program α
  state : σ
  tree : FileTree

/-- One step of a program; one that has ended stays as it is. -/
def advance (client : Client σ) : Program α → σ → FileTree → Stage σ α
  | .call c next, s, t => ⟨next (client s c).1, (client s c).2, t⟩
  | .look next, s, t => ⟨next t, s, t⟩
  | .save t next, s, _ => ⟨next, s, t⟩
  | .log _ next, s, t => ⟨next, s, t⟩
  | p, s, t => ⟨p, s, t⟩

def result? : Program α → Option (Except StoreError α)
  | .done a => some (.ok a)
  | .fail e => some (.error e)
  | _ => none

/-- The next step of the program is a call that decides. -/
def decides : Program α → Bool
  | .call c _ => c.decides
  | _ => false

theorem advance_of_ended {p : Program α} (h : p.result?.isSome) (client : Client σ) (s : σ)
    (t : FileTree) : (p.advance client s t).rest = p ∧ p.decides = false := by
  cases p with
  | done a => exact ⟨rfl, rfl⟩
  | fail e => exact ⟨rfl, rfl⟩
  | _ => cases h

theorem run_of_ended {p : Program α} {r : Except StoreError α} (h : p.result? = some r)
    (client : Client σ) (s : σ) (t : FileTree) :
    p.run client s t = { result := r, state := s, tree := t } := by
  cases p with
  | done a => cases h; rfl
  | fail e => cases h; rfl
  | _ => cases h

/-- The program neither asks nor saves anything. -/
abbrev Silent (p : Program α) : Prop :=
  p.Asks fun _ => False

abbrev Quiet (p : Program α) : Prop :=
  p.Asks fun c => c.decides = false

/-- The program decides once, unless it fails before, and asks nothing after
that. -/
def Once : Program α → Prop
  | .done _ | .save .. => False
  | .fail _ => True
  | .call c next => if c.decides then ∀ r, (next r).Silent else ∀ r, (next r).Once
  | .look next => ∀ t, (next t).Once
  | .log _ next => next.Once

theorem once_ask {c : Call} {next : Except Failure Reply → Program α} (hc : c.decides = true)
    (h : ∀ r, (next r).Silent) : (call c next).Once := by
  show if c.decides then _ else _
  rw [if_pos hc]
  exact h

theorem Once.failed {p : Program α} (hp : p.Once) {r : Except StoreError α}
    (h : p.result? = some r) : ∃ e, r = .error e := by
  cases p with
  | done a => exact hp.elim
  | fail e => exact ⟨e, (Option.some.inj h).symm⟩
  | _ => cases h

theorem Once.andThen {p : Program α} {f : α → Program β} (hp : p.Once)
    (hf : ∀ a, (f a).Silent) : (p.andThen f).Once := by
  induction p with
  | done a => exact hp.elim
  | fail e => trivial
  | call c next ih =>
      simp only [Once, Program.andThen] at hp ⊢
      split at hp
      · rename_i hc
        rw [if_pos hc]
        exact fun r => (hp r).andThen hf
      · rename_i hc
        rw [if_neg hc]
        exact fun r => ih r (hp r)
  | look next ih => exact fun t => ih t (hp t)
  | save t next ih => exact hp.elim
  | log r next ih => exact ih hp

theorem Within.andThen_once {p : Program α} {f : α → Program β} (hp : p.Quiet)
    (hf : ∀ a, (f a).Once) : (p.andThen f).Once := by
  induction p with
  | done a => exact hf a
  | fail e => trivial
  | call c next ih =>
      simp only [Once, Program.andThen]
      rw [if_neg (by simp [hp.1])]
      exact fun r => ih r (hp.2 r)
  | look next ih => exact fun t => ih t (hp t)
  | save t next ih => exact hp.1.elim
  | log r next ih => exact ih hp

theorem Once.asks {p : Program α} (h : p.Once) : p.Asks fun _ => True := by
  induction p with
  | done a => trivial
  | fail e => trivial
  | call c next ih =>
      refine ⟨trivial, fun r => ?_⟩
      simp only [Once] at h
      split at h
      · exact (h r).mono fun _ hfalse => hfalse.elim
      · exact ih r (h r)
  | look next ih => exact fun t => ih t (h t)
  | save t next ih => exact h.elim
  | log r next ih => exact ih h

theorem once_ofExcept (c : Except StoreError α) {f : α → Program β} (hf : ∀ a, (f a).Once) :
    (ofExcept c >>= f).Once :=
  (within_ofExcept c : Quiet _).andThen_once hf

theorem once_ofConverted (c : Except Failure α) {f : α → Program β} (hf : ∀ a, (f a).Once) :
    (ofConverted c >>= f).Once :=
  (within_ofConverted c : Quiet _).andThen_once hf

/-- The program ends within `n` steps, whatever it is answered. -/
def EndsIn : Nat → Program α → Prop
  | _, .done _ | _, .fail _ => True
  | n, .call _ next => 0 < n ∧ ∀ r, (next r).EndsIn (n - 1)
  | n, .look next => 0 < n ∧ ∀ t, (next t).EndsIn (n - 1)
  | n, .save _ next | n, .log _ next => 0 < n ∧ next.EndsIn (n - 1)

section EndsIn

variable {p : Program α} {n m : Nat}

theorem EndsIn.mono (h : p.EndsIn n) (hle : n ≤ m) : p.EndsIn m := by
  induction p generalizing n m with
  | done a => trivial
  | fail e => trivial
  | call c next ih => exact ⟨by have := h.1; omega, fun r => ih r (h.2 r) (by omega)⟩
  | look next ih => exact ⟨by have := h.1; omega, fun t => ih t (h.2 t) (by omega)⟩
  | save t next ih => exact ⟨by have := h.1; omega, ih h.2 (by omega)⟩
  | log r next ih => exact ⟨by have := h.1; omega, ih h.2 (by omega)⟩

theorem EndsIn.andThen {f : α → Program β} (hp : p.EndsIn n) (hf : ∀ a, (f a).EndsIn m) :
    (p.andThen f).EndsIn (n + m) := by
  induction p generalizing n with
  | done a => exact (hf a).mono (by omega)
  | fail e => trivial
  | call c next ih =>
      exact ⟨by have := hp.1; omega, fun r => (ih r (hp.2 r)).mono (by have := hp.1; omega)⟩
  | look next ih =>
      exact ⟨by have := hp.1; omega, fun t => (ih t (hp.2 t)).mono (by have := hp.1; omega)⟩
  | save t next ih =>
      exact ⟨by have := hp.1; omega, (ih hp.2).mono (by have := hp.1; omega)⟩
  | log r next ih =>
      exact ⟨by have := hp.1; omega, (ih hp.2).mono (by have := hp.1; omega)⟩

theorem EndsIn.last {f : α → Program β} (hp : p.EndsIn n) (hf : ∀ a, (f a).EndsIn 0) :
    (p.andThen f).EndsIn n :=
  hp.andThen hf

theorem endsIn_ofExcept (c : Except StoreError α) {f : α → Program β}
    (hf : ∀ a, (f a).EndsIn n) : (ofExcept c >>= f).EndsIn n := by
  cases c with
  | error e => trivial
  | ok a => exact hf a

theorem endsIn_ofConverted (c : Except Failure α) {f : α → Program β}
    (hf : ∀ a, (f a).EndsIn n) : (ofConverted c >>= f).EndsIn n := by
  cases c with
  | error e => trivial
  | ok a => exact hf a

theorem EndsIn.advance (h : p.EndsIn n) (hgoes : p.result? = none) (client : Client σ) (s : σ)
    (t : FileTree) : 0 < n ∧ (p.advance client s t).rest.EndsIn (n - 1) := by
  cases p with
  | done a => cases hgoes
  | fail e => cases hgoes
  | call c next => exact ⟨h.1, h.2 _⟩
  | look next => exact ⟨h.1, h.2 _⟩
  | save t' next => exact h
  | log r next => exact h

theorem EndsIn.goes (h : p.EndsIn n) (client : Client σ) (s : σ) (t : FileTree) :
    (p.advance client s t).rest.EndsIn n := by
  cases hgoes : p.result? with
  | none => exact (h.advance hgoes client s t).2.mono (Nat.sub_le n 1)
  | some result =>
      rw [(advance_of_ended (by rw [hgoes]; rfl) client s t).1]
      exact h

end EndsIn

structure SameEnd (a b : Run σ α) : Prop where
  result : a.result = b.result
  state : a.state = b.state
  tree : a.tree = b.tree

theorem SameEnd.trans {a b c : Run σ α} (h : SameEnd a b) (h' : SameEnd b c) : SameEnd a c :=
  ⟨h.result.trans h'.result, h.state.trans h'.state, h.tree.trans h'.tree⟩

/-- What is left of a program behind a step comes to what the program would have
come to. -/
theorem run_advance (client : Client σ) (p : Program α) (s : σ) (t : FileTree) :
    let stage := p.advance client s t
    SameEnd (stage.rest.run client stage.state stage.tree) (p.run client s t) := by
  cases p <;> exact ⟨rfl, rfl, rfl⟩

theorem Within.result_of_silent {p : Program α} (hp : p.Silent) (client : Client σ) (s s' : σ)
    (t : FileTree) : (p.run client s t).result = (p.run client s' t).result := by
  induction p with
  | done a => rfl
  | fail e => rfl
  | call c next ih => exact hp.1.elim
  | look next ih => exact ih t (hp t)
  | save t' next ih => exact hp.1.elim
  | log r next ih => exact ih hp

end Program

end FileStash
