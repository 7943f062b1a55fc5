import FileStash.Run

namespace FileStash

instance decidableEqExcept {ε α : Type} [DecidableEq ε] [DecidableEq α] :
    DecidableEq (Except ε α)
  | .ok a, .ok b => decidable_of_iff (a = b) (by simp)
  | .error e, .error f => decidable_of_iff (e = f) (by simp)
  | .ok _, .error _ => .isFalse nofun
  | .error _, .ok _ => .isFalse nofun

def Call.keys : Call → List String
  | .run c => c.keys
  | .commit cs => cs.flatMap Command.keys
  | _ => []

def Command.Reads : Command → Prop
  | .ping | .get _ | .hget .. | .hmget .. | .hgetall _ | .hexists .. | .smembers _ | .lrange ..
  | .exists _ | .ttl _ => True
  | _ => False

def Call.Reads (c : Call) : Prop :=
  ∃ d, c = .run d ∧ d.Reads

namespace Program

variable {σ τ α β : Type}

theorem bind_eq_andThen (p : Program α) (f : α → Program β) :
    (p >>= f) = p.andThen f := rfl

/-- Every call of the program satisfies `P`, and every tree that it saves
satisfies `Q`. -/
def Within (P : Call → Prop) (Q : FileTree → Prop) : Program α → Prop
  | .done _ => True
  | .fail _ => True
  | .call c next => P c ∧ ∀ r, (next r).Within P Q
  | .look next => ∀ t, (next t).Within P Q
  | .save t next => Q t ∧ next.Within P Q
  | .log _ next => next.Within P Q

/-- The calls of a program that saves no tree. -/
abbrev Asks (P : Call → Prop) (p : Program α) : Prop :=
  p.Within P fun _ => False

section Within

variable {P : Call → Prop} {Q : FileTree → Prop}

theorem Within.andThen {p : Program α} {f : α → Program β} (hp : p.Within P Q)
    (hf : ∀ a, (f a).Within P Q) : (p.andThen f).Within P Q := by
  induction p with
  | done a => exact hf a
  | fail e => trivial
  | call c next ih => exact ⟨hp.1, fun r => ih r (hp.2 r)⟩
  | look next ih => exact fun t => ih t (hp t)
  | save t next ih => exact ⟨hp.1, ih hp.2⟩
  | log r next ih => exact ih hp

theorem Within.bind {p : Program α} {f : α → Program β} (hp : p.Within P Q)
    (hf : ∀ a, (f a).Within P Q) : (p >>= f).Within P Q :=
  hp.andThen hf

theorem Within.mono {P' : Call → Prop} {p : Program α} (hp : p.Within P Q)
    (h : ∀ c, P c → P' c) : p.Within P' Q := by
  induction p with
  | done a => trivial
  | fail e => trivial
  | call c next ih => exact ⟨h c hp.1, fun r => ih r (hp.2 r)⟩
  | look next ih => exact fun t => ih t (hp t)
  | save t next ih => exact ⟨hp.1, ih hp.2⟩
  | log r next ih => exact ih hp

theorem Within.mono_trees {Q' : FileTree → Prop} {p : Program α}
    (hp : p.Within P Q) (h : ∀ t, Q t → Q' t) : p.Within P Q' := by
  induction p with
  | done a => trivial
  | fail e => trivial
  | call c next ih => exact ⟨hp.1, fun r => ih r (hp.2 r)⟩
  | look next ih => exact fun t => ih t (hp t)
  | save t next ih => exact ⟨h t hp.1, ih hp.2⟩
  | log r next ih => exact ih hp

theorem within_ofExcept (c : Except StoreError α) :
    (ofExcept c).Within P Q := by
  cases c <;> trivial

theorem within_ofConverted (c : Except Failure α) :
    (ofConverted c).Within P Q := by
  cases c <;> trivial

theorem within_note (severity : Severity) (logger message : String) :
    (note severity logger message).Within P Q := trivial

theorem Within.ofExcept_bind {c : Except StoreError α} {f : α → Program β}
    (hf : ∀ a, c = .ok a → (f a).Within P Q) :
    (ofExcept c >>= f).Within P Q := by
  cases c with
  | error e => trivial
  | ok a => exact hf a rfl

theorem Within.ofConverted_bind {c : Except Failure α} {f : α → Program β}
    (hf : ∀ a, c = .ok a → (f a).Within P Q) :
    (ofConverted c >>= f).Within P Q := by
  cases c with
  | error e => trivial
  | ok a => exact hf a rfl

/-- A property of the client's state that every permitted call keeps is kept by
the run. -/
theorem Within.state_run {client : Client σ} {I : σ → Prop} {p : Program α}
    (hp : p.Within P Q) (hstep : ∀ s c, P c → I s → I (client s c).2) {s : σ}
    (t : FileTree) (hs : I s) :
    I (p.run client s t).state := by
  induction p generalizing s t with
  | done a => exact hs
  | fail e => exact hs
  | call c next ih => exact ih _ (hp.2 _) t (hstep s c hp.1 hs)
  | look next ih => exact ih t (hp t) t hs
  | save t' next ih => exact ih hp.2 t' hs
  | log r next ih => exact ih hp t hs

theorem Within.calls_run {client : Client σ} {p : Program α} (hp : p.Within P Q)
    (s : σ) (t : FileTree) : ∀ c ∈ (p.run client s t).calls, P c := by
  induction p generalizing s t with
  | done a => simp [run]
  | fail e => simp [run]
  | call c next ih =>
      intro d hd
      rcases List.mem_cons.mp hd with rfl | hd
      · exact hp.1
      · exact ih _ (hp.2 _) _ t d hd
  | look next ih => exact ih t (hp t) s t
  | save t' next ih => exact ih hp.2 s t'
  | log r next ih => exact ih hp s t

theorem Within.tree_run {client : Client σ} {p : Program α} (hp : p.Asks P)
    (s : σ) (t : FileTree) : (p.run client s t).tree = t := by
  induction p generalizing s t with
  | done a => rfl
  | fail e => rfl
  | call c next ih => exact ih _ (hp.2 _) _ t
  | look next ih => exact ih t (hp t) s t
  | save t' next ih => exact hp.1.elim
  | log r next ih => exact ih hp s t

end Within

/-- Two runs that nobody can tell apart by what they answer, save, ask and
note. -/
structure SameRun (R : σ → τ → Prop) (a : Run σ α) (b : Run τ α) : Prop where
  result : a.result = b.result
  state : R a.state b.state
  tree : a.tree = b.tree
  calls : a.calls = b.calls
  records : a.records = b.records

theorem within_trivial (p : Program α) : p.Within (fun _ => True) fun _ => True := by
  induction p with
  | done a => trivial
  | fail e => trivial
  | call c next ih => exact ⟨trivial, ih⟩
  | look next ih => exact ih
  | save t next ih => exact ⟨trivial, ih⟩
  | log r next ih => exact ih

/-- Two clients that answer alike whatever a program may call cannot be told apart by
it. -/
theorem Within.run_sameRun {client : Client σ} {client' : Client τ} {R : σ → τ → Prop}
    {P : Call → Prop} {Q : FileTree → Prop} {p : Program α} (hp : p.Within P Q)
    (hstep : ∀ s s' c, P c → R s s' →
      (client s c).1 = (client' s' c).1 ∧ R (client s c).2 (client' s' c).2)
    {s : σ} {s' : τ} (t : FileTree) (h : R s s') :
    SameRun R (p.run client s t) (p.run client' s' t) := by
  induction p generalizing s s' t with
  | done a => exact ⟨rfl, h, rfl, rfl, rfl⟩
  | fail e => exact ⟨rfl, h, rfl, rfl, rfl⟩
  | call c next ih =>
      obtain ⟨hreply, hstate⟩ := hstep s s' c hp.1 h
      have hrest := ih (client s c).1 (hp.2 _) t hstate
      rw [hreply] at hrest
      exact
        { result := by simpa only [run, hreply] using hrest.result
          state := by simpa only [run, hreply] using hrest.state
          tree := by simpa only [run, hreply] using hrest.tree
          calls := by simpa only [run, hreply] using congrArg (c :: ·) hrest.calls
          records := by simpa only [run, hreply] using hrest.records }
  | look next ih => exact ih t (hp t) t h
  | save t' next ih => exact ih hp.2 t' h
  | log r next ih =>
      have hrest := ih hp t h
      exact ⟨hrest.result, hrest.state, hrest.tree, hrest.calls,
        congrArg (r :: ·) hrest.records⟩

/-- Two clients that answer alike, call after call, cannot be told apart by a
program. -/
theorem run_sameRun {client : Client σ} {client' : Client τ} {R : σ → τ → Prop}
    (hstep : ∀ s s' c, R s s' →
      (client s c).1 = (client' s' c).1 ∧ R (client s c).2 (client' s' c).2)
    (p : Program α) {s : σ} {s' : τ} (t : FileTree) (h : R s s') :
    SameRun R (p.run client s t) (p.run client' s' t) :=
  (within_trivial p).run_sameRun (fun s s' c _ => hstep s s' c) t h

theorem run_ofExcept (client : Client σ) (c : Except StoreError α) (s : σ) (t : FileTree) :
    (ofExcept c).run client s t = { result := c, state := s, tree := t } := by
  cases c <;> rfl

theorem run_andThen_ok {client : Client σ} {p : Program α} {f : α → Program β}
    {s : σ} {t : FileTree} {a : α} (h : (p.run client s t).result = .ok a) :
    (p.andThen f).run client s t =
      let first := p.run client s t
      let rest := (f a).run client first.state first.tree
      ⟨rest.result, rest.state, rest.tree, first.calls ++ rest.calls,
        first.records ++ rest.records⟩ := by
  rw [run_andThen]
  rcases hp : p.run client s t with ⟨r, s', t', cs, rs⟩
  rw [hp] at h
  cases h
  rfl

theorem run_andThen_error {client : Client σ} {p : Program α}
    {f : α → Program β} {s : σ} {t : FileTree} {e : StoreError}
    (h : (p.run client s t).result = .error e) :
    (p.andThen f).run client s t =
      let first := p.run client s t
      ⟨.error e, first.state, first.tree, first.calls, first.records⟩ := by
  rw [run_andThen]
  rcases hp : p.run client s t with ⟨r, s', t', cs, rs⟩
  rw [hp] at h
  cases h
  rfl

theorem state_andThen {client : Client σ} {p : Program α} {f : α → Program β}
    {Q : FileTree → Prop} (hf : ∀ a, (f a).Within (fun _ => False) Q) (s : σ) (t : FileTree) :
    ((p.andThen f).run client s t).state = (p.run client s t).state := by
  cases hresult : (p.run client s t).result with
  | error e => rw [run_andThen_error hresult]
  | ok a =>
      rw [run_andThen_ok hresult]
      exact (hf a).state_run (I := (· = (p.run client s t).state)) (fun _ _ h => h.elim) _ rfl

end Program

end FileStash
