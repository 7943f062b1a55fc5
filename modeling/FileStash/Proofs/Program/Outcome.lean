import FileStash.Proofs.Program.Effects

namespace FileStash

/-- The run begins with the first of the calls, keeps to their order, and makes them
all where it answers. -/
structure Run.Sends {σ α : Type} (run : Run σ α) (calls : List Call) : Prop where
  begun : run.calls ≠ []
  within : run.calls <+: calls
  whole : ∀ a, run.result = .ok a → run.calls = calls

namespace Program

variable {σ α β : Type} {client : Client σ} {R : σ → σ → Prop}

def Harmless (client : Client σ) (R : σ → σ → Prop) (p : Program α) : Prop :=
  ∀ s t, R (p.run client s t).state s

/-- Where the program fails, the error, the state behind it and the state before it
are so related. -/
def Undone (client : Client σ) (R : StoreError → σ → σ → Prop) (p : Program α) : Prop :=
  ∀ s t e, (p.run client s t).result = .error e → R e (p.run client s t).state s

def Sure (client : Client σ) (p : Program α) : Prop :=
  ∀ s t, ∃ a, (p.run client s t).result = .ok a

/-- Wherever the program answers, the state before, the answer and the state
after it are so related. -/
def Returns (client : Client σ) (p : Program α) (Q : σ → α → σ → Prop) : Prop :=
  ∀ s t a, (p.run client s t).result = .ok a → Q s a (p.run client s t).state

theorem Returns.andThen {p : Program α} {f : α → Program β}
    {Q : σ → α → σ → Prop} {Q' : α → σ → β → σ → Prop} (hp : p.Returns client Q)
    (hf : ∀ a, (f a).Returns client (Q' a)) :
    (p.andThen f).Returns client fun s b s' => ∃ a m, Q s a m ∧ Q' a m b s' := by
  intro s t b hb
  cases hresult : (p.run client s t).result with
  | error e =>
      rw [run_andThen_error hresult] at hb
      cases hb
  | ok a =>
      rw [run_andThen_ok hresult] at hb ⊢
      exact ⟨a, _, hp s t a hresult, hf a _ _ b hb⟩

theorem Returns.mono {p : Program α} {Q Q' : σ → α → σ → Prop}
    (hp : p.Returns client Q) (h : ∀ s a s', Q s a s' → Q' s a s') :
    p.Returns client Q' :=
  fun s t a ha => h _ _ _ (hp s t a ha)

theorem returns_done (a : α) :
    (done a).Returns client fun s b s' => b = a ∧ s' = s := by
  rintro s t b hb
  cases hb
  exact ⟨rfl, rfl⟩

theorem returns_fail (e : StoreError) :
    (fail e : Program α).Returns client fun _ _ _ => False :=
  fun _ _ _ h => by cases h

theorem returns_ofExcept (c : Except StoreError α) :
    (ofExcept c).Returns client fun s a s' => c = .ok a ∧ s' = s := by
  cases c with
  | error e => exact fun s t a ha => by cases ha
  | ok a =>
      rintro s t b hb
      cases hb
      exact ⟨rfl, rfl⟩

/-- However the program ends, its answer satisfies `Q` and its error `E`. -/
def Ends (client : Client σ) (p : Program α) (Q : α → Prop) (E : StoreError → Prop) : Prop :=
  ∀ s t, (∀ a, (p.run client s t).result = .ok a → Q a) ∧
    ∀ e, (p.run client s t).result = .error e → E e

section Ends

variable {Q : α → Prop} {Q' : β → Prop} {E : StoreError → Prop}

theorem ends_done {a : α} (h : Q a) : (done a).Ends client Q E := by
  refine fun s t => ⟨?_, nofun⟩
  rintro b hb
  cases hb
  exact h

theorem ends_ofExcept {c : Except StoreError α} (hok : ∀ a, c = .ok a → Q a)
    (herror : ∀ e, c = .error e → E e) : (ofExcept c).Ends client Q E := by
  cases c with
  | ok a => exact ends_done (hok a rfl)
  | error e =>
      refine fun s t => ⟨nofun, ?_⟩
      rintro e' he'
      cases he'
      exact herror e rfl

theorem ends_note (severity : Severity) (logger message : String) :
    (note severity logger message).Ends client (fun _ => True) E :=
  fun _ _ => ⟨fun _ _ => trivial, nofun⟩

theorem Ends.andThen {p : Program α} {f : α → Program β} (hp : p.Ends client Q E)
    (hf : ∀ a, Q a → (f a).Ends client Q' E) : (p.andThen f).Ends client Q' E := by
  intro s t
  obtain ⟨hok, herror⟩ := hp s t
  cases hresult : (p.run client s t).result with
  | error e =>
      rw [run_andThen_error hresult]
      refine ⟨nofun, ?_⟩
      rintro e' he'
      cases he'
      exact herror e hresult
  | ok a =>
      rw [run_andThen_ok hresult]
      exact hf a (hok a hresult) _ _

end Ends

/-- The program makes the calls in their order, and all of them wherever it
answers. -/
def Follows (client : Client σ) (p : Program α) (calls : List Call) : Prop :=
  ∀ s t, (p.run client s t).calls <+: calls ∧
    ∀ a, (p.run client s t).result = .ok a → (p.run client s t).calls = calls

section Follows

variable {calls later : List Call}

theorem follows_of_silent {p : Program α} {Q : FileTree → Prop}
    (hp : p.Within (fun _ => False) Q) : p.Follows client [] := by
  intro s t
  have hnil : (p.run client s t).calls = [] :=
    List.eq_nil_iff_forall_not_mem.mpr fun c hc => hp.calls_run s t c hc
  exact ⟨hnil ▸ List.nil_prefix, fun _ _ => hnil⟩

theorem follows_call {c : Call} {next : Except Failure Reply → Program α} {Q : FileTree → Prop}
    (h : ∀ r, (next r).Within (fun _ => False) Q) : (call c next).Follows client [c] := by
  intro s t
  have hrest : (next (client s c).1).Follows client [] := follows_of_silent (h _)
  obtain ⟨hwithin, hwhole⟩ := hrest (client s c).2 t
  exact ⟨(List.prefix_cons_inj c).mpr hwithin, fun a ha => congrArg (c :: ·) (hwhole a ha)⟩

theorem Follows.andThen {p : Program α} {f : α → Program β} (hp : p.Follows client calls)
    (hf : ∀ a, (f a).Follows client later) : (p.andThen f).Follows client (calls ++ later) := by
  intro s t
  obtain ⟨hwithin, hwhole⟩ := hp s t
  cases hresult : (p.run client s t).result with
  | error e =>
      rw [run_andThen_error hresult]
      exact ⟨hwithin.trans (List.prefix_append calls later), nofun⟩
  | ok a =>
      obtain ⟨hrest, hend⟩ := hf a (p.run client s t).state (p.run client s t).tree
      rw [run_andThen_ok hresult]
      dsimp only
      rw [hwhole a hresult]
      exact ⟨(List.prefix_append_right_inj calls).mpr hrest, fun b hb => by rw [hend b hb]⟩

theorem Follows.cons {c : Call} {p : Program α} {f : α → Program β}
    (hp : p.Follows client [c]) (hf : ∀ a, (f a).Follows client later) :
    (p.andThen f).Follows client (c :: later) :=
  hp.andThen hf

theorem Follows.andThen_silent {p : Program α} {f : α → Program β} (hp : p.Follows client calls)
    (hf : ∀ a, (f a).Within (fun _ => False) fun _ => False) :
    (p.andThen f).Follows client calls := by
  simpa using hp.andThen fun a => follows_of_silent (hf a)

/-- A program that starts with a call, whatever it does behind it. -/
def Begins (client : Client σ) (p : Program α) : Prop :=
  ∀ s t, (p.run client s t).calls ≠ []

theorem begins_call (c : Call) (next : Except Failure Reply → Program α) :
    (call c next).Begins client :=
  fun _ _ => List.cons_ne_nil _ _

theorem calls_prefix_andThen (p : Program α) (f : α → Program β) (s : σ) (t : FileTree) :
    (p.run client s t).calls <+: ((p.andThen f).run client s t).calls := by
  cases hresult : (p.run client s t).result with
  | error e =>
      have hsame : ((p.andThen f).run client s t).calls = (p.run client s t).calls := by
        simp only [run_andThen_error hresult]
      exact ⟨[], by rw [hsame, List.append_nil]⟩
  | ok a =>
      rw [run_andThen_ok hresult]
      exact List.prefix_append ..

theorem Begins.andThen {p : Program α} (hp : p.Begins client) (f : α → Program β) :
    (p.andThen f).Begins client := by
  intro s t hnil
  have hprefix : (p.run client s t).calls <+: _ := p.calls_prefix_andThen f s t
  rw [hnil] at hprefix
  exact hp s t (List.prefix_nil.mp hprefix)

theorem Follows.sends {p : Program α} (hp : p.Follows client calls) (hbegins : p.Begins client)
    (s : σ) (t : FileTree) : (p.run client s t).Sends calls :=
  ⟨hbegins s t, (hp s t).1, (hp s t).2⟩

end Follows

theorem Harmless.returns {p : Program α} (hp : p.Harmless client R) :
    p.Returns client fun s _ s' => R s' s :=
  fun s t _ _ => hp s t

theorem harmless_of_silent {p : Program α} {Q : FileTree → Prop}
    (hR : ∀ s, R s s) (hp : p.Within (fun _ => False) Q) :
    p.Harmless client R := by
  intro s t
  have hstate : (p.run client s t).state = s :=
    hp.state_run (I := (· = s)) (fun _ _ h => h.elim) t rfl
  rw [hstate]
  exact hR s

theorem sure_done (a : α) : (done a).Sure client :=
  fun _ _ => ⟨a, rfl⟩

theorem Harmless.andThen {p : Program α} {f : α → Program β}
    (htrans : ∀ {a b c}, R a b → R b c → R a c) (hp : p.Harmless client R)
    (hf : ∀ a, (f a).Harmless client R) : (p.andThen f).Harmless client R := by
  intro s t
  have hfirst := hp s t
  cases hresult : (p.run client s t).result with
  | error e =>
      rw [run_andThen_error hresult]
      exact hfirst
  | ok a =>
      rw [run_andThen_ok hresult]
      exact htrans (hf a _ _) hfirst

theorem Harmless.andThen_undone {R : StoreError → σ → σ → Prop} {p : Program α}
    {f : α → Program β} (hrefl : ∀ e s, R e s s) (hp : p.Harmless client Eq)
    (hf : ∀ a, (f a).Undone client R) : (p.andThen f).Undone client R := by
  intro s t e he
  have hfirst := hp s t
  cases hresult : (p.run client s t).result with
  | error e' =>
      rw [run_andThen_error hresult, hfirst]
      exact hrefl e s
  | ok a =>
      rw [run_andThen_ok hresult] at he ⊢
      have hrest := hf a _ _ e he
      rw [show (p.run client s t).state = s from hfirst] at hrest
      simpa only [hfirst] using hrest

theorem Undone.andThen_sure {R : StoreError → σ → σ → Prop} {p : Program α} {f : α → Program β}
    (hp : p.Undone client R) (hf : ∀ a, (f a).Sure client) :
    (p.andThen f).Undone client R := by
  intro s t e he
  cases hresult : (p.run client s t).result with
  | error e' =>
      rw [run_andThen_error hresult] at he ⊢
      cases he
      exact hp s t _ hresult
  | ok a =>
      obtain ⟨b, hb⟩ := hf a (p.run client s t).state (p.run client s t).tree
      rw [run_andThen_ok hresult] at he
      cases hb.symm.trans he

end Program

end FileStash
