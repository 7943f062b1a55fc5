import FileStash.Proofs.Program.Outcome
import FileStash.Proofs.Server.Interruption
import FileStash.Proofs.Store.Asking

/-!
Writes of the store where any call may meet with an error. Nobody can see that a
write ran that failed, but where the time limit was interrupted; and a transaction
that is answered has made both of its changes.
-/

namespace FileStash.Store

section Calling

variable {σ : Type} {client : Client σ} {R : StoreError → σ → σ → Prop}

theorem undone_calling {operation key : String} {c : Call}
    (h : ∀ s f, (client s c).1 = .error f → R (errorOf operation key f) (client s c).2 s) :
    (calling operation key c).Undone client R := by
  intro s t e he
  rw [state_calling]
  cases hreply : (client s c).1 with
  | error f =>
      rw [result_calling_error hreply] at he
      cases he
      exact h s f hreply
  | ok reply =>
      rw [result_calling_ok hreply] at he
      cases he

theorem harmless_calling {operation key : String} {c : Call}
    (h : ∀ s, (client s c).2 = s) :
    (calling operation key c).Harmless client Eq := by
  intro s t
  rw [state_calling]
  exact h s

theorem returns_calling (client : Client σ) (operation key : String) (c : Call) :
    (calling operation key c).Returns client fun s reply s' =>
      (client s c).1 = .ok reply ∧ s' = (client s c).2 := by
  intro s t reply h
  rw [state_calling]
  refine ⟨?_, rfl⟩
  cases hreply : (client s c).1 with
  | ok reply' =>
      rw [result_calling_ok hreply] at h
      exact congrArg _ (Except.ok.inj h)
  | error f =>
      rw [result_calling_error hreply] at h
      cases h

theorem undone_ask {operation key : String} {c : Command}
    (hvalue : ∀ s reply, (client s (.run c)).1 = .ok reply → ∃ v, reply = .value v)
    (h : ∀ s f, (client s (.run c)).1 = .error f →
      R (errorOf operation key f) (client s (.run c)).2 s) :
    (ask operation key c).Undone client R := by
  intro s t e he
  have hcalling : (calling operation key (.run c)).Undone client R := undone_calling h
  cases hreply : (client s (.run c)).1 with
  | error f =>
      have hcall : ((calling operation key (.run c)).run client s t).result =
          .error (errorOf operation key f) := result_calling_error hreply t
      simp only [ask, Program.bind_eq_andThen] at he ⊢
      rw [Program.run_andThen_error hcall] at he ⊢
      cases he
      exact hcalling s t _ hcall
  | ok reply =>
      obtain ⟨v, rfl⟩ := hvalue s reply hreply
      simp only [ask, Program.bind_eq_andThen] at he
      rw [Program.run_andThen_ok (result_calling_ok hreply t)] at he
      cases he

end Calling

open ScriptedServer (interrupted)

variable {fault : ScriptedServer → Call → Option ClientError}

theorem harmless_openTransaction (operation key : String) :
    (openTransaction operation key).Harmless (interrupted fault) Eq := by
  refine (harmless_calling fun s => ?_).andThen Eq.trans fun reply => ?_
  · exact ScriptedServer.state_interrupted (ScriptedServer.openTransaction_state) s
  · cases reply <;>
      exact Program.harmless_of_silent (Q := fun _ => True) .refl trivial

theorem harmless_enqueue (operation key : String) (c : Command) :
    (enqueue operation key c).Harmless (interrupted fault) Eq := by
  refine (harmless_calling fun s => ?_).andThen Eq.trans fun _ => ?_
  · exact ScriptedServer.state_interrupted (fun _ => rfl) s
  · exact Program.harmless_of_silent (Q := fun _ => True) .refl trivial

/-- What a write that failed has left: nothing that can be seen, unless its time
limit was interrupted. -/
def Traceless (e : StoreError) (s' s : ScriptedServer) : Prop :=
  s.InterruptsLimit e ∨ s'.Agrees s

theorem Traceless.refl (e : StoreError) (s : ScriptedServer) : Traceless e s s :=
  .inr (.refl s)

theorem undone_putWithin (key : String) (mapping : Value) (n : Int) :
    (putWithin key mapping n).Undone (interrupted fault) Traceless := by
  have hqueue : ∀ c, (enqueue "HSET+EXPIRE" key c).Harmless (interrupted fault) Eq :=
    harmless_enqueue _ _
  unfold putWithin
  refine (harmless_openTransaction _ _).andThen_undone Traceless.refl fun _ => ?_
  refine Program.Harmless.andThen_undone Traceless.refl ?_ fun entries => ?_
  · exact Program.harmless_of_silent (Q := fun _ => True) (fun _ => rfl)
      (Program.within_ofConverted _)
  · refine (hqueue _).andThen_undone Traceless.refl fun _ =>
      (hqueue _).andThen_undone Traceless.refl fun _ => ?_
    refine Program.Undone.andThen_sure ?_ fun _ => Program.sure_done ()
    refine undone_calling (ScriptedServer.interrupted_error
      (R := fun f s' s => Traceless (errorOf _ _ f) s' s) (fun _ => Traceless.refl _)
      fun s f hf => ?_)
    rcases ScriptedServer.commit_error hf with ⟨i, hi, hfamily, he⟩ | hsame
    · cases he
      exact .inl ⟨i, hi, hfamily, errorOf_interruption _ _ hfamily⟩
    · rw [hsame]
      exact .refl _ s

theorem returns_putWithin (key : String) (items : List (Value × Value)) (n : Int) :
    (putWithin key (.map items) n).Returns (interrupted fault) fun s _ s' =>
      s.Raises → ∃ v, (s.server.run (.hsetAll key items)).1 = .ok v ∧
        s' = { s with
          server := ((s.server.run (.hsetAll key items)).2.run (.expire key n)).2 } := by
  have hopen : (openTransaction "HSET+EXPIRE" key).Returns (interrupted fault) _ :=
    Program.Harmless.returns (harmless_openTransaction _ _)
  have hqueue : ∀ c, (enqueue "HSET+EXPIRE" key c).Returns (interrupted fault) _ :=
    fun c => Program.Harmless.returns (harmless_enqueue _ _ c)
  have hcommit := returns_calling (interrupted fault) "HSET+EXPIRE" key
    (.commit [.hsetAll key items, .expire key n])
  unfold putWithin
  refine (hopen.andThen fun _ =>
    (hqueue _).andThen fun _ => (hqueue _).andThen fun _ =>
      hcommit.andThen fun _ => Program.returns_done ()).mono ?_
  rintro s - s' ⟨-, _, rfl, -, _, rfl, -, _, rfl, r, _, ⟨hr, rfl⟩, -, rfl⟩ hraises
  obtain ⟨hlet, hanswered⟩ := ScriptedServer.of_interrupted_ok hr
  obtain ⟨v, -, hv, -, hstate⟩ := ScriptedServer.of_commit_ok hraises hanswered
  exact ⟨v, hv, by rw [hlet, hstate]⟩

end FileStash.Store
