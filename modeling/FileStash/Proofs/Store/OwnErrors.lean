import FileStash.Proofs.Program.Outcome
import FileStash.Proofs.Server.TextHash
import FileStash.Proofs.Store.Looking

namespace FileStash

/-- An error of the library's own, and not one that is passed on as it comes. -/
def StoreError.Own : StoreError → Prop
  | .bare _ => False
  | _ => True

def Dict.Texts (es : Dict Value Value) : Prop :=
  ∀ field v, Dict.get? es (.text field) = some v → ∃ s, v = .text s

/-- An answer that satisfies `Q`, or an error of the client library. -/
def Answers (r : Except Failure Reply) (Q : Reply → Prop) : Prop :=
  match r with
  | .ok reply => Q reply
  | .error f => ∃ e, f = .client e ∧ e.concernsServer = true

/-- What a file cache relies on: the client raises errors of the client library
only, and answers what the commands are documented to answer. -/
structure Orderly {σ : Type} (client : Client σ) : Prop where
  fields : ∀ s key, Answers (client s (.run (.hgetall key))).1 fun r =>
    ∃ v, r = .value v ∧ (v.truth = true → ∃ es, v = .map es ∧ Dict.Texts es)
  there : ∀ s key, Answers (client s (.run (.exists key))).1 fun r =>
    ∃ v, r = .value v ∧ (v.isNull = true ∨ ∃ n, v = .int n)
  write : ∀ s key entries, Answers
    (client s (.run (.hsetAll key (Server.textItems entries)))).1 fun r => ∃ v, r = .value v
  opening : ∀ s, Answers (client s .openTransaction).1 (· = .transaction)
  queue : ∀ s c, Answers (client s (.queue c)).1 fun _ => True
  commit : ∀ s key entries n, Answers
    (client s (.commit [.hsetAll key (Server.textItems entries), .expire key n])).1 fun _ => True

/-- The server as a client that answers by no script. -/
def Server.client : Client Server := fun s c =>
  ((ScriptedServer.call ⟨s, []⟩ c).1, (ScriptedServer.call ⟨s, []⟩ c).2.server)

namespace Server

theorem client_run (s : Server) (c : Command) :
    (client s (.run c)).1 = (s.run c).1.map .value := rfl

theorem wrongKind_concernsServer : ClientError.wrongKind.concernsServer = true := by
  decide

/-- A write of texts is refused for want of fields or for the kind of the key. -/
theorem answers_hsetAll (s : Server) (key : String) (entries : List (String × String)) :
    Answers ((s.run (.hsetAll key (textItems entries))).1.map .value)
      fun r => ∃ v, r = .value v := by
  by_cases hne : entries = []
  · subst hne
    exact ⟨ClientError.badInput "'hset' with no key value pairs", rfl, by decide⟩
  · cases hunder : hashUnder (s.live? key) with
    | none =>
        rw [(run_hsetAll_otherKind (textItems_ne_nil hne) hunder).1]
        exact ⟨_, rfl, wrongKind_concernsServer⟩
    | some fields =>
        obtain ⟨n, hn⟩ := (run_hsetAll_texts hne hunder).1
        rw [hn]
        exact ⟨_, rfl⟩

theorem answers_hgetall (s : Server) (key : String) :
    Answers ((s.run (.hgetall key)).1.map .value) fun r =>
      ∃ v, r = .value v ∧ (v.truth = true → ∃ es, v = .map es ∧ Dict.Texts es) := by
  cases hunder : hashUnder (s.live? key) with
  | none =>
      rw [Store.hgetall_answer_error hunder]
      exact ⟨_, rfl, wrongKind_concernsServer⟩
  | some fields =>
      rw [Store.hgetall_answer hunder]
      refine ⟨_, rfl, fun _ => ⟨_, rfl, fun field v hv => ?_⟩⟩
      rw [Dict.get?_textItems] at hv
      cases hfield : Dict.get? fields field with
      | none => simp [hfield] at hv
      | some s' =>
          simp only [hfield, Option.map_some, Option.some.injEq] at hv
          exact ⟨s', hv.symm⟩

theorem orderly : Orderly client where
  fields := answers_hgetall
  there s key := by
    have hanswer : (s.run (.exists key)).1 =
        .ok (count (if (s.live? key).isSome then 1 else 0)) := (actsOn_run s rfl).answer
    rw [client_run, hanswer]
    exact ⟨_, rfl, .inr ⟨_, rfl⟩⟩
  write := answers_hsetAll
  opening _ := rfl
  queue _ _ := trivial
  commit s key entries n := by
    have hwrite := answers_hsetAll s key entries
    simp only [client, ScriptedServer.call, ScriptedServer.commit, ScriptedServer.answerAll,
      ScriptedServer.answer, ScriptedServer.scripted?, Dict.get?, Option.map_none]
    rcases hrun : s.run (.hsetAll key (textItems entries)) with ⟨f | v, s'⟩
    · rw [hrun] at hwrite
      exact hwrite
    · have hlimit : ∃ v', (s'.run (.expire key n)).1 = .ok v' := by
        rw [(actsOn_run s' (c := .expire key n) rfl).answer]
        cases s'.live? key <;> exact ⟨_, rfl⟩
      obtain ⟨v', hv'⟩ := hlimit
      simp only [hv']
      trivial

end Server

namespace Store

open StoreError (Own)

variable {σ : Type} {client : Client σ}

theorem own_of_meaning {α : Type} {e : ClientError} (he : e.concernsServer = true)
    (operation key : String) (s : σ) (t : FileTree) {e' : StoreError}
    (h : ((meaning operation key (.client e) : Program α).run client s t).result =
      .error e') : e'.Own := by
  simp only [meaning] at h
  cases hfamily : e.family with
  | rejection =>
      simp only [hfamily] at h
      split at h <;> cases h <;> trivial
  | badInput =>
      simp only [hfamily] at h
      cases h
      trivial
  | unavailable =>
      simp only [hfamily] at h
      cases h
      trivial
  | system | foreign | interruption => simp [ClientError.concernsServer, hfamily] at he

theorem ends_calling {operation key : String} {c : Call} {Q : Reply → Prop}
    (h : ∀ s, Answers (client s c).1 Q) : (calling operation key c).Ends client Q Own := by
  intro s t
  have hs := h s
  cases hreply : (client s c).1 with
  | ok reply =>
      rw [hreply] at hs
      rw [result_calling_ok hreply]
      refine ⟨?_, nofun⟩
      rintro r hr
      cases hr
      exact hs
  | error f =>
      rw [hreply] at hs
      obtain ⟨e, rfl, he⟩ := hs
      simp only [calling, Program.run, hreply]
      refine ⟨fun r hr => ?_, fun e' he' => own_of_meaning he operation key _ t he'⟩
      obtain ⟨e', he'⟩ : ∃ e', ((meaning operation key (.client e) : Program Reply).run client
        (client s c).2 t).result = .error e' := error_of_meaning ..
      cases he'.symm.trans hr

theorem ends_ask {operation key : String} {c : Command} {Q : Value → Prop}
    (h : ∀ s, Answers (client s (.run c)).1 fun r => ∃ v, r = .value v ∧ Q v) :
    (ask operation key c).Ends client Q Own := by
  refine (ends_calling h).andThen ?_
  rintro _ ⟨v, rfl, hv⟩
  exact Program.ends_done hv

theorem ends_requireKey (key : Value) :
    (checked (requireKey key)).Ends client (fun _ => True) Own := by
  refine Program.ends_ofExcept (fun _ _ => trivial) fun e he => ?_
  cases key with
  | text k =>
      simp only [requireKey] at he
      split at he <;> cases he
      trivial
  | _ =>
      cases he
      trivial

section Orderly

variable (h : Orderly client)
include h

theorem ends_hashGetAll (key : Value) :
    (hashGetAll key).Ends client Dict.Texts Own := by
  refine (ends_requireKey key).andThen fun k _ => ?_
  refine (ends_ask fun s => h.fields s k).andThen fun v hv => ?_
  split
  · rename_i htruth
    obtain ⟨es, rfl, htexts⟩ := hv htruth
    exact Program.ends_done htexts
  · exact Program.ends_done nofun

theorem ends_hasKey (key : Value) :
    (hasKey key .null).Ends client (fun _ => True) Own := by
  refine (ends_requireKey key).andThen fun k _ => ?_
  simp only [Value.isNull, if_true]
  refine Program.Ends.andThen (ends_ask fun s => h.there s k) fun v hv => ?_
  refine Program.Ends.andThen (Q := fun _ => True) ?_ fun _ _ => Program.ends_done trivial
  unfold count
  split
  · exact Program.ends_done trivial
  · rename_i hsome
    rcases hv with hnull | ⟨n, rfl⟩
    · exact absurd hnull hsome
    · exact Program.ends_done trivial

theorem ends_write (operation key : String) (entries : List (String × String)) :
    (ask operation key (.hsetAll key (Server.textItems entries))).Ends client (fun _ => True)
      Own := by
  refine ends_ask fun s => ?_
  have hs := h.write s key entries
  cases hreply : (client s (.run (.hsetAll key (Server.textItems entries)))).1 with
  | error f =>
      rw [hreply] at hs
      exact hs
  | ok reply =>
      rw [hreply] at hs
      obtain ⟨v, rfl⟩ := hs
      exact ⟨v, rfl, trivial⟩

theorem ends_putWithin (key : String) (entries : List (String × String)) (n : Int) :
    (putWithin key (.map (Server.textItems entries)) n).Ends client (fun _ => True) Own := by
  have hqueue : ∀ c, (enqueue "HSET+EXPIRE" key c).Ends client (fun _ => True) Own :=
    fun c => (ends_calling fun s => h.queue s c).andThen fun _ _ => Program.ends_done trivial
  have hopen : (openTransaction "HSET+EXPIRE" key).Ends client (fun _ => True) Own := by
    refine (ends_calling h.opening).andThen ?_
    rintro _ rfl
    exact Program.ends_done trivial
  unfold putWithin
  refine hopen.andThen fun _ _ => (hqueue _).andThen fun _ _ => (hqueue _).andThen fun _ _ => ?_
  exact (ends_calling fun s => h.commit s key entries n).andThen fun _ _ =>
    Program.ends_done trivial

end Orderly

end Store

end FileStash
