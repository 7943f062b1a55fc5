import FileStash.Proofs.Server.Interruption
import FileStash.Proofs.Session.Interleaving

/-!
Requests whose programs decide once. Each of them has its place in the order of
these decisions, and is answered as if the requests had been made there, whole and one
after the other. What the other steps do nobody else can see.
-/

namespace FileStash

namespace ScriptedServer

variable {s s' : ScriptedServer} {c : Call}

theorem state_call_of_quiet (h : c.decides = false) : (s.call c).2 = s := by
  cases c with
  | run c => cases h
  | commit cs => cases h
  | openTransaction => exact openTransaction_state s
  | _ => rfl

theorem reply_call_of_quiet (h : c.decides = false) (hscript : s'.script = s.script) :
    (s'.call c).1 = (s.call c).1 := by
  cases c with
  | run c => cases h
  | commit cs => cases h
  | openTransaction =>
      have hsame : s'.scripted? openingName = s.scripted? openingName := by
        simp only [scripted?, hscript]
      simp only [call, hsame]
      cases s.scripted? openingName <;> rfl
  | _ => rfl

end ScriptedServer

namespace Program

variable {α : Type} {p : Program α}

/-- A program that is not about to decide does nothing but go on, and goes on alike
wherever the files and the script are alike. -/
theorem Once.advance (h : p.Once) (hdecides : p.decides = false) (s : ScriptedServer)
    (t : FileTree) :
    (p.advance ScriptedServer.call s t).rest.Once ∧
      ∀ s' : ScriptedServer, s'.script = s.script →
        p.advance ScriptedServer.call s' t = ⟨(p.advance ScriptedServer.call s t).rest, s', t⟩ := by
  cases p with
  | done a => exact h.elim
  | fail e => exact ⟨h, fun _ _ => rfl⟩
  | call c next =>
      have hquiet : c.decides = false := hdecides
      simp only [Once] at h
      rw [if_neg (by simp [hquiet])] at h
      refine ⟨h _, fun s' hscript => ?_⟩
      simp only [Program.advance, ScriptedServer.state_call_of_quiet hquiet,
        ScriptedServer.reply_call_of_quiet hquiet hscript]
  | look next => exact ⟨h t, fun _ _ => rfl⟩
  | save t' next => exact h.elim
  | log r next => exact ⟨h, fun _ _ => rfl⟩

theorem Within.advance (h : p.Silent) (s : ScriptedServer) (t : FileTree) :
    (p.advance ScriptedServer.call s t).rest.Silent ∧ p.decides = false ∧
      ∀ s', p.advance ScriptedServer.call s' t =
        ⟨(p.advance ScriptedServer.call s t).rest, s', t⟩ := by
  cases p with
  | call c next => exact h.1.elim
  | look next => exact ⟨h t, rfl, fun _ => rfl⟩
  | save t' next => exact h.1.elim
  | _ => exact ⟨h, rfl, fun _ => rfl⟩

theorem Once.decide (h : p.Once) (hdecides : p.decides = true) (s : ScriptedServer)
    (t : FileTree) :
    let stage := p.advance ScriptedServer.call s t
    stage.rest.Silent ∧ stage.tree = t ∧ stage.state.script = s.script := by
  cases p with
  | call c next =>
      have hcall : c.decides = true := hdecides
      simp only [Once] at h
      rw [if_pos hcall] at h
      exact ⟨h _, rfl, s.script_call c⟩
  | _ => cases hdecides

end Program

structure World.SameFrame (w w' : World) : Prop where
  tree : w'.tree = w.tree
  script : w'.server.script = w.server.script

/-- How far a task has come: its program has yet to decide, and what is left of it
comes to what the whole comes to; or it has decided at its place in the order, and is
left with the answer of the whole request there. -/
inductive Progress (w : World) (order : List Step) (a : Task) : Prop
  | pending (once : a.rest.Once) (place : a.place = none)
      (whole : ∀ w', w.SameFrame w' →
        Program.SameEnd (a.rest.run ScriptedServer.call w'.server w'.tree) (w'.perform a.request))
  | decided (j : Nat) (silent : a.rest.Silent) (place : a.place = some j) (since : a.since ≤ j)
      (here : order[j]? = some (.request a.request))
      (answer : (a.rest.run ScriptedServer.call w.server w.tree).result =
        (w.after (order.take j)).answer a.request)

namespace Progress

variable {w : World} {order : List Step} {a : Task}

theorem append (h : Progress w order a) (steps : List Step) : Progress w (order ++ steps) a := by
  cases h with
  | pending once place whole => exact .pending once place whole
  | decided j silent place since here answer =>
      obtain ⟨hj, -⟩ := List.getElem?_eq_some_iff.mp here
      refine .decided j silent place since ?_ ?_
      · rw [List.getElem?_append_left hj, here]
      · rw [List.take_append_of_le_length (Nat.le_of_lt hj), answer]

theorem place_lt (h : Progress w order a) {j : Nat} (hj : a.place = some j) :
    a.since ≤ j ∧ j < order.length ∧ order[j]? = some (.request a.request) := by
  cases h with
  | pending once place whole => cases place.symm.trans hj
  | decided j' silent place since here answer =>
      obtain rfl : j' = j := Option.some.inj (place.symm.trans hj)
      exact ⟨since, (List.getElem?_eq_some_iff.mp here).1, here⟩

end Progress

structure Task.Sound (w : World) (order : List Step) (a : Task) : Prop where
  progress : Progress w order a
  since : a.since ≤ order.length
  upto : ∀ k, a.upto = some k → a.rest.result?.isSome ∧ ∀ j, a.place = some j → j < k

theorem Task.Sound.append {w : World} {order : List Step} {a : Task} (h : a.Sound w order)
    (steps : List Step) : a.Sound w (order ++ steps) where
  progress := h.progress.append steps
  since := by
    rw [List.length_append]
    have := h.since
    omega
  upto := h.upto

theorem Task.Sound.upto_act {w : World} {order : List Step} {a : Task} (h : a.Sound w order)
    {rest : Program Value} (hrest : a.rest.result?.isSome → rest = a.rest ∧ a.rest.decides = false)
    (k : Nat) (hk : (a.act rest order.length).upto = some k) :
    rest.result?.isSome ∧ ∀ j, (a.act rest order.length).place = some j → j < k := by
  simp only [Task.act] at hk ⊢
  split at hk
  · rename_i hended
    obtain ⟨rfl, hstill⟩ := hrest hended
    refine ⟨hended, fun j hj => ?_⟩
    simp only [hstill, Bool.false_eq_true, if_false] at hj
    cases hupto : a.upto with
    | none =>
        rw [hupto, Option.none_or] at hk
        cases hk
        exact (h.progress.place_lt hj).2.1
    | some k' =>
        rw [hupto, Option.some_or] at hk
        cases hk
        exact (h.upto k hupto).2 j hj
  · rename_i hgoes
    exact (hgoes (h.upto k hk).1).elim

/-- Every request in the order belongs to one task, and no two tasks have one place. -/
structure Places (tasks : List Task) (order : List Step) : Prop where
  alone : ∀ {n m j : Nat} {a b : Task}, tasks[n]? = some a → tasks[m]? = some b →
    a.place = some j → b.place = some j → n = m
  owned : ∀ {j : Nat} {r : Request}, order[j]? = some (.request r) →
    ∃ (n : Nat) (a : Task), tasks[n]? = some a ∧ a.request = r ∧ a.place = some j

namespace Places

variable {tasks : List Task} {order : List Step} {n : Nat} {a a' : Task}

theorem of_getElem?_set {m : Nat} {b : Task} (h : (tasks.set n a')[m]? = some b) :
    m = n ∧ b = a' ∨ m ≠ n ∧ tasks[m]? = some b := by
  by_cases hm : m = n
  · subst hm
    obtain ⟨hlt, rfl⟩ := List.getElem?_eq_some_iff.mp h
    exact .inl ⟨rfl, List.getElem_set_self hlt⟩
  · exact .inr ⟨hm, (List.getElem?_set_ne (Ne.symm hm)).symm.trans h⟩

theorem wait (h : Places tasks order) (milliseconds : Nat) :
    Places tasks (order ++ [.wait milliseconds]) where
  alone := h.alone
  owned {j r} hj := by
    refine h.owned ?_
    rcases Nat.lt_or_ge j order.length with hlt | hge
    · rwa [List.getElem?_append_left hlt] at hj
    · rw [List.getElem?_append_right hge] at hj
      cases hd : j - order.length <;> simp [hd] at hj

theorem start (h : Places tasks order) (ha : a.place = none) : Places (tasks ++ [a]) order where
  alone {k m j b d} hb hd hj hj' := by
    have hold : ∀ {m : Nat} {b : Task}, (tasks ++ [a])[m]? = some b → b.place = some j →
        tasks[m]? = some b := by
      intro m b hb hj
      rcases Nat.lt_or_ge m tasks.length with hlt | hge
      · rwa [List.getElem?_append_left hlt] at hb
      · rw [List.getElem?_append_right hge] at hb
        obtain rfl := List.mem_singleton.mp (List.mem_of_getElem? hb)
        cases ha.symm.trans hj
    exact h.alone (hold hb hj) (hold hd hj') hj hj'
  owned {j r} hj := by
    obtain ⟨m, b, hb, hrest⟩ := h.owned hj
    obtain ⟨hm, -⟩ := List.getElem?_eq_some_iff.mp hb
    exact ⟨m, b, (List.getElem?_append_left hm).trans hb, hrest⟩

theorem go (h : Places tasks order) (ha : tasks[n]? = some a) (hrequest : a'.request = a.request)
    (hplace : a'.place = a.place) : Places (tasks.set n a') order where
  alone {k m j b d} hb hd hj hj' := by
    have hold : ∀ {m : Nat} {b : Task}, (tasks.set n a')[m]? = some b → b.place = some j →
        ∃ b', tasks[m]? = some b' ∧ b'.place = some j := by
      intro m b hb hj
      rcases of_getElem?_set hb with ⟨rfl, rfl⟩ | ⟨-, hb⟩
      · exact ⟨a, ha, hplace.symm.trans hj⟩
      · exact ⟨b, hb, hj⟩
    obtain ⟨b', hb', hbj⟩ := hold hb hj
    obtain ⟨d', hd', hdj⟩ := hold hd hj'
    exact h.alone hb' hd' hbj hdj
  owned {j r} hj := by
    obtain ⟨m, b, hb, hr, hbj⟩ := h.owned hj
    by_cases hm : m = n
    · subst hm
      cases ha.symm.trans hb
      obtain ⟨hlt, -⟩ := List.getElem?_eq_some_iff.mp ha
      exact ⟨m, a', List.getElem?_set_self hlt, hrequest.trans hr, hplace.trans hbj⟩
    · exact ⟨m, b, (List.getElem?_set_ne (Ne.symm hm)).trans hb, hr, hbj⟩

theorem take (h : Places tasks order) (ha : tasks[n]? = some a) (hrequest : a'.request = a.request)
    (hnone : a.place = none) (hplace : a'.place = some order.length)
    (hbefore : ∀ {m j : Nat} {b : Task}, tasks[m]? = some b → b.place = some j →
      j < order.length) :
    Places (tasks.set n a') (order ++ [.request a.request]) where
  alone {k m j b d} hb hd hj hj' := by
    rcases of_getElem?_set hb with ⟨rfl, rfl⟩ | ⟨-, hb'⟩ <;>
      rcases of_getElem?_set hd with ⟨rfl, rfl⟩ | ⟨-, hd'⟩
    · rfl
    · obtain rfl : order.length = j := Option.some.inj (hplace.symm.trans hj)
      exact absurd (hbefore hd' hj') (Nat.lt_irrefl _)
    · obtain rfl : order.length = j := Option.some.inj (hplace.symm.trans hj')
      exact absurd (hbefore hb' hj) (Nat.lt_irrefl _)
    · exact h.alone hb' hd' hj hj'
  owned {j r} hj := by
    rcases Nat.lt_or_ge j order.length with hlt | hge
    · rw [List.getElem?_append_left hlt] at hj
      obtain ⟨m, b, hb, hr, hbj⟩ := h.owned hj
      have hm : n ≠ m := by
        rintro rfl
        cases ha.symm.trans hb
        cases hnone.symm.trans hbj
      exact ⟨m, b, (List.getElem?_set_ne hm).trans hb, hr, hbj⟩
    · rw [List.getElem?_append_right hge] at hj
      obtain ⟨hlast, hr⟩ := List.getElem?_eq_some_iff.mp hj
      simp only [List.length_singleton, List.getElem_singleton, Step.request.injEq] at hlast hr
      obtain ⟨hn, -⟩ := List.getElem?_eq_some_iff.mp ha
      obtain rfl : order.length = j := by omega
      exact ⟨n, a', List.getElem?_set_self hn, hrequest.trans hr, hplace⟩

end Places

/-- What is true of a system at all times: the requests that have decided have made
its world what it is, and each of them has one place in the order. -/
structure System.Linear (w : World) (S : System) : Prop where
  world : S.world = w.after S.order
  frame : w.SameFrame S.world
  sound : ∀ a ∈ S.tasks, a.Sound w S.order
  places : Places S.tasks S.order

namespace System

theorem linear_start (w : World) : Linear w { world := w } where
  world := rfl
  frame := ⟨rfl, rfl⟩
  sound _ ha := absurd ha List.not_mem_nil
  places :=
    { alone := fun ha => by cases ha
      owned := fun hj => by cases hj }

namespace Linear

variable {w : World} {S : System}

theorem wait (h : Linear w S) (milliseconds : Nat) :
    Linear w (S.step (.wait milliseconds)) where
  world := by
    simp only [System.step, World.after, List.foldl_append, List.foldl_cons, List.foldl_nil]
    rw [h.world]
    rfl
  frame := ⟨h.frame.tree, h.frame.script⟩
  sound a ha := (h.sound a ha).append _
  places := h.places.wait milliseconds

theorem start {r : Request} (h : Linear w S) (hr : r.program.Once) :
    Linear w (S.step (.start r)) where
  world := h.world
  frame := h.frame
  sound a ha := by
    rcases List.mem_append.mp ha with ha | ha
    · exact h.sound a ha
    · rw [List.mem_singleton.mp ha]
      exact ⟨.pending hr rfl fun _ _ => ⟨rfl, rfl, rfl⟩, Nat.le_refl _, nofun⟩
  places := h.places.start rfl

theorem sound_set (h : Linear w S) {n : Nat} {a' : Task} {order steps : List Step}
    (horder : order = S.order ++ steps) (hsound : a'.Sound w order) :
    ∀ b ∈ S.tasks.set n a', b.Sound w order := by
  subst horder
  intro b hb
  rcases List.mem_or_eq_of_mem_set hb with hb | rfl
  · exact (h.sound b hb).append steps
  · exact hsound

section Act

variable {n : Nat} {a : Task}

theorem act_still (h : Linear w S) (ha : S.tasks[n]? = some a) (hstill : a.rest.decides = false)
    {rest : Program Value}
    (hstage : ∀ w', w.SameFrame w' → a.rest.advance ScriptedServer.call w'.server w'.tree =
      ⟨rest, w'.server, w'.tree⟩)
    (hprogress : Progress w S.order (a.act rest S.order.length)) : Linear w (S.act n a) := by
  have hhere := hstage S.world h.frame
  have hact : S.act n a = { S with tasks := S.tasks.set n (a.act rest S.order.length) } := by
    simp [act, hstill, hhere]
  have hsound := h.sound a (List.mem_of_getElem? ha)
  have hsound' : (a.act rest S.order.length).Sound w S.order := by
    refine ⟨hprogress, hsound.since, hsound.upto_act fun hended => ?_⟩
    have hrest := Program.advance_of_ended hended ScriptedServer.call S.world.server S.world.tree
    rwa [hhere] at hrest
  rw [hact]
  exact ⟨h.world, h.frame, h.sound_set (List.append_nil S.order).symm hsound',
    h.places.go ha rfl (Task.place_of_still hstill ..)⟩

theorem act_decides (h : Linear w S) (ha : S.tasks[n]? = some a) (honce : a.rest.Once)
    (hdecides : a.rest.decides = true) (hplace : a.place = none)
    (hwhole : Program.SameEnd (a.rest.run ScriptedServer.call S.world.server S.world.tree)
      (S.world.perform a.request)) : Linear w (S.act n a) := by
  have hsound := h.sound a (List.mem_of_getElem? ha)
  have hgoes : ¬a.rest.result?.isSome := fun hended => by
    cases hdecides.symm.trans (Program.advance_of_ended hended ScriptedServer.call
      S.world.server S.world.tree).2
  obtain ⟨hsilent, htree, hscript⟩ := honce.decide hdecides S.world.server S.world.tree
  have hend := (Program.run_advance ScriptedServer.call a.rest S.world.server
    S.world.tree).trans hwhole
  have hact : S.act n a =
      let stage := a.rest.advance ScriptedServer.call S.world.server S.world.tree
      { world := ⟨stage.state, stage.tree⟩
        tasks := S.tasks.set n (a.act stage.rest S.order.length)
        order := S.order ++ [.request a.request] } := by
    simp only [act, hdecides, if_true]
  rw [hact]
  generalize a.rest.advance ScriptedServer.call S.world.server S.world.tree = stage at *
  have hstate : (stage.rest.run ScriptedServer.call stage.state stage.tree).state = stage.state :=
    hsilent.state_run (I := (· = stage.state)) (fun _ _ h => h.elim) stage.tree rfl
  have hstep : S.world.step (.request a.request) = ⟨stage.state, stage.tree⟩ := by
    simp only [World.step, ← hend.state, ← hend.tree, hstate, hsilent.tree_run]
  have hprogress : Progress w (S.order ++ [.request a.request])
      (a.act stage.rest S.order.length) := by
    refine .decided S.order.length hsilent (Task.place_of_decides hdecides ..) hsound.since
      List.getElem?_concat_length ?_
    rw [List.take_left, ← h.world]
    refine (hsilent.result_of_silent ScriptedServer.call _ stage.state _).trans ?_
    rw [← h.frame.tree, ← htree]
    exact hend.result
  have hsound' : (a.act stage.rest S.order.length).Sound w (S.order ++ [.request a.request]) := by
    refine ⟨hprogress, ?_, hsound.upto_act fun hended => (hgoes hended).elim⟩
    exact Nat.le_trans hsound.since (by simp)
  constructor
  · simp only [World.after, List.foldl_append, List.foldl_cons, List.foldl_nil]
    rw [← World.after, ← h.world, hstep]
  · exact ⟨htree.trans h.frame.tree, hscript.trans h.frame.script⟩
  · exact h.sound_set rfl hsound'
  · refine h.places.take ha rfl hplace (Task.place_of_decides hdecides ..) fun hb hj => ?_
    exact ((h.sound _ (List.mem_of_getElem? hb)).progress.place_lt hj).2.1

theorem act (h : Linear w S) (ha : S.tasks[n]? = some a) : Linear w (S.act n a) := by
  cases (h.sound a (List.mem_of_getElem? ha)).progress with
  | pending once place whole =>
      cases hdecides : a.rest.decides with
      | true => exact h.act_decides ha once hdecides place (whole S.world h.frame)
      | false =>
          obtain ⟨honce, halike⟩ := once.advance hdecides S.world.server S.world.tree
          have hstage : ∀ w', w.SameFrame w' →
              a.rest.advance ScriptedServer.call w'.server w'.tree =
                ⟨(a.rest.advance ScriptedServer.call S.world.server S.world.tree).rest,
                  w'.server, w'.tree⟩ := by
            intro w' hw'
            rw [hw'.tree, ← h.frame.tree]
            exact halike w'.server (hw'.script.trans h.frame.script.symm)
          refine h.act_still ha hdecides hstage (.pending honce ?_ fun w' hw' => ?_)
          · exact (Task.place_of_still hdecides ..).trans place
          · have hend := Program.run_advance ScriptedServer.call a.rest w'.server w'.tree
            rw [hstage w' hw'] at hend
            exact hend.trans (whole w' hw')
  | decided j silent place since here answer =>
      obtain ⟨hsilent, hstill, halike⟩ := silent.advance S.world.server S.world.tree
      have hstage : ∀ w', w.SameFrame w' →
          a.rest.advance ScriptedServer.call w'.server w'.tree =
            ⟨(a.rest.advance ScriptedServer.call S.world.server S.world.tree).rest,
              w'.server, w'.tree⟩ := by
        intro w' hw'
        rw [hw'.tree, ← h.frame.tree]
        exact halike w'.server
      refine h.act_still ha hstill hstage (.decided j hsilent ?_ since here ?_)
      · exact (Task.place_of_still hstill ..).trans place
      · have hend := Program.run_advance ScriptedServer.call a.rest w.server w.tree
        rw [hstage w ⟨rfl, rfl⟩] at hend
        exact hend.result.trans answer

end Act

theorem step (h : Linear w S) {m : Move} (hm : ∀ r, m = .start r → r.program.Once) :
    Linear w (S.step m) := by
  cases m with
  | start r => exact h.start (hm r rfl)
  | act n =>
      simp only [System.step]
      cases ha : S.tasks[n]? with
      | none => exact h
      | some a => exact h.act ha
  | wait milliseconds => exact h.wait milliseconds

theorem after {moves : List Move} (h : Linear w S)
    (hmoves : ∀ r, .start r ∈ moves → r.program.Once) : Linear w (S.after moves) :=
  after_of_step (fun _ hm _ hS => hS.step fun r hr => hmoves r (hr ▸ hm)) h

end Linear

end System

/-- How a request that has returned has been answered: as the whole request would be
at its place, which lies between its beginning and its return; or with a failure that
it would meet with anywhere, and that leaves no trace. -/
inductive Answered (w : World) (order : List Step) (a : Task) (result : Except StoreError Value) :
    Prop
  | placed (j k : Nat) (place : a.place = some j) (upto : a.upto = some k) (since : a.since ≤ j)
      (before : j < k) (here : order[j]? = some (.request a.request))
      (answer : result = (w.after (order.take j)).answer a.request)
  | unplaced (e : StoreError) (place : a.place = none) (failed : result = .error e)
      (anywhere : ∀ w', w.SameFrame w' →
        w'.answer a.request = .error e ∧ w'.step (.request a.request) = w')

namespace System

variable {w : World} {S : System} {n : Nat} {a : Task}

theorem Linear.answered (h : Linear w S) (ha : S.tasks[n]? = some a)
    {result : Except StoreError Value} (hreturned : a.returned? = some result) :
    Answered w S.order a result := by
  have hsound := h.sound a (List.mem_of_getElem? ha)
  obtain ⟨k, hk⟩ : ∃ k, a.upto = some k := by
    cases hupto : a.upto with
    | some k => exact ⟨k, rfl⟩
    | none => simp [Task.returned?, hupto] at hreturned
  have hended : a.rest.result? = some result := by
    simpa [Task.returned?, hk] using hreturned
  obtain ⟨-, hbefore⟩ := hsound.upto k hk
  cases hsound.progress with
  | pending once place whole =>
      obtain ⟨e, rfl⟩ := once.failed hended
      refine .unplaced e place rfl fun w' hw' => ?_
      have hend := whole w' hw'
      rw [Program.run_of_ended hended] at hend
      refine ⟨hend.result.symm, ?_⟩
      simp only [World.step, ← hend.state, ← hend.tree]
  | decided j silent place since here answer =>
      rw [Program.run_of_ended hended] at answer
      exact .placed j k place hk since (hbefore j place) here answer

end System

end FileStash
