import FileStash.Proofs.Session.Showing

namespace FileStash

open Server (Endless alive remaining)
open Store (Operation requireKey requireDuration requireKey_eq_ok_iff)

def Step.Limits (key : String) : Step → Prop
  | .request (.operate op) => op.Limits ∧ op.Names key
  | _ => False

namespace World

variable {w : World} {key : String}

theorem answer_ttl (hplain : w.Plain) (hblank : Text.allBlank key = false) :
    w.answer (.operate (.ttl (.text key))) =
      .ok (.int (remaining w.server.server.now (w.server.server.live? key))) :=
  Store.result_ttl hplain hblank

section Endless

/-- A step gives no deadline to a key without one, unless it sets a limit there. -/
theorem endless_step (hplain : w.Plain) {st : Step} (hoperates : st.Operates)
    (hlimits : ¬st.Limits key) (h : Endless (w.server.server.live? key)) :
    Endless ((w.step st).server.server.live? key) := by
  by_cases hnames : st.Names key
  · cases st with
    | wait milliseconds => exact hnames.elim
    | files t => exact hnames.elim
    | request r =>
        cases r with
        | operate op =>
            have hfree : ¬op.Limits := fun hop => hlimits ⟨hop, hnames⟩
            have hop := operated hplain op
            generalize w.answer (.operate op) = r at hop
            generalize w.step (.request (.operate op)) = w' at hop ⊢
            cases hop with
            | refused _ | idle _ => exact h
            | undone _ hagrees =>
                rw [hagrees.server.server.live key]
                exact h
            | asked hplan => exact h.run fun hc => hfree ((Operation.question hplan).limits hc)
            | committed hplan _ _ =>
                obtain ⟨limit, rfl, -, hlimit, -⟩ := Operation.of_plan_transact hplan
                refine (hfree ?_).elim
                rintro rfl
                cases hlimit
        | _ => exact hoperates.elim
  · rw [(Lasts.step w hnames).live]
    exact h.filter

theorem endless_after {steps : List Step} (hplain : w.Plain)
    (hsteps : ∀ st ∈ steps, st.Operates ∧ ¬st.Limits key)
    (h : Endless (w.server.server.live? key)) :
    (w.after steps).Plain ∧ Endless ((w.after steps).server.server.live? key) := by
  induction steps generalizing w with
  | nil => exact ⟨hplain, h⟩
  | cons st steps ih =>
      obtain ⟨hoperates, hlimits⟩ := hsteps st (List.mem_cons_self ..)
      exact ih (hplain.step hoperates)
        (fun st' hst' => hsteps st' (List.mem_cons_of_mem st hst'))
        (endless_step hplain hoperates hlimits h)

end Endless

/-- The world in which there is no entry for a key at all. -/
def without (w : World) (key : String) : World :=
  w.withServer (w.server.server.drop key)

theorem agrees_without (h : w.server.server.live? key = none) : Agrees w (w.without key) where
  server := ⟨rfl, rfl, fun k => by
    by_cases hk : k = key
    · rw [hk, h]
      exact (Server.live?_drop_self w.server.server key).symm
    · exact (Server.live?_drop_of_ne w.server.server hk).symm⟩
  tree := rfl

/-- Nothing is left of a key: no session can tell it from one that never was there,
no write on it is refused for what it held, a new value has no time limit, and it
gets one only when an operation sets one. -/
structure Absent (w : World) (key : String) : Prop where
  unnoticed : ∀ steps, w.answers steps = (w.without key).answers steps
  gone : w.answer (.operate (.hasKey (.text key) .null)) = .ok (.bool false)
  timeless : w.answer (.operate (.ttl (.text key))) = .ok (.int (-2))
  welcome : ∀ op fault, op.Direct → op.keys = [.text key] →
    w.answer (.operate op) ≠ .error (.typeMismatch fault)
  renewed : ∀ op v, op.Puts → op.keys = [.text key] → w.answer (.operate op) = .ok v →
    let w' := w.step (.request (.operate op))
    w'.answer (.operate (.hasKey (.text key) .null)) = .ok (.bool true) ∧
      w'.answer (.operate (.ttl (.text key))) = .ok (.int (-1))
  endless : ∀ steps, (∀ st ∈ steps, st.Operates ∧ ¬st.Limits key) →
    let w' := w.after steps
    w'.answer (.operate (.ttl (.text key))) =
      .ok (.int (if (w'.server.server.live? key).isSome then -1 else -2))

section Free

variable {op : Operation}

theorem ne_mismatch_of_live (hplain : w.Plain) (h : w.server.server.live? key = none)
    (hdirect : op.Direct) (hkeys : op.keys = [.text key]) (fault : MismatchFault) :
    w.answer (.operate op) ≠ .error (.typeMismatch fault) := by
  intro herror
  have hop := operated hplain op
  rw [herror] at hop
  generalize hr : Except.error (StoreError.typeMismatch fault) = r at hop
  generalize w.step (.request (.operate op)) = w' at hop
  cases hop with
  | refused hplan =>
      cases hr
      exact Operation.plan_ne_mismatch hdirect hplan
  | idle _ => cases hr
  | undone hplan _ => exact Operation.not_direct_of_transact hplan hdirect
  | committed _ _ _ => cases hr
  | @asked operation k c conclude hplan =>
      have hquestion := Operation.question hplan
      obtain ⟨-, hnames⟩ := hquestion.own_of_direct hdirect
      obtain rfl : key = k := by simpa [hkeys] using hnames
      obtain ⟨f, hf, hmeaning⟩ := Store.failed_of_conclusion hplan hdirect hr.symm
      rw [h] at hf
      exact (Server.shape_effect (hquestion.direct.mpr hdirect) _).not_rejects_absent hf
        (Store.rejects_of_mismatch hmeaning.symm)

theorem live_of_puts (hplain : w.Plain) (h : w.server.server.live? key = none) {v : Value}
    (hputs : op.Puts) (hkeys : op.keys = [.text key]) (hok : w.answer (.operate op) = .ok v) :
    ∃ e, (w.step (.request (.operate op))).server.server.live? key = some e ∧
      e.deadline = none := by
  have hop := operated hplain op
  rw [hok] at hop
  generalize hr : Except.ok v = r at hop
  generalize w.step (.request (.operate op)) = w' at hop
  cases hop with
  | refused _ => cases hr
  | idle hplan => exact (Operation.not_puts_of_idle hplan hputs).elim
  | undone _ _ => cases hr
  | committed hplan _ _ => exact (Operation.not_puts_of_transact hplan hputs).elim
  | @asked operation k c conclude hplan =>
      have hquestion := Operation.question hplan
      obtain ⟨hcommand, hnames⟩ := hquestion.own_of_puts hputs
      obtain rfl : key = k := by simpa [hkeys] using hnames
      obtain ⟨v', hv'⟩ : ∃ v', (w.server.server.run c).1 = .ok v' := by
        cases hreply : (w.server.server.run c).1 with
        | ok v' => exact ⟨v', rfl⟩
        | error f =>
            rw [Store.error_conclusion hreply] at hr
            cases hr
      exact Server.live?_of_puts h hcommand (hquestion.puts hputs) hv'

end Free

theorem absent_of_live (hplain : w.Plain) (hblank : Text.allBlank key = false)
    (h : w.server.server.live? key = none) : Absent w key where
  unnoticed := (agrees_without h).answers
  gone := by rw [answer_hasKey hplain hblank, h]; rfl
  timeless := by rw [answer_ttl hplain hblank, h]; rfl
  welcome op fault hdirect hkeys := ne_mismatch_of_live hplain h hdirect hkeys fault
  renewed op v hputs hkeys hok := by
    intro w'
    have hplain' : w'.Plain := hplain.step trivial
    obtain ⟨e, he, hend⟩ := live_of_puts hplain h hputs hkeys hok
    constructor
    · rw [answer_hasKey hplain' hblank, he]
      rfl
    · rw [answer_ttl hplain' hblank, he]
      simp [remaining, hend]
  endless steps hsteps := by
    intro w'
    have hnone : Endless (w.server.server.live? key) := h ▸ Server.endless_none
    obtain ⟨hplain', hendless⟩ := endless_after hplain hsteps hnone
    rw [answer_ttl hplain' hblank, Server.remaining_of_endless hendless]

/-- An operation that sets the time limit of a key to `n` seconds where it is
answered so. -/
inductive LimitedTo (key : String) (n : Int) : Operation → Value → Prop
  | value {v limit : Value} (seconds : requireDuration limit = .ok n) :
      LimitedTo key n (.setValue (.text key) v limit) v
  | fields {mapping limit : Value} (seconds : requireDuration limit = .ok n)
      (filled : mapping.truth = true) :
      LimitedTo key n (.hashPutAll (.text key) mapping limit) mapping
  | expiry {limit : Value} (seconds : requireDuration limit = .ok n) :
      LimitedTo key n (.expire (.text key) limit) (.bool true)

/-- What such an operation leaves under a key that held something before: the value,
the fields over older ones, or what was there. -/
inductive Written (held : Option Entry) : Operation → Content → Prop
  | value {key v limit : Value} {x : String} (sent : Server.encode v = .ok x) :
      Written held (.setValue key v limit) (.text x)
  | fields {key mapping limit : Value} {items : List (Value × Value)}
      {older : Dict String String} {entries : List (String × String)}
      (mapped : mapping.toMap = .ok items) (sent : items.mapM Server.encodeItem = .ok entries)
      (under : Server.hashUnder held = some older) :
      Written held (.hashPutAll key mapping limit) (.hash (Dict.insertAll older entries))
  | expiry {key limit : Value} {e : Entry} (there : held = some e) :
      Written held (.expire key limit) e.content

section Limited

variable {op : Operation} {n : Int} {v : Value}

theorem plan_of_answer (h : w.answer (.operate op) = .ok v) : ∃ p, op.plan = .ok p := by
  cases hplan : op.plan with
  | error e => cases (answer_refused hplan).symm.trans h
  | ok p => exact ⟨p, rfl⟩

/-- What is left under a key by an operation that sets its time limit. -/
structure LimitSet (w w' : World) (op : Operation) (key : String) (n : Int) (c : Content) :
    Prop where
  notBlank : Text.allBlank key = false
  positive : 0 < n
  plain : w'.Plain
  now : w'.server.server.now = w.server.server.now
  written : Written (w.server.server.live? key) op c
  live : w'.server.server.live? key = some ⟨c, some (w.server.server.now + 1000 * n)⟩

theorem key_of_bind {α : Type} {f : String → Store.Checked α} {a : α}
    (h : (requireKey (.text key) >>= f) = .ok a) :
    requireKey (.text key) = .ok key ∧ Text.allBlank key = false := by
  obtain ⟨k, hk, -⟩ := Except.of_bind_ok h
  obtain ⟨⟨⟩, hblank⟩ := (requireKey_eq_ok_iff (.text key) k).mp hk
  exact ⟨hk, hblank⟩

variable {limit : Value}

theorem live_of_setValue (hplain : w.Plain) (hkey : requireKey (.text key) = .ok key)
    (hseconds : requireDuration limit = .ok n)
    (hok : w.answer (.operate (.setValue (.text key) v limit)) = .ok v) :
    ∃ x, Server.encode v = .ok x ∧
      (w.step (.request (.operate (.setValue (.text key) v limit)))).server.server.live? key =
        some ⟨.text x, some (w.server.server.now + 1000 * n)⟩ := by
  have hplan : (Operation.setValue (.text key) v limit).plan =
      .ok (.ask "SET" key (.set key v (some n)) fun _ => .ok v) := by
    simp [Operation.plan, hkey, Store.optionalDuration_of_requireDuration hseconds, bind,
      Except.bind]
  obtain ⟨hanswer, hstep⟩ := asked hplain hplan
  have hact := Server.actsOn_run w.server.server (c := .set key v (some n)) rfl
  cases hx : Server.encode v with
  | error f =>
      have hfailed : (w.server.server.run (.set key v (some n))).1 = .error f := by
        rw [hact.answer]
        simp [Server.effect, hx]
      rw [hok, Store.error_conclusion hfailed] at hanswer
      cases hanswer
  | ok x =>
      refine ⟨x, rfl, ?_⟩
      rw [hstep]
      show (w.server.server.run (.set key v (some n))).2.live? key = _
      rw [hact.here]
      simp only [Server.effect, hx, Option.map_some]
      exact Server.alive_of_limit (Store.requireDuration_pos hseconds)

theorem live_of_hashPutAll (hplain : w.Plain) (hkey : requireKey (.text key) = .ok key)
    (hseconds : requireDuration limit = .ok n) (hfilled : v.truth = true)
    (hok : w.answer (.operate (.hashPutAll (.text key) v limit)) = .ok v) :
    ∃ items older entries, v.toMap = .ok items ∧ items.mapM Server.encodeItem = .ok entries ∧
      Server.hashUnder (w.server.server.live? key) = some older ∧
      (w.step (.request (.operate (.hashPutAll (.text key) v limit)))).server.server.live? key =
        some ⟨.hash (Dict.insertAll older entries), some (w.server.server.now + 1000 * n)⟩ := by
  have hplan : (Operation.hashPutAll (.text key) v limit).plan = .ok (.transact key v n) := by
    simp [Operation.plan, hkey, Store.optionalDuration_of_requireDuration hseconds, bind,
      Except.bind, hfilled]
  have hop := operated hplain (.hashPutAll (.text key) v limit)
  rw [hok] at hop
  generalize hr : Except.ok v = r at hop
  generalize w.step (.request (.operate (.hashPutAll (.text key) v limit))) = w' at hop ⊢
  cases hop with
  | refused _ => cases hr
  | idle hplan' => cases hplan.symm.trans hplan'
  | asked hplan' => cases hplan.symm.trans hplan'
  | undone _ _ => cases hr
  | committed hplan' hitems hwritten =>
      cases hplan.symm.trans hplan'
      obtain ⟨hne, older, entries, hunder, hsent⟩ := Server.of_run_hsetAll_ok hwritten
      obtain ⟨-, -, hlive, -⟩ :=
        Server.run_hsetAll_expire hne hunder hsent (Store.requireDuration_pos hseconds)
      exact ⟨_, older, entries, hitems, hsent, hunder, hlive⟩

theorem live_of_expire (hplain : w.Plain) (hkey : requireKey (.text key) = .ok key)
    (hseconds : requireDuration limit = .ok n)
    (hok : w.answer (.operate (.expire (.text key) limit)) = .ok (.bool true)) :
    ∃ e, w.server.server.live? key = some e ∧
      (w.step (.request (.operate (.expire (.text key) limit)))).server.server.live? key =
        some ⟨e.content, some (w.server.server.now + 1000 * n)⟩ := by
  have hplan : (Operation.expire (.text key) limit).plan =
      .ok (.ask "EXPIRE" key (.expire key n) fun v => .ok (.bool (Store.flag v))) := by
    simp [Operation.plan, hkey, hseconds, bind, Except.bind]
  obtain ⟨hanswer, hstep⟩ := asked hplain hplan
  cases hlive : w.server.server.live? key with
  | none =>
      rw [hok, (Server.actsOn_run w.server.server (c := .expire key n) rfl).answer, hlive]
        at hanswer
      cases hanswer
  | some e =>
      obtain ⟨-, hlimited⟩ := Server.run_expire hlive (Store.requireDuration_pos hseconds)
      refine ⟨e, rfl, ?_⟩
      rw [hstep]
      exact hlimited

theorem limitSet_of_answer (hplain : w.Plain) (hop : LimitedTo key n op v)
    (hok : w.answer (.operate op) = .ok v) :
    ∃ c, LimitSet w (w.step (.request (.operate op))) op key n c := by
  obtain ⟨p, hp⟩ := plan_of_answer hok
  have hplain' : (w.step (.request (.operate op))).Plain := hplain.step trivial
  have hnow : (w.step (.request (.operate op))).server.server.now = w.server.server.now :=
    ScriptedServer.now_run op.program w.server w.tree
  cases hop with
  | value hseconds =>
      obtain ⟨hkey, hblank⟩ := key_of_bind hp
      obtain ⟨x, hx, hlive⟩ := live_of_setValue hplain hkey hseconds hok
      exact ⟨.text x, hblank, Store.requireDuration_pos hseconds, hplain', hnow, .value hx, hlive⟩
  | fields hseconds hfilled =>
      obtain ⟨hkey, hblank⟩ := key_of_bind hp
      obtain ⟨items, older, entries, hitems, hsent, hunder, hlive⟩ :=
        live_of_hashPutAll hplain hkey hseconds hfilled hok
      exact ⟨_, hblank, Store.requireDuration_pos hseconds, hplain', hnow,
        .fields hitems hsent hunder, hlive⟩
  | expiry hseconds =>
      obtain ⟨hkey, hblank⟩ := key_of_bind hp
      obtain ⟨e, he, hlive⟩ := live_of_expire hplain hkey hseconds hok
      exact ⟨e.content, hblank, Store.requireDuration_pos hseconds, hplain', hnow, .expiry he,
        hlive⟩

end Limited

/-- A look that depends on no clock sees the same as long as its key is the same. -/
theorem answer_sees {w' : World} (hplain : w.Plain) (hplain' : w'.Plain) {op : Operation}
    (hsees : op.Sees) (hkeys : op.keys = [.text key])
    (hlive : w'.server.server.live? key = w.server.server.live? key) :
    w'.answer (.operate op) = w.answer (.operate op) := by
  cases hplan : op.plan with
  | error e => rw [answer_refused hplan, answer_refused hplan]
  | ok p =>
      cases p with
      | answer v => rw [answer_idle hplan, answer_idle hplan]
      | transact k mapping n =>
          obtain ⟨limit, rfl, -⟩ := Operation.of_plan_transact hplan
          exact hsees.elim
      | ask operation k c conclude =>
          have hquestion := Operation.question hplan
          obtain ⟨hcommand, hnames⟩ := hquestion.own_of_sees hsees
          obtain rfl : key = k := by simpa [hkeys] using hnames
          rw [(asked hplain hplan).1, (asked hplain' hplan).1,
            (Server.actsOn_run w.server.server hcommand).answer,
            (Server.actsOn_run w'.server.server hcommand).answer, hlive,
            Server.effect_sees (hquestion.sees hsees) w.server.server.now]

theorem notBlank_of_answer {field v : Value}
    (h : w.answer (.operate (.hasKey (.text key) field)) = .ok v) :
    Text.allBlank key = false := by
  obtain ⟨p, hp⟩ := plan_of_answer h
  exact (key_of_bind hp).2

/-- A key that is there, with the whole seconds that are left to it; its reads answer
what it holds, and no look at it sees anything else than in an earlier world. -/
structure Remains (w w' : World) (key : String) (c : Content) (d : Int) : Prop where
  left : ∀ m : Nat, d - w'.server.server.now = 1000 * m →
    w'.answer (.operate (.ttl (.text key))) = .ok (.int m)
  there : w'.answer (.operate (.hasKey (.text key) .null)) = .ok (.bool true)
  shown : Shows w' key c
  seen : ∀ op, op.Sees → op.keys = [.text key] → w'.answer (.operate op) = w.answer (.operate op)

/-- An operation that sets a time limit of a key and is answered so leaves the key
with exactly that deadline. Until its deadline a key that nobody changes is there,
with exactly the rest of the time, and its reads answer what was written there; from
that moment on it is as if it had never been there. So is a key that is gone for any
other reason: what is put there later has no time limit, unless an operation sets one. -/
theorem deadline_exact_and_never_inherited (w : World) (hplain : w.Plain) (key : String) :
    (∀ op n v, LimitedTo key n op v → w.answer (.operate op) = .ok v →
      ∃ c, LimitSet w (w.step (.request (.operate op))) op key n c) ∧
    (∀ c d, Text.allBlank key = false → w.server.server.live? key = some ⟨c, some d⟩ →
      ∀ steps, (∀ st ∈ steps, ¬st.Changes key) →
        let w' := w.after steps
        let now := w'.server.server.now
        now = w.server.server.now + waited steps ∧
        (now < d → Remains w w' key c d) ∧
        (d ≤ now → Absent w' key)) ∧
    (w.answer (.operate (.hasKey (.text key) .null)) = .ok (.bool false) → Absent w key) := by
  refine ⟨fun op n v hop hok => limitSet_of_answer hplain hop hok, ?_, fun hgone => ?_⟩
  · intro c d hblank hlive steps hsteps w' now
    have hlasts : Lasts key w w' := Lasts.after_unchanged w hsteps
    have hplain' : w'.Plain := hlasts.script.trans hplain
    have hlive' : w'.server.server.live? key = alive now (some ⟨c, some d⟩) := by
      rw [hlasts.live, hlive]
    refine ⟨now_after w steps, fun hbefore => ?_, fun hafter => ?_⟩
    · have hthere : w'.server.server.live? key = some ⟨c, some d⟩ := by
        rw [hlive', Server.alive_some, if_pos (by simpa using hbefore)]
      constructor
      · intro m hm
        rw [answer_ttl hplain' hblank, hthere]
        simp only [remaining, hm, Server.wholeSeconds_thousands]
      · rw [answer_hasKey hplain' hblank, hthere]
        rfl
      · exact shows_of_live hplain' hblank hthere
      · intro op hsees hkeys
        exact answer_sees hplain hplain' hsees hkeys (hthere.trans hlive.symm)
    · refine absent_of_live hplain' hblank ?_
      rw [hlive', Server.alive_some, if_neg (by simpa using hafter)]
  · have hblank := notBlank_of_answer hgone
    refine absent_of_live hplain hblank ?_
    rw [answer_hasKey hplain hblank] at hgone
    cases hlive : w.server.server.live? key with
    | none => rfl
    | some e => simp [hlive] at hgone

/-- A hash that is limited to three seconds, is read with one second left, and is a
set without a limit after that; and the same key when it is deleted instead. -/
theorem limited_hash_becomes_unlimited_set :
    let start : World :=
      { server := { server := { entries := [("k", ⟨.hash [("a", "0")], none⟩)] } } }
    let limit := Operation.expire (.text "k") (.int 3)
    let add := Operation.setAdd (.text "k") [.text "b"]
    let w := start.step (.request (.operate limit))
    let later := w.after [.wait 3000]
    let deleted := w.step (.request (.operate (.delete (.text "k"))))
    LimitedTo "k" 3 limit (.bool true) ∧ start.answer (.operate limit) = .ok (.bool true) ∧
      (w.after [.wait 2000]).answer (.operate (.ttl (.text "k"))) = .ok (.int 1) ∧
      (w.after [.wait 2000]).answer (.operate (.hashGet (.text "k") (.text "a") (some .int))) =
        .ok (.int 0) ∧
      Absent later "k" ∧ later.answer (.operate add) = .ok (.int 1) ∧
      (later.step (.request (.operate add))).answer (.operate (.ttl (.text "k"))) = .ok (.int (-1)) ∧
      deleted.answer (.operate (.hasKey (.text "k") .null)) = .ok (.bool false) ∧
      Absent deleted "k" := by
  intro start limit add w later deleted
  have hlimited : LimitedTo "k" 3 limit (.bool true) := .expiry rfl
  have hset : start.answer (.operate limit) = .ok (.bool true) := rfl
  have hadd : later.answer (.operate add) = .ok (.int 1) := by
    have hplan : add.plan = .ok (.ask "SADD" "k" (.sadd "k" [.text "b"]) Store.asCount) := rfl
    have hlater : later.Plain := rfl
    rw [(asked hlater hplan).1]
    rfl
  have hplain : deleted.Plain := rfl
  have hgone : deleted.answer (.operate (.hasKey (.text "k") .null)) = .ok (.bool false) := by
    rw [answer_hasKey hplain rfl]
    rfl
  have hwait : ∀ m, ∀ st ∈ [Step.wait m], ¬st.Changes "k" := by simp [Step.Changes]
  obtain ⟨c, hc⟩ := (deadline_exact_and_never_inherited start rfl "k").1 limit 3 _ hlimited hset
  obtain ⟨-, hkept, -⟩ := deadline_exact_and_never_inherited w hc.plain "k"
  obtain ⟨-, hbefore, -⟩ := hkept c _ hc.notBlank hc.live [.wait 2000] (hwait 2000)
  obtain ⟨-, -, hafter⟩ := hkept c _ hc.notBlank hc.live [.wait 3000] (hwait 3000)
  obtain ⟨-, -, hdeleted⟩ := deadline_exact_and_never_inherited deleted hplain "k"
  have hnow : ∀ m, (w.after [.wait m]).server.server.now = m := fun m => by
    rw [now_after, hc.now]
    simp [waited, start]
  have hremains := hbefore (by rw [hnow]; decide)
  have habsent : Absent later "k" := hafter (by rw [hnow]; decide)
  have hleft := hremains.left 1 (by rw [hnow]; decide)
  have hheld : w.server.server.live? "k" = some ⟨.hash [("a", "0")], some 3000⟩ := rfl
  cases hc.live.symm.trans hheld
  have hread := (hremains.shown.2.1 "a").typed (.int 0) .int "0" (.int (by decide +kernel)) rfl rfl
  exact ⟨hlimited, hset, hleft, hread, habsent, hadd,
    (habsent.renewed add _ (List.cons_ne_nil _ _) rfl hadd).2, hgone, hdeleted hgone⟩

end World

end FileStash
