import FileStash.Proofs.FileCache.Deciding
import FileStash.Proofs.FileCache.LimitedLifetime
import FileStash.Proofs.FileCache.Shelf
import FileStash.Proofs.Session.Operating

namespace FileStash

/-- A request about what a cache keeps, or some time that passes. -/
def Step.Shares : Step → Prop
  | .request r => r.Shares
  | .wait _ => True
  | .files _ => False

namespace World

variable {w : World}

theorem script_step (w : World) (st : Step) : (w.step st).server.script = w.server.script := by
  cases st with
  | request r => exact ScriptedServer.script_run r.program w.server w.tree
  | wait milliseconds => rfl
  | files t => rfl

theorem script_after (w : World) (steps : List Step) :
    (w.after steps).server.script = w.server.script := by
  induction steps generalizing w with
  | nil => rfl
  | cons st steps ih => exact (ih (w.step st)).trans (script_step w st)

theorem tree_step_of_shares {st : Step} (h : st.Shares) : (w.step st).tree = w.tree := by
  cases st with
  | request r => exact (Request.once_of_shares h).asks.tree_run w.server w.tree
  | wait milliseconds => rfl
  | files t => exact h.elim

theorem tree_after_of_shares {steps : List Step} (h : ∀ st ∈ steps, st.Shares) :
    (w.after steps).tree = w.tree := by
  induction steps generalizing w with
  | nil => rfl
  | cons st steps ih =>
      refine (ih fun st' hst' => h st' (List.mem_cons_of_mem st hst')).trans ?_
      exact tree_step_of_shares (h st List.mem_cons_self)

theorem delete_cases (hplain : w.Plain) (key : Value) :
    (∃ e, w.answer (.operate (.delete key)) = .error e ∧
      w.step (.request (.operate (.delete key))) = w) ∨
    ∃ k, key = .text k ∧
      w.answer (.operate (.delete key)) = .ok (.bool (w.server.server.live? k).isSome) ∧
      (w.step (.request (.operate (.delete key)))).server.server.live? k = none := by
  cases hkey : Store.requireKey key with
  | error e =>
      have hplan : (Store.Operation.delete key).plan = .error e := by
        simp [Store.Operation.plan, hkey, bind, Except.bind]
      exact .inl ⟨e, answer_refused hplan, step_refused hplan⟩
  | ok k =>
      obtain ⟨rfl, -⟩ := (Store.requireKey_eq_ok_iff key k).mp hkey
      have hplan : (Store.Operation.delete (.text k)).plan =
          .ok (.ask "DEL" k (.delete [k]) Store.someCounted) := by
        simp [Store.Operation.plan, hkey, bind, Except.bind]
      have hact := Server.actsOn_run w.server.server (c := .delete [k]) rfl
      obtain ⟨hanswer, hstep⟩ := asked hplain hplan
      refine .inr ⟨k, rfl, ?_, ?_⟩
      · rw [hanswer, hact.answer]
        cases w.server.server.live? k <;> rfl
      · rw [hstep]
        exact hact.here

theorem agrees_of_failure (hplain : w.Plain) {r : Request} (hr : r.Shares) {e : StoreError}
    (h : w.answer r = .error e) : Agrees (w.step (.request r)) w := by
  have hst : Step.Shares (.request r) := hr
  have htree := tree_step_of_shares (w := w) hst
  cases r with
  | store c file limit => exact ⟨FileCache.agrees_of_answer_error hplain h, htree⟩
  | restoreBytes c name => exact ⟨w.agrees_of_reads trivial, htree⟩
  | contains c name => exact ⟨w.agrees_of_reads trivial, htree⟩
  | restore c name => exact hr.elim
  | operate op =>
      cases op with
      | delete key =>
          rcases delete_cases hplain key with ⟨-, -, hsame⟩ | ⟨k, rfl, hok, -⟩
          · rw [hsame]
            exact ⟨.refl w.server, rfl⟩
          · cases hok.symm.trans h
      | _ => exact hr.elim

/-- The steps of a session without the requests that fail. -/
def lasting : World → List Step → List Step
  | _, [] => []
  | w, .request r :: steps =>
      match w.answer r with
      | .ok _ => .request r :: lasting (w.step (.request r)) steps
      | .error _ => lasting (w.step (.request r)) steps
  | w, st :: steps => st :: lasting (w.step st) steps

section Lasting

variable {steps : List Step}

theorem lasting_ok {r : Request} {v : Value} (h : w.answer r = .ok v) (steps : List Step) :
    w.lasting (.request r :: steps) =
      .request r :: (w.step (.request r)).lasting steps := by
  simp only [lasting, h]

theorem lasting_error {r : Request} {e : StoreError} (h : w.answer r = .error e)
    (steps : List Step) :
    w.lasting (.request r :: steps) = (w.step (.request r)).lasting steps := by
  simp only [lasting, h]

theorem mem_of_mem_lasting {st : Step} (h : st ∈ w.lasting steps) : st ∈ steps := by
  induction steps generalizing w with
  | nil => exact h
  | cons first steps ih =>
      have hcons : ∀ {w' : World}, st ∈ first :: w'.lasting steps → st ∈ first :: steps := by
        intro w' hst
        rcases List.mem_cons.mp hst with rfl | hst
        · exact List.mem_cons_self
        · exact List.mem_cons_of_mem first (ih hst)
      cases first with
      | request r =>
          cases hanswer : w.answer r with
          | ok v => exact hcons (lasting_ok hanswer steps ▸ h)
          | error e => exact List.mem_cons_of_mem _ (ih (lasting_error hanswer steps ▸ h))
      | wait milliseconds => exact hcons h
      | files t => exact hcons h

theorem agrees_lasting (hplain : w.Plain) (hsteps : ∀ st ∈ steps, st.Shares) :
    Agrees (w.after steps) (w.after (w.lasting steps)) := by
  induction steps generalizing w with
  | nil => exact ⟨.refl w.server, rfl⟩
  | cons st steps ih =>
      have hrest := ih (w := w.step st) ((script_step w st).trans hplain)
        fun st' hst' => hsteps st' (List.mem_cons_of_mem st hst')
      have hst := hsteps st List.mem_cons_self
      cases st with
      | request r =>
          cases hanswer : w.answer r with
          | ok v =>
              rw [lasting_ok hanswer]
              exact hrest
          | error e =>
              rw [lasting_error hanswer]
              exact hrest.trans ((agrees_of_failure hplain hst hanswer).after _)
      | wait milliseconds => exact hrest
      | files t => exact hrest

theorem answered_of_lasting (hplain : w.Plain) (hsteps : ∀ st ∈ steps, st.Shares)
    {before behind : List Step} {r : Request}
    (h : w.lasting steps = before ++ .request r :: behind) :
    ∃ v, (w.after before).answer r = .ok v := by
  induction steps generalizing w before with
  | nil => cases before <;> cases h
  | cons st steps ih =>
      have hst := hsteps st List.mem_cons_self
      have hrest : ∀ {before' : List Step},
          (w.step st).lasting steps = before' ++ .request r :: behind →
            ∃ v, ((w.step st).after before').answer r = .ok v := fun h' =>
        ih ((script_step w st).trans hplain)
          (fun st' hst' => hsteps st' (List.mem_cons_of_mem st hst')) h'
      have hcons : (st = .request r → ∃ v, w.answer r = .ok v) →
          st :: (w.step st).lasting steps = before ++ .request r :: behind →
            ∃ v, (w.after before).answer r = .ok v := by
        intro hfirst hsplit
        cases before with
        | nil => exact hfirst (List.cons.inj hsplit).1
        | cons st' before =>
            obtain ⟨rfl, htail⟩ := List.cons.inj hsplit
            exact hrest htail
      cases st with
      | request r' =>
          cases hanswer : w.answer r' with
          | ok v =>
              rw [lasting_ok hanswer] at h
              refine hcons ?_ h
              rintro ⟨⟩
              exact ⟨v, hanswer⟩
          | error e =>
              rw [lasting_error hanswer] at h
              obtain ⟨v, hv⟩ := hrest h
              have hagrees := (agrees_of_failure hplain hst hanswer).after before
              exact ⟨v, (hagrees.answer r).symm.trans hv⟩
      | wait milliseconds => exact hcons nofun h
      | files t => exact hcons nofun h

end Lasting

end World

namespace FileCache

variable {c : FileCache}

/-- The last store under a key in a session: where it was made, and what it stored. -/
structure Deposit (w : World) (steps : List Step) (key : String) where
  cache : FileCache
  file : FileSource
  limit : Value
  name : String
  content : List UInt8
  before : List Step
  behind : List Step
  split : steps = before ++ .request (.store cache file limit) :: behind
  answered : (w.after before).answer (.store cache file limit) = .ok (.text key)
  read : file.readIn w.tree = .ok (name, content)
  keyed : cache.cacheKey (.text name) = .ok key
  latest : ∀ st ∈ behind, ¬st.Changes key

/-- An entry is the record of a deposit, with its deadline where the store had a time
limit. -/
structure Deposit.Shown {w : World} {steps : List Step} {key : String} (d : Deposit w steps key)
    (e : Entry) : Prop where
  record : ∃ fields, e.content = .hash fields ∧ Holds d.name d.content fields
  limited : ∀ n, d.cache.effectiveTtl d.limit = .ok (some n) →
    e.deadline = some ((w.after d.before).server.server.now + 1000 * n)

theorem none_or_last {α : Type} (P : α → Prop) (xs : List α) :
    (∀ x ∈ xs, ¬P x) ∨ ∃ before x behind, xs = before ++ x :: behind ∧ P x ∧
      ∀ y ∈ behind, ¬P y := by
  induction xs with
  | nil => exact .inl nofun
  | cons x xs ih =>
      rcases ih with hnone | ⟨before, y, behind, rfl, hy, hbehind⟩
      · by_cases hx : P x
        · exact .inr ⟨[], x, xs, rfl, hx, hnone⟩
        · exact .inl (List.forall_mem_cons.mpr ⟨hx, hnone⟩)
      · exact .inr ⟨x :: before, y, behind, rfl, hy, hbehind⟩

/-- A request that may change a key, and does not fail, either leaves nothing there or
is a store that leaves its whole record. -/
theorem gone_or_kept {w : World} (hplain : w.Plain) {r : Request} (hr : r.Shares) {key : String}
    (hchanges : r.Changes key) {v : Value} (hv : w.answer r = .ok v) :
    (w.step (.request r)).server.server.live? key = none ∨
      ∃ c file limit name content e, r = .store c file limit ∧ v = .text key ∧
        Kept c file limit w (w.step (.request r)) name key content e := by
  cases r with
  | store c file limit =>
      obtain ⟨name, key', content, e, rfl, hkept⟩ := kept_of_answer hplain hv
      obtain ⟨p, hpath, hname⟩ := FileSource.path?_of_readIn hkept.read
      obtain ⟨-, p', hpath', hkey⟩ := hchanges
      cases hpath.symm.trans hpath'
      rw [hname] at hkey
      obtain rfl : key' = key := Except.ok.inj (hkept.keyed.symm.trans hkey)
      exact .inr ⟨c, file, limit, name, content, e, rfl, rfl, hkept⟩
  | restore c name => exact hr.elim
  | restoreBytes c name => exact (hchanges.1 trivial).elim
  | contains c name => exact (hchanges.1 trivial).elim
  | operate op =>
      cases op with
      | delete k =>
          obtain rfl : .text key = k := List.mem_singleton.mp hchanges.2
          rcases World.delete_cases hplain (.text key) with ⟨e, herror, -⟩ | ⟨k, hk, -, hgone⟩
          · cases hv.symm.trans herror
          · cases hk
            exact .inl hgone
      | _ => exact hr.elim

/-- What is under a key that was free at first is the record of one single store: the
last one under the key, as a whole and with its time limit. -/
theorem deposit_of_live {w : World} {steps : List Step} {key : String} (hplain : w.Plain)
    (hfree : w.server.server.live? key = none) (hsteps : ∀ st ∈ steps, st.Shares)
    (hanswered : ∀ before r behind, steps = before ++ .request r :: behind →
      ∃ v, (w.after before).answer r = .ok v) {e : Entry}
    (h : (w.after steps).server.server.live? key = some e) :
    ∃ d : Deposit w steps key, d.Shown e := by
  rcases none_or_last (Step.Changes key) steps with
    hnone | ⟨before, st, behind, rfl, hchanges, hbehind⟩
  · have hlive := (World.Lasts.after_unchanged w hnone).live
    rw [hfree, h] at hlive
    cases hlive
  · have hplain' : (w.after before).Plain := (World.script_after w before).trans hplain
    have htree : (w.after before).tree = w.tree :=
      World.tree_after_of_shares fun st' hst' => hsteps st' (by simp [hst'])
    have hafter : w.after (before ++ st :: behind) = ((w.after before).step st).after behind := by
      simp only [World.after, List.foldl_append, List.foldl_cons]
    have hlive := (World.Lasts.after_unchanged ((w.after before).step st) hbehind).live
    rw [← hafter, h] at hlive
    cases st with
    | wait milliseconds => exact hchanges.elim
    | files t => exact hchanges.elim
    | request r =>
        obtain ⟨v, hv⟩ := hanswered before r behind rfl
        rcases gone_or_kept hplain' (hsteps (.request r) (by simp)) hchanges hv with
          hgone | ⟨c, file, limit, name, content, e', rfl, rfl, hkept⟩
        · rw [hgone] at hlive
          cases hlive
        · -- Nobody has changed the record since, so that it is still what it was.
          obtain rfl : e' = e := by
            rw [hkept.live] at hlive
            exact Option.some.inj (Option.filter_eq_some_iff.mp hlive.symm).1
          exact ⟨⟨c, file, limit, name, content, before, behind, rfl, hv, htree ▸ hkept.read,
            hkept.keyed, hbehind⟩, hkept.record, hkept.limited⟩

end FileCache

end FileStash
