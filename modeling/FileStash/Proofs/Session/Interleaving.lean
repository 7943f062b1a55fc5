import FileStash.Proofs.Program.Stepping
import FileStash.Proofs.Session.World

/-!
Requests to one server whose programs take their steps in any order. The order in
which they decide is kept, with the waits in between. Every request returns when it
has taken the steps of its program, whatever the others do.
-/

namespace FileStash

/-- A request under way: what is left of its program, how long the order of the
decisions was when it began and when it returned, and its own place there. -/
structure Task where
  request : Request
  rest : Program Value
  since : Nat
  place : Option Nat := none
  upto : Option Nat := none

/-- What the request was answered, once it has returned. -/
def Task.returned? (a : Task) : Option (Except StoreError Value) :=
  if a.upto.isSome then a.rest.result? else none

/-- A task that has taken a step when the order was so long; one whose program has
ended returns. -/
def Task.act (a : Task) (rest : Program Value) (length : Nat) : Task :=
  { a with
    rest := rest
    place := if a.rest.decides then some length else a.place
    upto := if a.rest.result?.isSome then a.upto.or (some length) else a.upto }

theorem Task.place_of_still {a : Task} (h : a.rest.decides = false) (rest : Program Value)
    (length : Nat) : (a.act rest length).place = a.place := by
  simp [Task.act, h]

theorem Task.place_of_decides {a : Task} (h : a.rest.decides = true) (rest : Program Value)
    (length : Nat) : (a.act rest length).place = some length := by
  simp [Task.act, h]

structure Task.Follows (a b : Task) : Prop where
  request : b.request = a.request
  since : b.since = a.since
  upto : a.upto.isSome → b.upto.isSome

namespace Task.Follows

theorem refl (a : Task) : a.Follows a := ⟨rfl, rfl, id⟩

theorem trans {a b c : Task} (h : a.Follows b) (h' : b.Follows c) : a.Follows c :=
  ⟨h'.request.trans h.request, h'.since.trans h.since, fun ha => h'.upto (h.upto ha)⟩

theorem act (a : Task) (rest : Program Value) (length : Nat) : a.Follows (a.act rest length) := by
  refine ⟨rfl, rfl, fun ha => ?_⟩
  simp only [Task.act]
  split <;> simp [ha]

end Task.Follows

/-- Any number of requests under way, and the order in which those that have decided
did so, with the waits between them. A client is whoever makes a request when the
last one has returned; nothing depends on how many there are. -/
structure System where
  world : World
  tasks : List Task := []
  order : List Step := []

/-- A request is made, one of the requests under way takes a step, or time passes. -/
inductive Move
  | start (r : Request)
  | act (n : Nat)
  | wait (milliseconds : Nat)

def Move.isOf (n : Nat) : Move → Bool
  | .act m => m == n
  | _ => false

theorem Move.eq_of_isOf {m : Move} {n : Nat} (h : m.isOf n = true) : m = .act n := by
  cases m with
  | act k => rw [eq_of_beq h]
  | _ => cases h

namespace System

def act (S : System) (n : Nat) (a : Task) : System :=
  let stage := a.rest.advance ScriptedServer.call S.world.server S.world.tree
  { world := ⟨stage.state, stage.tree⟩
    tasks := S.tasks.set n (a.act stage.rest S.order.length)
    order := if a.rest.decides then S.order ++ [.request a.request] else S.order }

def step (S : System) : Move → System
  | .start r => { S with tasks := S.tasks ++ [⟨r, r.program, S.order.length, none, none⟩] }
  | .act n =>
      match S.tasks[n]? with
      | some a => S.act n a
      | none => S
  | .wait milliseconds =>
      { S with
        world := S.world.step (.wait milliseconds)
        order := S.order ++ [.wait milliseconds] }

def after (S : System) (moves : List Move) : System :=
  moves.foldl step S

variable {S : System} {n : Nat} {a : Task}

theorem after_of_step {I : System → Prop} {moves : List Move}
    (hstep : ∀ m ∈ moves, ∀ S, I S → I (S.step m)) (h : I S) : I (S.after moves) := by
  induction moves generalizing S with
  | nil => exact h
  | cons m moves ih =>
      exact ih (fun m' hm' => hstep m' (List.mem_cons_of_mem m hm'))
        (hstep m List.mem_cons_self S h)

/-- All requests are of a kind, and their programs end within so many steps. -/
structure Only (P : Request → Prop) (k : Nat) (S : System) : Prop where
  kind : ∀ a ∈ S.tasks, P a.request
  brief : ∀ a ∈ S.tasks, a.rest.EndsIn k
  order : ∀ st ∈ S.order, (∃ r, st = .request r ∧ P r) ∨ ∃ milliseconds, st = .wait milliseconds

section Only

variable {P : Request → Prop} {k : Nat}

theorem Only.act (h : Only P k S) (ha : a ∈ S.tasks) (n : Nat) : Only P k (S.act n a) where
  kind b hb := by
    rcases List.mem_or_eq_of_mem_set hb with hb | rfl
    · exact h.kind b hb
    · exact h.kind a ha
  brief b hb := by
    rcases List.mem_or_eq_of_mem_set hb with hb | rfl
    · exact h.brief b hb
    · exact (h.brief a ha).goes ScriptedServer.call S.world.server S.world.tree
  order st hst := by
    simp only [System.act] at hst
    split at hst
    · rcases List.mem_append.mp hst with hst | hst
      · exact h.order st hst
      · exact .inl ⟨a.request, List.mem_singleton.mp hst, h.kind a ha⟩
    · exact h.order st hst

theorem Only.step (h : Only P k S) {m : Move}
    (hm : ∀ r, m = .start r → P r ∧ r.program.EndsIn k) : Only P k (S.step m) := by
  cases m with
  | start r =>
      obtain ⟨hkind, hbrief⟩ := hm r rfl
      refine ⟨fun a ha => ?_, fun a ha => ?_, h.order⟩ <;>
        rcases List.mem_append.mp ha with ha | ha
      · exact h.kind a ha
      · rwa [List.mem_singleton.mp ha]
      · exact h.brief a ha
      · rwa [List.mem_singleton.mp ha]
  | wait milliseconds =>
      refine ⟨h.kind, h.brief, fun st hst => ?_⟩
      rcases List.mem_append.mp hst with hst | hst
      · exact h.order st hst
      · exact .inr ⟨milliseconds, List.mem_singleton.mp hst⟩
  | act n =>
      simp only [System.step]
      cases ha : S.tasks[n]? with
      | none => exact h
      | some a => exact h.act (List.mem_of_getElem? ha) n

theorem Only.after {moves : List Move} (h : Only P k S)
    (hmoves : ∀ r, .start r ∈ moves → P r ∧ r.program.EndsIn k) : Only P k (S.after moves) :=
  after_of_step (fun _ hm _ hS => hS.step fun r hr => hmoves r (hr ▸ hm)) h

end Only

section Return

theorem task_act (ha : S.tasks[n]? = some a) :
    (S.step (.act n)).tasks[n]? = some
      (a.act (a.rest.advance ScriptedServer.call S.world.server S.world.tree).rest
        S.order.length) := by
  obtain ⟨hn, -⟩ := List.getElem?_eq_some_iff.mp ha
  simp only [step, ha, act]
  exact List.getElem?_set_self hn

theorem task_of_other (ha : S.tasks[n]? = some a) {m : Move} (hm : m.isOf n = false) :
    (S.step m).tasks[n]? = some a := by
  cases m with
  | start r =>
      obtain ⟨hn, -⟩ := List.getElem?_eq_some_iff.mp ha
      exact (List.getElem?_append_left hn).trans ha
  | wait milliseconds => exact ha
  | act k =>
      have hne : k ≠ n := by simpa [Move.isOf] using hm
      simp only [step]
      cases S.tasks[k]? with
      | none => exact ha
      | some b => exact (List.getElem?_set_ne hne).trans ha

theorem follows_step (ha : S.tasks[n]? = some a) (m : Move) :
    ∃ b, (S.step m).tasks[n]? = some b ∧ a.Follows b := by
  cases hm : m.isOf n with
  | false => exact ⟨a, task_of_other ha hm, .refl a⟩
  | true =>
      obtain rfl : m = .act n := Move.eq_of_isOf hm
      exact ⟨_, task_act ha, .act ..⟩

theorem follows_after (ha : S.tasks[n]? = some a) (moves : List Move) :
    ∃ b, (S.after moves).tasks[n]? = some b ∧ a.Follows b := by
  refine after_of_step (I := fun S => ∃ b, S.tasks[n]? = some b ∧ a.Follows b) ?_
    ⟨a, ha, .refl a⟩
  rintro m - S ⟨b, hb, hab⟩
  obtain ⟨d, hd, hbd⟩ := follows_step hb m
  exact ⟨d, hd, hab.trans hbd⟩

/-- A request whose program ends within `k` steps has returned when it has taken one
more, whatever the others do. -/
theorem returns {k : Nat} (ha : S.tasks[n]? = some a) (hends : a.rest.EndsIn k)
    {moves : List Move} (hmoves : k < moves.countP (Move.isOf n)) :
    ∃ b, (S.after moves).tasks[n]? = some b ∧ a.Follows b ∧ b.upto.isSome := by
  induction moves generalizing S a k with
  | nil => exact absurd hmoves (Nat.not_lt_zero k)
  | cons m moves ih =>
      cases hm : m.isOf n with
      | false =>
          rw [List.countP_cons_of_neg (by simp [hm])] at hmoves
          exact ih (task_of_other ha hm) hends hmoves
      | true =>
          obtain rfl : m = .act n := Move.eq_of_isOf hm
          have hown := task_act ha
          cases hrest : a.rest.result? with
          | some result =>
              obtain ⟨b, hb, hfollows⟩ := follows_after hown moves
              refine ⟨b, hb, (Task.Follows.act ..).trans hfollows, ?_⟩
              refine hfollows.upto ?_
              simp [Task.act, hrest]
          | none =>
              rw [List.countP_cons_of_pos hm] at hmoves
              obtain ⟨hpos, hless⟩ :=
                hends.advance hrest ScriptedServer.call S.world.server S.world.tree
              obtain ⟨b, hb, hfollows, hupto⟩ := ih hown hless (by omega)
              exact ⟨b, hb, (Task.Follows.act ..).trans hfollows, hupto⟩

end Return

end System

end FileStash
