import FileStash.Proofs.Server.InTurn
import FileStash.Proofs.Session.Operating

namespace FileStash

open Server (alive under unlessEmpty growEffect shrinkEffect readEffect)

variable {α : Type}

/-- A kind of collection: how it lies under a key, and how it is seen there. -/
structure Kind (α : Type) where
  view : Content → Option α
  wrap : α → Content
  empty : α
  view_wrap : ∀ a, view (wrap a) = some a
  isEmpty_wrap : ∀ a, (wrap a).isEmpty = true ↔ a = empty

namespace Kind

def sequence : Kind (List String) :=
  ⟨Server.Content.sequence?, .sequence, [], fun _ => rfl, fun _ => List.isEmpty_iff⟩

def set : Kind (List String) :=
  ⟨Server.Content.set?, .set, [], fun _ => rfl, fun _ => List.isEmpty_iff⟩

def scored : Kind (Dict String Binary64) :=
  ⟨Server.Content.scored?, .scored, [], fun _ => rfl, fun _ => List.isEmpty_iff⟩

/-- What a key holds that has the collection and no deadline. -/
def entry (kind : Kind α) (a : α) : Option Entry :=
  unlessEmpty ⟨kind.wrap a, none⟩

/-- What a key comes to, seen as a collection of the kind. -/
def under (kind : Kind α) (held : Option Entry) : Option α :=
  Server.under kind.view kind.empty held

variable (kind : Kind α) (a : α)

theorem entry_empty : kind.entry kind.empty = none :=
  Server.unlessEmpty_empty ((kind.isEmpty_wrap kind.empty).mpr rfl) none

theorem entry_filled {a : α} (h : a ≠ kind.empty) :
    kind.entry a = some ⟨kind.wrap a, none⟩ :=
  Server.unlessEmpty_filled (fun hempty => h ((kind.isEmpty_wrap a).mp hempty)) none

theorem under_entry : kind.under (kind.entry a) = some a :=
  Server.under_unlessEmpty kind.view_wrap kind.isEmpty_wrap a none

theorem deadline_entry : (kind.entry a).bind (·.deadline) = none := by
  by_cases h : a = kind.empty
  · rw [h, entry_empty]
    rfl
  · rw [kind.entry_filled h]
    rfl

theorem alive_entry (now : Int) : alive now (kind.entry a) = kind.entry a := by
  by_cases h : a = kind.empty
  · rw [h, entry_empty]
    rfl
  · rw [kind.entry_filled h]
    exact Server.alive_some_of_not_expired rfl

end Kind

namespace World

open Store (Operation Checked conclusion asCount requireKey requireKey_eq_ok_iff)

/-- The key holds the collection, and no deadline will make it go. -/
structure Holds (kind : Kind α) (key : String) (w : World) (a : α) : Prop where
  plain : w.Plain
  live : w.server.server.live? key = kind.entry a

variable {kind : Kind α} {key : String} {w : World} {a a' : α} {op : Operation}
  {operation : String} {c : Command}

theorem after_snoc (w : World) (steps : List Step) (st : Step) :
    w.after (steps ++ [st]) = (w.after steps).step st := by
  simp only [after, List.foldl_append, List.foldl_cons, List.foldl_nil]

theorem answer_look (hplain : w.Plain)
    (hunder : kind.under (w.server.server.live? key) = some a)
    {conclude : Value → Checked Value} (hplan : op.plan = .ok (.ask operation key c conclude))
    (hkeys : c.keys = [key]) {f : α → Except Failure Value}
    (heffect : Server.effect w.server.server.now c = readEffect kind.view kind.empty f) :
    w.answer (.operate op) = conclusion operation key conclude (f a) := by
  rw [(asked hplain hplan).1, (Server.actsOn_run w.server.server hkeys).answer, heffect]
  cases hlive : w.server.server.live? key with
  | none =>
      rw [hlive] at hunder
      cases hunder
      rfl
  | some e =>
      rw [hlive] at hunder
      have hview : kind.view e.content = some a := hunder
      simp only [readEffect, hview]

namespace Holds

theorem of_absent (hplain : w.Plain) (habsent : w.server.server.live? key = none) :
    Holds kind key w kind.empty :=
  ⟨hplain, habsent.trans kind.entry_empty.symm⟩

theorem under (h : Holds kind key w a) :
    kind.under (w.server.server.live? key) = some a := by
  rw [h.live, kind.under_entry]

theorem answer_hasKey (h : Holds kind key w a) (hk : requireKey (.text key) = .ok key) :
    w.answer (.operate (.hasKey (.text key) .null)) =
      .ok (.bool (kind.entry a).isSome) := by
  rw [World.answer_hasKey h.plain ((requireKey_eq_ok_iff _ _).mp hk).2, h.live]

theorem step_unchanged (h : Holds kind key w a) {st : Step} (hst : ¬st.Changes key) :
    Holds kind key (w.step st) a := by
  have hlasts := Lasts.step_unchanged w hst
  refine ⟨hlasts.script.trans h.plain, ?_⟩
  rw [hlasts.live, h.live, kind.alive_entry]

/-- A command on the key that counts something and leaves a collection of the kind. -/
theorem of_counted (h : Holds kind key w a)
    (hplan : op.plan = .ok (.ask operation key c asCount)) (hkeys : c.keys = [key]) {n : Nat}
    (heffect : Server.effect w.server.server.now c (kind.entry a) =
      (.ok (Server.count n), kind.entry a')) :
    w.answer (.operate op) = .ok (.int n) ∧
      Holds kind key (w.step (.request (.operate op))) a' := by
  have hact := Server.actsOn_run w.server.server hkeys
  have hanswer := hact.answer
  have hhere := hact.here
  rw [h.live, heffect] at hanswer hhere
  obtain ⟨hresult, hstep⟩ := asked h.plain hplan
  constructor
  · rw [hresult, hanswer]
    rfl
  · rw [hstep]
    exact ⟨h.plain, hhere.trans (kind.alive_entry a' _)⟩

theorem grow (h : Holds kind key w a) (hplan : op.plan = .ok (.ask operation key c asCount))
    (hkeys : c.keys = [key]) {f : α → Except Failure Value × α}
    (heffect : Server.effect w.server.server.now c =
      growEffect kind.view kind.empty kind.wrap f) {n : Nat}
    (hf : f a = (.ok (Server.count n), a')) (hfilled : a' ≠ kind.empty) :
    w.answer (.operate op) = .ok (.int n) ∧
      Holds kind key (w.step (.request (.operate op))) a' := by
  refine h.of_counted hplan hkeys ?_
  rw [heffect, Server.growEffect_of_under (kind.under_entry a) hf, kind.deadline_entry,
    kind.entry_filled hfilled]

theorem shrink (h : Holds kind key w a) (hplan : op.plan = .ok (.ask operation key c asCount))
    (hkeys : c.keys = [key]) {f : α → Except Failure Nat × α}
    (heffect : Server.effect w.server.server.now c =
      shrinkEffect kind.view kind.empty kind.wrap f) {n : Nat} (hf : f a = (.ok n, a'))
    (hstays : a = kind.empty → a' = kind.empty) :
    w.answer (.operate op) = .ok (.int n) ∧
      Holds kind key (w.step (.request (.operate op))) a' := by
  refine h.of_counted hplan hkeys ?_
  rw [heffect, Server.shrinkEffect_of_under (kind.under_entry a) hf
    ((kind.isEmpty_wrap kind.empty).mpr rfl) hstays, kind.deadline_entry]
  rfl

theorem idle (h : Holds kind key w a) {v : Value} (hplan : op.plan = .ok (.answer v)) :
    w.answer (.operate op) = .ok v ∧ Holds kind key (w.step (.request (.operate op))) a := by
  rw [answer_idle hplan, step_idle hplan]
  exact ⟨rfl, h⟩

end Holds

end World

end FileStash
