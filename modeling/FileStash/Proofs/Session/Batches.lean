import FileStash.Proofs.Server.InTurn
import FileStash.Proofs.Session.Operating
import FileStash.Proofs.Store.Exchange
import Mathlib.Algebra.Ring.Int.Defs

namespace FileStash

open Server (Sendable InTurn fieldItem wrongKind)

namespace Store

def Summed (rs : List Value) (v : Value) : Prop :=
  ∃ ns : List Int, rs = ns.map .int ∧ v = .int ns.sum

/-- Answers of yes or no, and the number of those that are yes. -/
def Counted (rs : List Value) (v : Value) : Prop :=
  ∃ bs : List Bool, rs = bs.map .bool ∧ v = .int (bs.count true)

/-- The last of the answers, where there are any. -/
def Latest (rs : List Value) (v : Value) : Prop :=
  v = rs.getLastD (.int 0)

def Paired (fields : List String) (rs : List Value) (v : Value) : Prop :=
  v = .map ((fields.map .text).zip rs)

/-- An operation on a collection, the operations on its elements, and what the answers
of these come to. -/
inductive Batch : Operation → List Operation → (List Value → Value → Prop) → Prop
  | hashPutAll {key : String} (usable : UsableKey (.text key)) {entries : List (String × Value)}
      (sent : ∀ e ∈ entries, Sendable e.2) :
      Batch (.hashPutAll (.text key) (.map (entries.map fieldItem)) .null)
        (entries.map fun e => .hashPut (.text key) (.text e.1) e.2) (Paired (entries.map (·.1)))
  | hashDeleteKeys {key : String} (usable : UsableKey (.text key)) {given : Value}
      {fields : List String} (read : given.elements = .ok (fields.map .text)) :
      Batch (.hashDeleteKeys (.text key) given)
        (fields.map fun f => .hashDeleteKey (.text key) (.text f)) Summed
  | setAdd {key : String} (usable : UsableKey (.text key)) {members : List Value}
      (sent : ∀ v ∈ members, Sendable v) :
      Batch (.setAdd (.text key) members) (members.map fun v => .setAdd (.text key) [v]) Summed
  | setDelete {key : String} (usable : UsableKey (.text key)) {members : List Value}
      (sent : ∀ v ∈ members, Sendable v) :
      Batch (.setDelete (.text key) members) (members.map fun v => .setDelete (.text key) [v])
        Summed
  | scoredAdd {key : String} (usable : UsableKey (.text key)) {scores : List (Value × Value)}
      (sent : ∀ e ∈ scores, Sendable e.1 ∧ ∃ x, e.2.toFloat = .ok x) :
      Batch (.scoredAdd (.text key) (.map scores))
        (scores.map fun e => .scoredAdd (.text key) (.map [e])) Summed
  | scoredDelete {key : String} (usable : UsableKey (.text key)) {members : List Value}
      (sent : ∀ v ∈ members, Sendable v) :
      Batch (.scoredDelete (.text key) members)
        (members.map fun v => .scoredDelete (.text key) [v]) Summed
  | listPushAll {key : String} (usable : UsableKey (.text key)) {given : Value}
      {items : List Value} (read : given.elements = .ok items) (sent : ∀ v ∈ items, Sendable v) :
      Batch (.listPushAll (.text key) given) (items.map fun v => .listPush (.text key) v) Latest
  | deleteKeys {given : Value} {keys : List String} (read : given.elements = .ok (keys.map .text))
      (usable : ∀ v ∈ keys.map Value.text, UsableKey v) :
      Batch (.deleteKeys given) (keys.map fun k => .delete (.text k)) Counted

/-- An operation that asks what a command answers, and tells its count. -/
inductive Operation.Tells (op : Operation) (c : Command) (told : Nat → Value) : Prop
  | intro {operation key : String} {c' : Command} {conclude : Value → Checked Value}
      (plan : op.plan = .ok (.ask operation key c' conclude))
      (same : ∀ s : Server, s.run c' = s.run c)
      (tells : ∀ n, conclude (Server.count n) = .ok (told n))

end Store

open Store (Operation Batch)

/-- The requests for operations, in their order. -/
def requests (ops : List Operation) : List Step :=
  ops.map fun op => .request (.operate op)

/-- An answer that the key holds a value of another kind. -/
def Mismatched (r : Except StoreError Value) : Prop :=
  ∃ fault, r = .error (.typeMismatch fault)

namespace World

variable {w : World}

/-- An operation that finds a value of another kind and leaves it as it is. -/
structure Refuses (w : World) (op : Operation) : Prop where
  mismatched : Mismatched (w.answer (.operate op))
  unseen : Agrees (w.step (.request (.operate op))) w

section Telling

variable {op : Operation} {c : Command} {told : Nat → Value}

theorem answer_of_tells (hplain : w.Plain) (h : op.Tells c told) {n : Nat}
    (hrun : (w.server.server.run c).1 = .ok (Server.count n)) :
    w.answer (.operate op) = .ok (told n) := by
  obtain ⟨hplan, hsame, hcount⟩ := h
  rw [(asked hplain hplan).1, hsame, hrun]
  exact hcount n

theorem step_of_tells (hplain : w.Plain) (h : op.Tells c told) :
    w.step (.request (.operate op)) = w.withServer (w.server.server.run c).2 := by
  obtain ⟨hplan, hsame, -⟩ := h
  rw [(asked hplain hplan).2, hsame]

theorem agrees_withServer {s s' : Server} (h : s.Agrees s') :
    Agrees (w.withServer s) (w.withServer s') :=
  ⟨⟨rfl, h⟩, rfl⟩

theorem refuses_of_tells (hplain : w.Plain) (h : op.Tells c told)
    (hrun : (w.server.server.run c).1 = .error wrongKind)
    (hagrees : (w.server.server.run c).2.Agrees w.server.server) : Refuses w op := by
  constructor
  · obtain ⟨hplan, hsame, -⟩ := h
    rw [(asked hplain hplan).1, hsame, hrun]
    exact ⟨_, congrArg Except.error
      (Store.errorOf_wrongKind _ ClientError.wrongKind_family (by decide))⟩
  · rw [step_of_tells hplain h]
    exact agrees_withServer hagrees

end Telling

theorem length_answers (w : World) (ops : List Operation) :
    (w.answers (requests ops)).length = ops.length := by
  induction ops generalizing w with
  | nil => rfl
  | cons op ops ih => exact congrArg (· + 1) (ih _)

theorem agrees_after {steps : List Step} (h : ∀ st ∈ steps, Agrees (w.step st) w) :
    Agrees (w.after steps) w := by
  induction steps with
  | nil => exact .refl w
  | cons st steps ih =>
      have hfirst := h st (List.mem_cons_self ..)
      exact (hfirst.after steps).trans (ih fun st' hst => h st' (List.mem_cons_of_mem st hst))

section Turns

variable {β : Type} {fits : β → Prop} {many : List β → Operation} {one : β → Operation}
  {gather : List β → List Value → Value → Prop}

/-- An operation on several elements that does what an operation on single ones does
with each of them in turn, or is refused as that is. -/
structure Turns (fits : β → Prop) (many : List β → Operation) (one : β → Operation)
    (gather : List β → List Value → Value → Prop) : Prop where
  idle : ∃ v, (many []).plan = .ok (.answer v) ∧ gather [] [] v
  turn : ∀ w : World, w.Plain →
    ((∀ x, fits x → Refuses w (one x)) ∧
      ∀ xs, xs ≠ [] → (∀ x ∈ xs, fits x) → Refuses w (many xs)) ∨
    ∀ x, fits x → ∃ r, w.answer (.operate (one x)) = .ok r ∧
      ∀ xs, (∀ y ∈ xs, fits y) → ∃ v v',
        (w.step (.request (.operate (one x)))).answer (.operate (many xs)) = .ok v ∧
          w.answer (.operate (many (x :: xs))) = .ok v' ∧
          Agrees (w.step (.request (.operate (many (x :: xs)))))
            ((w.step (.request (.operate (one x)))).step (.request (.operate (many xs)))) ∧
          ∀ rs, rs.length = xs.length → gather xs rs v → gather (x :: xs) (r :: rs) v'

/-- What an operation on several elements comes to, beside the operations on the
single ones. -/
inductive Matches (w : World) (batch : Operation) (singles : List Operation)
    (gather : List Value → Value → Prop) : Prop
  | answered {rs : List Value} {v : Value} (single : w.answers (requests singles) = rs.map .ok)
      (whole : w.answer (.operate batch) = .ok v) (gathered : gather rs v)
      (agrees : Agrees (w.step (.request (.operate batch))) (w.after (requests singles)))
      (idle : singles = [] → w.step (.request (.operate batch)) = w)
  | refused (some : singles ≠ []) (single : ∀ op ∈ singles, Refuses w op)
      (whole : Refuses w batch)

theorem Turns.matches (h : Turns fits many one gather) (hplain : w.Plain) {xs : List β}
    (hxs : ∀ x ∈ xs, fits x) : Matches w (many xs) (xs.map one) (gather xs) := by
  induction xs generalizing w with
  | nil =>
      obtain ⟨v, hplan, hgather⟩ := h.idle
      refine .answered rfl (answer_idle hplan) hgather ?_ fun _ => step_idle hplan
      rw [step_idle hplan]
      exact .refl w
  | cons x xs ih =>
      rcases h.turn w hplain with ⟨hone, hmany⟩ | hturn
      · refine .refused nofun ?_ (hmany (x :: xs) nofun hxs)
        rintro op hop
        obtain ⟨y, hy, rfl⟩ := List.mem_map.mp hop
        exact hone y (hxs y hy)
      · obtain ⟨r, hr, hrest⟩ := hturn x (hxs x (List.mem_cons_self ..))
        have hothers : ∀ y ∈ xs, fits y := fun y hy => hxs y (List.mem_cons_of_mem x hy)
        obtain ⟨v, v', hv, hv', hagrees, hgather⟩ := hrest xs hothers
        -- The others are a batch themselves, in the world that the first has left; there
        -- they cannot be refused, as the whole has been answered with them.
        have hoperates : Step.Operates (.request (.operate (one x))) := trivial
        have hplain' : (w.step (.request (.operate (one x)))).Plain := hplain.step hoperates
        cases ih hplain' hothers with
        | @answered rs v₁ hsingle hwhole hgathered hafter _ =>
            cases hv.symm.trans hwhole
            have hlength : rs.length = xs.length := by
              have hsame := congrArg List.length hsingle
              rw [length_answers, List.length_map, List.length_map] at hsame
              exact hsame.symm
            have hanswers : w.answers (requests ((x :: xs).map one)) = (r :: rs).map .ok := by
              show w.answer (.operate (one x)) :: _ = _
              rw [hr]
              exact congrArg (Except.ok r :: ·) hsingle
            exact .answered hanswers hv' (hgather rs hlength hgathered) (hagrees.trans hafter)
              nofun
        | refused _ _ hwhole =>
            obtain ⟨fault, hfault⟩ := hwhole.mismatched
            cases hv.symm.trans hfault

theorem turns_of_inTurn {c : List β → Command} {join : Nat → Nat → Nat}
    (hturn : InTurn fits join c) {told : List β → Nat → Value} {toldOne : β → Nat → Value}
    (hidle : ∃ v, (many []).plan = .ok (.answer v) ∧ gather [] [] v)
    (hmany : ∀ xs, xs ≠ [] → (∀ x ∈ xs, fits x) → (many xs).Tells (c xs) (told xs))
    (hone : ∀ x, fits x → (one x).Tells (c [x]) (toldOne x))
    (hgather : ∀ (s : Server) x m, (s.run (c [x])).1 = .ok (Server.count m) →
      (∀ v, gather [] [] v → gather [x] [toldOne x m] (told [x] m)) ∧
      ∀ xs rs n, xs ≠ [] → rs.length = xs.length → gather xs rs (told xs n) →
        gather (x :: xs) (toldOne x m :: rs) (told (x :: xs) (join m n))) :
    Turns fits many one gather := by
  refine ⟨hidle, ?_⟩
  intro w hplain
  rcases hturn w.server.server with hrefuse | htake
  · left
    constructor
    · intro x hx
      obtain ⟨hrun, hagrees⟩ := hrefuse [x] nofun
      exact refuses_of_tells hplain (hone x hx) hrun hagrees
    · intro xs hne hxs
      obtain ⟨hrun, hagrees⟩ := hrefuse xs hne
      exact refuses_of_tells hplain (hmany xs hne hxs) hrun hagrees
  · right
    intro x hx
    obtain ⟨m, hfirst, hrest⟩ := htake x hx
    obtain ⟨hsingle, hboth⟩ := hgather _ x m hfirst
    refine ⟨toldOne x m, answer_of_tells hplain (hone x hx) hfirst, ?_⟩
    rw [step_of_tells hplain (hone x hx)]
    intro xs hxs
    have hfits : ∀ y ∈ x :: xs, fits y := by simpa using ⟨hx, hxs⟩
    have hall := hmany (x :: xs) nofun hfits
    rw [step_of_tells hplain hall]
    by_cases hnil : xs = []
    · subst hnil
      obtain ⟨v, hplan, hv⟩ := hidle
      refine ⟨v, told [x] m, answer_idle hplan, answer_of_tells hplain hall hfirst, ?_, ?_⟩
      · rw [step_idle hplan]
        exact .refl _
      · intro rs hrs _
        cases rs with
        | nil => exact hsingle v hv
        | cons r rs => cases hrs
    · obtain ⟨n, hothers, hwhole, hagrees⟩ := hrest xs hnil hxs
      have hplain' : (w.withServer (w.server.server.run (c [x])).2).Plain := hplain
      have hthen := hmany xs hnil hxs
      refine ⟨told xs n, told (x :: xs) (join m n), answer_of_tells hplain' hthen hothers,
        answer_of_tells hplain hall hwhole, ?_, ?_⟩
      · rw [step_of_tells hplain' hthen]
        exact agrees_withServer hagrees
      · intro rs hrs
        exact hboth xs rs n hnil hrs

theorem turns_of_about {c : List β → Command} {join : Nat → Nat → Nat}
    (hturn : InTurn fits join c) {operation key : String} {elements : List β → List Value}
    (helements : ∀ xs, elements xs = [] ↔ xs = [])
    (hmany : ∀ xs, (many xs).plan = .ok (.about (elements xs) (.int 0)
      (.ask operation key (c xs) Store.asCount)))
    (hone : ∀ x, (one x).plan = .ok (.ask operation key (c [x]) Store.asCount))
    {gather : List Value → Value → Prop} (hnil : gather [] (.int 0))
    (hsingle : ∀ m, gather [Server.count m] (Server.count m))
    (hcons : ∀ rs m n, rs ≠ [] → gather rs (Server.count n) →
      gather (Server.count m :: rs) (Server.count (join m n))) :
    Turns fits many one fun _ => gather := by
  have hidle : (many []).plan = .ok (.answer (.int 0)) := by
    rw [hmany, (helements []).mpr rfl]
    rfl
  have htells : ∀ xs, xs ≠ [] → (many xs).Tells (c xs) Server.count := by
    intro xs hxs
    have hplan := hmany xs
    rw [Store.Plan.about, if_neg (by simpa using mt (helements xs).mp hxs)] at hplan
    exact .intro hplan (fun _ => rfl) fun _ => rfl
  refine turns_of_inTurn hturn ⟨_, hidle, hnil⟩ (fun xs hxs _ => htells xs hxs)
    (fun x _ => .intro (hone x) (fun _ => rfl) fun _ => rfl) ?_
  intro s x m _
  refine ⟨fun _ _ => hsingle m, ?_⟩
  intro xs rs n hxs hrs
  refine hcons rs m n ?_
  rintro rfl
  exact hxs (List.length_eq_zero_iff.mp hrs.symm)

end Turns

end World

namespace Store

section Gathered

theorem summed_single (m : Nat) : Summed [Server.count m] (Server.count m) := by
  refine ⟨[m], rfl, ?_⟩
  simp [Server.count]

theorem summed_cons (rs : List Value) (m n : Nat) (h : Summed rs (Server.count n)) :
    Summed (Server.count m :: rs) (Server.count (m + n)) := by
  obtain ⟨ns, rfl, hsum⟩ := h
  have hn : (n : Int) = ns.sum := Value.int.inj hsum
  refine ⟨m :: ns, rfl, ?_⟩
  rw [List.sum_cons, ← hn]
  rfl

theorem latest_cons {rs : List Value} {m n : Nat} (hne : rs ≠ [])
    (h : Latest rs (Server.count n)) : Latest (Server.count m :: rs) (Server.count n) := by
  cases rs with
  | nil => exact (hne rfl).elim
  | cons r rs => exact h

theorem counted_cons {rs : List Value} {m n : Nat} (hm : m ≤ 1) (h : Counted rs (Server.count n)) :
    Counted (.bool (decide ((0 : Int) < m)) :: rs) (Server.count (m + n)) := by
  obtain ⟨bs, rfl, hcount⟩ := h
  have hn : (n : Int) = bs.count true := Value.int.inj hcount
  refine ⟨decide ((0 : Int) < m) :: bs, rfl, congrArg Value.int ?_⟩
  obtain rfl | rfl : m = 0 ∨ m = 1 := by omega
  · simpa using hn
  · simp [hn, Int.add_comm]

theorem paired_cons {fields : List String} {rs : List Value} {items : List (Value × Value)}
    (field : String) (v : Value) (h : Paired fields rs (.map items)) :
    Paired (field :: fields) (v :: rs) (.map ((.text field, v) :: items)) := by
  have hitems : items = (fields.map .text).zip rs := Value.map.inj h
  rw [hitems]
  rfl

end Gathered

section Families

open World (Turns turns_of_about turns_of_inTurn)

theorem turns_summed {β : Type} {fits : β → Prop} {many : List β → Operation} {one : β → Operation}
    {c : List β → Command} (hturn : InTurn fits (· + ·) c) {operation key : String}
    {elements : List β → List Value} (helements : ∀ xs, elements xs = [] ↔ xs = [])
    (hmany : ∀ xs, (many xs).plan =
      .ok (.about (elements xs) (.int 0) (.ask operation key (c xs) asCount)))
    (hone : ∀ x, (one x).plan = .ok (.ask operation key (c [x]) asCount)) :
    Turns fits many one fun _ => Summed :=
  turns_of_about hturn helements hmany hone ⟨[], rfl, rfl⟩ summed_single
    fun rs m n _ => summed_cons rs m n

theorem turns_deleteKeys :
    Turns (fun k : String => UsableKey (.text k)) (fun ks => .deleteKeys (.list (ks.map .text)))
      (fun k => .delete (.text k)) fun _ => Counted := by
  have hidle : (Operation.deleteKeys (.list [])).plan = .ok (.answer (.int 0)) := rfl
  have hmany : ∀ ks : List String, ks ≠ [] → (∀ k ∈ ks, UsableKey (.text k)) →
      (Operation.deleteKeys (.list (ks.map .text))).Tells (.delete ks) Server.count := by
    intro ks hne hks
    have hrequired : requireKeys (ks.map .text) = .ok ks :=
      requireKeys_of_usable (by simpa using hks)
    have hread : (Value.list (ks.map .text)).elements = .ok (ks.map .text) := rfl
    have hplan := Operation.plan_deleteKeys hread hrequired
    cases ks with
    | nil => exact (hne rfl).elim
    | cons k ks => exact .intro hplan (fun _ => rfl) fun _ => rfl
  refine turns_of_inTurn (Server.inTurn_delete _) ⟨_, hidle, [], rfl, rfl⟩ hmany
    (fun k hk => .intro (Operation.plan_delete (requireKey_of_usable hk)) (fun _ => rfl)
      fun _ => rfl) ?_
  intro s k m hrun
  have hm : m ≤ 1 := by
    rw [Server.run_delete_single] at hrun
    have hcount : (((if (s.live? k).isSome then 1 else 0 : Nat)) : Int) = m :=
      Value.int.inj (Except.ok.inj hrun)
    split at hcount <;> omega
  constructor
  · intro _ _
    have hnone : Counted [] (Server.count 0) := ⟨[], rfl, rfl⟩
    exact counted_cons hm hnone
  · intro ks rs n _ _ h
    exact counted_cons hm h

variable {key : String} (hk : requireKey (.text key) = .ok key)
include hk

theorem turns_hashPutAll :
    Turns (fun e : String × Value => Sendable e.2)
      (fun es => .hashPutAll (.text key) (.map (es.map fieldItem)) .null)
      (fun e => .hashPut (.text key) (.text e.1) e.2) fun es => Paired (es.map (·.1)) := by
  have hidle : (Operation.hashPutAll (.text key) (.map []) .null).plan =
      .ok (.answer (.map [])) := Operation.plan_hashPutAll_lasting hk []
  have hmany : ∀ es : List (String × Value), es ≠ [] →
      (Operation.hashPutAll (.text key) (.map (es.map fieldItem)) .null).Tells
        (.hsetAll key (es.map fieldItem)) fun _ => .map (es.map fieldItem) := by
    intro es hne
    have hplan := Operation.plan_hashPutAll_lasting hk (es.map fieldItem)
    rw [if_neg (by simpa using hne)] at hplan
    exact .intro hplan (fun _ => rfl) fun _ => rfl
  -- A single field is written by a command of its own, which the server takes as one
  -- that writes several.
  have hone : ∀ e : String × Value, (Operation.hashPut (.text key) (.text e.1) e.2).Tells
      (.hsetAll key ([e].map fieldItem)) fun _ => e.2 := by
    intro e
    exact .intro (Operation.plan_hashPut hk _) (fun _ => rfl) fun _ => rfl
  refine turns_of_inTurn (Server.inTurn_hset key) ⟨_, hidle, rfl⟩ (fun es hne _ => hmany es hne)
    (fun e _ => hone e) ?_
  intro s e m _
  refine ⟨fun _ _ => rfl, ?_⟩
  intro es rs n _ _ h
  exact paired_cons e.1 e.2 h

theorem turns_hashDeleteKeys :
    Turns (fun _ : String => True)
      (fun fields => .hashDeleteKeys (.text key) (.list (fields.map .text)))
      (fun f => .hashDeleteKey (.text key) (.text f)) fun _ => Summed := by
  have hnil : ∀ fields : List String, fields.map Value.text = [] ↔ fields = [] :=
    fun _ => List.map_eq_nil_iff
  exact turns_summed (Server.inTurn_hdel key) hnil
    (fun _ => Operation.plan_hashDeleteKeys hk rfl) fun _ => Operation.plan_hashDeleteKey hk _

theorem turns_setAdd :
    Turns Sendable (fun vs => .setAdd (.text key) vs) (fun v => .setAdd (.text key) [v])
      fun _ => Summed :=
  turns_summed (Server.inTurn_sadd key) (fun _ => Iff.rfl) (Operation.plan_setAdd hk)
    fun v => Operation.plan_setAdd hk [v]

theorem turns_setDelete :
    Turns Sendable (fun vs => .setDelete (.text key) vs) (fun v => .setDelete (.text key) [v])
      fun _ => Summed :=
  turns_summed (Server.inTurn_srem key) (fun _ => Iff.rfl) (Operation.plan_setDelete hk)
    fun v => Operation.plan_setDelete hk [v]

theorem turns_scoredAdd :
    Turns (fun e : Value × Value => Sendable e.1 ∧ ∃ x, e.2.toFloat = .ok x)
      (fun es => .scoredAdd (.text key) (.map es)) (fun e => .scoredAdd (.text key) (.map [e]))
      fun _ => Summed := by
  have hnil : ∀ scores : List (Value × Value), scores.map (·.1) = [] ↔ scores = [] :=
    fun _ => List.map_eq_nil_iff
  exact turns_summed (Server.inTurn_zadd key) hnil (Operation.plan_scoredAdd hk)
    fun e => Operation.plan_scoredAdd hk [e]

theorem turns_scoredDelete :
    Turns Sendable (fun vs => .scoredDelete (.text key) vs)
      (fun v => .scoredDelete (.text key) [v]) fun _ => Summed :=
  turns_summed (Server.inTurn_zrem key) (fun _ => Iff.rfl) (Operation.plan_scoredDelete hk)
    fun v => Operation.plan_scoredDelete hk [v]

theorem turns_listPushAll :
    Turns Sendable (fun vs => .listPushAll (.text key) (.list vs))
      (fun v => .listPush (.text key) v) fun _ => Latest :=
  turns_of_about (Server.inTurn_rpush key) (fun _ => Iff.rfl)
    (fun _ => Operation.plan_listPushAll hk rfl) (Operation.plan_listPush hk) rfl (fun _ => rfl)
    fun _ _ _ => latest_cons

end Families

end Store

namespace World

variable {w : World}

theorem perform_of_plan_eq {op op' : Operation} (h : op.plan = op'.plan) :
    w.perform (.operate op) = w.perform (.operate op') := by
  rw [perform_operate, perform_operate, h]

theorem Matches.of_plan_eq {op op' : Operation} (h : op.plan = op'.plan)
    {singles : List Operation} {gather : List Value → Value → Prop}
    (hmatch : Matches w op' singles gather) : Matches w op singles gather := by
  have hanswer : w.answer (.operate op) = w.answer (.operate op') := by
    simp only [answer, perform_of_plan_eq h]
  have hstep : w.step (.request (.operate op)) = w.step (.request (.operate op')) := by
    simp only [step, perform_of_plan_eq h]
  cases hmatch with
  | answered single whole gathered agrees idle =>
      exact .answered single (hanswer.trans whole) gathered (by rwa [hstep]) (by rwa [hstep])
  | refused some single whole =>
      exact .refused some single ⟨by rw [hanswer]; exact whole.mismatched,
        by rw [hstep]; exact whole.unseen⟩

theorem matches_of_batch (hplain : w.Plain) {batch : Operation} {singles : List Operation}
    {gather : List Value → Value → Prop} (h : Batch batch singles gather) :
    Matches w batch singles gather := by
  cases h with
  | hashPutAll usable sent =>
      exact (Store.turns_hashPutAll (Store.requireKey_of_usable usable)).matches hplain sent
  | @hashDeleteKeys key usable given fields read =>
      have hk := Store.requireKey_of_usable usable
      have hplan : (Operation.hashDeleteKeys (.text key) given).plan =
          (Operation.hashDeleteKeys (.text key) (.list (fields.map .text))).plan := by
        rw [Operation.plan_hashDeleteKeys hk read, Operation.plan_hashDeleteKeys hk rfl]
      exact .of_plan_eq hplan ((Store.turns_hashDeleteKeys hk).matches hplain fun _ _ => trivial)
  | setAdd usable sent =>
      exact (Store.turns_setAdd (Store.requireKey_of_usable usable)).matches hplain sent
  | setDelete usable sent =>
      exact (Store.turns_setDelete (Store.requireKey_of_usable usable)).matches hplain sent
  | scoredAdd usable sent =>
      exact (Store.turns_scoredAdd (Store.requireKey_of_usable usable)).matches hplain sent
  | scoredDelete usable sent =>
      exact (Store.turns_scoredDelete (Store.requireKey_of_usable usable)).matches hplain sent
  | @listPushAll key usable given items read sent =>
      have hk := Store.requireKey_of_usable usable
      have hplan : (Operation.listPushAll (.text key) given).plan =
          (Operation.listPushAll (.text key) (.list items)).plan := by
        rw [Operation.plan_listPushAll hk read, Operation.plan_listPushAll hk rfl]
      exact .of_plan_eq hplan ((Store.turns_listPushAll hk).matches hplain sent)
  | @deleteKeys given keys read usable =>
      have hrequired := Store.requireKeys_of_usable usable
      have hplan : (Operation.deleteKeys given).plan =
          (Operation.deleteKeys (.list (keys.map .text))).plan := by
        rw [Operation.plan_deleteKeys read hrequired, Operation.plan_deleteKeys rfl hrequired]
      exact .of_plan_eq hplan (Store.turns_deleteKeys.matches hplain (by simpa using usable))

/-- A collection that is given at once leaves behind what its elements leave one by one,
is refused for the kind of what is there just when the first of them is, and else is
answered with what their answers come to. -/
theorem batch_is_its_elements_in_turn (hplain : w.Plain) {batch : Operation}
    {singles : List Operation} {gather : List Value → Value → Prop}
    (h : Batch batch singles gather) :
    let mismatched (op : Operation) := Mismatched (w.answer (.operate op))
    let whole := w.step (.request (.operate batch))
    Agrees whole (w.after (requests singles)) ∧
      (mismatched batch ↔ ∃ first, singles.head? = some first ∧ mismatched first) ∧
      (¬mismatched batch → ∃ rs v, w.answers (requests singles) = rs.map .ok ∧
        w.answer (.operate batch) = .ok v ∧ gather rs v) ∧
      (mismatched batch → ∀ n, Agrees (w.after (requests (singles.take n))) w) ∧
      (singles = [] → whole = w) := by
  intro mismatched whole
  cases matches_of_batch hplain h with
  | @answered rs v hsingle hwhole hgathered hagrees hidle =>
      have hnot : ¬mismatched batch := by
        rintro ⟨fault, hfault⟩
        cases hwhole.symm.trans hfault
      refine ⟨hagrees, ⟨fun hm => (hnot hm).elim, ?_⟩, fun _ => ⟨rs, v, hsingle, hwhole, hgathered⟩,
        fun hm => (hnot hm).elim, hidle⟩
      rintro ⟨first, hhead, fault, hfault⟩
      obtain ⟨rest, rfl⟩ : ∃ rest, singles = first :: rest := List.head?_eq_some_iff.mp hhead
      cases rs with
      | nil => cases hsingle
      | cons r rs =>
          have hanswer : w.answer (.operate first) = .ok r := (List.cons.inj hsingle).1
          cases hanswer.symm.trans hfault
  | refused hsome hsingle hwhole =>
      have hafter : ∀ n, Agrees (w.after (requests (singles.take n))) w := by
        intro n
        refine agrees_after ?_
        intro st hst
        obtain ⟨op, hop, rfl⟩ := List.mem_map.mp hst
        exact (hsingle op (List.mem_of_mem_take hop)).unseen
      have hall : Agrees (w.after (requests singles)) w := by
        have hlast := hafter singles.length
        rwa [List.take_length] at hlast
      have hfirst : ∃ first, singles.head? = some first ∧ mismatched first := by
        cases singles with
        | nil => exact (hsome rfl).elim
        | cons first rest => exact ⟨first, rfl, (hsingle first (List.mem_cons_self ..)).mismatched⟩
      exact ⟨hwhole.unseen.trans hall.symm, ⟨fun _ => hfirst, fun _ => hwhole.mismatched⟩,
        fun hm => (hm hwhole.mismatched).elim, fun _ => hafter, fun hnil => (hsome hnil).elim⟩

/-- A number and a text that are sent alike, taken from a set with a deadline that goes
with the first of them; and the same two put into a sequence. -/
theorem key_that_goes_midway_and_sequence :
    let w : World := ⟨⟨{ entries := [("s", ⟨.set ["1"], some 5000⟩),
      ("q", ⟨.sequence ["a"], none⟩)] }, []⟩, {}⟩
    let remove (vs : List Value) := Operation.setDelete (.text "s") vs
    let add (vs : List Value) := Operation.setAdd (.text "q") vs
    let both := [Value.int 1, .text "1"]
    (Agrees (w.step (.request (.operate (remove both))))
        (w.after (requests (both.map fun v => remove [v]))) ∧
      ∃ rs, w.answers (requests (both.map fun v => remove [v])) = rs.map .ok ∧
        Store.Summed rs (.int 1)) ∧
      Mismatched (w.answer (.operate (add both))) ∧
        Agrees (w.after (requests ((both.map fun v => add [v]).take 1))) w := by
  intro w remove add both
  have hplain : w.Plain := rfl
  have hs : Store.UsableKey (.text "s") := by
    show Text.trim Text.isBlank "s".toList ≠ []
    decide
  have hq : Store.UsableKey (.text "q") := by
    show Text.trim Text.isBlank "q".toList ≠ []
    decide
  have hsent : ∀ v ∈ both, Sendable v := by
    rintro v hv
    obtain rfl | rfl : v = .int 1 ∨ v = .text "1" := by simpa [both] using hv
    · exact ⟨"1", rfl⟩
    · exact ⟨"1", rfl⟩
  have hone : w.answer (.operate (remove both)) = .ok (.int 1) := rfl
  have hrefused : Mismatched (w.answer (.operate (add [.int 1]))) := ⟨_, rfl⟩
  constructor
  · obtain ⟨hagrees, -, hanswered, -⟩ := batch_is_its_elements_in_turn hplain (.setDelete hs hsent)
    have hnot : ¬Mismatched (w.answer (.operate (remove both))) := by
      rintro ⟨fault, hfault⟩
      cases hone.symm.trans hfault
    obtain ⟨rs, v, hsingle, hwhole, hsum⟩ := hanswered hnot
    cases hone.symm.trans hwhole
    exact ⟨hagrees, rs, hsingle, hsum⟩
  · obtain ⟨-, hiff, -, hunseen, -⟩ := batch_is_its_elements_in_turn hplain (.setAdd hq hsent)
    have hmismatched := hiff.mpr ⟨_, rfl, hrefused⟩
    exact ⟨hmismatched, hunseen hmismatched 1⟩

end World

end FileStash
