import FileStash.Proofs.Server.Changes

namespace FileStash.Server

/-- A view of the collections of one kind, which alone the changes are about. -/
structure Views {α : Type} (view : Content → Option α) (wrap : α → Content)
    (changes : List (Except Failure Change)) : Prop where
  same : ∀ c a, view c = some a → c = wrap a
  other : ∀ c, view c = none → ∀ ch, .ok ch ∈ changes → c.change ch = c

/-- An entry that is put in the place of what was there, if there is one to
put. -/
def putEffect (r : Except Failure Entry) : Effect := fun held =>
  match r with
  | .error f => (.error f, held)
  | .ok e => (.ok (.bool true), some e)

inductive Shape (c : Command) : Effect → Prop
  | put {r : Except Failure Entry} (changes : c.changes = []) (fresh : c.fresh = none)
      (fault : ∀ f, r = .error f → ¬f.Rejects) (whole : ∀ e, r = .ok e → e.content.isEmpty = false) :
      Shape c (putEffect r)
  | grow {α : Type} {view : Content → Option α} {empty : α} {wrap : α → Content}
      {f : α → Except Failure Value × α} (views : Views view wrap c.changes)
      (fresh : c.fresh = some (wrap empty)) (makes : ∀ a, Makes wrap c.changes a (f a))
      (counts : ∀ a v, (f a).1 = .ok v → ∃ n, v = count n)
      (grows : ∀ ch, .ok ch ∈ c.changes → ch.grows = true ∧ ∀ a, ((wrap a).change ch).isEmpty = false) :
      Shape c (growEffect view empty wrap f)
  | shrink {α : Type} {view : Content → Option α} {empty : α} {wrap : α → Content}
      {remove : α → Except Failure Nat × α} (views : Views view wrap c.changes)
      (fresh : c.fresh = none) (makes : ∀ a, Makes wrap c.changes a (remove a)) :
      Shape c (shrinkEffect view empty wrap remove)

section Kinds

theorem field_of_putField {items : List (Value × Value)} {ch : Change}
    (h : .ok ch ∈ items.map putField) : ∃ name value, ch = .field name value := by
  obtain ⟨item, -, hitem⟩ := List.mem_map.mp h
  unfold putField at hitem
  cases he : encodeItem item with
  | error f => simp [he, Except.map] at hitem
  | ok e =>
      simp only [he, Except.map, Except.ok.injEq] at hitem
      exact ⟨e.1, e.2, hitem.symm⟩

theorem score_of_putScore {items : List (Value × Value)} {ch : Change}
    (h : .ok ch ∈ items.map putScore) : ∃ m x, ch = .score m x := by
  obtain ⟨item, -, hitem⟩ := List.mem_map.mp h
  unfold putScore at hitem
  cases hm : encode item.1 with
  | error f => simp [hm, bind, Except.bind] at hitem
  | ok m =>
      cases hx : item.2.toFloat with
      | error f => simp [hm, hx, bind, Except.bind] at hitem
      | ok x =>
          simp only [hm, hx, bind, Except.bind, Except.ok.injEq] at hitem
          exact ⟨m, x, hitem.symm⟩

theorem of_encoded {put : String → Change} {items : List Value} {ch : Change}
    (h : .ok ch ∈ items.map fun v => (encode v).map put) : ∃ x, ch = put x := by
  obtain ⟨v, -, hv⟩ := List.mem_map.mp h
  cases hx : encode v with
  | error f => simp [hx, Except.map] at hv
  | ok x =>
      simp only [hx, Except.map, Except.ok.injEq] at hv
      exact ⟨x, hv.symm⟩

theorem views_hash (items : List (Value × Value)) :
    Views Content.hash? .hash (items.map putField) where
  same c a h := by
    cases c <;> simp_all [Content.hash?]
  other c h ch hch := by
    obtain ⟨name, value, rfl⟩ := field_of_putField hch
    cases c <;> first | rfl | simp [Content.hash?] at h

theorem views_set {put : String → Change} (hput : put = .member ∨ put = .noMember)
    (members : List Value) :
    Views Content.set? .set (members.map fun v => (encode v).map put) where
  same c a h := by
    cases c <;> simp_all [Content.set?]
  other c h ch hch := by
    obtain ⟨m, rfl⟩ := of_encoded hch
    rcases hput with rfl | rfl <;> cases c <;> first | rfl | simp [Content.set?] at h

theorem views_scored {changes : List (Except Failure Change)}
    (hchanges : ∀ ch, .ok ch ∈ changes → (∃ m x, ch = .score m x) ∨ ∃ m, ch = .noScore m) :
    Views Content.scored? .scored changes where
  same c a h := by
    cases c <;> simp_all [Content.scored?]
  other c h ch hch := by
    rcases hchanges ch hch with ⟨m, x, rfl⟩ | ⟨m, rfl⟩ <;> cases c <;>
      first | rfl | simp [Content.scored?] at h

theorem views_sequence (items : List Value) :
    Views Content.sequence? .sequence (items.map fun v => (encode v).map .item) where
  same c a h := by
    cases c <;> simp_all [Content.sequence?]
  other c h ch hch := by
    obtain ⟨x, rfl⟩ := of_encoded hch
    cases c <;> first | rfl | simp [Content.sequence?] at h

theorem isEmpty_insert {κ ν : Type} [BEq κ] (d : Dict κ ν) (k : κ) (v : ν) :
    (Dict.insert d k v).isEmpty = false := by
  cases d with
  | nil => rfl
  | cons e d =>
      simp only [Dict.insert]
      split <;> rfl

theorem isEmpty_addMember (ms : List String) (m : String) : (addMember ms m).isEmpty = false := by
  unfold addMember
  split
  · rename_i h
    cases ms with
    | nil => simp at h
    | cons m' ms => rfl
  · simp

theorem counts_map {β : Type} {r : Except Failure β} {g : β → Nat} {v : Value}
    (h : (r.map fun b => count (g b)) = .ok v) : ∃ n, v = count n := by
  cases r with
  | error f => cases h
  | ok b => exact ⟨g b, (Except.ok.inj h).symm⟩

theorem shape_writeItems {c : Command} {items : List (Value × Value)} (hne : items ≠ [])
    (hfresh : c.fresh = some (.hash [])) (hchanges : c.changes = items.map putField) :
    Shape c (writeItemsEffect items) := by
  have hitems : items.isEmpty = false := by simpa using hne
  simp only [writeItemsEffect, hitems, Bool.false_eq_true, if_false]
  refine .grow (hchanges ▸ views_hash items) hfresh (fun fields => ?_) (fun _ _ => counts_map)
    fun ch hch => ?_
  · rw [hchanges]
    exact (makes_writeItems items fields 0).map count
  · obtain ⟨name, value, rfl⟩ := field_of_putField (hchanges ▸ hch)
    exact ⟨rfl, fun _ => isEmpty_insert _ _ _⟩

theorem shape_refuse {c : Command} (hchanges : c.changes = []) (hfresh : c.fresh = none)
    {f : Failure} (hf : ¬f.Rejects) : Shape c fun held => (.error f, held) := by
  refine Shape.put (r := .error f) hchanges hfresh ?_ nofun
  rintro f' ⟨⟩
  exact hf

end Kinds

theorem shape_effect {c : Command} (hc : c.Direct) (now : Int) : Shape c (effect now c) := by
  cases c with
  | set key value seconds =>
      let r := (encode value).map fun x =>
        Entry.mk (.text x) (seconds.map fun n => now + 1000 * n)
      have heffect : effect now (.set key value seconds) = putEffect r := by
        funext held
        simp only [effect, putEffect, r]
        cases encode value <;> rfl
      rw [heffect]
      refine .put rfl rfl (fun f hf => not_rejects_encode (v := value) ?_) fun e he => ?_
      · cases hv : encode value <;> simp_all [r, Except.map]
      · cases hv : encode value with
        | error f => simp [r, hv, Except.map] at he
        | ok x =>
            simp only [r, hv, Except.map, Except.ok.injEq] at he
            rw [← he]
            rfl
  | hset key field value =>
      by_cases hfield : namesField field = true
      · obtain ⟨hchanges, hfresh⟩ := changes_hset_of_names key value hfield
        have heffect : effect now (.hset key field value) = writeItemsEffect [(field, value)] := by
          simp only [namesField, Bool.and_eq_true, Bool.not_eq_true'] at hfield
          simp [effect, hfield]
        rw [heffect]
        exact shape_writeItems (List.cons_ne_nil _ _) hfresh hchanges
      · have hchanges : (Command.hset key field value).changes = [] := by
          simp [Command.changes, hfield]
        have hfresh : (Command.hset key field value).fresh = none := by
          simp [Command.fresh, hfield]
        simp only [effect]
        split
        · exact shape_refuse hchanges hfresh not_rejects_badInput
        · split
          · simp_all [namesField]
          · refine shape_refuse hchanges hfresh ?_
            rintro ⟨e, he, -⟩
            cases he
  | hsetAll key entries =>
      by_cases hentries : entries = []
      · subst hentries
        exact shape_refuse rfl rfl not_rejects_badInput
      · exact shape_writeItems hentries (by simp [Command.fresh, hentries]) rfl
  | sadd key members =>
      have hfresh : (Command.sadd key members).fresh = some (.set []) := rfl
      simp only [effect, extendEffect]
      refine .grow (views_set (.inl rfl) members) hfresh (fun xs => ?_) (fun _ _ => counts_map)
        fun ch hch => ?_
      · exact (makes_addAll (fun _ _ => rfl) members xs).map _
      · obtain ⟨m, rfl⟩ := of_encoded hch
        exact ⟨rfl, fun ms => isEmpty_addMember ms m⟩
  | srem key members =>
      have hfresh : (Command.srem key members).fresh = none := rfl
      simp only [effect]
      refine .shrink (views_set (.inr rfl) members) hfresh fun xs => ?_
      refine makes_removeAll (fun _ _ => rfl) (fun ms m hm => ?_) members xs 0
      refine List.filter_eq_self.mpr fun m' hm' => ?_
      simp only [ne_eq, decide_eq_true_eq]
      rintro rfl
      simp [hm'] at hm
  | zadd key scores =>
      have hviews : Views Content.scored? .scored (scores.map putScore) :=
        views_scored fun ch hch => .inl (score_of_putScore hch)
      have hfresh : (Command.zadd key scores).fresh = some (.scored []) := rfl
      simp only [effect]
      refine .grow hviews hfresh (fun z => ?_) (fun _ _ => counts_map)
        fun ch hch => ?_
      · exact (makes_writeScores scores z 0).map _
      · obtain ⟨m, x, rfl⟩ := score_of_putScore hch
        exact ⟨rfl, fun z => isEmpty_insert z m x⟩
  | zrem key members =>
      have hviews : Views Content.scored? .scored (members.map fun v => (encode v).map .noScore) :=
        views_scored fun ch hch => .inr (of_encoded hch)
      have hfresh : (Command.zrem key members).fresh = none := rfl
      simp only [effect]
      refine .shrink hviews hfresh fun z => ?_
      exact makes_removeAll (fun _ _ => rfl) (fun _ _ => Dict.erase_of_not_contains) members z 0
  | rpush key items =>
      have hfresh : (Command.rpush key items).fresh = some (.sequence []) := rfl
      simp only [effect, extendEffect]
      refine .grow (views_sequence items) hfresh (fun xs => ?_) (fun _ _ => counts_map)
        fun ch hch => ?_
      · exact (makes_addAll (fun _ _ => rfl) items xs).map _
      · obtain ⟨x, rfl⟩ := of_encoded hch
        exact ⟨rfl, fun xs => by simp [Content.change, Content.isEmpty]⟩
  | _ => exact hc.elim

/-- What is left of a collection when elements were removed without a failure is
not empty. -/
theorem whole_of_shrinkEffect {α : Type} {view : Content → Option α} {empty : α}
    {wrap : α → Content} {remove : α → Except Failure Nat × α} {held : Option Entry} {v : Value}
    (hok : (shrinkEffect view empty wrap remove held).1 = .ok v) :
    ∀ e, (shrinkEffect view empty wrap remove held).2 = some e → e.content.isEmpty = false := by
  intro e he
  cases held with
  | none => cases he
  | some e' =>
      cases hkind : view e'.content with
      | none => simp [shrinkEffect, hkind] at hok
      | some a =>
          rcases hr : remove a with ⟨f | n, a'⟩
          · simp [shrinkEffect, hkind, hr] at hok
          · simp only [shrinkEffect, hkind, hr, unlessEmpty] at he
            split at he
            · cases he
            · rename_i hsome
              cases he
              exact Bool.eq_false_iff.mpr hsome

/-! What follows for every write. -/

section Shape

variable {c : Command} {act : Effect} {held : Option Entry} {f : Failure}

theorem mem_of_made {changes : List (Except Failure Change)} {ch : Change}
    (h : ch ∈ made changes) : .ok ch ∈ changes := by
  induction changes with
  | nil => cases h
  | cons first changes ih =>
      cases first with
      | error f => cases h
      | ok ch' =>
          rcases List.mem_cons.mp h with rfl | h
          · exact List.mem_cons_self ..
          · exact List.mem_cons_of_mem _ (ih h)

theorem mem_of_fault {changes : List (Except Failure Change)} {f : Failure}
    (h : fault? changes = some f) : .error f ∈ changes := by
  induction changes with
  | nil => cases h
  | cons first changes ih =>
      cases first with
      | error f' =>
          cases h
          exact List.mem_cons_self ..
      | ok ch => exact List.mem_cons_of_mem _ (ih h)

theorem not_rejects_fault (h : fault? c.changes = some f) : ¬f.Rejects := by
  have hencoded : ∀ {put : String → Change} {items : List Value},
      .error f ∈ (items.map fun v => (encode v).map put) → ¬f.Rejects := by
    intro put items hmem
    obtain ⟨v, -, hv⟩ := List.mem_map.mp hmem
    refine not_rejects_encode (v := v) ?_
    cases hx : encode v <;> simp_all [Except.map]
  have hfield : ∀ {item}, putField item = .error f → ¬f.Rejects := by
    intro item hitem
    simp only [putField, encodeItem, bind, Except.bind] at hitem
    cases hvalue : encode item.2 with
    | error f' =>
        simp only [hvalue, Except.map, Except.error.injEq] at hitem
        exact hitem ▸ not_rejects_encode hvalue
    | ok value =>
        cases hname : encode item.1 with
        | error f' =>
            simp only [hvalue, hname, Except.map, Except.error.injEq] at hitem
            exact hitem ▸ not_rejects_encode hname
        | ok name => simp [hvalue, hname, Except.map] at hitem
  have hscore : ∀ {item}, putScore item = .error f → ¬f.Rejects := by
    intro item hitem
    simp only [putScore, bind, Except.bind] at hitem
    cases hname : encode item.1 with
    | error f' =>
        simp only [hname, Except.error.injEq] at hitem
        exact hitem ▸ not_rejects_encode hname
    | ok name =>
        cases hvalue : item.2.toFloat with
        | error f' =>
            simp only [hname, hvalue, Except.error.injEq] at hitem
            exact hitem ▸ not_rejects_toFloat hvalue
        | ok value => simp [hname, hvalue] at hitem
  have hmem := mem_of_fault h
  cases c with
  | hset key field value =>
      simp only [Command.changes] at hmem
      split at hmem
      · exact hfield (List.mem_singleton.mp hmem).symm
      · cases hmem
  | hsetAll key entries =>
      obtain ⟨item, -, hitem⟩ := List.mem_map.mp hmem
      exact hfield hitem
  | zadd key scores =>
      obtain ⟨item, -, hitem⟩ := List.mem_map.mp hmem
      exact hscore hitem
  | sadd key items | srem key items | zrem key items | rpush key items => exact hencoded hmem
  | _ => cases hmem

theorem changeAll_eq_self {c : Content} {changes : List Change}
    (h : ∀ ch ∈ changes, c.change ch = c) : c.changeAll changes = c := by
  induction changes with
  | nil => rfl
  | cons ch changes ih =>
      have hfirst := h ch (List.mem_cons_self ..)
      have hrest := ih fun ch' hch' => h ch' (List.mem_cons_of_mem ch hch')
      simp only [Content.changeAll, List.foldl_cons, hfirst]
      exact hrest

theorem halted_of_idle (hchanges : c.changes = []) (hfresh : c.fresh = none)
    (held : Option Entry) : c.halted held = held := by
  cases held with
  | none => simp [Command.halted, hfresh]
  | some e => simp [Command.halted, hchanges, made, Content.changeAll]

theorem halted_of_view_none {α : Type} {view : Content → Option α} {wrap : α → Content}
    (hview : Views view wrap c.changes) {e : Entry} (h : view e.content = none) :
    c.halted (some e) = some e := by
  have hsame : e.content.changeAll (made c.changes) = e.content :=
    changeAll_eq_self fun ch hch => hview.other _ h ch (mem_of_made hch)
  simp only [Command.halted, hsame]

/-- A write that fails has made the changes before the first that cannot be made,
and no other. -/
theorem Shape.left (h : Shape c act) (hf : (act held).1 = .error f) :
    (act held).2 = c.halted held := by
  cases h with
  | @put r hchanges hfresh _ _ =>
      rw [halted_of_idle hchanges hfresh]
      cases r with
      | error f' => rfl
      | ok e => cases hf
  | @grow α view empty wrap g hview hfresh hmakes _ _ =>
      cases held with
      | none => simp only [growEffect, Command.halted, hfresh, Option.map_some, (hmakes empty).left]
      | some e =>
          cases hkind : view e.content with
          | none =>
              rw [halted_of_view_none hview hkind]
              simp only [growEffect, hkind]
          | some a =>
              simp only [growEffect, hkind, Command.halted, (hmakes a).left]
              rw [hview.same _ _ hkind]
  | @shrink α view empty wrap remove hview hfresh hmakes =>
      cases held with
      | none => simp only [shrinkEffect, Command.halted, hfresh, Option.map_none]
      | some e =>
          cases hkind : view e.content with
          | none =>
              rw [halted_of_view_none hview hkind]
              simp only [shrinkEffect, hkind]
          | some a =>
              have hleft := (hmakes a).left
              simp only [shrinkEffect, hkind] at hf ⊢
              rcases hr : remove a with ⟨f' | n, a'⟩
              · rw [hr] at hleft
                simp only [Command.halted]
                rw [hview.same _ _ hkind, ← hleft]
              · simp [hr] at hf

theorem alive_halted (s : Server) (key : String) (c : Command) :
    alive s.now (c.halted (s.live? key)) = c.halted (s.live? key) := by
  have halive := alive_live? s key
  cases hlive : s.live? key with
  | none =>
      simp only [Command.halted]
      cases c.fresh with
      | none => rfl
      | some start => exact alive_some_of_not_expired rfl
  | some e =>
      rw [hlive] at halive
      exact alive_content halive _

theorem Makes.not_rejects {α β : Type} {wrap : α → Content} {a : α} {r : Except Failure β × α}
    (h : Makes wrap c.changes a r) (hr : r.1 = .error f) : ¬f.Rejects := by
  refine not_rejects_fault (c := c) ?_
  rw [← h.failure, hr]
  rfl

theorem Shape.not_rejects_absent (h : Shape c act) (hf : (act none).1 = .error f) :
    ¬f.Rejects := by
  cases h with
  | @put r _ _ hfault _ =>
      cases r with
      | error f' => exact hfault f (congrArg _ (Except.error.inj hf))
      | ok e => cases hf
  | @grow α view empty wrap g _ _ hmakes _ _ => exact (hmakes empty).not_rejects hf
  | @shrink α view empty wrap remove _ _ hmakes => exact ((hmakes empty).map count).not_rejects hf

/-- What the server itself refuses is about another kind of value: nothing was
changed. -/
theorem Shape.of_rejection (h : Shape c act) (hf : (act held).1 = .error f) (hrejects : f.Rejects) :
    c.halted held = held := by
  cases h with
  | put hchanges hfresh _ _ => exact halted_of_idle hchanges hfresh held
  | @grow α view empty wrap g hview hfresh hmakes _ _ =>
      cases held with
      | none => exact ((hmakes empty).not_rejects hf hrejects).elim
      | some e =>
          cases hkind : view e.content with
          | none => exact halted_of_view_none hview hkind
          | some a =>
              simp only [growEffect, hkind] at hf
              exact ((hmakes a).not_rejects hf hrejects).elim
  | @shrink α view empty wrap remove hview hfresh hmakes =>
      cases held with
      | none => exact (((hmakes empty).map count).not_rejects hf hrejects).elim
      | some e =>
          cases hkind : view e.content with
          | none => exact halted_of_view_none hview hkind
          | some a =>
              have hmade := hmakes a
              simp only [shrinkEffect, hkind] at hf
              rcases hr : remove a with ⟨f' | n, a'⟩
              · rw [hr] at hf hmade
                exact (hmade.not_rejects (by simpa using hf) hrejects).elim
              · simp [hr] at hf

theorem Shape.counts (h : Shape c act) {v : Value} (hok : (act held).1 = .ok v) :
    v = .bool true ∨ ∃ n, v = count n := by
  cases h with
  | @put r _ _ _ _ =>
      cases r with
      | error f => cases hok
      | ok e => exact .inl (Except.ok.inj hok).symm
  | @grow α view empty wrap g _ _ _ hcounts _ =>
      refine .inr ?_
      cases held with
      | none => exact hcounts empty v hok
      | some e =>
          cases hkind : view e.content with
          | none => simp [growEffect, hkind] at hok
          | some a =>
              simp only [growEffect, hkind] at hok
              exact hcounts a v hok
  | @shrink α view empty wrap remove _ _ _ =>
      refine .inr ?_
      cases held with
      | none => exact counts_map hok
      | some e =>
          cases hkind : view e.content with
          | none => simp [shrinkEffect, hkind] at hok
          | some a =>
              rcases hr : remove a with ⟨f | n, a'⟩
              · simp [shrinkEffect, hkind, hr] at hok
              · simp only [shrinkEffect, hkind, hr, Except.ok.injEq] at hok
                exact ⟨n, hok.symm⟩

theorem isEmpty_change {content : Content} {ch : Change} (hgrows : ch.grows = true)
    (h : content.isEmpty = false) : (content.change ch).isEmpty = false := by
  cases content <;> cases ch <;>
    simp_all [Content.change, Content.isEmpty, Change.grows, isEmpty_insert, isEmpty_addMember]

theorem isEmpty_changeAll {content : Content} {changes : List Change}
    (hgrows : ∀ ch ∈ changes, ch.grows = true) (h : content.isEmpty = false) :
    (content.changeAll changes).isEmpty = false := by
  induction changes generalizing content with
  | nil => exact h
  | cons ch changes ih =>
      have hfirst := isEmpty_change (hgrows ch (List.mem_cons_self ..)) h
      exact ih (fun ch' hch' => hgrows ch' (List.mem_cons_of_mem ch hch')) hfirst

theorem made_of_no_fault {changes : List (Except Failure Change)} (hne : changes ≠ [])
    (h : fault? changes = none) : ∃ ch rest, made changes = ch :: rest := by
  cases changes with
  | nil => exact absurd rfl hne
  | cons first changes =>
      cases first with
      | error f => cases h
      | ok ch => exact ⟨ch, made changes, rfl⟩

/-- A write that is answered leaves no collection empty; what creates one must
have something to put there. -/
theorem Shape.whole (h : Shape c act) (hloaded : c.fresh ≠ none → c.changes ≠ []) {v : Value}
    (hok : (act held).1 = .ok v) : ∀ e, (act held).2 = some e → e.content.isEmpty = false := by
  cases h with
  | @put r _ _ _ hwhole =>
      cases r with
      | error f => cases hok
      | ok e =>
          rintro e' ⟨⟩
          exact hwhole e rfl
  | @grow α view empty wrap g hview hfresh hmakes _ hgrows =>
      have hgrown : ∀ a, (g a).1 = .ok v → (wrap (g a).2).isEmpty = false := by
        intro a hga
        have hfault : fault? c.changes = none := by rw [← (hmakes a).failure, hga]; rfl
        obtain ⟨ch, rest, hmade⟩ := made_of_no_fault (hloaded (by simp [hfresh])) hfault
        have hmem : ∀ ch' ∈ ch :: rest, .ok ch' ∈ c.changes := fun ch' hch' =>
          mem_of_made (hmade ▸ hch')
        have hfirst := (hgrows ch (hmem ch (List.mem_cons_self ..))).2 a
        have hrest : ∀ ch' ∈ rest, ch'.grows = true := fun ch' hch' =>
          (hgrows ch' (hmem ch' (List.mem_cons_of_mem ch hch'))).1
        rw [(hmakes a).left, hmade]
        show (((wrap a).change ch).changeAll rest).isEmpty = false
        exact isEmpty_changeAll hrest hfirst
      cases held with
      | none =>
          rintro e ⟨⟩
          exact hgrown empty hok
      | some e =>
          cases hkind : view e.content with
          | none => simp [growEffect, hkind] at hok
          | some a =>
              simp only [growEffect, hkind] at hok ⊢
              rintro e' ⟨⟩
              exact hgrown a hok
  | @shrink α view empty wrap remove hview hfresh hmakes =>
      exact whole_of_shrinkEffect hok

end Shape

end FileStash.Server
