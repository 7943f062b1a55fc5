import FileStash.Proofs.Server.Agreement

namespace FileStash.Server

variable {α β : Type}

/-- What can be sent: a text, a number, or octets that are a text. -/
def Sendable (v : Value) : Prop :=
  ∃ x, encode v = .ok x

/-- A part of a command that does with several elements what it does with the first and
then with the others, where the two counts are joined. -/
def StepByStep (fits : β → Prop) (join : Nat → Nat → Nat)
    (f : List β → α → Except Failure Nat × α) : Prop :=
  ∀ a x, fits x → ∃ m a', f [x] a = (.ok m, a') ∧
    ∀ xs, xs ≠ [] → (∀ y ∈ xs, fits y) →
      ∃ n a'', f xs a' = (.ok n, a'') ∧ f (x :: xs) a = (.ok (join m n), a'')

/-- A part of a command that goes on counting from where it is. -/
structure Tallies (fits : β → Prop) (f : α → Nat → List β → Except Failure Nat × α) : Prop where
  nil : ∀ a n, f a n [] = (.ok n, a)
  cons : ∀ a x, fits x → ∃ d a', ∀ n xs, f a n (x :: xs) = f a' (n + d) xs

namespace Tallies

variable {fits : β → Prop} {f : α → Nat → List β → Except Failure Nat × α}

theorem sum (h : Tallies fits f) {xs : List β} (hxs : ∀ y ∈ xs, fits y) (a : α) :
    ∃ d a', ∀ n, f a n xs = (.ok (n + d), a') := by
  induction xs generalizing a with
  | nil => exact ⟨0, a, h.nil a⟩
  | cons x xs ih =>
      obtain ⟨d, a', hfirst⟩ := h.cons a x (hxs x (List.mem_cons_self ..))
      obtain ⟨d', a'', hrest⟩ := ih (fun y hy => hxs y (List.mem_cons_of_mem x hy)) a'
      refine ⟨d + d', a'', ?_⟩
      intro n
      rw [hfirst, hrest, Nat.add_assoc]

theorem stepByStep (h : Tallies fits f) : StepByStep fits (· + ·) fun xs a => f a 0 xs := by
  intro a x hx
  obtain ⟨d, a', hfirst⟩ := h.cons a x hx
  refine ⟨d, a', ?_, ?_⟩
  · show f a 0 [x] = _
    rw [hfirst, h.nil, Nat.zero_add]
  · intro xs _ hxs
    obtain ⟨d', a'', hrest⟩ := h.sum hxs a'
    refine ⟨d', a'', ?_, ?_⟩
    · show f a' 0 xs = _
      rw [hrest, Nat.zero_add]
    · show f a 0 (x :: xs) = _
      rw [hfirst, hrest, Nat.zero_add]

end Tallies

section Elements

def fieldItem (e : String × Value) : Value × Value :=
  (.text e.1, e.2)

theorem tallies_writeItems :
    Tallies (fun e : String × Value => Sendable e.2)
      fun fields n es => writeItems fields n (es.map fieldItem) where
  nil _ _ := rfl
  cons fields e := by
    rintro ⟨x, hx⟩
    refine ⟨if Dict.contains fields e.1 then 0 else 1, Dict.insert fields e.1 x, ?_⟩
    intro n es
    have hitem : encodeItem (.text e.1, e.2) = .ok (e.1, x) := by
      simp only [encodeItem, hx, encode_text, bind, Except.bind]
    simp only [List.map_cons, fieldItem, writeItems, hitem]
    by_cases hthere : Dict.contains fields e.1 = true <;> simp [hthere]

theorem removeFields_nil (n : Nat) (fs : List Value) : removeFields [] n fs = (.ok n, []) := by
  cases fs <;> rfl

theorem tallies_removeFields :
    Tallies (fun _ : String => True) fun fields n fs => removeFields fields n (fs.map .text) where
  nil _ _ := rfl
  cons fields name _ := by
    by_cases hempty : fields.isEmpty = true
    · obtain rfl := List.isEmpty_iff.mp hempty
      refine ⟨0, [], ?_⟩
      intro n fs
      rw [removeFields_nil, removeFields_nil, Nat.add_zero]
    · cases hfield : Dict.get? fields name with
      | none =>
          refine ⟨0, fields, ?_⟩
          intro n fs
          simp only [List.map_cons, removeFields, hempty, field?, hfield, Nat.add_zero]
          rfl
      | some v =>
          refine ⟨1, Dict.erase fields name, ?_⟩
          intro n fs
          simp only [List.map_cons, removeFields, hempty, field?, hfield]
          rfl

theorem tallies_removeAll (contains : α → String → Bool) (erase : α → String → α) :
    Tallies Sendable (removeAll contains erase) where
  nil _ _ := rfl
  cons a v := by
    rintro ⟨x, hx⟩
    cases hthere : contains a x with
    | false =>
        refine ⟨0, a, ?_⟩
        intro n vs
        simp only [removeAll, hx, hthere, Nat.add_zero]
        rfl
    | true =>
        refine ⟨1, erase a x, ?_⟩
        intro n vs
        simp only [removeAll, hx, hthere, if_true]

theorem removeAll_empty {contains : α → String → Bool} {erase : α → String → α} {empty : α}
    (hempty : ∀ m, contains empty m = false) {vs : List Value} (h : ∀ v ∈ vs, Sendable v) :
    removeAll contains erase empty 0 vs = (.ok 0, empty) := by
  induction vs with
  | nil => rfl
  | cons v vs ih =>
      obtain ⟨x, hx⟩ := h v (List.mem_cons_self ..)
      simp only [removeAll, hx, hempty, Bool.false_eq_true, if_false]
      exact ih fun w hw => h w (List.mem_cons_of_mem v hw)

theorem tallies_writeScores :
    Tallies (fun e : Value × Value => Sendable e.1 ∧ ∃ x, e.2.toFloat = .ok x) writeScores where
  nil _ _ := rfl
  cons scores e := by
    rintro ⟨⟨m, hm⟩, x, hx⟩
    refine ⟨if Dict.contains scores m then 0 else 1, Dict.insert scores m x, ?_⟩
    intro n es
    simp only [writeScores, hm, hx]
    by_cases hthere : Dict.contains scores m = true <;> simp [hthere]

section AddAll

variable {add : List String → String → List String}

theorem addAll_sendable {vs : List Value} (h : ∀ v ∈ vs, Sendable v)
    (hgrows : ∀ xs x, xs.length ≤ (add xs x).length) (xs : List String) :
    ∃ ys, addAll add xs vs = (.ok (), ys) ∧ xs.length ≤ ys.length := by
  induction vs generalizing xs with
  | nil => exact ⟨xs, rfl, Nat.le_refl _⟩
  | cons v vs ih =>
      obtain ⟨x, hx⟩ := h v (List.mem_cons_self ..)
      obtain ⟨ys, hys, hle⟩ := ih (fun w hw => h w (List.mem_cons_of_mem v hw)) (add xs x)
      refine ⟨ys, ?_, Nat.le_trans (hgrows xs x) hle⟩
      simp only [addAll, hx, hys]

theorem of_mapM_encode {v : Value} {vs : List Value} {xs : List String}
    (h : (v :: vs).mapM encode = .ok xs) :
    ∃ y ys, xs = y :: ys ∧ encode v = .ok y ∧ vs.mapM encode = .ok ys := by
  rw [List.mapM_cons] at h
  cases hv : encode v with
  | error f => rw [hv] at h; cases h
  | ok y =>
      cases hvs : vs.mapM encode with
      | error f => rw [hv, hvs] at h; cases h
      | ok ys =>
          rw [hv, hvs] at h
          cases h
          exact ⟨y, ys, rfl, rfl, rfl⟩

theorem addAll_of_mapM {vs : List Value} {ys : List String} (h : vs.mapM encode = .ok ys)
    (xs : List String) : addAll add xs vs = (.ok (), ys.foldl add xs) := by
  induction vs generalizing xs ys with
  | nil =>
      cases h
      rfl
  | cons v vs ih =>
      obtain ⟨y, ys, rfl, hy, hys⟩ := of_mapM_encode h
      simp only [addAll, hy]
      exact ih hys (add xs y)

theorem stepByStep_addAll {answer : List String → List String → Nat} {join : Nat → Nat → Nat}
    (hgrows : ∀ xs x, xs.length ≤ (add xs x).length)
    (hanswer : ∀ xs ys zs : List String, xs.length ≤ ys.length → ys.length ≤ zs.length →
      answer xs zs = join (answer xs ys) (answer ys zs)) :
    StepByStep Sendable join fun vs xs =>
      ((addAll add xs vs).1.map fun _ => answer xs (addAll add xs vs).2,
        (addAll add xs vs).2) := by
  rintro xs v ⟨x, hx⟩
  have hcons : ∀ vs, addAll add xs (v :: vs) = addAll add (add xs x) vs := by
    intro vs
    simp only [addAll, hx]
  have hsingle : addAll add xs [v] = (.ok (), add xs x) := hcons []
  refine ⟨answer xs (add xs x), add xs x, ?_, ?_⟩
  · simp only [hsingle, Except.map]
  · intro vs _ hvs
    obtain ⟨zs, hzs, hle⟩ := addAll_sendable hvs hgrows (add xs x)
    refine ⟨answer (add xs x) zs, zs, ?_, ?_⟩
    · simp only [hzs, Except.map]
    · simp only [hcons, hzs, Except.map, hanswer xs (add xs x) zs (hgrows xs x) hle]

end AddAll

end Elements

section Effects

variable {view : Content → Option α} {empty : α} {wrap : α → Content} {fits : β → Prop}
  {join : Nat → Nat → Nat}

/-- What a collection of one kind comes to: where nothing is there, to an empty one. -/
def under (view : Content → Option α) (empty : α) : Option Entry → Option α
  | none => some empty
  | some e => view e.content

/-- An effect on a key that refuses every element, or does with several what it does
with the first and then with the others. -/
def EffectInTurn (fits : β → Prop) (join : Nat → Nat → Nat) (f : List β → Effect) : Prop :=
  ∀ now held, alive now held = held →
    (∀ xs, xs ≠ [] → f xs held = (.error wrongKind, held)) ∨
    ∀ x, fits x → ∃ m held', alive now held' = held' ∧ f [x] held = (.ok (count m), held') ∧
      ∀ xs, xs ≠ [] → (∀ y ∈ xs, fits y) → ∃ n held'',
        f xs held' = (.ok (count n), held'') ∧ f (x :: xs) held = (.ok (count (join m n)), held'')

theorem alive_withContent {now : Int} {held : Option Entry} (h : alive now held = held)
    (c : Content) :
    alive now (some ⟨c, held.bind (·.deadline)⟩) = some ⟨c, held.bind (·.deadline)⟩ := by
  cases held with
  | none => rfl
  | some e => exact alive_content h c

theorem growEffect_otherKind {f : α → Except Failure Value × α} {held : Option Entry}
    (h : under view empty held = none) :
    growEffect view empty wrap f held = (.error wrongKind, held) := by
  cases held with
  | none => cases h
  | some e =>
      have hview : view e.content = none := h
      simp only [growEffect, hview]

theorem growEffect_of_under {f : α → Except Failure Value × α} {held : Option Entry} {a a' : α}
    {r : Except Failure Value} (h : under view empty held = some a) (hf : f a = (r, a')) :
    growEffect view empty wrap f held = (r, some ⟨wrap a', held.bind (·.deadline)⟩) := by
  cases held with
  | none =>
      cases h
      simp only [growEffect, hf]
      rfl
  | some e =>
      have hview : view e.content = some a := h
      simp only [growEffect, hview, hf]
      rfl

theorem effectInTurn_grow (empty : α) (hview : ∀ a, view (wrap a) = some a)
    {step : List β → α → Except Failure Nat × α} (hstep : StepByStep fits join step)
    {f : List β → Effect}
    (hf : ∀ xs, xs ≠ [] →
      f xs = growEffect view empty wrap fun a => ((step xs a).1.map count, (step xs a).2)) :
    EffectInTurn fits join f := by
  intro now held hlive
  cases hunder : under view empty held with
  | none =>
      left
      intro xs hxs
      rw [hf xs hxs]
      exact growEffect_otherKind hunder
  | some a =>
      right
      intro x hx
      obtain ⟨m, a', hfirst, hrest⟩ := hstep a x hx
      refine ⟨m, some ⟨wrap a', held.bind (·.deadline)⟩, alive_withContent hlive _, ?_, ?_⟩
      · rw [hf [x] nofun]
        exact growEffect_of_under hunder (by rw [hfirst]; rfl)
      · intro xs hne hxs
        obtain ⟨n, a'', hothers, hall⟩ := hrest xs hne hxs
        refine ⟨n, some ⟨wrap a'', held.bind (·.deadline)⟩, ?_, ?_⟩
        · rw [hf xs hne]
          exact growEffect_of_under (hview a') (by rw [hothers]; rfl)
        · rw [hf (x :: xs) nofun]
          exact growEffect_of_under hunder (by rw [hall]; rfl)

/-- Elements that are added in turn, where what is answered depends on the lengths
only. -/
theorem effectInTurn_extend {view : Content → Option (List String)}
    {wrap : List String → Content} (hview : ∀ xs, view (wrap xs) = some xs)
    {add : List String → String → List String} (hgrows : ∀ xs x, xs.length ≤ (add xs x).length)
    {answer : List String → List String → Nat}
    (hanswer : ∀ xs ys zs : List String, xs.length ≤ ys.length → ys.length ≤ zs.length →
      answer xs zs = join (answer xs ys) (answer ys zs)) :
    EffectInTurn Sendable join (extendEffect view wrap add answer) := by
  refine effectInTurn_grow [] hview (stepByStep_addAll hgrows hanswer) ?_
  intro vs _
  unfold extendEffect
  congr 1
  funext xs
  cases (addAll add xs vs).1 <;> rfl

theorem shrinkEffect_otherKind {f : α → Except Failure Nat × α} {held : Option Entry}
    (h : under view empty held = none) :
    shrinkEffect view empty wrap f held = (.error wrongKind, held) := by
  cases held with
  | none => cases h
  | some e =>
      have hview : view e.content = none := h
      simp only [shrinkEffect, hview]

theorem shrinkEffect_of_under {f : α → Except Failure Nat × α} {held : Option Entry} {a a' : α}
    {n : Nat} (h : under view empty held = some a) (hf : f a = (.ok n, a'))
    (hempty : (wrap empty).isEmpty = true) (hstays : a = empty → a' = empty) :
    shrinkEffect view empty wrap f held =
      (.ok (count n), unlessEmpty ⟨wrap a', held.bind (·.deadline)⟩) := by
  cases held with
  | none =>
      cases h
      obtain rfl := hstays rfl
      simp only [shrinkEffect, hf, unlessEmpty, hempty, if_true]
      rfl
  | some e =>
      have hview : view e.content = some a := h
      simp only [shrinkEffect, hview, hf]
      rfl

section Removal

variable (hview : ∀ a, view (wrap a) = some a) (hempty : ∀ a, (wrap a).isEmpty = true ↔ a = empty)

theorem unlessEmpty_empty {a : α} (h : (wrap a).isEmpty = true) (d : Option Int) :
    unlessEmpty ⟨wrap a, d⟩ = none := by
  simp only [unlessEmpty, h, if_true]

theorem unlessEmpty_filled {a : α} (h : ¬(wrap a).isEmpty = true) (d : Option Int) :
    unlessEmpty ⟨wrap a, d⟩ = some ⟨wrap a, d⟩ := by
  simp only [unlessEmpty, h, if_false, Bool.false_eq_true]

include hview hempty

theorem under_unlessEmpty (a : α) (d : Option Int) :
    under view empty (unlessEmpty ⟨wrap a, d⟩) = some a := by
  by_cases h : (wrap a).isEmpty = true
  · rw [unlessEmpty_empty h, (hempty a).mp h]
    rfl
  · rw [unlessEmpty_filled h]
    exact hview a

omit hview in
/-- A key that has gone has lost its deadline with it, but then there is nothing left
that could have one. -/
theorem unlessEmpty_again {a a' : α} (hstays : a = empty → a' = empty) (d : Option Int) :
    unlessEmpty ⟨wrap a', (unlessEmpty ⟨wrap a, d⟩).bind (·.deadline)⟩ =
      unlessEmpty ⟨wrap a', d⟩ := by
  by_cases h : (wrap a).isEmpty = true
  · have hgone : (wrap a').isEmpty = true := (hempty a').mpr (hstays ((hempty a).mp h))
    rw [unlessEmpty_empty hgone, unlessEmpty_empty hgone]
  · rw [unlessEmpty_filled h]
    rfl

/-- Elements that are taken away in turn. The key goes with the last of them, and
behind that there is nothing to take away. -/
theorem effectInTurn_shrink {step : List β → α → Except Failure Nat × α}
    (hstep : StepByStep fits join step)
    (hstays : ∀ xs, (∀ y ∈ xs, fits y) → (step xs empty).2 = empty)
    {f : List β → Effect} (hf : ∀ xs, f xs = shrinkEffect view empty wrap (step xs)) :
    EffectInTurn fits join f := by
  have hnone : (wrap empty).isEmpty = true := (hempty empty).mpr rfl
  have hkeeps : ∀ {xs a n a'}, (∀ y ∈ xs, fits y) → step xs a = (.ok n, a') → a = empty →
      a' = empty := by
    rintro xs a n a' hxs hrun rfl
    rw [← hstays xs hxs, hrun]
  intro now held hlive
  cases hunder : under view empty held with
  | none =>
      left
      intro xs _
      rw [hf xs]
      exact shrinkEffect_otherKind hunder
  | some a =>
      right
      intro x hx
      obtain ⟨m, a', hfirst, hrest⟩ := hstep a x hx
      have hsingle : ∀ y ∈ [x], fits y := by simpa using hx
      refine ⟨m, unlessEmpty ⟨wrap a', held.bind (·.deadline)⟩, ?_, ?_, ?_⟩
      · unfold unlessEmpty
        split
        · rfl
        · exact alive_withContent hlive _
      · rw [hf]
        exact shrinkEffect_of_under hunder hfirst hnone (hkeeps hsingle hfirst)
      · intro xs hne hxs
        obtain ⟨n, a'', hothers, hall⟩ := hrest xs hne hxs
        have hboth : ∀ y ∈ x :: xs, fits y := by simpa using ⟨hx, hxs⟩
        -- Where the first was the last there was, the key has gone, and an absent key comes
        -- to the same empty collection.
        have hunder' := under_unlessEmpty hview hempty a' (held.bind (·.deadline))
        refine ⟨n, unlessEmpty ⟨wrap a'', held.bind (·.deadline)⟩, ?_, ?_⟩
        · rw [hf, shrinkEffect_of_under hunder' hothers hnone (hkeeps hxs hothers),
            unlessEmpty_again hempty (hkeeps hxs hothers)]
        · rw [hf]
          exact shrinkEffect_of_under hunder hall hnone (hkeeps hboth hall)

end Removal

end Effects

/-- Commands that do with several elements what they do with the first and then with
the others, or refuse every element. -/
def InTurn (fits : β → Prop) (join : Nat → Nat → Nat) (c : List β → Command) : Prop :=
  ∀ s : Server,
    (∀ xs, xs ≠ [] → (s.run (c xs)).1 = .error wrongKind ∧ Agrees (s.run (c xs)).2 s) ∨
    ∀ x, fits x → ∃ m, (s.run (c [x])).1 = .ok (count m) ∧
      ∀ xs, xs ≠ [] → (∀ y ∈ xs, fits y) → ∃ n,
        ((s.run (c [x])).2.run (c xs)).1 = .ok (count n) ∧
          (s.run (c (x :: xs))).1 = .ok (count (join m n)) ∧
          Agrees (s.run (c (x :: xs))).2 ((s.run (c [x])).2.run (c xs)).2

section Commands

variable {fits : β → Prop} {join : Nat → Nat → Nat} {c : List β → Command} {key : String}

theorem EffectInTurn.inTurn {f : List β → Effect} (h : EffectInTurn fits join f)
    (hkeys : ∀ xs, (c xs).keys = [key]) (hf : ∀ now xs, effect now (c xs) = f xs) :
    InTurn fits join c := by
  intro s
  have hact : ∀ (s : Server) xs, ActsOn s key (f xs) (s.run (c xs)) := by
    intro s xs
    rw [← hf s.now xs]
    exact actsOn_run s (hkeys xs)
  rcases h s.now (s.live? key) (alive_live? s key) with hrefuse | hturn
  · left
    intro xs hxs
    have hsame := hrefuse xs hxs
    refine ⟨by rw [(hact s xs).answer, hsame], .of_unchanged (hkeys xs) ?_⟩
    rw [hf, hsame]
  · right
    intro x hx
    obtain ⟨m, held', hlive, hfirst, hrest⟩ := hturn x hx
    have hone := hact s [x]
    have hhere : (s.run (c [x])).2.live? key = held' := by
      rw [hone.here, hfirst, hlive]
    refine ⟨m, by rw [hone.answer, hfirst], ?_⟩
    intro xs hne hxs
    obtain ⟨n, held'', hothers, hall⟩ := hrest xs hne hxs
    have hthen := hact (s.run (c [x])).2 xs
    have hwhole := hact s (x :: xs)
    rw [← hhere] at hothers
    refine ⟨n, by rw [hthen.answer, hothers], by rw [hwhole.answer, hall], ?_, ?_⟩
    · rw [hwhole.now, hthen.now, hone.now]
    · intro k
      by_cases hk : k = key
      · rw [hk, hwhole.here, hthen.here, hall, hothers, hone.now]
      · rw [live?_congr hwhole.now (hwhole.elsewhere k hk),
          live?_congr hthen.now (hthen.elsewhere k hk), live?_congr hone.now (hone.elsewhere k hk)]

theorem inTurn_hset (key : String) :
    InTurn (fun e : String × Value => Sendable e.2) (· + ·)
      fun es => .hsetAll key (es.map fieldItem) := by
  have hview : ∀ fields, Content.hash? (.hash fields) = some fields := fun _ => rfl
  have hturn : EffectInTurn (fun e : String × Value => Sendable e.2) (· + ·) fun es =>
      writeItemsEffect (es.map fieldItem) := by
    refine effectInTurn_grow [] hview tallies_writeItems.stepByStep fun es hes => ?_
    have hitems : (es.map fieldItem).isEmpty = false := by simpa using hes
    simp only [writeItemsEffect, hitems, Bool.false_eq_true, if_false]
  exact hturn.inTurn (fun _ => rfl) fun _ _ => rfl

theorem inTurn_hdel (key : String) :
    InTurn (fun _ : String => True) (· + ·) fun fields => .hdel key (fields.map .text) := by
  have hview : ∀ fields, Content.hash? (.hash fields) = some fields := fun _ => rfl
  have hempty : ∀ fields, (Content.hash fields).isEmpty = true ↔ fields = [] := by
    simp [Content.isEmpty]
  have hstays : ∀ fields : List String, (∀ f ∈ fields, True) →
      (removeFields [] 0 (fields.map .text)).2 = [] := by
    intro fields _
    rw [removeFields_nil]
  have hturn := effectInTurn_shrink hview hempty tallies_removeFields.stepByStep hstays
    fun _ => rfl
  exact hturn.inTurn (fun _ => rfl) fun _ _ => rfl

theorem inTurn_sadd (key : String) : InTurn Sendable (· + ·) (.sadd key) := by
  have hview : ∀ ms, Content.set? (.set ms) = some ms := fun _ => rfl
  have hgrows : ∀ ms m, ms.length ≤ (addMember ms m).length := by
    intro ms m
    unfold addMember
    split <;> simp
  have hanswer : ∀ xs ys zs : List String, xs.length ≤ ys.length → ys.length ≤ zs.length →
      zs.length - xs.length = (ys.length - xs.length) + (zs.length - ys.length) := by
    intro xs ys zs hxy hyz
    omega
  exact (effectInTurn_extend hview hgrows hanswer).inTurn (fun _ => rfl) fun _ _ => rfl

theorem inTurn_srem (key : String) : InTurn Sendable (· + ·) (.srem key) := by
  have hview : ∀ ms, Content.set? (.set ms) = some ms := fun _ => rfl
  have hempty : ∀ ms, (Content.set ms).isEmpty = true ↔ ms = [] := by simp [Content.isEmpty]
  have hturn := effectInTurn_shrink hview hempty
    (tallies_removeAll List.contains fun ms m => ms.filter (· ≠ m)).stepByStep
    (fun vs hvs => by rw [removeAll_empty (fun _ => rfl) hvs]) fun _ => rfl
  exact hturn.inTurn (fun _ => rfl) fun _ _ => rfl

theorem inTurn_zadd (key : String) :
    InTurn (fun e : Value × Value => Sendable e.1 ∧ ∃ x, e.2.toFloat = .ok x) (· + ·)
      (.zadd key) := by
  have hview : ∀ z, Content.scored? (.scored z) = some z := fun _ => rfl
  have hturn := effectInTurn_grow [] hview tallies_writeScores.stepByStep fun _ _ => rfl
  exact hturn.inTurn (fun _ => rfl) fun _ _ => rfl

theorem inTurn_zrem (key : String) : InTurn Sendable (· + ·) (.zrem key) := by
  have hview : ∀ z, Content.scored? (.scored z) = some z := fun _ => rfl
  have hempty : ∀ z, (Content.scored z).isEmpty = true ↔ z = [] := by simp [Content.isEmpty]
  have hturn := effectInTurn_shrink hview hempty
    (tallies_removeAll Dict.contains Dict.erase).stepByStep
    (fun vs hvs => by rw [removeAll_empty (fun _ => rfl) hvs]) fun _ => rfl
  exact hturn.inTurn (fun _ => rfl) fun _ _ => rfl

theorem inTurn_rpush (key : String) : InTurn Sendable (fun _ n => n) (.rpush key) := by
  have hview : ∀ xs, Content.sequence? (.sequence xs) = some xs := fun _ => rfl
  have hgrows : ∀ (xs : List String) x, xs.length ≤ (xs ++ [x]).length := by simp
  have hturn : EffectInTurn Sendable (fun _ n => n) (extendEffect Content.sequence? .sequence
      (fun xs x => xs ++ [x]) fun _ new => new.length) :=
    effectInTurn_extend hview hgrows fun _ _ _ _ _ => rfl
  exact hturn.inTurn (fun _ => rfl) fun _ _ => rfl

theorem runDelete_counts (s : Server) (keys : List String) :
    ∃ n s', ∀ removed, s.runDelete removed keys = (.ok (count (removed + n)), s') := by
  induction keys generalizing s with
  | nil => exact ⟨0, s, fun _ => rfl⟩
  | cons key keys ih =>
      obtain ⟨n, s', hrest⟩ := ih ((s.purge key).drop key)
      refine ⟨(if (s.live? key).isSome then 1 else 0) + n, s', ?_⟩
      intro removed
      rw [runDelete_cons, hrest]
      split <;> simp [Nat.add_assoc]

theorem run_delete_single (s : Server) (key : String) :
    s.run (.delete [key]) =
      (.ok (count (if (s.live? key).isSome then 1 else 0)), (s.purge key).drop key) := by
  show s.runDelete 0 [key] = _
  rw [runDelete_cons]
  rfl

theorem inTurn_delete (fits : String → Prop) : InTurn fits (· + ·) .delete := by
  intro s
  right
  intro key _
  rw [run_delete_single]
  refine ⟨_, rfl, ?_⟩
  intro keys _ _
  obtain ⟨n, s', hrest⟩ := runDelete_counts ((s.purge key).drop key) keys
  have hall : s.run (.delete (key :: keys)) =
      (.ok (count ((if (s.live? key).isSome then 1 else 0) + n)), s') := by
    show s.runDelete 0 (key :: keys) = _
    rw [runDelete_cons, hrest]
  have hthen : ((s.purge key).drop key).run (.delete keys) = (.ok (count n), s') := by
    show ((s.purge key).drop key).runDelete 0 keys = _
    rw [hrest, Nat.zero_add]
  rw [hall, hthen]
  exact ⟨n, rfl, rfl, .refl s'⟩

end Commands

end FileStash.Server
