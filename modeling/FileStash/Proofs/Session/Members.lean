import FileStash.Proofs.Server.Members
import FileStash.Proofs.Session.Holding

namespace FileStash

open Server (encode addMember removeAll addAll writeScores growEffect shrinkEffect)
open Store (Operation requireKey requireKey_eq_ok_iff asCount)

inductive Gathering
  | plain
  | scored

namespace Gathering

/-- The members under a key, where it holds a set of the kind or nothing. -/
def members : Gathering → Option Entry → Option (List String)
  | .plain, held => Kind.set.under held
  | .scored, held => (Kind.scored.under held).map Dict.keys

/-- An addition of members that can be sent, with the texts that they are sent as;
scores are numbers, or texts of numbers. -/
inductive Adds (key : String) : Gathering → Operation → List String → Prop
  | plain {vs : List Value} {xs : List String} (sent : vs.mapM encode = .ok xs) :
      Adds key .plain (.setAdd (.text key) vs) xs
  | scored {entries : List (Value × Value)} {xs : List String}
      (sent : (entries.map (·.1)).mapM encode = .ok xs)
      (numbers : ∀ e ∈ entries, ∃ x, e.2.toFloat = .ok x) :
      Adds key .scored (.scoredAdd (.text key) (.map entries)) xs

inductive Deletes (key : String) : Gathering → Operation → List String → Prop
  | plain {vs : List Value} {xs : List String} (sent : vs.mapM encode = .ok xs) :
      Deletes key .plain (.setDelete (.text key) vs) xs
  | scored {vs : List Value} {xs : List String} (sent : vs.mapM encode = .ok xs) :
      Deletes key .scored (.scoredDelete (.text key) vs) xs

end Gathering

theorem Value.toSet_texts (ms : List String) :
    (Value.set (ms.map .text)).toSet = .ok ((ms.foldl Server.addMember []).map .text) := by
  have hstep : ∀ (as : List String) (b : String),
      Value.addMember (as.map .text) (.text b) = (Server.addMember as b).map .text := by
    intro as b
    have hany : (as.map Value.text).any (· == .text b) = as.contains b := by
      rw [List.any_map, List.contains_eq_any_beq]
      congr 1
      funext a
      simp [Value.text_beq_text, eq_comm]
    simp only [Value.addMember, Server.addMember, hany]
    split <;> simp
  have hfold : ∀ bs as : List String, (bs.map Value.text).foldl Value.addMember (as.map .text) =
      (bs.foldl Server.addMember as).map .text := by
    intro bs
    induction bs with
    | nil => exact fun _ => rfl
    | cons b bs ih =>
        intro as
        rw [List.map_cons, List.foldl_cons, hstep, ih, List.foldl_cons]
  have hkeys : (ms.map Value.text).all Value.isKey = true := by simp [Value.isKey]
  simp only [Value.toSet, Value.elements, bind, Except.bind, hkeys, if_true]
  exact congrArg Except.ok (hfold ms [])

namespace World

variable {g : Gathering} {key : String} {w : World} {ms xs : List String} {op : Operation}

/-- The key holds a set with the members, each of them listed once. -/
inductive Gathers (key : String) (w : World) : Gathering → List String → Prop
  | plain {ms : List String} (holds : Holds .set key w ms) (nodup : ms.Nodup) :
      Gathers key w .plain ms
  | scored {z : Dict String Binary64} (holds : Holds .scored key w z)
      (nodup : (Dict.keys z).Nodup) : Gathers key w .scored (Dict.keys z)

namespace Gathers

theorem of_absent (hplain : w.Plain) (habsent : w.server.server.live? key = none) :
    Gathers key w g [] := by
  cases g with
  | plain => exact .plain (.of_absent hplain habsent) .nil
  | scored =>
      have hholds : Holds .scored key w [] := .of_absent hplain habsent
      exact .scored hholds .nil

theorem nodup (h : Gathers key w g ms) : ms.Nodup := by
  cases h with
  | plain _ hnodup => exact hnodup
  | scored _ hnodup => exact hnodup

theorem members (h : Gathers key w g ms) :
    g.members (w.server.server.live? key) = some ms := by
  cases h with
  | plain hholds => exact hholds.under
  | scored hholds => exact congrArg (Option.map Dict.keys) hholds.under

theorem step_unchanged (h : Gathers key w g ms) {st : Step} (hst : ¬st.Changes key) :
    Gathers key (w.step st) g ms := by
  cases h with
  | plain hholds hnodup => exact .plain (hholds.step_unchanged hst) hnodup
  | scored hholds hnodup => exact .scored (hholds.step_unchanged hst) hnodup

theorem answer_hasKey (h : Gathers key w g ms) (hk : requireKey (.text key) = .ok key) :
    w.answer (.operate (.hasKey (.text key) .null)) = .ok (.bool (!ms.isEmpty)) := by
  cases h with
  | plain hholds =>
      rw [hholds.answer_hasKey hk]
      cases ms <;> rfl
  | @scored z hholds =>
      rw [hholds.answer_hasKey hk]
      cases z <;> rfl

theorem add (h : Gathers key w g ms) (hk : requireKey (.text key) = .ok key)
    (hadds : g.Adds key op xs) :
    ∃ d : Nat, w.answer (.operate op) = .ok (.int d) ∧
      Gathers key (w.step (.request (.operate op))) g (xs.foldl addMember ms) ∧
      (xs.foldl addMember ms).length = ms.length + d := by
  have hnodup := (Server.foldl_addMember h.nodup xs).1
  cases hadds with
  | @plain vs xs sent =>
      obtain ⟨hholds, -⟩ := h
      have hplan := Operation.plan_setAdd hk vs
      cases vs with
      | nil =>
          cases sent
          obtain ⟨hanswer, hheld⟩ := hholds.idle hplan
          exact ⟨0, hanswer, .plain hheld hnodup, rfl⟩
      | cons v vs =>
          obtain ⟨d, hloop, hlength⟩ := Server.addMembers_of_mapM sent ms
          obtain ⟨y, ys, rfl, -⟩ := Server.of_mapM_encode sent
          obtain ⟨hanswer, hheld⟩ := hholds.grow hplan rfl (Server.effect_sadd ..) hloop
            (Server.foldl_addMember_ne_nil ms y ys)
          exact ⟨d, hanswer, .plain hheld hnodup, hlength⟩
  | @scored entries xs sent numbers =>
      cases h with
      | @scored z hholds hz =>
      have hplan := Operation.plan_scoredAdd hk entries
      cases entries with
      | nil =>
          cases sent
          obtain ⟨hanswer, hheld⟩ := hholds.idle hplan
          exact ⟨0, hanswer, .scored hheld hnodup, rfl⟩
      | cons e entries =>
          obtain ⟨d, z', hloop, hkeys, hlength⟩ := Server.writeScores_of_mapM sent numbers z 0
          obtain ⟨y, ys, rfl, -⟩ := Server.of_mapM_encode sent
          have hfilled : z' ≠ [] := by
            rintro rfl
            exact Server.foldl_addMember_ne_nil _ y ys hkeys.symm
          rw [Nat.zero_add] at hloop
          obtain ⟨hanswer, hheld⟩ := hholds.grow hplan rfl (Server.effect_zadd ..)
            (by rw [hloop]; rfl) hfilled
          rw [← hkeys] at hnodup ⊢
          exact ⟨d, hanswer, .scored hheld hnodup, hlength⟩

theorem delete (h : Gathers key w g ms) (hk : requireKey (.text key) = .ok key)
    (hdeletes : g.Deletes key op xs) :
    ∃ d : Nat, w.answer (.operate op) = .ok (.int d) ∧
      Gathers key (w.step (.request (.operate op))) g (ms.filter (· ∉ xs)) ∧
      ms.length = (ms.filter (· ∉ xs)).length + d := by
  have hnodup : (ms.filter (· ∉ xs)).Nodup := h.nodup.filter _
  cases hdeletes with
  | @plain vs xs sent =>
      obtain ⟨hholds, hms⟩ := h
      have hplan := Operation.plan_setDelete hk vs
      obtain ⟨d, ms', hloop, hmembers, hlength⟩ := Server.removeMembers_of_mapM sent hms
      rw [← hmembers] at hnodup ⊢
      cases vs with
      | nil =>
          cases hloop
          obtain ⟨hanswer, hheld⟩ := hholds.idle hplan
          exact ⟨0, hanswer, .plain hheld hnodup, rfl⟩
      | cons v vs =>
          have hstays : ms = [] → ms' = [] := by
            rintro rfl
            exact hmembers
          obtain ⟨hanswer, hheld⟩ := hholds.shrink hplan rfl (Server.effect_srem ..) hloop hstays
          exact ⟨d, hanswer, .plain hheld hnodup, hlength⟩
  | @scored vs xs sent =>
      cases h with
      | @scored z hholds hz =>
      have hplan := Operation.plan_scoredDelete hk vs
      obtain ⟨d, z', hloop, hkeys, hlength⟩ := Server.removeScores_of_mapM sent hz
      rw [← hkeys] at hnodup ⊢
      cases vs with
      | nil =>
          cases hloop
          obtain ⟨hanswer, hheld⟩ := hholds.idle hplan
          exact ⟨0, hanswer, .scored hheld hnodup, rfl⟩
      | cons v vs =>
          have hstays : z = [] → z' = [] := by
            rintro rfl
            exact List.map_eq_nil_iff.mp hkeys
          obtain ⟨hanswer, hheld⟩ := hholds.shrink hplan rfl (Server.effect_zrem ..) hloop hstays
          exact ⟨d, hanswer, .scored hheld hnodup, hlength⟩

end Gathers

theorem answer_setGetAll (h : Gathers key w .plain ms) (hk : requireKey (.text key) = .ok key) :
    w.answer (.operate (.setGetAll (.text key))) = .ok (.set (ms.map .text)) := by
  obtain ⟨hholds, hnodup⟩ := h
  rw [answer_look hholds.plain hholds.under (Operation.plan_setGetAll hk) rfl
    (Server.effect_smembers ..)]
  have hset : (Value.set (ms.map .text)).toSet = .ok (ms.map .text) := by
    have hkept : ms.foldl Server.addMember [] = ms :=
      Server.foldl_addMember_of_nodup hnodup
    rw [Value.toSet_texts, hkept]
  simp only [Store.conclusion, Store.collected, hset]
  cases ms <;> rfl

/-- A session that changes a key by additions and deletions alone, the members added and
not deleted since, and what was told of additions less what was told of deletions. -/
inductive MemberRun (g : Gathering) (key : String) (w : World) :
    List Step → Finset String → Int → Prop
  | nil : MemberRun g key w [] ∅ 0
  | add {steps : List Step} {S : Finset String} {n d : Int} {op : Operation} {xs : List String}
      (run : MemberRun g key w steps S n) (adds : g.Adds key op xs)
      (told : (w.after steps).answer (.operate op) = .ok (.int d)) :
      MemberRun g key w (steps ++ [.request (.operate op)]) (S ∪ xs.toFinset) (n + d)
  | delete {steps : List Step} {S : Finset String} {n d : Int} {op : Operation}
      {xs : List String} (run : MemberRun g key w steps S n) (deletes : g.Deletes key op xs)
      (told : (w.after steps).answer (.operate op) = .ok (.int d)) :
      MemberRun g key w (steps ++ [.request (.operate op)]) (S \ xs.toFinset) (n - d)
  | other {steps : List Step} {S : Finset String} {n : Int} {st : Step}
      (run : MemberRun g key w steps S n) (unchanged : ¬st.Changes key) :
      MemberRun g key w (steps ++ [st]) S n

/-- The key holds the set, and the numbers add up to its size. -/
structure Counts (g : Gathering) (key : String) (w : World) (S : Finset String) (n : Int)
    (ms : List String) : Prop where
  gathers : Gathers key w g ms
  members : ms.toFinset = S
  total : (S.card : Int) = n

namespace Counts

variable {S : Finset String} {n : Int}

theorem card_eq_length (h : Counts g key w S n ms) : S.card = ms.length := by
  rw [← h.members, List.toFinset_card_of_nodup h.gathers.nodup]

theorem add (h : Counts g key w S n ms) (hk : requireKey (.text key) = .ok key)
    (hadds : g.Adds key op xs) :
    ∃ d : Nat, w.answer (.operate op) = .ok (.int d) ∧ d = (xs.toFinset \ S).card ∧
      Counts g key (w.step (.request (.operate op))) (S ∪ xs.toFinset) (n + d)
        (xs.foldl addMember ms) := by
  obtain ⟨d, hanswer, hgathers, hlength⟩ := h.gathers.add hk hadds
  have hmembers : (xs.foldl addMember ms).toFinset = S ∪ xs.toFinset := by
    rw [(Server.foldl_addMember h.gathers.nodup xs).2, h.members]
  have hcard : (S ∪ xs.toFinset).card = S.card + d := by
    rw [← hmembers, List.toFinset_card_of_nodup hgathers.nodup, hlength, h.card_eq_length]
  have hnew : (S ∪ xs.toFinset).card = S.card + (xs.toFinset \ S).card := by
    rw [← Finset.union_sdiff_self_eq_union, Finset.card_union_of_disjoint Finset.disjoint_sdiff]
  refine ⟨d, hanswer, by omega, hgathers, hmembers, ?_⟩
  rw [hcard, ← h.total, Int.natCast_add]

theorem delete (h : Counts g key w S n ms) (hk : requireKey (.text key) = .ok key)
    (hdeletes : g.Deletes key op xs) :
    ∃ d : Nat, w.answer (.operate op) = .ok (.int d) ∧ d = (xs.toFinset ∩ S).card ∧
      Counts g key (w.step (.request (.operate op))) (S \ xs.toFinset) (n - d)
        (ms.filter (· ∉ xs)) := by
  obtain ⟨d, hanswer, hgathers, hlength⟩ := h.gathers.delete hk hdeletes
  have hmembers : (ms.filter (· ∉ xs)).toFinset = S \ xs.toFinset := by
    rw [← h.members]
    ext m
    simp
  have hcard : S.card = (S \ xs.toFinset).card + d := by
    rw [← hmembers, List.toFinset_card_of_nodup hgathers.nodup, ← hlength, h.card_eq_length]
  have hgone := Finset.card_sdiff_add_card_inter S xs.toFinset
  rw [Finset.inter_comm] at hgone
  refine ⟨d, hanswer, by omega, hgathers, hmembers, ?_⟩
  have htotal := h.total
  omega

theorem step_unchanged (h : Counts g key w S n ms) {st : Step} (hst : ¬st.Changes key) :
    Counts g key (w.step st) S n ms :=
  ⟨h.gathers.step_unchanged hst, h.members, h.total⟩

theorem of_run {steps : List Step} (hk : requireKey (.text key) = .ok key)
    (hstart : Gathers key w g []) (hrun : MemberRun g key w steps S n) :
    ∃ ms, Counts g key (w.after steps) S n ms := by
  induction hrun with
  | nil => exact ⟨[], hstart, rfl, rfl⟩
  | add _ hadds htold ih =>
      obtain ⟨ms, hcounts⟩ := ih
      obtain ⟨d, hanswer, -, hnext⟩ := hcounts.add hk hadds
      cases hanswer.symm.trans htold
      rw [after_snoc]
      exact ⟨_, hnext⟩
  | delete _ hdeletes htold ih =>
      obtain ⟨ms, hcounts⟩ := ih
      obtain ⟨d, hanswer, -, hnext⟩ := hcounts.delete hk hdeletes
      cases hanswer.symm.trans htold
      rw [after_snoc]
      exact ⟨_, hnext⟩
  | other _ hst ih =>
      obtain ⟨ms, hcounts⟩ := ih
      rw [after_snoc]
      exact ⟨ms, hcounts.step_unchanged hst⟩

end Counts

/-- Behind any additions and deletions the members of a set are those added and not
deleted since, as many as were told of additions less those told of deletions, and the
key is there while there are any. An addition tells how many of its members are new, a
deletion how many of its members were there. -/
theorem member_counts_add_up (hplain : w.Plain) (hkey : Text.allBlank key = false)
    (habsent : w.server.server.live? key = none) {steps : List Step} {S : Finset String} {n : Int}
    (hrun : MemberRun g key w steps S n) :
    let k := Value.text key
    let later := w.after steps
    (∃ ms, g.members (later.server.server.live? key) = some ms ∧ ms.Nodup ∧ ms.toFinset = S ∧
        (g = .plain → later.answer (.operate (.setGetAll k)) = .ok (.set (ms.map .text)))) ∧
      (S.card : Int) = n ∧
      later.answer (.operate (.hasKey k .null)) = .ok (.bool (decide S.Nonempty)) ∧
      (∀ op xs, g.Adds key op xs → ∃ d : Nat, later.answer (.operate op) = .ok (.int d) ∧
        d = (xs.toFinset \ S).card ∧ d ≤ xs.length ∧ (xs.toFinset ⊆ S → d = 0)) ∧
      ∀ op xs, g.Deletes key op xs → ∃ d : Nat, later.answer (.operate op) = .ok (.int d) ∧
        d = (xs.toFinset ∩ S).card ∧ d ≤ xs.length := by
  intro k later
  have hk : requireKey k = .ok key := (requireKey_eq_ok_iff _ _).mpr ⟨rfl, hkey⟩
  obtain ⟨ms, hcounts⟩ := Counts.of_run hk (.of_absent hplain habsent) hrun
  refine ⟨⟨ms, hcounts.gathers.members, hcounts.gathers.nodup, hcounts.members, ?_⟩,
    hcounts.total, ?_, ?_, ?_⟩
  · rintro rfl
    exact answer_setGetAll hcounts.gathers hk
  · rw [hcounts.gathers.answer_hasKey hk, ← hcounts.members]
    cases ms <;> simp
  · intro op xs hadds
    obtain ⟨d, hanswer, hd, -⟩ := hcounts.add hk hadds
    refine ⟨d, hanswer, hd, ?_, ?_⟩
    · have hnew := Finset.card_le_card (Finset.sdiff_subset : xs.toFinset \ S ⊆ xs.toFinset)
      exact hd ▸ hnew.trans xs.toFinset_card_le
    · intro hsub
      rw [hd, Finset.sdiff_eq_empty_iff_subset.mpr hsub, Finset.card_empty]
  · intro op xs hdeletes
    obtain ⟨d, hanswer, hd, -⟩ := hcounts.delete hk hdeletes
    refine ⟨d, hanswer, hd, ?_⟩
    have hgone := Finset.card_le_card (Finset.inter_subset_left : xs.toFinset ∩ S ⊆ xs.toFinset)
    exact hd ▸ hgone.trans xs.toFinset_card_le

/-- A number and its text, which are one member, beside another that is deleted again;
and a member that is given a new score. -/
theorem number_and_its_text_count_once :
    let k := Value.text "k"
    let w : World := {}
    let numbers := Operation.setAdd k [.text "a", .int 7, .text "7"]
    let gone := Operation.setDelete k [.text "a", .text "b"]
    let score (x : Binary64) := Operation.scoredAdd k (.map [(.text "m", .float x)])
    let steps := [Step.request (.operate numbers), .wait 5000, .request (.operate gone)]
    (∃ ms : List String, (w.after steps).answer (.operate (.setGetAll k)) = .ok (.set (ms.map .text)) ∧
        ms.toFinset = {"7"}) ∧
      (w.after steps).answer (.operate (.hasKey k .null)) = .ok (.bool true) ∧
      (w.after [.request (.operate (score .zero))]).answer
        (.operate (score (.infinite false))) = .ok (.int 0) := by
  intro k w numbers gone score steps
  have hplain : w.Plain := rfl
  have hkey : Text.allBlank "k" = false := by decide
  have hadded : MemberRun .plain "k" w [.request (.operate numbers)]
      (∅ ∪ ["a", "7", "7"].toFinset) (0 + 2) := .add .nil (.plain rfl) rfl
  have hrun : MemberRun .plain "k" w steps
      ((∅ ∪ ["a", "7", "7"].toFinset) \ ["a", "b"].toFinset) (0 + 2 - 1) :=
    .delete (.other hadded id) (.plain rfl) rfl
  have hseven : (∅ ∪ ["a", "7", "7"].toFinset) \ ["a", "b"].toFinset = {"7"} := by decide
  rw [hseven] at hrun
  have hscores : ∀ x, Gathering.scored.Adds "k" (score x) ["m"] := by
    intro x
    refine .scored rfl ?_
    rintro e he
    cases List.mem_singleton.mp he
    exact ⟨x, rfl⟩
  have hscored : MemberRun .scored "k" w [.request (.operate (score .zero))]
      (∅ ∪ ["m"].toFinset) (0 + 1) := .add .nil (hscores .zero) rfl
  obtain ⟨⟨ms, -, -, hmembers, htold⟩, -, hthere, -⟩ := member_counts_add_up hplain hkey rfl hrun
  obtain ⟨-, -, -, hadd, -⟩ := member_counts_add_up hplain hkey rfl hscored
  refine ⟨⟨ms, htold rfl, hmembers⟩, hthere, ?_⟩
  obtain ⟨d, hanswer, -, -, hagain⟩ := hadd _ ["m"] (hscores (.infinite false))
  rw [hagain (by decide)] at hanswer
  exact hanswer

end World

end FileStash
