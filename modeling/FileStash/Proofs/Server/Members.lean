import FileStash.Proofs.Server.InTurn
import Mathlib.Data.Finset.Card
import Mathlib.Data.Finset.Dedup

namespace FileStash

namespace Dict

variable {ν : Type} (d : Dict String ν) (k : String)

theorem contains_iff_mem_keys : contains d k = true ↔ k ∈ keys d := by
  induction d with
  | nil => simp [contains, get?, keys]
  | cons e d ih =>
      by_cases h : e.1 = k
      · simp [contains, get?, keys, h]
      · have hne : k ≠ e.1 := fun he => h he.symm
        have hrest : contains (e :: d) k = contains d k := by simp [contains, get?, h]
        rw [hrest, ih]
        simp [keys, hne]

theorem keys_erase : keys (erase d k) = (keys d).filter (· ≠ k) := by
  induction d with
  | nil => rfl
  | cons e d ih =>
      have hrest : keys (List.filter (fun e => !(e.1 == k)) d) = (keys d).filter (· ≠ k) := ih
      by_cases h : e.1 = k
      · simpa [erase, keys, h] using hrest
      · simpa [erase, keys, h] using hrest

end Dict

namespace Server

theorem keys_insert {ν : Type} (d : Dict String ν) (k : String) (v : ν) :
    Dict.keys (Dict.insert d k v) = addMember (Dict.keys d) k := by
  induction d with
  | nil => rfl
  | cons e d ih =>
      by_cases h : e.1 = k
      · simp [Dict.insert, Dict.keys, addMember, h]
      · have hne : k ≠ e.1 := fun he => h he.symm
        have hrest : Dict.keys (Dict.insert (e :: d) k v) = e.1 :: Dict.keys (Dict.insert d k v) := by
          simp [Dict.insert, Dict.keys, h]
        rw [hrest, ih]
        by_cases hmem : k ∈ Dict.keys d
        · simp_all [addMember, Dict.keys]
        · simp_all [addMember, Dict.keys]

section Lists

variable {ms : List String}

theorem nodup_addMember (h : ms.Nodup) (m : String) : (addMember ms m).Nodup := by
  unfold addMember
  split
  · exact h
  · rename_i hnew
    rw [List.contains_iff_mem] at hnew
    rw [List.nodup_append]
    refine ⟨h, List.nodup_singleton m, ?_⟩
    rintro x hx y hy rfl
    rw [List.mem_singleton] at hy
    exact hnew (hy ▸ hx)

theorem toFinset_addMember (ms : List String) (m : String) :
    (addMember ms m).toFinset = ms.toFinset ∪ {m} := by
  unfold addMember
  split
  · rename_i hthere
    rw [List.contains_iff_mem, ← List.mem_toFinset] at hthere
    rw [Finset.union_eq_left.mpr (Finset.singleton_subset_iff.mpr hthere)]
  · rw [List.toFinset_append]
    rfl

theorem length_addMember (ms : List String) (m : String) :
    (addMember ms m).length = ms.length + if m ∈ ms then 0 else 1 := by
  by_cases h : m ∈ ms <;> simp [addMember, h]

theorem foldl_addMember (h : ms.Nodup) (xs : List String) :
    (xs.foldl addMember ms).Nodup ∧
      (xs.foldl addMember ms).toFinset = ms.toFinset ∪ xs.toFinset := by
  induction xs generalizing ms with
  | nil => simpa using h
  | cons x xs ih =>
      obtain ⟨hnodup, hunion⟩ := ih (nodup_addMember h x)
      refine ⟨hnodup, ?_⟩
      rw [List.foldl_cons, hunion, toFinset_addMember, List.toFinset_cons, Finset.union_assoc,
        Finset.insert_eq]

/-- Members that are new, each of them once, come behind those that are there. -/
theorem foldl_addMember_of_nodup {as bs : List String} (h : (as ++ bs).Nodup) :
    bs.foldl addMember as = as ++ bs := by
  induction bs generalizing as with
  | nil => simp
  | cons b bs ih =>
      have hnew : b ∉ as := fun hb =>
        (List.nodup_append.mp h).2.2 b hb b (List.mem_cons_self ..) rfl
      have hadd : addMember as b = as ++ [b] := by simp [addMember, hnew]
      rw [List.foldl_cons, hadd, ih (by simpa using h)]
      simp

theorem length_le_foldl_addMember (ms xs : List String) :
    ms.length ≤ (xs.foldl addMember ms).length := by
  induction xs generalizing ms with
  | nil => exact Nat.le_refl _
  | cons x xs ih =>
      have hfirst := length_addMember ms x
      exact Nat.le_trans (by omega) (ih (addMember ms x))

theorem foldl_addMember_ne_nil (ms : List String) (x : String) (xs : List String) :
    (x :: xs).foldl addMember ms ≠ [] := by
  intro hnil
  have hfirst := length_addMember ms x
  have hrest := length_le_foldl_addMember (addMember ms x) xs
  rw [List.foldl_cons] at hnil
  rw [hnil, List.length_nil, Nat.le_zero] at hrest
  by_cases hmem : x ∈ ms
  · have hpos := List.length_pos_of_mem hmem
    omega
  · rw [if_neg hmem] at hfirst
    omega

theorem length_filter_ne (h : ms.Nodup) (m : String) :
    ms.length = (ms.filter (· ≠ m)).length + if m ∈ ms then 1 else 0 := by
  have herase : ms.filter (· ≠ m) = ms.erase m := by
    rw [h.erase_eq_filter]
    simp [bne, BEq.beq]
  rw [herase, List.length_erase]
  by_cases hm : m ∈ ms
  · have hpos := List.length_pos_of_mem hm
    simp only [hm, if_true]
    omega
  · simp only [hm, if_false, Nat.add_zero]

theorem filter_not_mem_cons (ms : List String) (x : String) (xs : List String) :
    (ms.filter (· ≠ x)).filter (· ∉ xs) = ms.filter (· ∉ x :: xs) := by
  rw [List.filter_filter]
  congr 1
  funext m
  simp [Bool.and_comm]

end Lists

section Loops

variable {xs : List String}

theorem addMembers_of_mapM {vs : List Value} (hsent : vs.mapM encode = .ok xs)
    (ms : List String) :
    ∃ d, ((addAll addMember ms vs).1.map fun _ =>
          count ((addAll addMember ms vs).2.length - ms.length),
        (addAll addMember ms vs).2) = (.ok (count d), xs.foldl addMember ms) ∧
      (xs.foldl addMember ms).length = ms.length + d := by
  have hgrows := length_le_foldl_addMember ms xs
  refine ⟨(xs.foldl addMember ms).length - ms.length, ?_, by omega⟩
  rw [addAll_of_mapM hsent]
  rfl

/-- Scores that can all be written: the members are listed as those of a plain set
are, and the count is by how many they have become more. -/
theorem writeScores_of_mapM {entries : List (Value × Value)}
    (hsent : (entries.map (·.1)).mapM encode = .ok xs)
    (hnumbers : ∀ e ∈ entries, ∃ x, e.2.toFloat = .ok x) (z : Dict String Binary64) (n : Nat) :
    ∃ d z', writeScores z n entries = (.ok (n + d), z') ∧
      Dict.keys z' = xs.foldl addMember (Dict.keys z) ∧
      (Dict.keys z').length = (Dict.keys z).length + d := by
  induction entries generalizing z n xs with
  | nil =>
      cases hsent
      exact ⟨0, z, rfl, rfl, rfl⟩
  | cons e entries ih =>
      obtain ⟨m, ms, rfl, hm, hms⟩ := of_mapM_encode hsent
      obtain ⟨x, hx⟩ := hnumbers e (List.mem_cons_self ..)
      obtain ⟨d, z', hrest, hkeys, hlength⟩ := ih hms
        (fun e' he' => hnumbers e' (List.mem_cons_of_mem e he')) (Dict.insert z m x)
        (if Dict.contains z m then n else n + 1)
      rw [keys_insert] at hkeys hlength
      have hgrown := length_addMember (Dict.keys z) m
      refine ⟨(if m ∈ Dict.keys z then 0 else 1) + d, z', ?_, hkeys, by omega⟩
      simp only [writeScores, hm, hx, hrest]
      by_cases hthere : m ∈ Dict.keys z <;>
        simp [Dict.contains_iff_mem_keys, hthere, Nat.add_assoc]

theorem removeAll_of_mapM {α : Type} {contains : α → String → Bool} {erase : α → String → α}
    {members : α → List String} (hcontains : ∀ a m, contains a m = true ↔ m ∈ members a)
    (herase : ∀ a m, members (erase a m) = (members a).filter (· ≠ m)) {vs : List Value}
    (hsent : vs.mapM encode = .ok xs) {a : α} (hnodup : (members a).Nodup) (n : Nat) :
    ∃ d a', removeAll contains erase a n vs = (.ok (n + d), a') ∧
      members a' = (members a).filter (· ∉ xs) ∧
      (members a).length = (members a').length + d := by
  induction vs generalizing a n xs with
  | nil =>
      cases hsent
      exact ⟨0, a, rfl, by simp, rfl⟩
  | cons v vs ih =>
      obtain ⟨m, ms, rfl, hm, hms⟩ := of_mapM_encode hsent
      by_cases hthere : m ∈ members a
      · have hfewer := length_filter_ne hnodup m
        obtain ⟨d, a', hrest, hmembers, hlength⟩ := ih hms (a := erase a m)
          (by rw [herase]; exact hnodup.filter _) (n + 1)
        rw [herase] at hmembers hlength
        rw [filter_not_mem_cons] at hmembers
        rw [if_pos hthere] at hfewer
        refine ⟨1 + d, a', ?_, hmembers, by omega⟩
        simp only [removeAll, hm, (hcontains a m).mpr hthere, if_true, hrest, Nat.add_assoc]
      · obtain ⟨d, a', hrest, hmembers, hlength⟩ := ih hms hnodup n
        refine ⟨d, a', ?_, ?_, hlength⟩
        · have hnot : contains a m = false := by
            rw [← Bool.not_eq_true, hcontains]
            exact hthere
          simp only [removeAll, hm, hnot, Bool.false_eq_true, if_false, hrest]
        · rw [hmembers, ← filter_not_mem_cons]
          congr 1
          refine (List.filter_eq_self.mpr ?_).symm
          intro x hx
          rw [decide_eq_true_eq]
          rintro rfl
          exact hthere hx

theorem removeMembers_of_mapM {vs : List Value} (hsent : vs.mapM encode = .ok xs)
    {ms : List String} (hms : ms.Nodup) :
    ∃ d ms', removeAll List.contains (fun ms m => ms.filter (· ≠ m)) ms 0 vs = (.ok d, ms') ∧
      ms' = ms.filter (· ∉ xs) ∧ ms.length = ms'.length + d := by
  have hcontains : ∀ (ms : List String) m, ms.contains m = true ↔ m ∈ id ms :=
    fun _ _ => List.contains_iff_mem
  have herase : ∀ (ms : List String) m,
      id (ms.filter (· ≠ m)) = (id ms).filter (· ≠ m) := fun _ _ => rfl
  obtain ⟨d, ms', hloop, hmembers, hlength⟩ := removeAll_of_mapM hcontains herase hsent hms 0
  rw [Nat.zero_add] at hloop
  exact ⟨d, ms', hloop, hmembers, hlength⟩

theorem removeScores_of_mapM {vs : List Value} (hsent : vs.mapM encode = .ok xs)
    {z : Dict String Binary64} (hz : (Dict.keys z).Nodup) :
    ∃ d z', removeAll Dict.contains Dict.erase z 0 vs = (.ok d, z') ∧
      Dict.keys z' = (Dict.keys z).filter (· ∉ xs) ∧
      (Dict.keys z).length = (Dict.keys z').length + d := by
  obtain ⟨d, z', hloop, hkeys, hlength⟩ :=
    removeAll_of_mapM Dict.contains_iff_mem_keys Dict.keys_erase hsent hz 0
  rw [Nat.zero_add] at hloop
  exact ⟨d, z', hloop, hkeys, hlength⟩

end Loops

/-! The commands on sets. -/

theorem effect_sadd (now : Int) (key : String) (vs : List Value) :
    effect now (.sadd key vs) = growEffect Content.set? [] .set fun ms =>
      ((addAll addMember ms vs).1.map fun _ =>
          count ((addAll addMember ms vs).2.length - ms.length),
        (addAll addMember ms vs).2) := rfl

theorem effect_zadd (now : Int) (key : String) (entries : List (Value × Value)) :
    effect now (.zadd key entries) = growEffect Content.scored? [] .scored fun z =>
      ((writeScores z 0 entries).1.map count, (writeScores z 0 entries).2) := rfl

theorem effect_smembers (now : Int) (key : String) :
    effect now (.smembers key) =
      readEffect Content.set? [] fun ms => .ok (.set (ms.map .text)) := rfl

theorem effect_srem (now : Int) (key : String) (vs : List Value) :
    effect now (.srem key vs) = shrinkEffect Content.set? [] .set fun ms =>
      removeAll List.contains (fun ms m => ms.filter (· ≠ m)) ms 0 vs := rfl

theorem effect_zrem (now : Int) (key : String) (vs : List Value) :
    effect now (.zrem key vs) = shrinkEffect Content.scored? [] .scored fun z =>
      removeAll Dict.contains Dict.erase z 0 vs := rfl

end Server

end FileStash
