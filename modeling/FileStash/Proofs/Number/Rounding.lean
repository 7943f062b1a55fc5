import Mathlib.Tactic.Ring
import FileStash.Number.Decimal

namespace FileStash

section RoundDiv

variable {a b den : Nat}

theorem roundDiv_mono (h : a ≤ b) : roundDiv a den ≤ roundDiv b den := by
  have hbounds (c : Nat) : c / den ≤ roundDiv c den ∧ roundDiv c den ≤ c / den + 1 := by
    unfold roundDiv
    dsimp only
    split_ifs <;> omega
  rcases (Nat.div_le_div_right h : a / den ≤ b / den).lt_or_eq with hlt | heq
  · exact (hbounds a).2.trans (hlt.trans_le (hbounds b).1)
  · have hdiva := Nat.div_add_mod a den
    have hdivb := Nat.div_add_mod b den
    rw [heq] at hdiva
    have hmod : a % den ≤ b % den := by omega
    unfold roundDiv
    dsimp only
    rw [heq]
    split_ifs <;> omega

theorem roundDiv_mul_right (num : Nat) {c : Nat} (hc : 0 < c) :
    roundDiv (num * c) (den * c) = roundDiv num den := by
  have hless (r : Nat) : 2 * (r * c) < den * c ↔ 2 * r < den := by
    rw [← Nat.mul_assoc]
    exact Nat.mul_lt_mul_right hc
  have hmore (r : Nat) : den * c < 2 * (r * c) ↔ den < 2 * r := by
    rw [← Nat.mul_assoc]
    exact Nat.mul_lt_mul_right hc
  simp only [roundDiv, Nat.mul_div_mul_right num den hc, Nat.mul_mod_mul_right, hless, hmore]

theorem roundDiv_mul_self (k : Nat) (h : 0 < den) : roundDiv (k * den) den = k := by
  simp [roundDiv, h]

theorem roundDiv_congr {c d : Nat} (hb : 0 < b) (hd : 0 < d) (h : a * d = c * b) :
    roundDiv a b = roundDiv c d := by
  rw [← roundDiv_mul_right a hd, h, Nat.mul_comm b d, roundDiv_mul_right c hb]

theorem even_roundDiv_of_tie {num : Nat} (h : 0 < den)
    (htie : 2 * num + den = 2 * (den * roundDiv num den) ∨
      2 * num = 2 * (den * roundDiv num den) + den) : roundDiv num den % 2 = 0 := by
  have hdiv := Nat.div_add_mod num den
  have hlt := Nat.mod_lt num h
  unfold roundDiv at htie ⊢
  dsimp only at htie ⊢
  split_ifs at htie ⊢ with hless hmore heven
  · omega
  · rw [Nat.mul_add] at htie
    omega
  · exact heven
  · omega

end RoundDiv

namespace Binary64

/-- The number `n / 2 ^ j`, with at most `b` binary places. -/
def IsExact (x : Binary64) (n j b : Nat) : Prop :=
  ∃ m l : Nat, x = .finite false m (-l) ∧ m < 2 ^ 53 ∧ m * 2 ^ j = n * 2 ^ l ∧ l ≤ b

theorem belowPower_pow {n : Nat} (hpos : n ≠ 0) (j : Nat) :
    belowPower n (2 ^ j) ((n.log2 : Int) - j) = false := by
  have hlow := Nat.log2_self_le hpos
  unfold belowPower
  split
  · have hsum : j + ((n.log2 : Int) - j).toNat = n.log2 := by omega
    have hpow : 2 ^ j * Nat.pow 2 ((n.log2 : Int) - j).toNat = 2 ^ n.log2 := by
      rw [Nat.pow_eq, ← Nat.pow_add, hsum]
    rw [decide_eq_false_iff_not, hpow]
    exact Nat.not_lt.mpr hlow
  · have hsum : n.log2 + (-((n.log2 : Int) - j)).toNat = j := by omega
    have hpow : 2 ^ j ≤ n * Nat.pow 2 (-((n.log2 : Int) - j)).toNat := by
      calc 2 ^ j
        _ = 2 ^ n.log2 * 2 ^ (-((n.log2 : Int) - j)).toNat := by rw [← Nat.pow_add, hsum]
        _ ≤ n * 2 ^ (-((n.log2 : Int) - j)).toNat := Nat.mul_le_mul_right _ hlow
    rw [decide_eq_false_iff_not]
    exact Nat.not_lt.mpr hpow

/-- The last place of a quotient by a power of two lies 52 places behind its first one. -/
theorem lastPlace_pow {n j : Nat} (hpos : n ≠ 0) (hn : n < 2 ^ 53) :
    lastPlace n (2 ^ j) = -((min (52 - n.log2 + j) 1074 : Nat) : Int) := by
  have hlog : n.log2 ≤ 52 := Nat.le_of_lt_succ ((Nat.log2_lt hpos).mpr hn)
  unfold lastPlace
  simp only [Nat.log2_two_pow, belowPower_pow hpos j, minExponent, Bool.false_eq_true, if_false]
  omega

theorem magnitude_neg (m l : Nat) : magnitude m (-(l : Int)) = (m, 2 ^ l) := by
  unfold magnitude
  split
  · have hzero : l = 0 := by omega
    subst hzero
    simp
  · simp

theorem isExact_ofRatio_zero (j : Nat) : IsExact (ofRatio false 0 (2 ^ j)) 0 j 1074 := by
  have hzero : roundDiv 0 (2 ^ j) = 0 := by simp [roundDiv]
  have hofRatio : ofRatio false 0 (2 ^ j) = .finite false 0 (-(minExponent.natAbs : Int)) := by
    simp only [ofRatio, Nat.zero_mul, hzero, pack]
    rfl
  exact ⟨0, minExponent.natAbs, hofRatio, by decide, by rw [Nat.zero_mul, Nat.zero_mul], by decide⟩

theorem isExact_ofRatio {n j : Nat} (hpos : n ≠ 0) (hn : n < 2 ^ 53) (hj : j ≤ 1074) :
    IsExact (ofRatio false n (2 ^ j)) n j (min (j + 52) 1074) := by
  have hlog : n.log2 ≤ 52 := Nat.le_of_lt_succ ((Nat.log2_lt hpos).mpr hn)
  have hhigh : n < 2 ^ (n.log2 + 1) := Nat.lt_log2_self
  generalize hl : min (52 - n.log2 + j) 1074 = l
  have hsum : l = l - j + j := by omega
  have hbits : n * 2 ^ (l - j) < 2 ^ 53 := by
    calc n * 2 ^ (l - j)
      _ < 2 ^ (n.log2 + 1) * 2 ^ (l - j) := Nat.mul_lt_mul_of_pos_right hhigh (Nat.two_pow_pos _)
      _ = 2 ^ (n.log2 + 1 + (l - j)) := (Nat.pow_add ..).symm
      _ ≤ 2 ^ 53 := Nat.pow_le_pow_right (by decide) (by omega)
  have hexact : n * 2 ^ l = n * 2 ^ (l - j) * 2 ^ j := by
    rw [Nat.mul_assoc, ← Nat.pow_add, ← hsum]
  have hround : roundDiv (n * 2 ^ l) (2 ^ j) = n * 2 ^ (l - j) := by
    rw [hexact]
    exact roundDiv_mul_self _ (Nat.two_pow_pos j)
  refine ⟨n * 2 ^ (l - j), l, ?_, hbits, hexact.symm, by omega⟩
  have hplace : lastPlace n (2 ^ j) = -(l : Int) := by rw [lastPlace_pow hpos hn, hl]
  have hsignificand :
      (if 0 ≤ -(l : Int) then roundDiv n (2 ^ j * 2 ^ (-(l : Int)).toNat)
        else roundDiv (n * 2 ^ (-(-(l : Int))).toNat) (2 ^ j)) = n * 2 ^ (l - j) := by
    split
    · have hzero : l = 0 := by omega
      rw [← hround, hzero]
      simp
    · rw [Int.neg_neg, Int.toNat_natCast, hround]
  have hpack : ¬maxExponent < -(l : Int) := by
    unfold maxExponent
    omega
  simp only [ofRatio, if_neg hpos, hplace, Nat.pow_eq, hsignificand, if_neg hbits.ne, pack,
    if_neg hpack]

variable {x : Binary64} {n j b : Nat}

theorem IsExact.divNat (h : IsExact x n j b) (hpos : n ≠ 0) (k : Nat) (hb : b + k ≤ 1074) :
    IsExact (x.divNat (2 ^ k)) n (j + k) (b + k + 52) := by
  obtain ⟨m, l, rfl, hm, hexact, hl⟩ := h
  have hne : m ≠ 0 := by
    rintro rfl
    simp [hpos] at hexact
  have hdiv : divNat (.finite false m (-(l : Int))) (2 ^ k) = ofRatio false m (2 ^ (l + k)) := by
    simp only [Binary64.divNat, magnitude_neg, Nat.pow_add]
  rw [hdiv]
  obtain ⟨m', l', hx, hm', hexact', hl'⟩ := isExact_ofRatio hne hm (by omega : l + k ≤ 1074)
  refine ⟨m', l', hx, hm', ?_, by omega⟩
  apply Nat.eq_of_mul_eq_mul_right (Nat.two_pow_pos l)
  calc m' * 2 ^ (j + k) * 2 ^ l
    _ = m' * 2 ^ (l + k) * 2 ^ j := by ring
    _ = m * 2 ^ j * 2 ^ l' := by rw [hexact']; ring
    _ = n * 2 ^ l' * 2 ^ l := by rw [hexact]; ring

theorem IsExact.oneDecimal (h : IsExact x n j b) :
    x.oneDecimal = String.ofList (tenthsText false (roundDiv (10 * n) (2 ^ j))) := by
  obtain ⟨m, l, rfl, -, hexact, -⟩ := h
  have hround : roundDiv (10 * m) (2 ^ l) = roundDiv (10 * n) (2 ^ j) := by
    apply roundDiv_congr (Nat.two_pow_pos l) (Nat.two_pow_pos j)
    rw [Nat.mul_assoc, hexact, Nat.mul_assoc]
  simp only [Binary64.oneDecimal, magnitude_neg, hround]

theorem extendedInt_eq {e : Nat} (he : 1074 = e) (k : Nat) :
    extendedInt k = .mid ((k * 2 ^ e : Nat) : Int) := by
  rw [extendedInt, he, Nat.pow_eq, Int.natCast_mul]

/-- Compared with a whole number on the common scale, it is as the quotient is. -/
theorem IsExact.numLt_iff (h : IsExact x n j b) (hb : b ≤ 1074) (k : Nat) :
    numLt x.extended? (some (extendedInt k)) = true ↔ n < k * 2 ^ j := by
  obtain ⟨m, l, rfl, -, hexact, hl⟩ := h
  obtain ⟨e, he⟩ : ∃ e, 1074 = e := ⟨_, rfl⟩
  have hle : l ≤ e := by omega
  have hplace : (-(l : Int) - minExponent).toNat = e - l := by
    unfold minExponent
    omega
  have hscale : 2 ^ e = 2 ^ l * 2 ^ (e - l) := by rw [← Nat.pow_add, Nat.add_sub_cancel' hle]
  have hunits : units false m (-(l : Int)) = ((m * 2 ^ (e - l) : Nat) : Int) := by
    simp [units, hplace]
  have hless : numLt (extended? (.finite false m (-(l : Int)))) (some (extendedInt k)) = true ↔
      m * 2 ^ (e - l) < k * 2 ^ e := by
    rw [extendedInt_eq he, extended?, hunits]
    simp only [numLt, Extended.lt, decide_eq_true_eq, Int.ofNat_lt]
  calc numLt (extended? (.finite false m (-(l : Int)))) (some (extendedInt k)) = true
    _ ↔ m * 2 ^ (e - l) < k * 2 ^ l * 2 ^ (e - l) := by rw [hless, hscale, Nat.mul_assoc]
    _ ↔ m * 2 ^ j < k * 2 ^ l * 2 ^ j := by
      rw [Nat.mul_lt_mul_right (Nat.two_pow_pos _), Nat.mul_lt_mul_right (Nat.two_pow_pos _)]
    _ ↔ n * 2 ^ l < k * 2 ^ j * 2 ^ l := by rw [hexact, Nat.mul_right_comm]
    _ ↔ n < k * 2 ^ j := Nat.mul_lt_mul_right (Nat.two_pow_pos _)

end Binary64

end FileStash
