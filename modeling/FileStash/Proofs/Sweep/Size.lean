import Mathlib.Algebra.Order.Field.Rat
import Mathlib.Tactic.FieldSimp
import Mathlib.Tactic.Linarith
import FileStash.Proofs.Number.Literal
import FileStash.Proofs.Number.Rounding
import FileStash.Sweep.Size
import FileStash.Text.Split

namespace FileStash.Sweep

def units : List String :=
  unit :: largerUnits ++ [lastUnit]

example : units = ["B", "KB", "MB", "GB", "TB", "PB"] := rfl

/-- The number and the place of the unit in the text of a size. -/
def readSize? (text : String) : Option (ℚ × Nat) :=
  match Text.cutAt ['.'] text.toList with
  | some (whole, place :: ' ' :: name) =>
      if (whole ++ [place]).all Char.isDigit then
        (units.idxOf? (String.ofList name)).map fun k =>
          ((ofDigits ((whole ++ [place]).map (·.toNat - 48)) : ℚ) / 10, k)
      else none
  | _ => none

/-- The place of the first unit that is followed by one too large for a size; the last
unit is followed by none. -/
structure FirstFitting (n k : Nat) : Prop where
  listed : k < units.length
  reached : ∀ j < k, step ^ (j + 1) ≤ n
  next : k + 1 < units.length → n < step ^ (k + 1)

/-- One decimal place, the nearest one; half-way between two the even digit. -/
def RoundsToTenth (v x : ℚ) : Prop :=
  ∃ t : Nat, x = t / 10 ∧ |v - x| ≤ 1 / 20 ∧ (|v - x| = 1 / 20 → t % 2 = 0)

section Text

def sizeText (tenths k : Nat) : String :=
  String.ofList (Binary64.tenthsText false tenths) ++ " " ++ units.getD k ""

theorem ofDigits_snoc (ds : List Nat) (d : Nat) : ofDigits (ds ++ [d]) = 10 * ofDigits ds + d := by
  simp [ofDigits]

theorem exists_digit {d : Nat} (h : d < 10) :
    ∃ c : Char, Text.natDigits d = [c] ∧ c.isDigit = true ∧ c.toNat - 48 = d := by
  have hsingle : Text.natDigits d = [d.digitChar] := Nat.toDigits_of_lt_base h
  have hdigit : d.digitChar.isDigit = true :=
    isDigit_natDigits (by rw [hsingle]; exact List.mem_singleton_self _)
  have hvalue := ofDigits_natDigits d
  rw [hsingle] at hvalue
  exact ⟨_, hsingle, hdigit, by simpa [ofDigits] using hvalue⟩

theorem idxOf?_units {k : Nat} (hk : k < units.length) :
    units.idxOf? (units.getD k "") = some k := by
  have hall : ∀ k < 6, units.idxOf? (units.getD k "") = some k := by decide
  exact hall k hk

theorem readSize?_sizeText (tenths : Nat) {k : Nat} (hk : k < units.length) :
    readSize? (sizeText tenths k) = some ((tenths : ℚ) / 10, k) := by
  obtain ⟨place, hplace, hdigit, hvalue⟩ := exists_digit (Nat.mod_lt tenths (by decide : 0 < 10))
  have hwhole : ∀ c ∈ Text.natDigits (tenths / 10), c.isDigit = true := fun c => isDigit_natDigits
  have hchars : (sizeText tenths k).toList = Text.natDigits (tenths / 10) ++
      (['.'] ++ place :: ' ' :: (units.getD k "").toList) := by
    have hdigits : Nat.toDigits 10 (tenths % 10) = [place] := hplace
    simp [sizeText, Binary64.tenthsText, String.toList_append, hdigits, Text.natDigits]
  have hpoint : ¬['.'] <:+: Text.natDigits (tenths / 10) := by
    intro h
    have hmem := hwhole '.' (h.subset (List.mem_singleton_self _))
    exact absurd hmem (by decide)
  have hcut : Text.cutAt ['.'] (sizeText tenths k).toList =
      some (Text.natDigits (tenths / 10), place :: ' ' :: (units.getD k "").toList) := by
    rw [hchars]
    exact Text.cutAt_append List.not_mem_nil hpoint _
  have hall : (Text.natDigits (tenths / 10) ++ [place]).all Char.isDigit = true := by
    simpa [hdigit] using hwhole
  have htenths :
      ofDigits ((Text.natDigits (tenths / 10) ++ [place]).map (·.toNat - 48)) = tenths := by
    rw [List.map_append, List.map_singleton, ofDigits_snoc, ofDigits_natDigits, hvalue]
    exact Nat.div_add_mod tenths 10
  simp only [readSize?, hcut, hall, if_true, String.ofList_toList, idxOf?_units hk, Option.map_some,
    htenths]

end Text

section Unit

variable {n m k l : Nat}

theorem step_pow (k : Nat) : step ^ k = 2 ^ (10 * k) := by
  rw [Nat.pow_mul]
  rfl

theorem step_pow_pos (k : Nat) : 0 < step ^ k :=
  Nat.pow_pos (by decide)

theorem FirstFitting.mono (h : FirstFitting n k) (h' : FirstFitting m l) (hle : n ≤ m) : k ≤ l := by
  by_contra hlt
  have hnext := h'.next (by have := h.listed; omega)
  have hreached := h.reached l (by omega)
  omega

theorem exists_readableFloat {larger : List String} {x : Binary64} (hpos : n ≠ 0)
    (hx : x.IsExact n (10 * k) (62 * k)) (hunits : units.drop k = larger ++ [lastUnit])
    (hreached : ∀ j < k, step ^ (j + 1) ≤ n) :
    ∃ l, FirstFitting n l ∧
      readableFloat x larger = sizeText (roundDiv (10 * n) (step ^ l)) l := by
  have hlength : units.length = k + (larger.length + 1) := by
    have hdrop := congrArg List.length hunits
    have hsix : units.length = 6 := rfl
    rw [List.length_drop, List.length_append, List.length_singleton] at hdrop
    omega
  have hname : units.getD k "" = (larger ++ [lastUnit]).headD "" := by
    rw [← hunits, List.headD_eq_head?_getD, List.head?_drop, List.getD_eq_getElem?_getD]
  induction larger generalizing k x with
  | nil =>
      refine ⟨k, ⟨by omega, hreached, fun h => ?_⟩, ?_⟩
      · simp only [List.length_nil] at hlength
        omega
      · rw [readableFloat, hx.oneDecimal, step_pow, sizeText, hname]
        rfl
  | cons u larger ih =>
      have hsix : units.length = 6 := rfl
      simp only [List.length_cons] at hlength
      have hless := hx.numLt_iff (by omega) step
      have hstep : step * 2 ^ (10 * k) = step ^ (k + 1) := by rw [Nat.pow_succ', step_pow]
      rw [hstep] at hless
      by_cases hfits : n < step ^ (k + 1)
      · refine ⟨k, ⟨by omega, hreached, fun _ => hfits⟩, ?_⟩
        rw [readableFloat, if_pos (hless.mpr hfits), hx.oneDecimal, step_pow, sizeText, hname]
        rfl
      · have hdrop : units.drop (k + 1) = larger ++ [lastUnit] := by
          rw [← List.drop_drop, hunits]
          rfl
        have hdivided : (x.divNat step).IsExact n (10 * (k + 1)) (62 * (k + 1)) :=
          hx.divNat hpos 10 (by omega)
        rw [readableFloat, if_neg (fun h => hfits (hless.mp h))]
        refine ih hdivided hdrop ?_ ?_ ?_
        · intro j hj
          rcases Nat.lt_succ_iff_lt_or_eq.mp hj with hj | rfl
          · exact hreached j hj
          · exact Nat.not_lt.mp hfits
        · omega
        · rw [← hdrop, List.headD_eq_head?_getD, List.head?_drop, List.getD_eq_getElem?_getD]

/-- What is below the first step is exact as it is; all else is divided once before it is a
floating-point number. -/
theorem exists_readableSize (hn : n < 2 ^ 53) :
    ∃ k, FirstFitting n k ∧
      readableSize (.int n) = .ok (sizeText (roundDiv (10 * n) (step ^ k)) k) := by
  by_cases hsmall : n < step
  · have hexact : (Binary64.ofRatio false n 1).IsExact n 0 1074 := by
      by_cases hpos : n = 0
      · subst hpos
        exact Binary64.isExact_ofRatio_zero 0
      · obtain ⟨m, l, hx, hm, hsame, hl⟩ := Binary64.isExact_ofRatio hpos hn (Nat.zero_le 1074)
        exact ⟨m, l, hx, hm, hsame, hl.trans (by decide)⟩
    have hnone : ¬(n : Int) < 0 := by omega
    have hsmall' : (n : Int) < step := by omega
    have hof : Binary64.ofInt? n = some (Binary64.ofRatio false n 1) := by
      obtain ⟨m, l, hx, -⟩ := hexact
      simp only [Binary64.ofInt?, hnone, decide_false, Int.natAbs_natCast, hx]
    refine ⟨0, ⟨by decide, fun j hj => absurd hj (Nat.not_lt_zero j), fun _ => hsmall⟩, ?_⟩
    simp only [readableSize, readableInteger, if_pos hsmall', hof, hexact.oneDecimal]
    rfl
  · have hstep : step = 2 ^ 10 := rfl
    have hpos : n ≠ 0 := by
      rintro rfl
      exact hsmall (by decide)
    have hlarge : ¬(n : Int) < step := by omega
    have hexact : (Binary64.ofRatio false n step).IsExact n (10 * 1) (62 * 1) := by
      rw [hstep]
      exact Binary64.isExact_ofRatio hpos hn (by decide)
    have hreached : ∀ j < 1, step ^ (j + 1) ≤ n := by
      intro j hj
      obtain rfl : j = 0 := by omega
      exact Nat.not_lt.mp hsmall
    have hunits : units.drop 1 = largerUnits ++ [lastUnit] := rfl
    obtain ⟨k, hk, htext⟩ := exists_readableFloat hpos hexact hunits hreached
    refine ⟨k, hk, ?_⟩
    rw [← htext]
    obtain ⟨m, l, hx, -⟩ := hexact
    simp only [readableSize, readableInteger, if_neg hlarge, Int.toNat_natCast, hx]

end Unit

section Rounding

variable {n m k l : Nat}

theorem roundsToTenth (n k : Nat) :
    RoundsToTenth (n / step ^ k) (roundDiv (10 * n) (step ^ k) / 10) := by
  have hpos : 0 < step ^ k := step_pow_pos k
  obtain ⟨hlow, hhigh⟩ := two_mul_roundDiv_le (10 * n) (step ^ k) hpos
  have htie := @even_roundDiv_of_tie (step ^ k) (10 * n) hpos
  generalize roundDiv (10 * n) (step ^ k) = t at *
  have hcast : ((step ^ k : Nat) : ℚ) = (step : ℚ) ^ k := Nat.cast_pow step k
  rw [← hcast]
  generalize step ^ k = d at *
  have hd : (0 : ℚ) < d := Nat.cast_pos.mpr hpos
  -- the distance in twentieths of a unit, as a whole number over the denominator
  have hscaled : ((n : ℚ) / d - t / 10) * (20 * d) = 2 * (10 * n) - 2 * (d * t) := by
    field_simp
    ring
  have hlow' : (2 * (d * t) : ℚ) ≤ 2 * (10 * n) + d := by exact_mod_cast hlow
  have hhigh' : (2 * (10 * n) : ℚ) ≤ 2 * (d * t) + d := by exact_mod_cast hhigh
  refine ⟨t, rfl, ?_, ?_⟩
  · have hscale : (0 : ℚ) < 20 * d := by linarith
    rw [abs_le]
    constructor
    · refine le_of_mul_le_mul_right ?_ hscale
      linarith
    · refine le_of_mul_le_mul_right ?_ hscale
      linarith
  · intro hhalf
    apply htie
    rcases (abs_eq (by norm_num)).mp hhalf with h | h
    · right
      rw [h] at hscaled
      have hsum : (2 * (10 * n) : ℚ) = 2 * (d * t) + d := by linarith
      exact_mod_cast hsum
    · left
      rw [h] at hscaled
      have hsum : (2 * (10 * n) + d : ℚ) = 2 * (d * t) := by linarith
      exact_mod_cast hsum

/-- The sizes that are told grow with the sizes, also from one unit to the next: a smaller
unit is given at most `step` times, and a larger one at least once. -/
theorem tenths_mono (h : FirstFitting n k) (h' : FirstFitting m l) (hle : n ≤ m) :
    roundDiv (10 * n) (step ^ k) * step ^ k ≤ roundDiv (10 * m) (step ^ l) * step ^ l := by
  have hten : 10 * n ≤ 10 * m := Nat.mul_le_mul_left 10 hle
  rcases (h.mono h' hle).eq_or_lt with rfl | hlt
  · exact Nat.mul_le_mul_right _ (roundDiv_mono hten)
  · have hnext : n < step ^ (k + 1) := h.next (by have := h'.listed; omega)
    have hreached : step ^ l ≤ m := by
      have hlast := h'.reached (l - 1) (by omega)
      rwa [Nat.sub_add_cancel (by omega)] at hlast
    have hmost : roundDiv (10 * n) (step ^ k) ≤ 10 * step := by
      rw [← roundDiv_mul_self (10 * step) (step_pow_pos k)]
      apply roundDiv_mono
      rw [Nat.mul_assoc, ← Nat.pow_succ']
      exact Nat.mul_le_mul_left 10 hnext.le
    have hleast : 10 ≤ roundDiv (10 * m) (step ^ l) := by
      calc 10
        _ = roundDiv (10 * step ^ l) (step ^ l) := (roundDiv_mul_self 10 (step_pow_pos l)).symm
        _ ≤ roundDiv (10 * m) (step ^ l) := roundDiv_mono (Nat.mul_le_mul_left 10 hreached)
    calc roundDiv (10 * n) (step ^ k) * step ^ k
      _ ≤ 10 * step * step ^ k := Nat.mul_le_mul_right _ hmost
      _ = 10 * step ^ (k + 1) := by rw [Nat.mul_assoc, ← Nat.pow_succ']
      _ ≤ 10 * step ^ l := Nat.mul_le_mul_left 10 (Nat.pow_le_pow_right (by decide) hlt)
      _ ≤ roundDiv (10 * m) (step ^ l) * step ^ l := Nat.mul_le_mul_right _ hleast

end Rounding

/-- A size of at most 53 bits is told in the first unit that is followed by one too large for
it, with the nearest number of one decimal place, which is off by a twentieth of the unit
at most; and of two sizes the larger one is never told as the smaller. -/
theorem readable_sizes_are_near_and_in_order {n : Nat} (hn : n < 2 ^ 53) :
    (∃ text x k, readableSize (.int n) = .ok text ∧ readSize? text = some (x, k) ∧
      FirstFitting n k ∧ RoundsToTenth (n / step ^ k) x) ∧
    ∀ m : Nat, n ≤ m → m < 2 ^ 53 → ∀ text text' x y k l,
      readableSize (.int n) = .ok text → readSize? text = some (x, k) →
      readableSize (.int m) = .ok text' → readSize? text' = some (y, l) →
      x * step ^ k ≤ y * step ^ l := by
  obtain ⟨k, hk, htext⟩ := exists_readableSize hn
  have hread := readSize?_sizeText (roundDiv (10 * n) (step ^ k)) hk.listed
  refine ⟨⟨_, _, k, htext, hread, hk, roundsToTenth n k⟩, ?_⟩
  intro m hle hm
  obtain ⟨l, hl, htext'⟩ := exists_readableSize hm
  have hread' := readSize?_sizeText (roundDiv (10 * m) (step ^ l)) hl.listed
  intro text text' x y k' l' htold hsize htold' hsize'
  cases htext.symm.trans htold
  cases htext'.symm.trans htold'
  cases hread.symm.trans hsize
  cases hread'.symm.trans hsize'
  have hmono : ((roundDiv (10 * n) (step ^ k) : ℚ)) * step ^ k ≤
      roundDiv (10 * m) (step ^ l) * step ^ l := by exact_mod_cast tenths_mono hk hl hle
  rw [div_mul_eq_mul_div, div_mul_eq_mul_div]
  exact div_le_div_of_nonneg_right hmono (by norm_num)

/-- A size half-way between two tenths; and one that is a single octet below the next unit
and told as that unit is. -/
theorem tie_to_even_and_last_size_of_unit :
    1280 < 2 ^ 53 ∧ 1048575 < 2 ^ 53 ∧ 1048576 < 2 ^ 53 ∧
    readableSize (.int (1280 : Nat)) = .ok "1.2 KB" ∧
    RoundsToTenth ((1280 : Nat) / step ^ 1) (12 / 10) ∧
    readableSize (.int (1048575 : Nat)) = .ok "1024.0 KB" ∧
    readableSize (.int (1048576 : Nat)) = .ok "1.0 MB" ∧
    (1024 : ℚ) * step ^ 1 ≤ 1 * step ^ 2 := by
  have htie : 1280 < 2 ^ 53 := by decide
  have hlast : 1048575 < 2 ^ 53 := by decide
  have hnext : 1048576 < 2 ^ 53 := by decide
  obtain ⟨htold, htold', htold''⟩ :
      (readableSize (.int (1280 : Nat))).toOption = some "1.2 KB" ∧
      (readableSize (.int (1048575 : Nat))).toOption = some "1024.0 KB" ∧
      (readableSize (.int (1048576 : Nat))).toOption = some "1.0 MB" := by decide +kernel
  obtain ⟨hread, hread', hread''⟩ : readSize? "1.2 KB" = some (12 / 10, 1) ∧
      readSize? "1024.0 KB" = some (1024, 1) ∧ readSize? "1.0 MB" = some (1, 2) := by
    decide +kernel
  obtain ⟨⟨text, x, k, htext, hsize, -, hround⟩, -⟩ := readable_sizes_are_near_and_in_order htie
  obtain ⟨⟨text', -, -, htext', -⟩, hmono⟩ := readable_sizes_are_near_and_in_order hlast
  obtain ⟨⟨text'', -, -, htext'', -⟩, -⟩ := readable_sizes_are_near_and_in_order hnext
  rw [htext] at htold
  rw [htext'] at htold'
  rw [htext''] at htold''
  cases htold
  cases htold'
  cases htold''
  cases hread.symm.trans hsize
  exact ⟨htie, hlast, hnext, htext, hround, htext', htext'',
    hmono 1048576 (by decide) hnext _ _ _ _ _ _ htext' hread' htext'' hread''⟩

end FileStash.Sweep
