import FileStash.Number.Literal

namespace FileStash

theorem Text.trim_eq_self {p : Char → Bool} {cs : List Char} (h : ∀ c ∈ cs, p c = false) :
    Text.trim p cs = cs := by
  have hdrop : ∀ {ds : List Char}, (∀ c ∈ ds, p c = false) → ds.dropWhile p = ds := by
    rintro (_ | ⟨d, ds⟩) hds
    · rfl
    · simp [hds d List.mem_cons_self]
  rw [Text.trim, hdrop h, hdrop (by simpa using h), List.reverse_reverse]

theorem isDigit_bounds {c : Char} (h : c.isDigit = true) : 48 ≤ c.toNat ∧ c.toNat ≤ 57 := by
  simpa [Char.isDigit, UInt32.le_iff_toNat_le] using h

theorem Text.digitValue?_of_isDigit {c : Char} (h : c.isDigit = true) :
    Text.digitValue? c = some (c.toNat - 48) := by
  have hbounds := isDigit_bounds h
  have hzero : Text.digitZeros.find? (fun z => z ≤ c.toNat && c.toNat ≤ z + 9) = some 0x30 := by
    rw [Text.digitZeros, List.find?_cons_of_pos]
    simp
    omega
  simp [Text.digitValue?, hzero]

theorem Text.isNumberBlank_of_isDigit {c : Char} (h : c.isDigit = true) :
    Text.isNumberBlank c = false := by
  have hbounds := isDigit_bounds h
  simp [Text.isNumberBlank, Text.isAsciiBlank, Text.isWideBlank]
  omega

theorem takeDigits_of_isDigit {cs : List Char} (h : ∀ c ∈ cs, c.isDigit = true)
    (after : Bool) (hstart : after = true ∨ cs ≠ []) :
    takeDigits Text.digitValue? after cs = some (cs.map (·.toNat - 48), []) := by
  induction cs generalizing after with
  | nil =>
      obtain rfl | hnil := hstart
      · rfl
      · cases hnil rfl
  | cons c cs ih =>
      have hc := Text.digitValue?_of_isDigit (h c List.mem_cons_self)
      have hcs := ih (fun d hd => h d (List.mem_cons_of_mem c hd)) true (.inl rfl)
      rw [takeDigits, hc]
      dsimp only
      rw [hcs]
      rfl

theorem ofDigits_natDigits (n : Nat) : ofDigits ((Text.natDigits n).map (·.toNat - 48)) = n := by
  rw [ofDigits, List.foldl_map]
  exact Nat.ofDigitChars_ten_toDigits

theorem isDigit_natDigits {n : Nat} {c : Char} (h : c ∈ Text.natDigits n) : c.isDigit = true :=
  Nat.isDigit_of_mem_toDigits (by decide) (by decide) h

theorem takeSign_of_isDigit {cs : List Char} (h : ∀ c ∈ cs, c.isDigit = true) :
    takeSign cs = (false, cs) := by
  unfold takeSign
  split
  · exact absurd (h '-' List.mem_cons_self) (by decide)
  · exact absurd (h '+' List.mem_cons_self) (by decide)
  · rfl

theorem readInteger_natDigits {n : Nat} (h : (Text.natDigits n).length ≤ maxIntegerDigits)
    {cs : List Char} {negative : Bool}
    (hsign : takeSign (Text.trim Text.isNumberBlank cs) = (negative, Text.natDigits n)) :
    readInteger .wide cs = .ok (if negative then -(n : Int) else n) := by
  have htake := takeDigits_of_isDigit (fun c => isDigit_natDigits (n := n)) false
    (.inr Nat.toDigits_ne_nil)
  unfold readInteger Alphabet.wide
  dsimp only
  rw [hsign]
  dsimp only
  rw [htake]
  dsimp only
  rw [if_neg (by simpa using h), ofDigits_natDigits]
  rfl

theorem readInteger_integerText {n : Int} {s : String} (h : integerText? n = some s) :
    readInteger .wide s.toList = .ok n := by
  have hdigit : ∀ c ∈ Text.natDigits n.natAbs, c.isDigit = true := fun c => isDigit_natDigits
  have hblank : ∀ c ∈ Text.natDigits n.natAbs, Text.isNumberBlank c = false :=
    fun c hc => Text.isNumberBlank_of_isDigit (hdigit c hc)
  unfold integerText? at h
  dsimp only at h
  split at h
  · cases h
  · rename_i hlength
    cases h
    rw [String.toList_ofList]
    split
    · have hminus : ∀ c ∈ '-' :: Text.natDigits n.natAbs, Text.isNumberBlank c = false := by
        rintro c (_ | ⟨_, hc⟩)
        · decide
        · exact hblank c hc
      have hsign : takeSign (Text.trim Text.isNumberBlank ('-' :: Text.natDigits n.natAbs)) =
          (true, Text.natDigits n.natAbs) := by
        rw [Text.trim_eq_self hminus]
        rfl
      rw [readInteger_natDigits (by omega) hsign, if_pos rfl]
      congr 1
      omega
    · have hsign : takeSign (Text.trim Text.isNumberBlank (Text.natDigits n.natAbs)) =
          (false, Text.natDigits n.natAbs) := by
        rw [Text.trim_eq_self hblank, takeSign_of_isDigit hdigit]
      rw [readInteger_natDigits (by omega) hsign, if_neg (by decide)]
      congr 1
      omega

theorem length_natDigits_le_iff (n : Nat) {k : Nat} (hk : 0 < k) :
    (Text.natDigits n).length ≤ k ↔ n < Nat.pow 10 k :=
  Nat.length_toDigits_le_iff (by decide) hk

/-- The least number with more digits than the limit. -/
def firstOverlong : Nat := Nat.pow 10 maxIntegerDigits

theorem integerText?_isSome_iff (n : Int) :
    (integerText? n).isSome ↔ n.natAbs < firstOverlong := by
  have htext : (integerText? n).isSome ↔ (Text.natDigits n.natAbs).length ≤ maxIntegerDigits := by
    unfold integerText?
    dsimp only
    split <;> simp <;> omega
  have hpos : 0 < maxIntegerDigits := by decide
  unfold firstOverlong
  exact htext.trans (length_natDigits_le_iff n.natAbs hpos)

end FileStash
