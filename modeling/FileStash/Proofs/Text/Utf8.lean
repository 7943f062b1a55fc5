import FileStash.Text.Utf8

namespace FileStash.Text.Utf8

/-- The forms of a code point: one octet, or a first octet with one, two or three
more that carry six bits each. -/
inductive Form : Nat → List UInt8 → Prop
  | one (a : UInt8) (ha : a.toNat < 0x80) : Form a.toNat [a]
  | two (a b : UInt8) (ha : 0xc2 ≤ a.toNat ∧ a.toNat < 0xe0) (hb : isContinuation b = true) :
      Form ((a.toNat - 0xc0) * 64 + payload b) [a, b]
  | three (a b c : UInt8) (ha : 0xe0 ≤ a.toNat ∧ a.toNat < 0xf0) (hb : isSecondOfThree a b = true)
      (hc : isContinuation c = true) :
      Form ((a.toNat - 0xe0) * 4096 + payload b * 64 + payload c) [a, b, c]
  | four (a b c d : UInt8) (ha : 0xf0 ≤ a.toNat ∧ a.toNat < 0xf5) (hb : isSecondOfFour a b = true)
      (hc : isContinuation c = true) (hd : isContinuation d = true) :
      Form ((a.toNat - 0xf0) * 262144 + payload b * 4096 + payload c * 64 + payload d) [a, b, c, d]

theorem isContinuation_iff (b : UInt8) :
    isContinuation b = true ↔ 0x80 ≤ b.toNat ∧ b.toNat < 0xc0 := by
  simp [isContinuation]

theorem isSecondOfThree_iff (a b : UInt8) :
    isSecondOfThree a b = true ↔ (0x80 ≤ b.toNat ∧ b.toNat < 0xc0) ∧
      (a.toNat = 0xe0 → 0xa0 ≤ b.toNat) ∧ (a.toNat = 0xed → b.toNat < 0xa0) := by
  simp only [isSecondOfThree, Bool.and_eq_true, isContinuation_iff]
  split <;> simp <;> omega

theorem isSecondOfFour_iff (a b : UInt8) :
    isSecondOfFour a b = true ↔ (0x80 ≤ b.toNat ∧ b.toNat < 0xc0) ∧
      (a.toNat = 0xf0 → 0x90 ≤ b.toNat) ∧ (a.toNat = 0xf4 → b.toNat < 0x90) := by
  simp only [isSecondOfFour, Bool.and_eq_true, isContinuation_iff]
  split <;> simp <;> omega

theorem decodeFrom_form {n : Nat} {form : List UInt8} (h : Form n form) (position : Nat)
    (rest : List UInt8) :
    decodeFrom position (form ++ rest) =
      (decodeFrom (position + form.length) rest).map (Char.ofNat n :: ·) := by
  cases h with
  | one a ha =>
      rw [List.singleton_append, decodeFrom.eq_def]
      simp only [ha, if_true, List.length_singleton]
  | two a b ha hb =>
      rw [List.cons_append, List.singleton_append, decodeFrom.eq_def]
      dsimp only
      rw [if_neg (by omega), if_neg (by omega), if_pos ha.2, if_neg (by simp [hb])]
      rfl
  | three a b c ha hb hc =>
      simp only [List.cons_append, List.nil_append]
      rw [decodeFrom.eq_def]
      dsimp only
      rw [if_neg (by omega), if_neg (by omega), if_neg (by omega), if_pos ha.2,
        if_neg (by simp [hb]), if_neg (by simp [hc])]
      rfl
  | four a b c d ha hb hc hd =>
      simp only [List.cons_append, List.nil_append]
      rw [decodeFrom.eq_def]
      dsimp only
      rw [if_neg (by omega), if_neg (by omega), if_neg (by omega), if_neg (by omega),
        if_pos ha.2, if_neg (by simp [hb]), if_neg (by simp [hc]), if_neg (by simp [hd])]
      rfl

theorem toNat_ofNat_octet {n : Nat} (h : n < 256) : (UInt8.ofNat n).toNat = n :=
  UInt8.toNat_ofNat_of_lt' h

theorem code_bounds (c : Char) :
    c.toNat < 0xd800 ∨ 0xdfff < c.toNat ∧ c.toNat < 0x110000 :=
  c.valid

theorem toNat_ofNat_char {n : Nat} (h : n < 0xd800 ∨ 0xdfff < n ∧ n < 0x110000) :
    (Char.ofNat n).toNat = n := by
  have hvalid : n.isValidChar := h
  rw [Char.ofNat, dif_pos hvalid]
  rfl

theorem Form.of_two {n : Nat} {a b : UInt8} (hn : 0x80 ≤ n ∧ n < 0x800)
    (ha : a.toNat = 0xc0 + n / 64) (hb : b.toNat = 0x80 + n % 64) : Form n [a, b] := by
  have hform := Form.two a b (by omega) ((isContinuation_iff b).2 (by omega))
  have hcode : (a.toNat - 0xc0) * 64 + payload b = n := by
    unfold payload
    omega
  rwa [hcode] at hform

theorem Form.of_three {n : Nat} {a b c : UInt8} (hn : 0x800 ≤ n ∧ n < 0x10000)
    (hplain : n < 0xd800 ∨ 0xdfff < n) (ha : a.toNat = 0xe0 + n / 4096)
    (hb : b.toNat = 0x80 + n / 64 % 64) (hc : c.toNat = 0x80 + n % 64) : Form n [a, b, c] := by
  have hform := Form.three a b c (by omega) ((isSecondOfThree_iff a b).2 (by omega))
    ((isContinuation_iff c).2 (by omega))
  have hcode : (a.toNat - 0xe0) * 4096 + payload b * 64 + payload c = n := by
    unfold payload
    omega
  rwa [hcode] at hform

theorem Form.of_four {n : Nat} {a b c d : UInt8} (hn : 0x10000 ≤ n ∧ n < 0x110000)
    (ha : a.toNat = 0xf0 + n / 262144) (hb : b.toNat = 0x80 + n / 4096 % 64)
    (hc : c.toNat = 0x80 + n / 64 % 64) (hd : d.toNat = 0x80 + n % 64) :
    Form n [a, b, c, d] := by
  have hform := Form.four a b c d (by omega) ((isSecondOfFour_iff a b).2 (by omega))
    ((isContinuation_iff c).2 (by omega)) ((isContinuation_iff d).2 (by omega))
  have hcode : (a.toNat - 0xf0) * 262144 + payload b * 4096 + payload c * 64 + payload d = n := by
    unfold payload
    omega
  rwa [hcode] at hform

theorem form_encodeChar (c : Char) : Form c.toNat (encodeChar c) := by
  have hbounds := code_bounds c
  unfold encodeChar
  dsimp only
  split
  · have ha := toNat_ofNat_octet (show c.toNat < 256 by omega)
    simpa only [ha] using Form.one (UInt8.ofNat c.toNat) (by omega)
  · split
    · exact .of_two (by omega) (toNat_ofNat_octet (by omega)) (toNat_ofNat_octet (by omega))
    · split
      · exact .of_three (by omega) (by omega) (toNat_ofNat_octet (by omega))
          (toNat_ofNat_octet (by omega)) (toNat_ofNat_octet (by omega))
      · exact .of_four (by omega) (toNat_ofNat_octet (by omega)) (toNat_ofNat_octet (by omega))
          (toNat_ofNat_octet (by omega)) (toNat_ofNat_octet (by omega))

theorem encodeChar_of_form {n : Nat} {form : List UInt8} (h : Form n form) :
    encodeChar (Char.ofNat n) = form := by
  have hoctet : ∀ {m : Nat} {a : UInt8}, m = a.toNat → UInt8.ofNat m = a := by
    rintro m a rfl
    exact UInt8.ofNat_toNat
  cases h with
  | one a ha =>
      rw [encodeChar, toNat_ofNat_char (.inl (by omega))]
      rw [if_pos ha, hoctet rfl]
  | two a b ha hb =>
      rw [isContinuation_iff] at hb
      generalize hn : (a.toNat - 0xc0) * 64 + payload b = n
      unfold payload at hn
      rw [encodeChar, toNat_ofNat_char (.inl (by omega))]
      rw [if_neg (by omega), if_pos (by omega), hoctet (a := a) (by omega),
        hoctet (a := b) (by omega)]
  | three a b c ha hb hc =>
      rw [isSecondOfThree_iff] at hb
      rw [isContinuation_iff] at hc
      generalize hn : (a.toNat - 0xe0) * 4096 + payload b * 64 + payload c = n
      unfold payload at hn
      rw [encodeChar, toNat_ofNat_char (by omega)]
      rw [if_neg (by omega), if_neg (by omega), if_pos (by omega), hoctet (a := a) (by omega),
        hoctet (a := b) (by omega), hoctet (a := c) (by omega)]
  | four a b c d ha hb hc hd =>
      rw [isSecondOfFour_iff] at hb
      rw [isContinuation_iff] at hc hd
      generalize hn : (a.toNat - 0xf0) * 262144 + payload b * 4096 + payload c * 64 + payload d = n
      unfold payload at hn
      rw [encodeChar, toNat_ofNat_char (by omega)]
      rw [if_neg (by omega), if_neg (by omega), if_neg (by omega), hoctet (a := a) (by omega),
        hoctet (a := b) (by omega), hoctet (a := c) (by omega), hoctet (a := d) (by omega)]

theorem decodeFrom_encodeChars (cs : List Char) (position : Nat) :
    decodeFrom position (encodeChars cs) = .ok cs := by
  induction cs generalizing position with
  | nil => rfl
  | cons c cs ih =>
      show decodeFrom position (encodeChar c ++ encodeChars cs) = .ok (c :: cs)
      rw [decodeFrom_form (form_encodeChar c), ih, Char.ofNat_toNat]
      rfl

theorem encodeChars_of_form {n : Nat} {form rest : List UInt8} {cs : List Char}
    {r : Except Fault (List Char)} (hform : Form n form)
    (hrest : ∀ {ds}, r = .ok ds → encodeChars ds = rest)
    (h : r.map (Char.ofNat n :: ·) = .ok cs) : encodeChars cs = form ++ rest := by
  cases r with
  | error f => cases h
  | ok ds =>
      cases h
      show encodeChar (Char.ofNat n) ++ encodeChars ds = form ++ rest
      rw [encodeChar_of_form hform, hrest rfl]

/-- By the reader's own recursion: four of its cases read a form, and in all the
others there is a fault. -/
theorem encodeChars_of_decodeFrom {position : Nat} {octets : List UInt8} {cs : List Char}
    (h : decodeFrom position octets = .ok cs) : encodeChars cs = octets := by
  fun_induction decodeFrom position octets generalizing cs with
  | case1 position =>
      cases h
      rfl
  | case2 position a rest ha ih =>
      exact encodeChars_of_form (.one a ha) ih h
  | case6 position a _ _ ha b rest hb n =>
      rename_i ih
      exact encodeChars_of_form (.two a b (by omega) (by simpa using hb)) ih h
  | case11 position a _ _ _ ha b hb c rest hc n =>
      rename_i ih
      exact encodeChars_of_form (.three a b c (by omega) (by simpa using hb) (by simpa using hc))
        ih h
  | case18 position a _ _ _ _ ha b hb c hc d rest hd n =>
      rename_i ih
      exact encodeChars_of_form (.four a b c d (by omega) (by simpa using hb) (by simpa using hc)
        (by simpa using hd)) ih h
  | _ => cases h

theorem decode_encode (s : String) : decode (encode s) = .ok s := by
  rw [decode, encode, decodeFrom_encodeChars]
  exact congrArg Except.ok String.ofList_toList

theorem decode_eq_ok_iff (octets : List UInt8) (s : String) :
    decode octets = .ok s ↔ encode s = octets := by
  constructor
  · intro h
    unfold decode at h
    cases hread : decodeFrom 0 octets with
    | error f => simp [hread, Except.map] at h
    | ok cs =>
        rw [hread] at h
        cases h
        rw [encode, String.toList_ofList]
        exact encodeChars_of_decodeFrom hread
  · rintro rfl
    exact decode_encode s

end FileStash.Text.Utf8
