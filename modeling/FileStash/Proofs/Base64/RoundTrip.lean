import FileStash.Base64

namespace FileStash.Base64

theorem index?_symbol {n : Nat} (h : n < 64) : index? (symbol n) = some n := by
  have hall : ∀ n : Fin 64, index? (symbol n) = some n.val := by decide
  exact hall ⟨n, h⟩

theorem symbol_ne_pad {n : Nat} (h : n < 64) : symbol n ≠ '=' := by
  have hall : ∀ n : Fin 64, symbol n ≠ '=' := by decide
  exact hall ⟨n, h⟩

theorem symbol_ascii {n : Nat} (h : n < 64) : (symbol n).toNat ≤ 0x7f := by
  have hall : ∀ n : Fin 64, (symbol n).toNat ≤ 0x7f := by decide
  exact hall ⟨n, h⟩

theorem decodeFrom_symbol {s : State} (hs : s.started = false) {n : Nat}
    (h : n < 64) (cs : List Char) :
    decodeFrom s (symbol n :: cs) =
      match s.octet? n with
      | some b => (decodeFrom (s.push n) cs).map (b :: ·)
      | none => decodeFrom (s.push n) cs := by
  cases hoctet : s.octet? n with
  | none => simp [decodeFrom, symbol_ne_pad h, index?_symbol h, hs, hoctet]
  | some b => simp [decodeFrom, symbol_ne_pad h, index?_symbol h, hs, hoctet]

section Group

variable {carry pads written n : Nat} (h : n < 64) (cs : List Char)

include h

theorem decodeFrom_first :
    decodeFrom ⟨0, carry, pads, false, written⟩ (symbol n :: cs) =
      decodeFrom ⟨1, n, 0, false, written⟩ cs :=
  decodeFrom_symbol rfl h cs

theorem decodeFrom_second :
    decodeFrom ⟨1, carry, pads, false, written⟩ (symbol n :: cs) =
      (decodeFrom ⟨2, n % 16, 0, false, written + 1⟩ cs).map
        (UInt8.ofNat (carry * 4 + n / 16) :: ·) :=
  decodeFrom_symbol rfl h cs

theorem decodeFrom_third :
    decodeFrom ⟨2, carry, pads, false, written⟩ (symbol n :: cs) =
      (decodeFrom ⟨3, n % 4, 0, false, written + 1⟩ cs).map
        (UInt8.ofNat (carry * 16 + n / 4) :: ·) :=
  decodeFrom_symbol rfl h cs

theorem decodeFrom_fourth :
    decodeFrom ⟨3, carry, pads, false, written⟩ (symbol n :: cs) =
      (decodeFrom ⟨0, 0, 0, false, written + 1⟩ cs).map
        (UInt8.ofNat (carry * 64 + n) :: ·) :=
  decodeFrom_symbol rfl h cs

end Group

/-- An octet put together from the bits that two neighbouring characters
carry. -/
theorem ofNat_eq_of_toNat {b : UInt8} {n : Nat} (h : n = b.toNat) :
    UInt8.ofNat n = b := by
  rw [h, UInt8.ofNat_toNat]

theorem decodeFrom_encode (written : Nat) (bytes : List UInt8) :
    decodeFrom ⟨0, 0, 0, false, written⟩ (encode bytes) = .ok bytes := by
  fun_induction encode bytes generalizing written with
  | case1 => rfl
  | case2 a =>
      have ha := a.toNat_lt
      have hfirst : UInt8.ofNat (a.toNat / 4 * 4 + a.toNat % 4 * 16 / 16) = a :=
        ofNat_eq_of_toNat (by omega)
      rw [decodeFrom_first (by omega), decodeFrom_second (by omega), hfirst]
      simp [decodeFrom, Except.map]
  | case3 a b =>
      have ha := a.toNat_lt
      have hb := b.toNat_lt
      have hfirst :
          UInt8.ofNat (a.toNat / 4 * 4 + (a.toNat % 4 * 16 + b.toNat / 16) / 16) = a :=
        ofNat_eq_of_toNat (by omega)
      have hsecond : UInt8.ofNat
          ((a.toNat % 4 * 16 + b.toNat / 16) % 16 * 16 + b.toNat % 16 * 4 / 4) = b :=
        ofNat_eq_of_toNat (by omega)
      rw [decodeFrom_first (by omega), decodeFrom_second (by omega),
        decodeFrom_third (by omega), hfirst, hsecond]
      simp [decodeFrom, Except.map]
  | case4 a b c rest ih =>
      have ha := a.toNat_lt
      have hb := b.toNat_lt
      have hc := c.toNat_lt
      have hfirst :
          UInt8.ofNat (a.toNat / 4 * 4 + (a.toNat % 4 * 16 + b.toNat / 16) / 16) = a :=
        ofNat_eq_of_toNat (by omega)
      have hsecond : UInt8.ofNat ((a.toNat % 4 * 16 + b.toNat / 16) % 16 * 16 +
          (b.toNat % 16 * 4 + c.toNat / 64) / 4) = b :=
        ofNat_eq_of_toNat (by omega)
      have hthird : UInt8.ofNat
          ((b.toNat % 16 * 4 + c.toNat / 64) % 4 * 64 + c.toNat % 64) = c :=
        ofNat_eq_of_toNat (by omega)
      rw [decodeFrom_first (by omega), decodeFrom_second (by omega),
        decodeFrom_third (by omega), decodeFrom_fourth (by omega), hfirst,
        hsecond, hthird, ih]
      rfl

theorem mem_encode {bytes : List UInt8} {c : Char} (h : c ∈ encode bytes) :
    c = '=' ∨ ∃ n, n < 64 ∧ c = symbol n := by
  fun_induction encode bytes with
  | case1 => cases h
  | case2 a =>
      have ha := a.toNat_lt
      simp only [List.mem_cons, List.not_mem_nil, or_false] at h
      rcases h with h | h | h | h
      · exact .inr ⟨_, by omega, h⟩
      · exact .inr ⟨_, by omega, h⟩
      · exact .inl h
      · exact .inl h
  | case3 a b =>
      have ha := a.toNat_lt
      have hb := b.toNat_lt
      simp only [List.mem_cons, List.not_mem_nil, or_false] at h
      rcases h with h | h | h | h
      · exact .inr ⟨_, by omega, h⟩
      · exact .inr ⟨_, by omega, h⟩
      · exact .inr ⟨_, by omega, h⟩
      · exact .inl h
  | case4 a b c rest ih =>
      have ha := a.toNat_lt
      have hb := b.toNat_lt
      have hc := c.toNat_lt
      simp only [List.mem_cons] at h
      rcases h with h | h | h | h | h
      · exact .inr ⟨_, by omega, h⟩
      · exact .inr ⟨_, by omega, h⟩
      · exact .inr ⟨_, by omega, h⟩
      · exact .inr ⟨_, by omega, h⟩
      · exact ih h

theorem ascii_of_mem_encode {bytes : List UInt8} {c : Char}
    (h : c ∈ encode bytes) :
    c.toNat ≤ 0x7f := by
  rcases mem_encode h with rfl | ⟨n, hn, rfl⟩
  · decide
  · exact symbol_ascii hn

theorem head?_encode_ne_pad (bytes : List UInt8) :
    (encode bytes).head? ≠ some '=' := by
  have hhead : ∀ a : UInt8, some (symbol (a.toNat / 4)) ≠ some '=' := by
    intro a h
    have ha := a.toNat_lt
    exact symbol_ne_pad (by omega) (Option.some.inj h)
  fun_cases encode bytes with
  | case1 => simp
  | case2 a => exact hhead a
  | case3 a b => exact hhead a
  | case4 a b c rest => exact hhead a

theorem decode_encode (bytes : List UInt8) :
    decode (encode bytes) = .ok bytes := by
  have hascii : ((encode bytes).any fun c => decide (0x7f < c.toNat)) = false := by
    rw [List.any_eq_false]
    intro c hc
    have := ascii_of_mem_encode hc
    simp only [decide_eq_true_eq]
    omega
  unfold decode
  rw [hascii, if_neg (by simp), if_neg (head?_encode_ne_pad bytes)]
  exact decodeFrom_encode 0 bytes

end FileStash.Base64
