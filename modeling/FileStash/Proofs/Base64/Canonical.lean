import FileStash.Proofs.Base64.RoundTrip

namespace FileStash.Base64

/-- The letters, in the order of the six bits that they stand for. -/
def alphabet : List Char :=
  "ABCDEFGHIJKLMNOPQRSTUVWXYZabcdefghijklmnopqrstuvwxyz0123456789+/".toList

def bits (c : Char) : Nat :=
  alphabet.idxOf c

/-- A text of letters and of pads behind them, in groups of four. -/
structure Padded (cs data : List Char) (pads : Nat) : Prop where
  text : cs = data ++ List.replicate pads '='
  letters : ∀ c ∈ data, c ∈ alphabet
  groups : cs.length % 4 = 0
  few : pads ≤ 2

def WellFormed (cs : List Char) : Prop :=
  ∃ data pads, Padded cs data pads

/-- Each pad stands for two bits of the last letter that belong to no octet. -/
def NoSpareBits (data : List Char) (pads : Nat) : Prop :=
  ∀ c ∈ data.getLast?, bits c % Nat.pow 4 pads = 0

def Canonical (cs : List Char) : Prop :=
  ∃ data pads, Padded cs data pads ∧ NoSpareBits data pads

theorem alphabet_eq : alphabet = (List.range 64).map symbol := by decide

theorem mem_alphabet_iff {c : Char} : c ∈ alphabet ↔ ∃ n, n < 64 ∧ symbol n = c := by
  simp [alphabet_eq]

theorem symbol_mem_alphabet {n : Nat} (h : n < 64) : symbol n ∈ alphabet :=
  mem_alphabet_iff.mpr ⟨n, h, rfl⟩

theorem bits_symbol {n : Nat} (h : n < 64) : bits (symbol n) = n := by
  have hall : ∀ n : Fin 64, bits (symbol n) = n.val := by decide +kernel
  exact hall ⟨n, h⟩

theorem exists_symbols {data : List Char} (h : ∀ c ∈ data, c ∈ alphabet) :
    ∃ ns : List Nat, (∀ n ∈ ns, n < 64) ∧ data = ns.map symbol := by
  induction data with
  | nil => exact ⟨[], by simp, rfl⟩
  | cons c data ih =>
      obtain ⟨n, hn, rfl⟩ := mem_alphabet_iff.mp (h c (by simp))
      obtain ⟨ns, hns, rfl⟩ := ih fun c hc => h c (by simp [hc])
      refine ⟨n :: ns, ?_, rfl⟩
      intro m hm
      rcases List.mem_cons.mp hm with rfl | hm
      · exact hn
      · exact hns m hm

/-! What is written is canonical. -/

theorem length_encode (bytes : List UInt8) :
    (encode bytes).length = 4 * ((bytes.length + 2) / 3) := by
  fun_induction encode bytes with
  | case1 => rfl
  | case2 a => simp
  | case3 a b => simp
  | case4 a b c rest ih =>
      simp only [List.length_cons, ih]
      omega

theorem Canonical.group {cs : List Char} (h : Canonical cs) {k l m n : Nat} (hk : k < 64)
    (hl : l < 64) (hm : m < 64) (hn : n < 64) :
    Canonical (symbol k :: symbol l :: symbol m :: symbol n :: cs) := by
  obtain ⟨data, pads, hpadded, hspare⟩ := h
  obtain ⟨rfl, hletters, hgroups, hfew⟩ := hpadded
  refine ⟨symbol k :: symbol l :: symbol m :: symbol n :: data, pads, ?_, ?_⟩
  · constructor
    · rfl
    · intro c hc
      simp only [List.mem_cons] at hc
      rcases hc with rfl | rfl | rfl | rfl | hc
      · exact symbol_mem_alphabet hk
      · exact symbol_mem_alphabet hl
      · exact symbol_mem_alphabet hm
      · exact symbol_mem_alphabet hn
      · exact hletters c hc
    · simp only [List.length_cons]
      omega
    · exact hfew
  · cases data with
    | nil =>
        -- Without letters there are no pads, since two do not fill a group.
        have hnone : pads = 0 := by
          simp only [List.nil_append, List.length_replicate] at hgroups
          omega
        intro c _
        rw [hnone]
        apply Nat.mod_one
    | cons d data =>
        simpa [NoSpareBits, List.getLast?_cons_cons] using hspare

theorem canonical_encode (bytes : List UInt8) : Canonical (encode bytes) := by
  fun_induction encode bytes with
  | case1 => exact ⟨[], 0, ⟨rfl, by simp, rfl, by omega⟩, by simp [NoSpareBits]⟩
  | case2 a =>
      have ha := a.toNat_lt
      have hfirst : a.toNat / 4 < 64 := by omega
      have hsecond : a.toNat % 4 * 16 < 64 := by omega
      refine ⟨[symbol (a.toNat / 4), symbol (a.toNat % 4 * 16)], 2, ⟨rfl, ?_, by simp, by omega⟩, ?_⟩
      · simp [symbol_mem_alphabet, hfirst, hsecond]
      · simp [NoSpareBits, bits_symbol hsecond]
  | case3 a b =>
      have ha := a.toNat_lt
      have hb := b.toNat_lt
      have hfirst : a.toNat / 4 < 64 := by omega
      have hsecond : a.toNat % 4 * 16 + b.toNat / 16 < 64 := by omega
      have hthird : b.toNat % 16 * 4 < 64 := by omega
      refine ⟨[symbol (a.toNat / 4), symbol (a.toNat % 4 * 16 + b.toNat / 16),
        symbol (b.toNat % 16 * 4)], 1, ⟨rfl, ?_, by simp, by omega⟩, ?_⟩
      · simp [symbol_mem_alphabet, hfirst, hsecond, hthird]
      · simp [NoSpareBits, bits_symbol hthird]
  | case4 a b c rest ih =>
      have ha := a.toNat_lt
      have hb := b.toNat_lt
      have hc := c.toNat_lt
      exact ih.group (by omega) (by omega) (by omega) (by omega)

/-! Every canonical text is written: the bits of a group make up its octets. -/

theorem toNat_firstOctet {k l : Nat} (hk : k < 64) (hl : l < 64) :
    (UInt8.ofNat (k * 4 + l / 16)).toNat = k * 4 + l / 16 :=
  UInt8.toNat_ofNat_of_lt' (show k * 4 + l / 16 < 256 by omega)

theorem toNat_secondOctet {l m : Nat} (hm : m < 64) :
    (UInt8.ofNat (l % 16 * 16 + m / 4)).toNat = l % 16 * 16 + m / 4 :=
  UInt8.toNat_ofNat_of_lt' (show l % 16 * 16 + m / 4 < 256 by omega)

theorem toNat_thirdOctet {m n : Nat} (hn : n < 64) :
    (UInt8.ofNat (m % 4 * 64 + n)).toNat = m % 4 * 64 + n :=
  UInt8.toNat_ofNat_of_lt' (show m % 4 * 64 + n < 256 by omega)

section Group

variable {k l m n : Nat} (hk : k < 64) (hl : l < 64)

include hk hl

theorem encode_one (hspare : l % 16 = 0) :
    encode [UInt8.ofNat (k * 4 + l / 16)] = [symbol k, symbol l, '=', '='] := by
  have hfirst : (k * 4 + l / 16) / 4 = k := by omega
  have hsecond : (k * 4 + l / 16) % 4 * 16 = l := by omega
  rw [encode, toNat_firstOctet hk hl, hfirst, hsecond]

variable (hm : m < 64)

include hm

theorem encode_two (hspare : m % 4 = 0) :
    encode [UInt8.ofNat (k * 4 + l / 16), UInt8.ofNat (l % 16 * 16 + m / 4)] =
      [symbol k, symbol l, symbol m, '='] := by
  have hfirst : (k * 4 + l / 16) / 4 = k := by omega
  have hsecond : (k * 4 + l / 16) % 4 * 16 + (l % 16 * 16 + m / 4) / 16 = l := by omega
  have hthird : (l % 16 * 16 + m / 4) % 16 * 4 = m := by omega
  rw [encode, toNat_firstOctet hk hl, toNat_secondOctet hm, hfirst, hsecond, hthird]

theorem encode_three (hn : n < 64) (rest : List UInt8) :
    encode (UInt8.ofNat (k * 4 + l / 16) :: UInt8.ofNat (l % 16 * 16 + m / 4) ::
        UInt8.ofNat (m % 4 * 64 + n) :: rest) =
      symbol k :: symbol l :: symbol m :: symbol n :: encode rest := by
  have hfirst : (k * 4 + l / 16) / 4 = k := by omega
  have hsecond : (k * 4 + l / 16) % 4 * 16 + (l % 16 * 16 + m / 4) / 16 = l := by omega
  have hthird : (l % 16 * 16 + m / 4) % 16 * 4 + (m % 4 * 64 + n) / 64 = m := by omega
  have hfourth : (m % 4 * 64 + n) % 64 = n := by omega
  rw [encode, toNat_firstOctet hk hl, toNat_secondOctet hm, toNat_thirdOctet hn, hfirst,
    hsecond, hthird, hfourth]

end Group

theorem exists_encode_symbols {pads : Nat} (hfew : pads ≤ 2) :
    ∀ ns : List Nat, (∀ n ∈ ns, n < 64) → (ns.length + pads) % 4 = 0 →
      (∀ n ∈ ns.getLast?, n % Nat.pow 4 pads = 0) →
      ∃ bytes, encode bytes = ns.map symbol ++ List.replicate pads '='
  | [], _, hgroups, _ => by
      have hnone : pads = 0 := by
        simp only [List.length_nil] at hgroups
        omega
      subst hnone
      exact ⟨[], rfl⟩
  | [k], _, hgroups, _ => by
      simp only [List.length_cons, List.length_nil] at hgroups
      omega
  | [k, l], hsmall, hgroups, hspare => by
      have htwo : pads = 2 := by
        simp only [List.length_cons, List.length_nil] at hgroups
        omega
      subst htwo
      have hlast : l % 16 = 0 := hspare l (by simp)
      exact ⟨_, encode_one (hsmall k (by simp)) (hsmall l (by simp)) hlast⟩
  | [k, l, m], hsmall, hgroups, hspare => by
      have hone : pads = 1 := by
        simp only [List.length_cons, List.length_nil] at hgroups
        omega
      subst hone
      have hlast : m % 4 = 0 := hspare m (by simp)
      exact ⟨_, encode_two (hsmall k (by simp)) (hsmall l (by simp)) (hsmall m (by simp)) hlast⟩
  | k :: l :: m :: n :: ns, hsmall, hgroups, hspare => by
      have hrest : (ns.length + pads) % 4 = 0 := by
        simp only [List.length_cons] at hgroups
        omega
      have hlast : ∀ n ∈ ns.getLast?, n % Nat.pow 4 pads = 0 := by
        intro last hmem
        apply hspare
        cases ns with
        | nil => cases hmem
        | cons n' ns => simpa [List.getLast?_cons_cons] using hmem
      obtain ⟨bytes, hbytes⟩ :=
        exists_encode_symbols hfew ns (fun n hn => hsmall n (by simp [hn])) hrest hlast
      refine ⟨_, (encode_three (hsmall k (by simp)) (hsmall l (by simp)) (hsmall m (by simp))
        (hsmall n (by simp)) bytes).trans ?_⟩
      rw [hbytes]
      rfl

theorem Canonical.exists_encode {cs : List Char} (h : Canonical cs) :
    ∃ bytes, encode bytes = cs := by
  obtain ⟨data, pads, ⟨rfl, hletters, hgroups, hfew⟩, hspare⟩ := h
  obtain ⟨ns, hsmall, rfl⟩ := exists_symbols hletters
  apply exists_encode_symbols hfew ns hsmall
  · simpa using hgroups
  · intro n hn
    have hmem : symbol n ∈ (ns.map symbol).getLast? := by
      rw [List.getLast?_map]
      exact Option.mem_map_of_mem symbol hn
    have hlast := hspare _ hmem
    rwa [bits_symbol (hsmall n (List.mem_of_getLast? hn))] at hlast

/-- A text is canonical exactly when octets are written as it, those that it is read
as. -/
theorem canonical_iff {cs : List Char} :
    Canonical cs ↔ ∃ bytes, decode cs = .ok bytes ∧ encode bytes = cs := by
  constructor
  · intro h
    obtain ⟨bytes, rfl⟩ := h.exists_encode
    exact ⟨bytes, decode_encode bytes, rfl⟩
  · rintro ⟨bytes, -, rfl⟩
    exact canonical_encode bytes

end FileStash.Base64
