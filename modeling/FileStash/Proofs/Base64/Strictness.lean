import FileStash.Proofs.Base64.Canonical

/-!
The texts that are read. Reading looks at the letters first, then at what stands behind
them, and there only pads can stand. How many pads there may be hangs on the letters of
the open group; behind complete groups there is no limit. So the well-formed texts are
read, and beyond them just those that have pads to spare behind complete groups.
-/

namespace FileStash.Base64

/-- Complete groups with pads behind them that fill nothing. -/
def Overpadded (cs : List Char) : Prop :=
  ∃ data pads, cs = data ++ List.replicate pads '=' ∧ (∀ c ∈ data, c ∈ alphabet) ∧
    data ≠ [] ∧ data.length % 4 = 0 ∧ 0 < pads

theorem pad_not_mem_alphabet : '=' ∉ alphabet := by decide

/-- The pads end where the letters do, so a text has only one front of letters. -/
theorem filter_letters {data : List Char} (h : ∀ c ∈ data, c ∈ alphabet) (pads : Nat) :
    (data ++ List.replicate pads '=').filter (· ≠ '=') = data := by
  have hdata : data.filter (· ≠ '=') = data := by
    rw [List.filter_eq_self]
    intro c hc
    apply decide_eq_true
    rintro rfl
    exact pad_not_mem_alphabet (h _ hc)
  have hpads : (List.replicate pads '=').filter (· ≠ '=') = [] := by
    simp
  rw [List.filter_append, hdata, hpads, List.append_nil]

theorem Overpadded.not_wellFormed {cs : List Char} (h : Overpadded cs) : ¬WellFormed cs := by
  rintro ⟨data', pads', htext', hletters', hgroups', hfew'⟩
  obtain ⟨data, pads, htext, hletters, -, hgroups, hpads⟩ := h
  have hsame : data = data' := by
    calc data
      _ = cs.filter (· ≠ '=') := by rw [htext, filter_letters hletters]
      _ = data' := by rw [htext', filter_letters hletters']
  have hlength : data.length + pads = data'.length + pads' := by
    simpa [htext'] using (congrArg List.length htext).symm
  rw [htext', List.length_append, List.length_replicate] at hgroups'
  rw [hsame] at hgroups hlength
  omega

theorem ascii_of_mem_alphabet {c : Char} (h : c ∈ alphabet) : c.toNat ≤ 0x7f := by
  obtain ⟨n, hn, rfl⟩ := mem_alphabet_iff.mp h
  exact symbol_ascii hn

theorem symbol_of_index? {c : Char} {n : Nat} (h : index? c = some n) :
    n < 64 ∧ symbol n = c := by
  have hchar : Char.ofNat c.toNat = c := Char.ofNat_toNat c
  simp only [index?] at h
  split at h
  · cases h
    have hback : 65 + (c.toNat - 65) = c.toNat := by omega
    refine ⟨by omega, ?_⟩
    rw [symbol, if_pos (by omega), hback, hchar]
  · split at h
    · cases h
      have hback : 71 + (c.toNat - 71) = c.toNat := by omega
      refine ⟨by omega, ?_⟩
      rw [symbol, if_neg (by omega), if_pos (by omega), hback, hchar]
    · split at h
      · cases h
        have hback : c.toNat + 4 - 4 = c.toNat := by omega
        refine ⟨by omega, ?_⟩
        rw [symbol, if_neg (by omega), if_neg (by omega), if_pos (by omega), hback, hchar]
      · split at h
        · rename_i hplus
          cases h
          exact ⟨by omega, hplus.symm⟩
        · split at h
          · rename_i hslash
            cases h
            exact ⟨by omega, hslash.symm⟩
          · cases h

theorem index?_eq_none {c : Char} (h : c ∉ alphabet) : index? c = none := by
  cases hindex : index? c with
  | none => rfl
  | some n =>
      obtain ⟨hn, rfl⟩ := symbol_of_index? hindex
      exact absurd (symbol_mem_alphabet hn) h

/-! One character. -/

/-- Whether a text is read to its end from a state on. -/
def Readable (s : State) (cs : List Char) : Prop :=
  ∃ bytes, decodeFrom s cs = .ok bytes

section Step

variable {s : State} {c : Char} {cs : List Char}

theorem readable_nil : Readable s [] ↔ s.quad = 0 := by
  simp only [Readable, decodeFrom]
  constructor
  · rintro ⟨bytes, hbytes⟩
    split at hbytes
    · assumption
    · split at hbytes <;> cases hbytes
  · intro hclosed
    exact ⟨[], if_pos hclosed⟩

theorem readable_letter (hs : s.started = false) (hc : c ∈ alphabet) :
    Readable s (c :: cs) ↔ Readable (s.push (bits c)) cs := by
  obtain ⟨n, hn, rfl⟩ := mem_alphabet_iff.mp hc
  simp only [Readable, decodeFrom_symbol hs hn, bits_symbol hn]
  cases s.octet? n with
  | none => rfl
  | some b =>
      cases decodeFrom (s.push n) cs with
      | error fault => simp [Except.map]
      | ok bytes => simp [Except.map]

theorem not_readable_foreign (hpad : c ≠ '=') (hc : c ∉ alphabet) : ¬Readable s (c :: cs) := by
  rintro ⟨bytes, hbytes⟩
  simp [decodeFrom, hpad, index?_eq_none hc] at hbytes

theorem eq_pad_of_readable (hs : s.started = true) (h : Readable s (c :: cs)) : c = '=' := by
  apply Classical.byContradiction
  intro hpad
  obtain ⟨bytes, hbytes⟩ := h
  simp only [decodeFrom, if_neg hpad] at hbytes
  cases hindex : index? c with
  | none => simp [hindex] at hbytes
  | some n => simp [hindex, hs] at hbytes

theorem readable_idle_pad (hs : s.quad < 2) :
    Readable s ('=' :: cs) ↔ Readable { s with started := true } cs := by
  have hopen : ¬2 ≤ s.quad := by omega
  simp [Readable, decodeFrom, hopen]

theorem readable_first_pad (htwo : s.quad = 2) (hpads : s.pads = 0) :
    Readable s ('=' :: cs) ↔ Readable { s with started := true, pads := 1 } cs := by
  simp [Readable, decodeFrom, htwo, hpads]

theorem readable_last_pad (hopen : 2 ≤ s.quad) (hfull : 4 ≤ s.quad + (s.pads + 1)) :
    Readable s ('=' :: cs) ↔ cs = [] := by
  simp only [Readable, decodeFrom, hopen, hfull, and_self, if_true]
  constructor
  · rintro ⟨bytes, hbytes⟩
    split at hbytes
    · rename_i hempty
      exact List.isEmpty_iff.mp hempty
    · cases hbytes
  · rintro rfl
    exact ⟨[], rfl⟩

end Step

/-! The pads behind the letters. -/

/-- The pads that may stand behind the letters of an open group: two or one to fill it,
and any number where nothing is open. -/
def Closes (quad pads : Nat) : Prop :=
  quad = 0 ∨ quad + pads = 4 ∧ pads ≤ 2

section Pads

variable {s : State} {cs : List Char}

theorem readable_started (hs : s.started = true) (hquad : s.quad < 2) :
    Readable s cs ↔ s.quad = 0 ∧ ∀ c ∈ cs, c = '=' := by
  induction cs with
  | nil => simp [readable_nil]
  | cons c cs ih =>
      have hstay : ({ s with started := true } : State) = s := by rw [← hs]
      constructor
      · intro h
        obtain rfl := eq_pad_of_readable hs h
        rw [readable_idle_pad hquad, hstay] at h
        obtain ⟨hclosed, hpads⟩ := ih.mp h
        exact ⟨hclosed, by simpa using hpads⟩
      · rintro ⟨hclosed, hpads⟩
        obtain rfl := hpads c (by simp)
        rw [readable_idle_pad hquad, hstay]
        exact ih.mpr ⟨hclosed, fun c hc => hpads c (by simp [hc])⟩

theorem readable_second_pad (hs : s.started = true) (htwo : s.quad = 2) (hpads : s.pads = 1) :
    Readable s cs ↔ cs = ['='] := by
  have hopen : 2 ≤ s.quad := by omega
  have hfull : 4 ≤ s.quad + (s.pads + 1) := by omega
  constructor
  · intro h
    cases cs with
    | nil =>
        have hclosed := readable_nil.mp h
        omega
    | cons c cs =>
        obtain rfl := eq_pad_of_readable hs h
        rw [(readable_last_pad hopen hfull).mp h]
  · rintro rfl
    exact (readable_last_pad hopen hfull).mpr rfl

theorem readable_pad (hpads : s.pads = 0) (hquad : s.quad < 4) :
    Readable s ('=' :: cs) ↔ (∀ c ∈ cs, c = '=') ∧ Closes s.quad (cs.length + 1) := by
  have hlength : ∀ n, cs = List.replicate n '=' ↔ (∀ c ∈ cs, c = '=') ∧ cs.length = n := by
    intro n
    rw [List.eq_replicate_iff, and_comm]
  unfold Closes
  obtain hidle | htwo | hthree : s.quad < 2 ∨ s.quad = 2 ∨ s.quad = 3 := by omega
  · have hrest : Readable { s with started := true } cs ↔ s.quad = 0 ∧ ∀ c ∈ cs, c = '=' :=
      readable_started rfl hidle
    rw [readable_idle_pad hidle, hrest, and_comm]
    apply and_congr_right
    intro _
    omega
  · have hrest : Readable { s with started := true, pads := 1 } cs ↔ cs = List.replicate 1 '=' :=
      readable_second_pad rfl htwo rfl
    rw [readable_first_pad htwo hpads, hrest, hlength 1]
    apply and_congr_right
    intro _
    omega
  · have hrest : Readable s ('=' :: cs) ↔ cs = List.replicate 0 '=' :=
      readable_last_pad (by omega) (by omega)
    rw [hrest, hlength 0]
    apply and_congr_right
    intro _
    omega

/-- What stands behind the letters is read when it consists of the pads that may stand
there. -/
theorem readable_pads (hpads : s.pads = 0) (hquad : s.quad < 4)
    (hcs : ∀ c ∈ cs.head?, c ∉ alphabet) :
    Readable s cs ↔ (∀ c ∈ cs, c = '=') ∧ Closes s.quad cs.length := by
  cases cs with
  | nil =>
      rw [readable_nil]
      simp only [List.not_mem_nil, false_implies, implies_true, true_and, Closes,
        List.length_nil]
      omega
  | cons c cs =>
      rcases Decidable.em (c = '=') with rfl | hpad
      · rw [readable_pad hpads hquad, List.forall_mem_cons, List.length_cons]
        simp only [true_and]
      · have hforeign : ¬Readable s (c :: cs) := not_readable_foreign hpad (hcs c rfl)
        constructor
        · intro h
          exact absurd h hforeign
        · rintro ⟨hall, -⟩
          exact absurd (hall c (by simp)) hpad

end Pads

/-! The letters. -/

def State.pushAll (s : State) (data : List Char) : State :=
  data.foldl (fun s c => s.push (bits c)) s

theorem quad_push {s : State} (h : s.quad < 4) (v : Nat) :
    (s.push v).quad = (s.quad + 1) % 4 := by
  obtain hq | hq | hq | hq : s.quad = 0 ∨ s.quad = 1 ∨ s.quad = 2 ∨ s.quad = 3 := by omega
  all_goals simp [State.push, hq]

theorem started_push (s : State) (v : Nat) : (s.push v).started = s.started := by
  unfold State.push
  split <;> rfl

theorem pads_push (s : State) (v : Nat) : (s.push v).pads = 0 := by
  unfold State.push
  split <;> rfl

section PushAll

variable {s : State} {data : List Char}

theorem quad_pushAll (h : s.quad < 4) :
    (s.pushAll data).quad = (s.quad + data.length) % 4 := by
  induction data generalizing s with
  | nil =>
      show s.quad = s.quad % 4
      omega
  | cons c data ih =>
      have hquad := quad_push h (bits c)
      have hrest := ih (s := s.push (bits c)) (by omega)
      show ((s.push (bits c)).pushAll data).quad = _
      rw [hrest, hquad, List.length_cons]
      omega

theorem pads_pushAll (h : s.pads = 0) : (s.pushAll data).pads = 0 := by
  induction data generalizing s with
  | nil => exact h
  | cons c data ih => exact ih (pads_push s (bits c))

theorem readable_letters (hs : s.started = false) (hdata : ∀ c ∈ data, c ∈ alphabet)
    (rest : List Char) : Readable s (data ++ rest) ↔ Readable (s.pushAll data) rest := by
  induction data generalizing s with
  | nil => rfl
  | cons c data ih =>
      have hnext : (s.push (bits c)).started = false := (started_push s (bits c)).trans hs
      rw [List.cons_append, readable_letter hs (hdata c (by simp))]
      exact ih hnext fun c hc => hdata c (by simp [hc])

end PushAll

/-! The whole text. -/

theorem readable_append {data rest : List Char} (hdata : ∀ c ∈ data, c ∈ alphabet)
    (hrest : ∀ c ∈ rest.head?, c ∉ alphabet) :
    Readable .start (data ++ rest) ↔
      (∀ c ∈ rest, c = '=') ∧ Closes (data.length % 4) rest.length := by
  have hquad : (State.start.pushAll data).quad = data.length % 4 := by
    rw [quad_pushAll (by decide)]
    show (0 + data.length) % 4 = _
    rw [Nat.zero_add]
  rw [readable_letters rfl hdata, ← hquad]
  apply readable_pads (pads_pushAll rfl) _ hrest
  omega

theorem readable_iff {cs : List Char} :
    Readable .start cs ↔ ∃ data pads, cs = data ++ List.replicate pads '=' ∧
      (∀ c ∈ data, c ∈ alphabet) ∧ Closes (data.length % 4) pads := by
  constructor
  · intro h
    have hsplit : cs.takeWhile (· ∈ alphabet) ++ cs.dropWhile (· ∈ alphabet) = cs :=
      List.takeWhile_append_dropWhile
    have hdata : ∀ c ∈ cs.takeWhile (· ∈ alphabet), c ∈ alphabet := by
      intro c hc
      simpa using List.all_eq_true.mp List.all_takeWhile c hc
    have hrest : ∀ c ∈ (cs.dropWhile (· ∈ alphabet)).head?, c ∉ alphabet := by
      intro c hc
      have hnot := List.head?_dropWhile_not (· ∈ alphabet) cs
      rw [Option.mem_def.mp hc] at hnot
      simpa using hnot
    rw [← hsplit, readable_append hdata hrest] at h
    obtain ⟨hpads, hcloses⟩ := h
    refine ⟨_, _, ?_, hdata, hcloses⟩
    rw [← List.eq_replicate_of_mem hpads, hsplit]
  · rintro ⟨data, pads, rfl, hdata, hcloses⟩
    have hrest : ∀ c ∈ (List.replicate pads '=').head?, c ∉ alphabet := by
      intro c hc
      rw [List.eq_of_mem_replicate (List.mem_of_head? hc)]
      exact pad_not_mem_alphabet
    rw [readable_append hdata hrest, List.length_replicate]
    exact ⟨fun c hc => List.eq_of_mem_replicate hc, hcloses⟩

/-- Before it starts, reading only looks for a pad in front; what is foreign to ASCII is
foreign to the alphabet as well. -/
theorem exists_decode_iff_readable {cs : List Char} :
    (∃ bytes, decode cs = .ok bytes) ↔ cs.head? ≠ some '=' ∧ Readable .start cs := by
  constructor
  · rintro ⟨bytes, hbytes⟩
    unfold decode at hbytes
    split at hbytes
    · cases hbytes
    · split at hbytes
      · cases hbytes
      · exact ⟨‹_›, bytes, hbytes⟩
  · rintro ⟨hhead, hreadable⟩
    have hascii : (cs.any fun c => decide (0x7f < c.toNat)) = false := by
      obtain ⟨data, pads, rfl, hdata, -⟩ := readable_iff.mp hreadable
      rw [List.any_eq_false]
      intro c hc
      have hsmall : c.toNat ≤ 0x7f := by
        rcases List.mem_append.mp hc with hc | hc
        · exact ascii_of_mem_alphabet (hdata c hc)
        · rw [List.eq_of_mem_replicate hc]
          decide
      simp only [decide_eq_true_eq]
      omega
    obtain ⟨bytes, hbytes⟩ := hreadable
    refine ⟨bytes, ?_⟩
    unfold decode
    rw [hascii, if_neg Bool.false_ne_true, if_neg hhead]
    exact hbytes

/-- A text is read exactly when it is well formed, or complete groups with pads to
spare. -/
theorem exists_decode_iff {cs : List Char} :
    (∃ bytes, decode cs = .ok bytes) ↔ WellFormed cs ∨ Overpadded cs := by
  rw [exists_decode_iff_readable]
  constructor
  · rintro ⟨hhead, hreadable⟩
    obtain ⟨data, pads, rfl, hdata, hcloses⟩ := readable_iff.mp hreadable
    have hfront : data = [] → pads = 0 := by
      rintro rfl
      cases pads with
      | zero => rfl
      | succ pads => exact absurd rfl hhead
    by_cases hspare : data.length % 4 = 0 ∧ 0 < pads
    · refine .inr ⟨data, pads, rfl, hdata, ?_, hspare.1, hspare.2⟩
      intro hnil
      have hnone := hfront hnil
      omega
    · refine .inl ⟨data, pads, rfl, hdata, ?_, ?_⟩
      · rw [List.length_append, List.length_replicate]
        unfold Closes at hcloses
        omega
      · unfold Closes at hcloses
        omega
  · intro h
    obtain ⟨data, pads, rfl, hdata, hcloses, hfront⟩ : ∃ data pads,
        cs = data ++ List.replicate pads '=' ∧ (∀ c ∈ data, c ∈ alphabet) ∧
          Closes (data.length % 4) pads ∧ (data = [] → pads = 0) := by
      rcases h with ⟨data, pads, htext, hdata, hgroups, hfew⟩ |
        ⟨data, pads, htext, hdata, hne, hgroups, -⟩
      · rw [htext, List.length_append, List.length_replicate] at hgroups
        refine ⟨data, pads, htext, hdata, ?_, ?_⟩
        · unfold Closes
          omega
        · rintro rfl
          rw [List.length_nil] at hgroups
          omega
      · exact ⟨data, pads, htext, hdata, .inl hgroups, fun hnil => absurd hnil hne⟩
    refine ⟨?_, readable_iff.mpr ⟨data, pads, rfl, hdata, hcloses⟩⟩
    cases data with
    | nil =>
        rw [hfront rfl]
        exact nofun
    | cons c data =>
        intro hhead
        have hpad : c = '=' := Option.some.inj hhead
        exact pad_not_mem_alphabet (hpad ▸ hdata c (by simp))

end FileStash.Base64
