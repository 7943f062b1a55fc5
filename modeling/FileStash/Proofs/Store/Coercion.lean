import FileStash.Proofs.Number.Literal
import FileStash.Proofs.Store.Question

namespace FileStash

/-- The replies to a look at a single value. -/
def Value.Single : Value → Prop
  | .null | .bool _ | .int _ | .float _ | .text _ | .bytes _ => True
  | _ => False

def ValueType.Holds : ValueType → Value → Prop
  | .text, .text _ | .bytes, .bytes _ | .int, .int _ | .float, .float _ | .bool, .bool _ => True
  | _, _ => False

namespace Store

/-- The failures of a typed read that no mismatch reports. -/
inductive Slips : Value → ValueType → Failure → Prop
  | undecodable {b : List UInt8} {t : ValueType} {fault : Text.Utf8.Fault} (ht : t ≠ .bytes)
      (hdecode : Text.Utf8.decode b = .error fault) : Slips (.bytes b) t (.encoding fault)
  | infinite (negative : Bool) : Slips (.float (.infinite negative)) .int .overflow
  | vast {n : Int} (hn : Binary64.ofInt? n = none) : Slips (.int n) .float .overflow
  | overlong {n : Int} {t : ValueType} (hn : firstOverlong ≤ n.natAbs)
      (ht : t = .text ∨ t = .bytes ∨ t = .bool) : Slips (.int n) t (.illFormed .digitLimit)

/-- How a typed read of a value ends: absent, with a value of the type, with a
mismatch that carries the failed conversion, or with a slip. -/
inductive TypedRead (v : Value) (t : ValueType) : Checked Value → Prop
  | absent (hv : v = .null) : TypedRead v t (.ok .null)
  | converted {w r : Value} (hv : v ≠ .null) (hw : decoded v t = .ok w)
      (hr : convert w t = .ok r) (ht : t.Holds r) : TypedRead v t (.ok r)
  | mismatch {w : Value} {f : Failure} {shown : String} (hv : v ≠ .null)
      (hw : decoded v t = .ok w) (hf : convert w t = .error f) (hshown : w.shown = .ok shown) :
      TypedRead v t (.error (.typeMismatch (.storedValue shown t.name f)))
  | slip {f : Failure} (h : Slips v t f) : TypedRead v t (.error (.bare f))

theorem holds_of_convert {v r : Value} {t : ValueType} (h : convert v t = .ok r) : t.Holds r := by
  cases t with
  | text | int | float =>
      obtain ⟨a, -, rfl⟩ := Except.of_map_ok h
      trivial
  | bytes =>
      cases v with
      | bytes b =>
          cases h
          trivial
      | _ =>
          simp only [convert] at h
          obtain ⟨a, -, rfl⟩ := Except.of_map_ok h
          trivial
  | bool =>
      obtain ⟨s, -, h⟩ := Except.of_bind_ok h
      split at h
      · cases h
        trivial
      · obtain ⟨shown, -, h⟩ := Except.of_bind_ok h
        cases h
  | unsupported name => cases h

theorem of_shown_error {v : Value} (hv : v.Single) {f : Failure} (h : v.shown = .error f) :
    f = .illFormed .digitLimit ∧ ∃ n, v = .int n ∧ firstOverlong ≤ n.natAbs := by
  cases v with
  | int n =>
      have hiff := integerText?_isSome_iff n
      unfold Value.shown Value.shown? at h
      cases htext : integerText? n with
      | some s =>
          rw [htext] at h
          cases h
      | none =>
          rw [htext] at h hiff
          cases h
          exact ⟨rfl, n, rfl, by simpa using hiff⟩
  | null | bool b | float x | text s | bytes b => simp [Value.shown, Value.shown?] at h
  | _ => cases hv

theorem misfit_of_plain {v : Value} {f : Failure} (h : v.plain = .error f) :
    isMisfit f = true := by
  unfold Value.plain at h
  split at h
  · cases h
  · cases h
    rfl

/-- The only failure of reading an integer that is no misfit is an infinite number. -/
theorem toInt_error {v : Value} {f : Failure} (h : v.toInt = .error f) :
    isMisfit f = true ∨ f = .overflow ∧ ∃ negative, v = .float (.infinite negative) := by
  have hliteral : ∀ {r : Except LiteralFault Int} {shown : String},
      r.mapError (Value.literalFailure shown) = .error f → isMisfit f = true := by
    rintro (fault | n) shown hr
    · cases hr
      cases fault <;> rfl
    · cases hr
  cases v with
  | bool b | int n => cases h
  | float x =>
      cases x with
      | nan =>
          cases h
          exact .inl rfl
      | infinite negative =>
          cases h
          exact .inr ⟨rfl, negative, rfl⟩
      | finite negative m e => cases h
  | text s | bytes b => exact .inl (hliteral h)
  | _ =>
      cases h
      exact .inl rfl

theorem toFloat_error {v : Value} {f : Failure} (h : v.toFloat = .error f) :
    isMisfit f = true ∨ f = .overflow ∧ ∃ n, v = .int n ∧ Binary64.ofInt? n = none := by
  cases v with
  | bool b | float x => cases h
  | int n =>
      simp only [Value.toFloat] at h
      split at h
      · cases h
      · rename_i hn
        cases h
        exact .inr ⟨rfl, n, rfl, hn⟩
  | text s | bytes b =>
      simp only [Value.toFloat] at h
      split at h <;> cases h
      exact .inl rfl
  | _ =>
      cases h
      exact .inl rfl

theorem slips_of_no_misfit {v : Value} {t : ValueType} {f : Failure} (h : convert v t = .error f)
    (hf : isMisfit f = false) : Slips v t f := by
  have hmisfit : isMisfit f = true → Slips v t f := by
    intro hm
    rw [hf] at hm
    cases hm
  cases t with
  | text => exact hmisfit (misfit_of_plain (Except.of_map_error h))
  | bytes =>
      cases v with
      | bytes b => cases h
      | _ =>
          simp only [convert] at h
          exact hmisfit (misfit_of_plain (Except.of_map_error h))
  | bool =>
      refine hmisfit ?_
      obtain hplain | ⟨s, -, h⟩ := Except.of_bind_error h
      · exact misfit_of_plain hplain
      · split at h
        · cases h
        · obtain hshown | ⟨shown, -, h⟩ := Except.of_bind_error h
          · unfold Value.shown at hshown
            split at hshown <;> cases hshown
            rfl
          · cases h
            rfl
  | int =>
      obtain hm | ⟨rfl, negative, rfl⟩ := toInt_error (Except.of_map_error h)
      · exact hmisfit hm
      · exact .infinite negative
  | float =>
      obtain hm | ⟨rfl, n, rfl, hn⟩ := toFloat_error (Except.of_map_error h)
      · exact hmisfit hm
      · exact .vast hn
  | unsupported name =>
      cases h
      cases hf

/-- What cannot be converted and cannot be shown is an integer read as a type that
its text is needed for. -/
theorem slips_of_shown_error {v : Value} (hv : v.Single) {t : ValueType}
    (ht : requireType (some t) = .ok ()) {f g : Failure} (h : convert v t = .error f)
    (hf : isMisfit f = true) (hshown : v.shown = .error g) : Slips v t g := by
  obtain ⟨rfl, n, rfl, hn⟩ := of_shown_error hv hshown
  cases t with
  | text => exact .overlong hn (.inl rfl)
  | bytes => exact .overlong hn (.inr (.inl rfl))
  | bool => exact .overlong hn (.inr (.inr rfl))
  | int => cases h
  | float =>
      have hfloat := Except.of_map_error h
      simp only [Value.toFloat] at hfloat
      split at hfloat <;> cases hfloat
      cases hf
  | unsupported name => cases ht

theorem of_decoded {v w : Value} {t : ValueType} (h : decoded v t = .ok w) :
    w = v ∨ ∃ s, w = .text s := by
  cases v with
  | bytes b =>
      simp only [decoded] at h
      split at h
      · cases h
        exact .inl rfl
      · split at h <;> cases h
        exact .inr ⟨_, rfl⟩
  | _ =>
      cases h
      exact .inl rfl

theorem slips_of_decoded {v : Value} {t : ValueType} {f : Failure} (h : decoded v t = .error f) :
    Slips v t f := by
  cases v with
  | bytes b =>
      simp only [decoded] at h
      split at h
      · cases h
      · rename_i ht
        split at h <;> cases h
        rename_i fault hdecode
        exact .undecodable ht hdecode
  | _ => cases h

theorem coerce_some {v : Value} {t : ValueType} (ht : requireType (some t) = .ok ())
    (hv : v ≠ .null) :
    coerce v (some t) = bare (decoded v t) >>= fun w =>
      match convert w t with
      | .ok r => .ok r
      | .error f =>
          if isMisfit f then bare w.shown >>= fun shown =>
            .error (.typeMismatch (.storedValue shown t.name f))
          else .error (.bare f) := by
  have hnull : v.isNull = false := by
    cases v <;> first | rfl | exact absurd rfl hv
  unfold coerce
  rw [ht]
  simp only [hnull]
  rfl

theorem typedRead_coerce {v : Value} (hv : v.Single) {t : ValueType}
    (ht : requireType (some t) = .ok ()) : TypedRead v t (coerce v (some t)) := by
  by_cases hnull : v = .null
  · rw [hnull, coerce_null _ ht]
    exact .absent rfl
  · rw [coerce_some ht hnull]
    cases hw : decoded v t with
    | error f => exact .slip (slips_of_decoded hw)
    | ok w =>
        -- a text never slips, and everything else is converted as it came
        have hslip : ∀ {f}, Slips w t f → Slips v t f := by
          intro f hf
          obtain rfl | ⟨s, rfl⟩ := of_decoded hw
          · exact hf
          · cases hf
        have hsingle : w.Single := by
          obtain rfl | ⟨s, rfl⟩ := of_decoded hw
          · exact hv
          · trivial
        show TypedRead v t (match convert w t with | .ok r => _ | .error f => _)
        cases hr : convert w t with
        | ok r => exact .converted hnull hw hr (holds_of_convert hr)
        | error f =>
            show TypedRead v t (if isMisfit f then _ else _)
            cases hmisfit : isMisfit f with
            | false => exact .slip (hslip (slips_of_no_misfit hr hmisfit))
            | true =>
                cases hshown : w.shown with
                | ok shown => exact .mismatch hnull hw hr hshown
                | error g => exact .slip (hslip (slips_of_shown_error hsingle ht hr hmisfit hshown))

theorem shown_overlong {n : Int} (h : firstOverlong ≤ n.natAbs) :
    (Value.int n).shown = .error (.illFormed .digitLimit) := by
  have hnone : integerText? n = none := by
    rw [← Option.not_isSome_iff_eq_none, integerText?_isSome_iff]
    omega
  simp only [Value.shown, Value.shown?, hnone]

theorem coerce_of_slips {v : Value} {t : ValueType} (ht : requireType (some t) = .ok ())
    {f : Failure} (h : Slips v t f) : coerce v (some t) = .error (.bare f) := by
  have hv : v ≠ .null := by
    rintro rfl
    cases h
  rw [coerce_some ht hv]
  cases h with
  | undecodable hbytes hdecode =>
      simp only [decoded, if_neg hbytes, hdecode]
      rfl
  | infinite negative => rfl
  | @vast n hn =>
      have hconvert : convert (.int n) .float = .error .overflow := by
        rw [convert, Value.toFloat, hn]
        rfl
      simp only [decoded, bare, bind, Except.bind, hconvert]
      rfl
  | @overlong n _ hn hwords =>
      have hshown := shown_overlong hn
      have hplain : (Value.int n).plain = _ := hshown
      have hconvert : convert (.int n) t = .error (.illFormed .digitLimit) := by
        obtain rfl | rfl | rfl := hwords <;> simp only [convert, hplain] <;> rfl
      simp only [decoded, bare, bind, Except.bind, hconvert, hshown]
      rfl

section Reply

variable {σ : Type} {client : Client σ} {s : σ} {tree : FileTree} {key : String} {v : Value}

theorem result_program_ask {operation : String} {c : Command}
    (h : (client s (.run c)).1 = .ok (.value v)) (conclude : Value → Checked Value) :
    ((Plan.program (.ask operation key c conclude)).run client s tree).result = conclude v := by
  simp only [Plan.program, Program.bind_eq_andThen, checked]
  rw [Program.run_andThen_ok (result_ask_ok h tree)]
  exact congrArg Run.result (Program.run_ofExcept ..)

theorem result_getValue (hkey : Text.allBlank key = false) {t : Option ValueType}
    (ht : requireType t = .ok ()) (h : (client s (.run (.get key))).1 = .ok (.value v)) :
    ((getValue (.text key) t).run client s tree).result = coerce v t := by
  have hkeyed := (requireKey_eq_ok_iff _ _).mpr ⟨rfl, hkey⟩
  show ((Operation.getValue (.text key) t).program.run client s tree).result = _
  rw [Operation.program_eq, Operation.plan_getValue hkeyed ht]
  exact result_program_ask h _

theorem result_hashGet (hkey : Text.allBlank key = false) {t : Option ValueType}
    (ht : requireType t = .ok ()) {field : Value}
    (h : (client s (.run (.hget key field))).1 = .ok (.value v)) :
    ((hashGet (.text key) field t).run client s tree).result = coerce v t := by
  have hkeyed := (requireKey_eq_ok_iff _ _).mpr ⟨rfl, hkey⟩
  show ((Operation.hashGet (.text key) field t).program.run client s tree).result = _
  rw [Operation.program_eq, Operation.plan_hashGet hkeyed field ht]
  exact result_program_ask h _

end Reply

/-- A typed read of a single value is absent with it, has the type, or reports the
mismatch with the conversion that failed, except where it slips; and that is what
a look at a key or a field comes to where the value is the reply. -/
theorem typed_read_converts_or_reports {v : Value} (hv : v.Single) {t : ValueType}
    (ht : requireType (some t) = .ok ()) :
    TypedRead v t (coerce v (some t)) ∧
      (∀ f, coerce v (some t) = .error (.bare f) ↔ Slips v t f) ∧
      ∀ {σ : Type} (client : Client σ) (s : σ) (tree : FileTree) (key : String),
        Text.allBlank key = false →
        ((client s (.run (.get key))).1 = .ok (.value v) →
          ((getValue (.text key) (some t)).run client s tree).result = coerce v (some t)) ∧
        ∀ field, (client s (.run (.hget key field))).1 = .ok (.value v) →
          ((hashGet (.text key) field (some t)).run client s tree).result = coerce v (some t) := by
  refine ⟨typedRead_coerce hv ht, fun f => ⟨fun h => ?_, coerce_of_slips ht⟩, ?_⟩
  · have hread := typedRead_coerce hv ht
    rw [h] at hread
    cases hread with
    | slip hslip => exact hslip
  · intro σ client s tree key hkey
    exact ⟨result_getValue hkey ht, fun field => result_hashGet hkey ht⟩

/-- A number that is read, a word that is reported, and two replies that slip past
the report. -/
theorem replies_read_reported_and_slipped :
    let replying (v : Value) : Client Unit := fun _ _ => (.ok (.value v), ())
    let read (v : Value) (t : ValueType) :=
      ((getValue (.text "k") (some t)).run (replying v) () {}).result
    let fault : Text.Utf8.Fault := ⟨0, 1, 0xff, .invalidStart⟩
    read (.text " 4_2 ") .int = .ok (.int 42) ∧
      read (.text "x") .int = .error
        (.typeMismatch (.storedValue "'x'" "int" (.illFormed (.notInteger "'x'")))) ∧
      read (.bytes [0xff]) .text = .error (.bare (.encoding fault)) ∧
      read (.float (.infinite true)) .int = .error (.bare .overflow) := by
  intro replying read fault
  have hread : ∀ {v : Value} {t : ValueType}, v.Single → requireType (some t) = .ok () →
      read v t = coerce v (some t) := fun {v} {t} hv ht =>
    ((typed_read_converts_or_reports hv ht).2.2 (replying v) () {} "k" (by decide)).1 rfl
  have hslip : ∀ {v : Value} {t : ValueType} {f : Failure}, v.Single →
      requireType (some t) = .ok () → Slips v t f → read v t = .error (.bare f) :=
    fun hv ht h => (hread hv ht).trans (((typed_read_converts_or_reports hv ht).2.1 _).mpr h)
  refine ⟨?_, ?_, ?_, ?_⟩
  · exact (hread (v := .text " 4_2 ") trivial rfl).trans (by rfl)
  · exact (hread (v := .text "x") trivial rfl).trans (by rfl)
  · exact hslip trivial rfl (.undecodable nofun (by decide +kernel))
  · exact hslip trivial rfl (.infinite true)

end Store

end FileStash
