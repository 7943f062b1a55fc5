import FileStash.Proofs.Session.Operating
import FileStash.Proofs.Store.Looking

namespace FileStash

open Server (hashUnder textItems textOrNull)

namespace Store

inductive Operation.ReadsHash (key : String) : Operation → Prop
  | one (field : String) {type : Option ValueType} (supported : requireType type = .ok ()) :
      ReadsHash key (.hashGet (.text key) (.text field) type)
  | several {fields : List String} (some : fields ≠ []) :
      ReadsHash key (.hashMultiGet (.text key) (.list (fields.map .text)))
  | all : ReadsHash key (.hashGetAll (.text key))
  | has (field : String) : ReadsHash key (.hasKey (.text key) (.text field))

theorem Operation.ReadsHash.reads {key : String} {op : Operation} (h : op.ReadsHash key) :
    op.Reads := by
  cases h <;> trivial

theorem plan_several {key : String} (hk : requireKey (.text key) = .ok key) {fs : List String}
    (hne : fs ≠ []) :
    (Operation.hashMultiGet (.text key) (.list (fs.map .text))).plan =
      .ok (.ask "HMGET" key (.hmget key (fs.map .text)) fun v =>
        (if v.isNull then .ok (List.replicate (fs.map Value.text).length .null)
          else bare v.elements).map .list) := by
  have helements : (Value.list (fs.map .text)).elements = .ok (fs.map .text) := rfl
  rw [Operation.plan_hashMultiGet hk helements, Plan.about, if_neg (by simpa using hne)]

theorem Operation.ReadsHash.plan {key : String} {op : Operation} (h : op.ReadsHash key)
    (hk : requireKey (.text key) = .ok key) :
    ∃ operation c conclude f, op.plan = .ok (.ask operation key c conclude) ∧ c.keys = [key] ∧
      ∀ now, Server.effect now c = Server.readEffect Server.Content.hash? [] f := by
  cases h with
  | one field supported =>
      exact ⟨_, _, _, _, plan_hashGet hk _ supported, rfl, fun _ => Server.effect_hget ..⟩
  | several hne => exact ⟨_, _, _, _, plan_several hk hne, rfl, fun _ => Server.effect_hmget ..⟩
  | all => exact ⟨_, _, _, _, plan_hashGetAll hk, rfl, fun _ => Server.effect_hgetall ..⟩
  | has field => exact ⟨_, _, _, _, plan_hasField hk rfl, rfl, fun _ => Server.effect_hexists ..⟩

theorem getD_textItems (fields : Dict String String) (field : String) :
    (Dict.get? (textItems fields) (.text field)).getD .null =
      textOrNull (Dict.get? fields field) := by
  rw [Dict.get?_textItems]
  cases Dict.get? fields field <;> rfl

theorem contains_textItems (fields : Dict String String) (field : String) :
    Dict.contains (textItems fields) (.text field) = Dict.contains fields field := by
  rw [Dict.contains, Dict.get?_textItems, Option.isSome_map]
  rfl

theorem textOrNull_ne_null_iff {fields : Dict String String} {field : String} :
    textOrNull (Dict.get? fields field) ≠ .null ↔ Dict.contains fields field = true := by
  unfold Dict.contains
  cases Dict.get? fields field <;> simp [textOrNull]

end Store

namespace World

open Store (Operation Checked coerce requireKey requireKey_eq_ok_iff requireType conclusion)

/-- What the readers of one field answer, where the whole hash is told as the
entries. -/
structure FieldTold (w : World) (key : String) (entries : Dict Value Value) (field : String)
    (v : Value) (there : Bool) : Prop where
  got : w.answer (.operate (.hashGet (.text key) (.text field) none)) = .ok v
  had : w.answer (.operate (.hasKey (.text key) (.text field))) = .ok (.bool there)
  listed : (Dict.get? entries (.text field)).getD .null = v
  there_iff_got : there = true ↔ v ≠ .null
  there_iff_listed : there = true ↔ Dict.contains entries (.text field) = true
  typed : ∀ t, requireType (some t) = .ok () →
    w.answer (.operate (.hashGet (.text key) (.text field) (some t))) = coerce v (some t)

variable {w : World} {key : String}

section Told

variable {fields : Dict String String} (hplain : w.Plain)
  (hk : requireKey (.text key) = .ok key)
  (hunder : hashUnder (w.server.server.live? key) = some fields)
include hplain hk hunder

theorem answer_field (field : String) {t : Option ValueType} (ht : requireType t = .ok ()) :
    w.answer (.operate (.hashGet (.text key) (.text field) t)) =
      coerce (textOrNull (Dict.get? fields field)) t := by
  rw [(asked hplain (Operation.plan_hashGet hk _ ht)).1,
    Server.run_of_hash rfl (Server.effect_hget ..) hunder]
  rfl

theorem answer_hasField (field : String) :
    w.answer (.operate (.hasKey (.text key) (.text field))) =
      .ok (.bool (Dict.contains fields field)) := by
  rw [(asked hplain (Operation.plan_hasField hk rfl)).1,
    Server.run_of_hash rfl (Server.effect_hexists ..) hunder]
  rfl

theorem answer_hashGetAll :
    w.answer (.operate (.hashGetAll (.text key))) = .ok (.map (textItems fields)) := by
  rw [(asked hplain (Operation.plan_hashGetAll hk)).1, Store.hgetall_answer hunder]
  cases fields <;> rfl

theorem answer_hashMultiGet {fs : List String} (hne : fs ≠ []) :
    w.answer (.operate (.hashMultiGet (.text key) (.list (fs.map .text)))) =
      .ok (.list (fs.map fun f => textOrNull (Dict.get? fields f))) := by
  rw [(asked hplain (Store.plan_several hk hne)).1,
    Server.run_of_hash rfl (Server.effect_hmget ..) hunder]
  rfl

theorem fieldTold (field : String) :
    FieldTold w key (textItems fields) field (textOrNull (Dict.get? fields field))
      (Dict.contains fields field) where
  got := answer_field hplain hk hunder field rfl
  had := answer_hasField hplain hk hunder field
  listed := Store.getD_textItems fields field
  there_iff_got := Store.textOrNull_ne_null_iff.symm
  there_iff_listed := by rw [Store.contains_textItems]
  typed _ ht := answer_field hplain hk hunder field ht

end Told

theorem answer_otherKind (hplain : w.Plain) (hk : requireKey (.text key) = .ok key)
    (hunder : hashUnder (w.server.server.live? key) = none) {op : Operation}
    (hop : op.ReadsHash key) :
    ∃ operation, w.answer (.operate op) =
      .error (.typeMismatch (.otherKind operation key .wrongKind)) := by
  obtain ⟨operation, c, conclude, f, hplan, hkeys, hlook⟩ := hop.plan hk
  refine ⟨operation, ?_⟩
  rw [(asked hplain hplan).1, Server.run_otherKind hkeys (hlook _) hunder]
  exact congrArg Except.error
    (Store.errorOf_wrongKind operation ClientError.wrongKind_family (by decide))

theorem agrees_of_readsHash (w : World) {op : Operation} (hop : op.ReadsHash key) :
    Agrees (w.step (.request (.operate op))) w :=
  ⟨w.agrees_of_reads hop.reads, w.tree_operate op⟩

/-- All readers of a hash tell the same: that the key holds something else, or the
entries of one map, field by field. And whatever is asked later is answered as if
none of them had looked. -/
theorem hash_readers_tell_the_same (hplain : w.Plain) (hkey : Text.allBlank key = false) :
    let k := Value.text key
    let answer (op : Operation) := w.answer (.operate op)
    let under := hashUnder (w.server.server.live? key)
    ((under = none ∧ ∀ op, op.ReadsHash key → ∃ operation,
        answer op = .error (.typeMismatch (.otherKind operation key .wrongKind))) ∨
      (under ≠ none ∧ ∃ entries, answer (.hashGetAll k) = .ok (.map entries) ∧
        (∀ field, ∃ v there, FieldTold w key entries field v there) ∧
        ∀ fields : List String, fields ≠ [] →
          ∃ vs, answer (.hashMultiGet k (.list (fields.map .text))) = .ok (.list vs) ∧
            vs.length = fields.length ∧
            ∀ i (h : i < fields.length), ∃ v, vs[i]? = some v ∧
              answer (.hashGet k (.text fields[i]) none) = .ok v ∧
              (Dict.get? entries (.text fields[i])).getD .null = v)) ∧
      ∀ op, op.ReadsHash key → ∀ steps,
        (w.step (.request (.operate op))).answers steps = w.answers steps := by
  intro k answer under
  have hk : requireKey k = .ok key := (requireKey_eq_ok_iff _ _).mpr ⟨rfl, hkey⟩
  constructor
  · cases hunder : under with
    | none =>
        left
        refine ⟨rfl, ?_⟩
        intro op hop
        exact answer_otherKind hplain hk hunder hop
    | some fields =>
        right
        refine ⟨nofun, textItems fields, answer_hashGetAll hplain hk hunder, ?_, ?_⟩
        · intro field
          exact ⟨_, _, fieldTold hplain hk hunder field⟩
        · intro fs hne
          refine ⟨_, answer_hashMultiGet hplain hk hunder hne, List.length_map .., ?_⟩
          intro i hi
          have htold := fieldTold hplain hk hunder fs[i]
          refine ⟨_, ?_, htold.got, htold.listed⟩
          rw [List.getElem?_map, List.getElem?_eq_getElem hi]
          rfl
  · intro op hop steps
    exact (w.agrees_of_readsHash hop).answers steps

/-- A field that is asked for twice, an empty text in another, and a sequence. -/
theorem empty_field_is_told_as_there :
    let w : World := ⟨⟨{ entries := [("h", ⟨.hash [("a", ""), ("b", "7")], some 5000⟩),
      ("q", ⟨.sequence ["a"], none⟩)] }, []⟩, {}⟩
    (∃ vs, w.answer (.operate (.hashMultiGet (.text "h")
        (.list (["b", "a", "b"].map .text)))) = .ok (.list vs) ∧
      vs.length = 3 ∧ vs[1]? = some (.text "")) ∧
      (∃ entries, FieldTold w "h" entries "a" (.text "") true) ∧
      ∃ operation, w.answer (.operate (.hasKey (.text "q") (.text "a"))) =
        .error (.typeMismatch (.otherKind operation "q" .wrongKind)) := by
  intro w
  have hplain : w.Plain := rfl
  have hempty : w.answer (.operate (.hashGet (.text "h") (.text "a") none)) = .ok (.text "") := rfl
  obtain ⟨⟨hunder, -⟩ | ⟨-, entries, -, hfields, hseveral⟩, -⟩ :=
    hash_readers_tell_the_same hplain (by decide : Text.allBlank "h" = false)
  · cases hunder
  obtain ⟨⟨-, hother⟩ | ⟨hunder, -⟩, -⟩ :=
    hash_readers_tell_the_same hplain (by decide : Text.allBlank "q" = false)
  · refine ⟨?_, ?_, hother _ (.has "a")⟩
    · obtain ⟨vs, hanswer, hlength, hvs⟩ := hseveral ["b", "a", "b"] nofun
      obtain ⟨v, hv, hgot, -⟩ := hvs 1 (by decide)
      cases hempty.symm.trans hgot
      exact ⟨vs, hanswer, hlength, hv⟩
    · obtain ⟨v, there, htold⟩ := hfields "a"
      cases hempty.symm.trans htold.got
      cases htold.there_iff_got.mpr nofun
      exact ⟨entries, htold⟩
  · exact (hunder rfl).elim

end World

end FileStash
