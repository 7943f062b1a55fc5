import FileStash.Proofs.Session.HashReaders
import FileStash.Proofs.Session.Members
import FileStash.Proofs.Session.Sequences
import FileStash.Proofs.Session.TypedRoundTrip

namespace FileStash

open Server (textItems textOrNull)
open Store (Operation Lasting requireKey requireKey_eq_ok_iff)

namespace World

variable {w : World} {key : String}

/-- What is answered about one field of a hash, plainly and by every type that its text
was sent from. -/
structure FieldShown (w : World) (key : String) (fields : Dict String String)
    (field : String) : Prop where
  got : w.answer (.operate (.hashGet (.text key) (.text field) none)) =
    .ok (textOrNull (Dict.get? fields field))
  typed : ∀ v t x, Lasting v t → Server.encode v = .ok x → Dict.get? fields field = some x →
    w.answer (.operate (.hashGet (.text key) (.text field) (some t))) = .ok v
  had : w.answer (.operate (.hasKey (.text key) (.text field))) =
    .ok (.bool (Dict.contains fields field))

/-- The reads of a key answer what it holds: a text also as every value that it was sent
from, a hash field by field, several fields at once and as a whole, a set by its
members, and a sequence as a whole and by its windows. Sets with scores have no
reads. -/
def Shows (w : World) (key : String) : Content → Prop
  | .text x =>
      w.answer (.operate (.getValue (.text key) none)) = .ok (.text x) ∧
        ∀ v t, Lasting v t → Server.encode v = .ok x →
          w.answer (.operate (.getValue (.text key) (some t))) = .ok v
  | .hash fields =>
      w.answer (.operate (.hashGetAll (.text key))) = .ok (.map (textItems fields)) ∧
        (∀ field, FieldShown w key fields field) ∧
        ∀ fs : List String, fs ≠ [] →
          w.answer (.operate (.hashMultiGet (.text key) (.list (fs.map .text)))) =
            .ok (.list (fs.map fun f => textOrNull (Dict.get? fields f)))
  | .set ms =>
      ∃ told : List String, told.Nodup ∧ told.toFinset = ms.toFinset ∧
        w.answer (.operate (.setGetAll (.text key))) = .ok (.set (told.map .text))
  | .sequence xs =>
      w.answer (.operate (.listGetAll (.text key))) = .ok (.list (xs.map .text)) ∧
        ∀ first last : Int,
          w.answer (.operate (.listGet (.text key) (.int first) (.int last))) =
            .ok (.list ((Server.window xs first last).map .text))
  | .scored _ => True

theorem sentAs_of_encode {v : Value} {t : ValueType} {x : String} (hv : Lasting v t)
    (hx : Server.encode v = .ok x) : Store.SentAs v t x := by
  obtain ⟨x', hsent⟩ := hv.sentAs
  cases hx.symm.trans hsent.sent
  exact hsent

theorem shows_text (hplain : w.Plain) (hk : requireKey (.text key) = .ok key) {x : String}
    {deadline : Option Int} (hlive : w.server.server.live? key = some ⟨.text x, deadline⟩) :
    Shows w key (.text x) := by
  constructor
  · rw [(asked hplain (Operation.plan_getValue hk rfl)).1, Server.run_get hlive]
    rfl
  · intro v t hv hx
    exact answer_getValue hplain hk (sentAs_of_encode hv hx) hlive

theorem shows_hash (hplain : w.Plain) (hk : requireKey (.text key) = .ok key)
    {fields : Dict String String} {deadline : Option Int}
    (hlive : w.server.server.live? key = some ⟨.hash fields, deadline⟩) :
    Shows w key (.hash fields) := by
  have hunder : Server.hashUnder (w.server.server.live? key) = some fields := by
    rw [hlive]
    rfl
  refine ⟨answer_hashGetAll hplain hk hunder, fun field => ⟨?_, ?_, ?_⟩, fun fs hne => ?_⟩
  · exact answer_field hplain hk hunder field rfl
  · intro v t x hv hx hfield
    exact answer_hashGet hplain hk (sentAs_of_encode hv hx) hlive hfield
  · exact answer_hasField hplain hk hunder field
  · exact answer_hashMultiGet hplain hk hunder hne

theorem shows_set (hplain : w.Plain) (hk : requireKey (.text key) = .ok key)
    {ms : List String} {deadline : Option Int}
    (hlive : w.server.server.live? key = some ⟨.set ms, deadline⟩) :
    Shows w key (.set ms) := by
  have hunder : Kind.set.under (w.server.server.live? key) = some ms := by
    rw [hlive]
    rfl
  obtain ⟨hnodup, hunion⟩ := Server.foldl_addMember List.nodup_nil ms
  refine ⟨ms.foldl Server.addMember [], hnodup, by simpa using hunion, ?_⟩
  rw [answer_look hplain hunder (Operation.plan_setGetAll hk) rfl (Server.effect_smembers ..)]
  simp only [Store.conclusion, Store.collected, Value.toSet_texts]
  cases ms <;> rfl

theorem shows_sequence (hplain : w.Plain) (hk : requireKey (.text key) = .ok key)
    {xs : List String} {deadline : Option Int}
    (hlive : w.server.server.live? key = some ⟨.sequence xs, deadline⟩) :
    Shows w key (.sequence xs) := by
  have hunder : Kind.sequence.under (w.server.server.live? key) = some xs := by
    rw [hlive]
    rfl
  exact ⟨answer_listGetAll hplain hk hunder, answer_listGet hplain hk hunder⟩

theorem shows_of_live (hplain : w.Plain) (hblank : Text.allBlank key = false) {c : Content}
    {deadline : Option Int} (hlive : w.server.server.live? key = some ⟨c, deadline⟩) :
    Shows w key c := by
  have hk : requireKey (.text key) = .ok key := (requireKey_eq_ok_iff _ _).mpr ⟨rfl, hblank⟩
  cases c with
  | text x => exact shows_text hplain hk hlive
  | hash fields => exact shows_hash hplain hk hlive
  | set ms => exact shows_set hplain hk hlive
  | scored scores => trivial
  | sequence xs => exact shows_sequence hplain hk hlive

end World

end FileStash
