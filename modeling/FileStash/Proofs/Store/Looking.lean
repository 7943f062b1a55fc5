import FileStash.Proofs.Server.TextHash
import FileStash.Proofs.Store.Asking

namespace FileStash

theorem Dict.get?_textItems (fields : Dict String String) (field : String) :
    get? (Server.textItems fields) (.text field) = (get? fields field).map .text := by
  induction fields with
  | nil => rfl
  | cons e fields ih =>
      by_cases h : e.1 == field
      · simp [Server.textItems, get?, Value.text_beq_text, h]
      · have ih' := ih
        simp only [Server.textItems] at ih'
        simp [Server.textItems, get?, Value.text_beq_text, h, ih']

namespace Server

variable {s : Server} {c : Command} {key : String}
  {f : Dict String String → Except Failure Value}

theorem run_of_hash (hkey : c.keys = [key])
    (hlook : effect s.now c = readEffect Content.hash? [] f) {fields : Dict String String}
    (h : hashUnder (s.live? key) = some fields) : (s.run c).1 = f fields := by
  rw [(actsOn_run s hkey).answer, hlook]
  cases hlive : s.live? key with
  | none =>
      rw [hlive] at h
      cases h
      rfl
  | some e =>
      rw [hlive] at h
      have hview : Content.hash? e.content = some fields := h
      simp only [readEffect, hview]

theorem run_otherKind (hkey : c.keys = [key])
    (hlook : effect s.now c = readEffect Content.hash? [] f)
    (h : hashUnder (s.live? key) = none) : (s.run c).1 = .error wrongKind := by
  rw [(actsOn_run s hkey).answer, hlook]
  cases hlive : s.live? key with
  | none =>
      rw [hlive] at h
      cases h
  | some e =>
      rw [hlive] at h
      have hview : Content.hash? e.content = none := h
      simp only [readEffect, hview]

theorem effect_hget (now : Int) (key field : String) :
    effect now (.hget key (.text field)) =
      readEffect Content.hash? [] fun h => .ok (textOrNull (Dict.get? h field)) := rfl

theorem effect_hgetall (now : Int) (key : String) :
    effect now (.hgetall key) =
      readEffect Content.hash? [] fun h => .ok (.map (textItems h)) := rfl

theorem effect_hexists (now : Int) (key field : String) :
    effect now (.hexists key (.text field)) =
      readEffect Content.hash? [] fun h => .ok (.bool (Dict.contains h field)) := rfl

theorem fieldAll_texts (fields : Dict String String) (fs : List String) :
    fieldAll fields (fs.map .text) = .ok (fs.map fun f => textOrNull (Dict.get? fields f)) := by
  induction fs with
  | nil => rfl
  | cons f fs ih => simp only [List.map_cons, fieldAll, field?, ih, bind, Except.bind]

theorem effect_hmget (now : Int) (key : String) (fs : List String) :
    effect now (.hmget key (fs.map .text)) =
      readEffect Content.hash? [] fun h =>
        .ok (.list (fs.map fun f => textOrNull (Dict.get? h f))) := by
  simp only [effect, fieldAll_texts, Except.map]

end Server

namespace Store

theorem hgetall_answer {s : Server} {key : String} {fields : Dict String String}
    (h : Server.hashUnder (s.live? key) = some fields) :
    (s.run (.hgetall key)).1 = .ok (.map (Server.textItems fields)) :=
  Server.run_of_hash rfl (Server.effect_hgetall ..) h

theorem hgetall_answer_error {s : Server} {key : String}
    (h : Server.hashUnder (s.live? key) = none) :
    (s.run (.hgetall key)).1 = .error Server.wrongKind :=
  Server.run_otherKind rfl (Server.effect_hgetall ..) h

section Look

variable {s : ScriptedServer} {t : FileTree} {key : String}

theorem run_hashGetAll (hplain : s.script = []) (hblank : Text.allBlank key = false)
    {fields : Dict String String}
    (h : Server.hashUnder (s.server.live? key) = some fields) :
    (hashGetAll (.text key)).run ScriptedServer.call s t =
      { result := .ok (Server.textItems fields),
        state := { s with server := (s.server.run (.hgetall key)).2 }, tree := t,
        calls := [.run (.hgetall key)] } := by
  have hkeyed : requireKey (.text key) = .ok key :=
    (requireKey_eq_ok_iff _ _).mpr ⟨rfl, hblank⟩
  simp only [hashGetAll, checked, Program.bind_eq_andThen, hkeyed, Program.ofExcept,
    Program.andThen_done]
  rw [Program.run_andThen, run_ask hplain (hgetall_answer h)]
  cases fields <;> rfl

theorem result_hashGetAll_otherKind (hplain : s.script = [])
    (hblank : Text.allBlank key = false)
    (h : Server.hashUnder (s.server.live? key) = none) :
    ((hashGetAll (.text key)).run ScriptedServer.call s t).result =
      .error (.typeMismatch (.otherKind "HGETALL" key .wrongKind)) := by
  have hkeyed : requireKey (.text key) = .ok key :=
    (requireKey_eq_ok_iff _ _).mpr ⟨rfl, hblank⟩
  have hask : ((ask "HGETALL" key (.hgetall key)).run ScriptedServer.call s t).result =
      .error (errorOf "HGETALL" key Server.wrongKind) :=
    result_ask_error hplain (hgetall_answer_error h)
  have herror : errorOf "HGETALL" key Server.wrongKind =
      .typeMismatch (.otherKind "HGETALL" key .wrongKind) :=
    errorOf_wrongKind "HGETALL" ClientError.wrongKind_family (by decide)
  simp only [hashGetAll, checked, Program.bind_eq_andThen, hkeyed, Program.ofExcept,
    Program.andThen_done]
  rw [Program.run_andThen_error hask, herror]

theorem result_ttl (hplain : s.script = []) (hblank : Text.allBlank key = false) :
    ((Operation.ttl (.text key)).program.run ScriptedServer.call s t).result =
      .ok (.int (Server.remaining s.server.now (s.server.live? key))) := by
  have hkeyed : requireKey (.text key) = .ok key :=
    (requireKey_eq_ok_iff _ _).mpr ⟨rfl, hblank⟩
  have hanswer : (s.server.run (.ttl key)).1 =
      .ok (.int (Server.remaining s.server.now (s.server.live? key))) :=
    (Server.actsOn_run s.server rfl).answer
  simp only [Operation.program, answering, ttl, checked, Program.bind_eq_andThen,
    hkeyed, Program.ofExcept, Program.andThen_done, Program.andThen_assoc]
  rw [Program.run_andThen, run_ask hplain hanswer]
  rfl

theorem result_hashGetAll (hplain : s.script = []) (hblank : Text.allBlank key = false)
    {fields : Dict String String}
    (h : Server.hashUnder (s.server.live? key) = some fields) :
    ((Operation.hashGetAll (.text key)).program.run ScriptedServer.call s t).result =
      .ok (.map (Server.textItems fields)) := by
  simp only [Operation.program]
  rw [result_answering, run_hashGetAll hplain hblank h]
  rfl

end Look

end Store

end FileStash
