import FileStash.Proofs.Session.Operating
import FileStash.Proofs.Store.Coercion
import FileStash.Proofs.Store.LimitedHash
import FileStash.Proofs.Text.Utf8

namespace FileStash

namespace Store

/-- The values of each type that come back from the store. -/
inductive Lasting : Value → ValueType → Prop
  | text (x : String) : Lasting (.text x) .text
  | int {n : Int} (hn : n.natAbs < firstOverlong) : Lasting (.int n) .int
  | bytes {b : List UInt8} {x : String} (hb : Text.Utf8.decode b = .ok x) :
      Lasting (.bytes b) .bytes

/-- The value is sent as the text, and the text is read as the value. -/
structure SentAs (v : Value) (t : ValueType) (x : String) : Prop where
  sent : Server.encode v = .ok x
  supported : requireType (some t) = .ok ()
  read : coerce (.text x) (some t) = .ok v

theorem Lasting.sentAs {v : Value} {t : ValueType} (h : Lasting v t) : ∃ x, SentAs v t x := by
  cases h with
  | text x => exact ⟨x, rfl, rfl, rfl⟩
  | @int n hn =>
      obtain ⟨x, hx⟩ := Option.isSome_iff_exists.mp ((integerText?_isSome_iff n).mpr hn)
      refine ⟨x, ?_, rfl, ?_⟩
      · simp only [Server.encode, Value.plain, Value.plain?, Value.shown?, hx]
      · have hread : (Value.text x).toInt = .ok n := by
          simp only [Value.toInt, readInteger_integerText hx]
          rfl
        have hnull : Value.text x ≠ .null := by rintro ⟨⟩
        rw [coerce_some rfl hnull]
        simp only [decoded, bare, bind, Except.bind, convert, hread, Except.map]
  | @bytes b x hb =>
      refine ⟨x, ?_, rfl, ?_⟩
      · simp only [Server.encode, hb]
        rfl
      · rw [← (Text.Utf8.decode_eq_ok_iff b x).mp hb]
        rfl

def octetsOf : Value → Value
  | .text x => .bytes (Text.Utf8.encode x)
  | v => v

theorem conclusion_bytes {operation key : String} {r : Except Failure Value}
    (h : ∀ v, r = .ok v → ∃ x, v = Server.textOrNull x) :
    conclusion operation key (fun v => coerce v (some .bytes)) r =
      (conclusion operation key (fun v => coerce v (some .text)) r).map octetsOf := by
  cases r with
  | error f => rfl
  | ok v =>
      obtain ⟨_ | x, rfl⟩ := h v rfl <;> rfl

end Store

namespace Server

variable {s : Server} {key : String}

theorem of_readEffect_ok {α : Type} {view : Content → Option α} {default : α}
    {f : α → Except Failure Value} {held : Option Entry} {v : Value}
    (h : (readEffect view default f held).1 = .ok v) : ∃ a, f a = .ok v := by
  cases held with
  | none => exact ⟨default, h⟩
  | some e =>
      simp only [readEffect] at h
      split at h
      · exact ⟨_, h⟩
      · cases h

theorem textOrNull_of_get {v : Value} (h : (s.run (.get key)).1 = .ok v) :
    ∃ x, v = textOrNull x := by
  rw [(actsOn_run s (c := .get key) rfl).answer] at h
  obtain ⟨x, hx⟩ := of_readEffect_ok h
  exact ⟨x, (Except.ok.inj hx).symm⟩

theorem textOrNull_of_hget {field v : Value} (h : (s.run (.hget key field)).1 = .ok v) :
    ∃ x, v = textOrNull x := by
  rw [(actsOn_run s (c := .hget key field) rfl).answer] at h
  obtain ⟨fields, hfields⟩ := of_readEffect_ok h
  obtain ⟨x, -, hx⟩ := Except.of_map_ok hfields
  exact ⟨x, hx.symm⟩

theorem run_get {x : String} {deadline : Option Int} (h : s.live? key = some ⟨.text x, deadline⟩) :
    (s.run (.get key)).1 = .ok (.text x) := by
  rw [(actsOn_run s (c := .get key) rfl).answer, h]
  rfl

theorem run_hget {fields : Dict String String} {deadline : Option Int} {field x : String}
    (h : s.live? key = some ⟨.hash fields, deadline⟩) (hx : Dict.get? fields field = some x) :
    (s.run (.hget key (.text field))).1 = .ok (.text x) := by
  rw [(actsOn_run s (c := .hget key (.text field)) rfl).answer, h]
  simp only [effect, readEffect, Content.hash?, field?, hx, Except.map, textOrNull]

theorem run_hset (s : Server) (key field : String) (v : Value) :
    s.run (.hset key (.text field) v) = s.run (.hsetAll key [(.text field, v)]) := rfl

theorem run_set (s : Server) (key : String) {v : Value} {x : String} (hx : encode v = .ok x)
    {seconds : Option Int} (hpos : ∀ n, seconds = some n → 0 < n) :
    (s.run (.set key v seconds)).1 = .ok (.bool true) ∧
      (s.run (.set key v seconds)).2.live? key =
        some ⟨.text x, seconds.map fun n => s.now + 1000 * n⟩ := by
  have hact := actsOn_run s (c := .set key v seconds) rfl
  have heffect : ∀ held, effect s.now (.set key v seconds) held =
      (.ok (.bool true), some ⟨.text x, seconds.map fun n => s.now + 1000 * n⟩) := by
    intro held
    simp only [effect, hx]
  refine ⟨by rw [hact.answer, heffect], ?_⟩
  rw [hact.here, heffect]
  cases seconds with
  | none => rfl
  | some n => exact alive_of_limit (hpos n rfl)

end Server

namespace World

open Store (Operation SentAs Lasting octetsOf requireKey requireKey_eq_ok_iff optionalDuration
  requireType Limited)

variable {w : World} {key field : String} {v limit : Value} {t : ValueType} {x : String}

theorem answer_getValue (hplain : w.Plain) (hk : requireKey (.text key) = .ok key)
    (hx : SentAs v t x) {deadline : Option Int}
    (hlive : w.server.server.live? key = some ⟨.text x, deadline⟩) :
    w.answer (.operate (.getValue (.text key) (some t))) = .ok v := by
  rw [(asked hplain (Operation.plan_getValue hk hx.supported)).1, Server.run_get hlive]
  exact hx.read

theorem answer_hashGet (hplain : w.Plain) (hk : requireKey (.text key) = .ok key)
    (hx : SentAs v t x) {fields : Dict String String} {deadline : Option Int}
    (hlive : w.server.server.live? key = some ⟨.hash fields, deadline⟩)
    (hfield : Dict.get? fields field = some x) :
    w.answer (.operate (.hashGet (.text key) (.text field) (some t))) = .ok v := by
  rw [(asked hplain (Operation.plan_hashGet hk _ hx.supported)).1, Server.run_hget hlive hfield]
  exact hx.read

theorem setValue_read_back (hplain : w.Plain) (hk : requireKey (.text key) = .ok key)
    (hx : SentAs v t x) {seconds : Option Int} (hlimit : optionalDuration limit = .ok seconds) :
    let op := Operation.setValue (.text key) v limit
    w.answer (.operate op) = .ok v ∧
      (w.step (.request (.operate op))).answer (.operate (.getValue (.text key) (some t))) =
        .ok v := by
  intro op
  have hplan : op.plan = _ := Operation.plan_setValue hk
  rw [hlimit] at hplan
  have hpos : ∀ n, seconds = some n → 0 < n := by
    rintro n rfl
    exact Store.optionalDuration_pos hlimit
  obtain ⟨hanswer, hlive⟩ := Server.run_set w.server.server key hx.sent hpos
  obtain ⟨hresult, hstep⟩ := asked hplain hplan
  rw [hresult, hstep, hanswer]
  exact ⟨rfl, answer_getValue hplain hk hx hlive⟩

theorem mapM_single (field : String) (hx : SentAs v t x) :
    [(Value.text field, v)].mapM Server.encodeItem = .ok [(field, x)] := by
  have hitem : Server.encodeItem (.text field, v) = .ok (field, x) := by
    simp only [Server.encodeItem, hx.sent, Server.encode_text, bind, Except.bind]
  rw [List.mapM_cons, hitem]
  rfl

theorem get?_insertAll_single (fields : Dict String String) :
    Dict.get? (Dict.insertAll fields [(field, x)]) field = some x := by
  rw [Dict.get?_insertAll]
  simp [Dict.get?]

/-- A field is answered where its key holds a hash or nothing, and is then there. -/
theorem hashPut_read_back (hplain : w.Plain) (hk : requireKey (.text key) = .ok key)
    (hx : SentAs v t x) {older : Dict String String}
    (hunder : Server.hashUnder (w.server.server.live? key) = some older) :
    let op := Operation.hashPut (.text key) (.text field) v
    w.answer (.operate op) = .ok v ∧
      (w.step (.request (.operate op))).answer
        (.operate (.hashGet (.text key) (.text field) (some t))) = .ok v := by
  intro op
  obtain ⟨⟨n, hanswer⟩, hlive⟩ := Server.run_hsetAll (by simp) hunder (mapM_single field hx)
  obtain ⟨hresult, hstep⟩ := asked hplain (Operation.plan_hashPut hk _)
  rw [hresult, hstep, Server.run_hset, hanswer]
  exact ⟨rfl, answer_hashGet hplain hk hx hlive (get?_insertAll_single older)⟩

theorem hashPutAll_read_back (hplain : w.Plain) (hk : requireKey (.text key) = .ok key)
    (hx : SentAs v t x) {seconds : Option Int} (hlimit : optionalDuration limit = .ok seconds)
    {older : Dict String String}
    (hunder : Server.hashUnder (w.server.server.live? key) = some older) :
    let op := Operation.hashPutAll (.text key) (.map [(.text field, v)]) limit
    (∃ a, w.answer (.operate op) = .ok a) ∧
      (w.step (.request (.operate op))).answer
        (.operate (.hashGet (.text key) (.text field) (some t))) = .ok v := by
  intro op
  have hplan : op.plan = _ := Operation.plan_hashPutAll hk (.text field, v)
  rw [hlimit] at hplan
  have hsent := mapM_single field hx
  cases seconds with
  | none =>
      obtain ⟨⟨n, hanswer⟩, hlive⟩ := Server.run_hsetAll (by simp) hunder hsent
      obtain ⟨hresult, hstep⟩ := asked hplain hplan
      rw [hresult, hstep, hanswer]
      exact ⟨⟨_, rfl⟩, answer_hashGet hplain hk hx hlive (get?_insertAll_single older)⟩
  | some n =>
      have hpos := Store.optionalDuration_pos hlimit
      obtain ⟨-, -, hlive, -⟩ := Server.run_hsetAll_expire (by simp) hunder hsent hpos
      have hput := Store.result_putWithin (t := w.tree) hplain (by simp) hunder hsent hpos
      obtain ⟨hresult, hstep⟩ := transacted hplain hplan hput
      rw [hresult, hstep]
      exact ⟨⟨_, rfl⟩, answer_hashGet hplain hk hx hlive (get?_insertAll_single older)⟩

theorem limit_of_setValue {a : Value} (hk : requireKey (.text key) = .ok key)
    (h : w.answer (.operate (.setValue (.text key) v limit)) = .ok a) :
    ∃ seconds, optionalDuration limit = .ok seconds := by
  cases hlimit : optionalDuration limit with
  | ok seconds => exact ⟨seconds, rfl⟩
  | error e =>
      have hplan : (Operation.setValue (.text key) v limit).plan = .error e := by
        rw [Operation.plan_setValue hk, hlimit]
        rfl
      rw [answer_refused hplan] at h
      cases h

theorem reply_of_asked {op : Operation} (hplain : w.Plain) {operation key : String} {c : Command}
    {conclude : Value → Store.Checked Value}
    (hplan : op.plan = .ok (.ask operation key c conclude)) {a : Value}
    (h : w.answer (.operate op) = .ok a) : ∃ r, (w.server.server.run c).1 = .ok r := by
  rw [(asked hplain hplan).1] at h
  cases hreply : (w.server.server.run c).1 with
  | ok r => exact ⟨r, rfl⟩
  | error f =>
      rw [hreply] at h
      cases h

theorem hash_of_hashPut {a : Value} (hplain : w.Plain) (hk : requireKey (.text key) = .ok key)
    (h : w.answer (.operate (.hashPut (.text key) (.text field) v)) = .ok a) :
    ∃ older, Server.hashUnder (w.server.server.live? key) = some older := by
  obtain ⟨r, hreply⟩ := reply_of_asked hplain (Operation.plan_hashPut hk _) h
  rw [Server.run_hset] at hreply
  obtain ⟨-, older, -, hunder, -⟩ := Server.of_run_hsetAll_ok hreply
  exact ⟨older, hunder⟩

theorem limit_and_hash_of_hashPutAll {a : Value} (hplain : w.Plain)
    (hk : requireKey (.text key) = .ok key)
    (h : w.answer (.operate (.hashPutAll (.text key) (.map [(.text field, v)]) limit)) = .ok a) :
    (∃ seconds, optionalDuration limit = .ok seconds) ∧
      ∃ older, Server.hashUnder (w.server.server.live? key) = some older := by
  have hwritten : ∀ {r : Value},
      (w.server.server.run (.hsetAll key [(.text field, v)])).1 = .ok r →
        ∃ older, Server.hashUnder (w.server.server.live? key) = some older := by
    intro r hr
    obtain ⟨-, older, -, hunder, -⟩ := Server.of_run_hsetAll_ok hr
    exact ⟨older, hunder⟩
  have hplan : (Operation.hashPutAll (.text key) (.map [(.text field, v)]) limit).plan = _ :=
    Operation.plan_hashPutAll hk (.text field, v)
  cases hlimit : optionalDuration limit with
  | error e =>
      rw [hlimit] at hplan
      rw [answer_refused hplan] at h
      cases h
  | ok seconds =>
      refine ⟨⟨seconds, rfl⟩, ?_⟩
      rw [hlimit] at hplan
      cases seconds with
      | none =>
          obtain ⟨r, hreply⟩ := reply_of_asked hplain hplan h
          exact hwritten hreply
      | some n =>
          have hop := operated hplain
            (.hashPutAll (.text key) (.map [(.text field, v)]) limit)
          rw [h] at hop
          generalize hr : Except.ok a = r at hop
          generalize w.step _ = w' at hop
          cases hop with
          | refused _ | undone => cases hr
          | idle plan | asked plan => cases hplan.symm.trans plan
          | committed plan entries written =>
              cases hplan.symm.trans plan
              cases entries
              exact hwritten written

/-- What is read as octets are the octets of what is read as a text, under every key
and in every field. -/
theorem octets_of_text (hplain : w.Plain) (k f : Value) :
    w.answer (.operate (.getValue k (some .bytes))) =
        (w.answer (.operate (.getValue k (some .text)))).map octetsOf ∧
      w.answer (.operate (.hashGet k f (some .bytes))) =
        (w.answer (.operate (.hashGet k f (some .text)))).map octetsOf := by
  cases hk : requireKey k with
  | error e =>
      have hget : ∀ t, (Operation.getValue k t).plan = .error e := by
        intro t
        simp only [Operation.plan, hk, bind, Except.bind]
      have hhashGet : ∀ t, (Operation.hashGet k f t).plan = .error e := by
        intro t
        simp only [Operation.plan, hk, bind, Except.bind]
      simp only [answer_refused (hget _), answer_refused (hhashGet _)]
      exact ⟨rfl, rfl⟩
  | ok key =>
      rw [(asked hplain (Operation.plan_getValue hk rfl)).1,
        (asked hplain (Operation.plan_getValue hk rfl)).1,
        (asked hplain (Operation.plan_hashGet hk f rfl)).1,
        (asked hplain (Operation.plan_hashGet hk f rfl)).1]
      exact ⟨Store.conclusion_bytes fun _ => Server.textOrNull_of_get,
        Store.conclusion_bytes fun _ => Server.textOrNull_of_hget⟩

/-- Every text, integer within the limit of digits and run of octets that is a text is
read back as what it was from wherever it has been written. A value is written where
its limit is one, a field where its key also holds a hash or nothing. And what is
read as octets are the octets of what is read as a text. -/
theorem typed_values_survive (hplain : w.Plain) (hkey : Text.allBlank key = false)
    (hv : Lasting v t) (field : String) (limit : Value) :
    let wrote (op : Operation) := ∃ a, w.answer (.operate op) = .ok a
    let behind (op look : Operation) := (w.step (.request (.operate op))).answer (.operate look)
    let set := Operation.setValue (.text key) v limit
    let put := Operation.hashPut (.text key) (.text field) v
    let putAll := Operation.hashPutAll (.text key) (.map [(.text field, v)]) limit
    let get := Operation.getValue (.text key) (some t)
    let getField := Operation.hashGet (.text key) (.text field) (some t)
    let limited := ∃ seconds, optionalDuration limit = .ok seconds
    let fits := Server.hashUnder (w.server.server.live? key) ≠ none
    ((wrote set ↔ limited) ∧ (wrote set → behind set get = .ok v)) ∧
      ((wrote put ↔ fits) ∧ (wrote put → behind put getField = .ok v)) ∧
      ((wrote putAll ↔ limited ∧ fits) ∧ (wrote putAll → behind putAll getField = .ok v)) ∧
      ∀ k f, w.answer (.operate (.getValue k (some .bytes))) =
          (w.answer (.operate (.getValue k (some .text)))).map octetsOf ∧
        w.answer (.operate (.hashGet k f (some .bytes))) =
          (w.answer (.operate (.hashGet k f (some .text)))).map octetsOf := by
  intro wrote behind set put putAll get getField limited fits
  have hk : requireKey (.text key) = .ok key := (requireKey_eq_ok_iff _ _).mpr ⟨rfl, hkey⟩
  obtain ⟨x, hx⟩ := hv.sentAs
  have hfits : fits ↔ ∃ older, Server.hashUnder (w.server.server.live? key) = some older :=
    Option.ne_none_iff_exists'
  refine ⟨⟨⟨?_, ?_⟩, ?_⟩, ⟨⟨?_, ?_⟩, ?_⟩, ⟨⟨?_, ?_⟩, ?_⟩, octets_of_text hplain⟩
  · rintro ⟨a, ha⟩
    exact limit_of_setValue hk ha
  · rintro ⟨seconds, hlimit⟩
    exact ⟨v, (setValue_read_back hplain hk hx hlimit).1⟩
  · rintro ⟨a, ha⟩
    obtain ⟨seconds, hlimit⟩ := limit_of_setValue hk ha
    exact (setValue_read_back hplain hk hx hlimit).2
  · rintro ⟨a, ha⟩
    exact hfits.mpr (hash_of_hashPut hplain hk ha)
  · intro hopen
    obtain ⟨older, hunder⟩ := hfits.mp hopen
    exact ⟨v, (hashPut_read_back hplain hk hx hunder).1⟩
  · rintro ⟨a, ha⟩
    obtain ⟨older, hunder⟩ := hash_of_hashPut hplain hk ha
    exact (hashPut_read_back hplain hk hx hunder).2
  · rintro ⟨a, ha⟩
    obtain ⟨hlimit, hunder⟩ := limit_and_hash_of_hashPutAll hplain hk ha
    exact ⟨hlimit, hfits.mpr hunder⟩
  · rintro ⟨⟨seconds, hlimit⟩, hopen⟩
    obtain ⟨older, hunder⟩ := hfits.mp hopen
    exact (hashPutAll_read_back hplain hk hx hlimit hunder).1
  · rintro ⟨a, ha⟩
    obtain ⟨⟨seconds, hlimit⟩, older, hunder⟩ := limit_and_hash_of_hashPutAll hplain hk ha
    exact (hashPutAll_read_back hplain hk hx hlimit hunder).2

end World

end FileStash
