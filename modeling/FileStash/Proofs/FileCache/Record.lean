import FileStash.Proofs.Base64.RoundTrip
import FileStash.Proofs.FileCache.Storing
import FileStash.Proofs.FileCache.Unpacking
import FileStash.Proofs.Store.Looking

namespace FileStash

namespace FileCache

structure Holds (name : String) (content : List UInt8)
    (fields : Dict String String) : Prop where
  name : Dict.get? fields nameField = some name
  content : Dict.get? fields contentField = some (encodeContent content)

theorem Parcel.holds (p : Parcel) (fields : Dict String String) :
    Holds p.name p.content (Dict.insertAll fields p.fields) where
  name := by
    have hne : nameField ≠ contentField := by decide
    simp only [Dict.insertAll, Parcel.fields, List.foldl_cons, List.foldl_nil]
    rw [Dict.get?_insert_of_ne _ _ hne, Dict.get?_insert_self]
  content := by
    simp only [Dict.insertAll, Parcel.fields, List.foldl_cons, List.foldl_nil]
    rw [Dict.get?_insert_self]

theorem fieldOr_textItems {fields : Dict String String} {field v : String}
    (default : Value) (h : Dict.get? fields field = some v) (hv : v ≠ "") :
    fieldOr (Server.textItems fields) field default = .text v := by
  simp [fieldOr, Dict.get?_textItems, h, Value.truth, hv]

theorem fieldOr_textItems_empty (fields : Dict String String) (field : String) :
    fieldOr (Server.textItems fields) field (.text "") =
      .text ((Dict.get? fields field).getD "") := by
  simp only [fieldOr, Dict.get?_textItems]
  cases Dict.get? fields field with
  | none => rfl
  | some v =>
      by_cases hv : v = ""
      · simp [hv, Value.truth]
      · simp [hv, Value.truth]

/-- The content that is read is the content that was written, an empty one
included. -/
theorem decodeContent_fieldOr {name : String} {content : List UInt8}
    {fields : Dict String String} (h : Holds name content fields) :
    decodeContent (fieldOr (Server.textItems fields) contentField (.text "")) =
      .ok content := by
  rw [fieldOr_textItems_empty, h.content]
  simp only [decodeContent, encodeContent, Option.getD_some, String.toList_ofList,
    Base64.decode_encode]
  rfl

section Look

variable {c : FileCache} {name key : String} {content : List UInt8} {s : ScriptedServer}
  {t : FileTree} {fields : Dict String String}

theorem run_entries (hplain : s.script = [])
    (hkey : c.cacheKey (.text name) = .ok key)
    (hblank : Text.allBlank key = false)
    (h : Server.hashUnder (s.server.live? key) = some fields) :
    (c.entries name).run ScriptedServer.call s t =
      { result := .ok (Server.textItems fields),
        state := { s with server := (s.server.run (.hgetall key)).2 }, tree := t,
        calls := [.run (.hgetall key)] } := by
  simp only [entries, Program.bind_eq_andThen, hkey, Program.ofConverted,
    Program.andThen_done]
  exact Store.run_hashGetAll hplain hblank h

/-- What a look-up of a name comes to, as a function of what the key holds. -/
def found (c : FileCache) (s : Server) (name : String) :
    Except StoreError (Dict Value Value) :=
  match c.cacheKey (.text name) with
  | .error f => .error (.bare f)
  | .ok key =>
      if Text.allBlank key then .error (.invalidArgument .blankKey)
      else
        match Server.hashUnder (s.live? key) with
        | some fields => .ok (Server.textItems fields)
        | none => .error (.typeMismatch (.otherKind "HGETALL" key .wrongKind))

theorem found_of_notBlank (s : Server) (hkey : c.cacheKey (.text name) = .ok key)
    (hblank : Text.allBlank key = false) :
    c.found s name =
      match Server.hashUnder (s.live? key) with
      | some fields => .ok (Server.textItems fields)
      | none => .error (.typeMismatch (.otherKind "HGETALL" key .wrongKind)) := by
  simp only [found, hkey, hblank, Bool.false_eq_true, if_false]

theorem result_entries (hplain : s.script = []) :
    ((c.entries name).run ScriptedServer.call s t).result = c.found s.server name := by
  cases hkey : c.cacheKey (.text name) with
  | error f =>
      simp only [entries, found, Program.bind_eq_andThen, hkey]
      rfl
  | ok key =>
      cases hblank : Text.allBlank key with
      | true =>
          simp only [entries, found, Program.bind_eq_andThen, hkey, hblank, if_true,
            Program.ofConverted, Program.andThen_done, Store.hashGetAll, Store.checked,
            Store.requireKey_of_blank hblank]
          rfl
      | false =>
          rw [found_of_notBlank _ hkey hblank]
          cases hunder : Server.hashUnder (s.server.live? key) with
          | some fields => rw [run_entries hplain hkey hblank hunder]
          | none =>
              simp only [entries, Program.bind_eq_andThen, hkey, Program.ofConverted,
                Program.andThen_done]
              exact Store.result_hashGetAll_otherKind hplain hblank hunder

theorem of_found_ok {s : Server} {es : Dict Value Value} (h : c.found s name = .ok es) :
    ∃ key fields, c.cacheKey (.text name) = .ok key ∧
      Server.hashUnder (s.live? key) = some fields ∧ es = Server.textItems fields := by
  unfold found at h
  cases hkey : c.cacheKey (.text name) with
  | error f => simp [hkey] at h
  | ok key =>
      simp only [hkey] at h
      split at h
      · cases h
      · cases hunder : Server.hashUnder (s.live? key) with
        | some fields => exact ⟨key, fields, rfl, hunder, by simpa [hunder] using h.symm⟩
        | none => simp [hunder] at h

theorem of_entries_ok (hplain : s.script = []) {es : Dict Value Value}
    (h : ((c.entries name).run ScriptedServer.call s t).result = .ok es) :
    ∃ key fields, c.cacheKey (.text name) = .ok key ∧
      Server.hashUnder (s.server.live? key) = some fields ∧ es = Server.textItems fields := by
  rw [result_entries hplain] at h
  exact of_found_ok h

theorem result_restoreBytes (hplain : s.script = []) (hname : name ≠ "")
    (hkey : c.cacheKey (.text name) = .ok key)
    (hblank : Text.allBlank key = false)
    (h : Server.hashUnder (s.server.live? key) = some fields) :
    ((c.restoreBytes (.text name)).run ScriptedServer.call s t).result =
      decodeContent (fieldOr (Server.textItems fields) contentField (.text "")) := by
  apply result_restoreBytes_of_entries hname
  rw [run_entries hplain hkey hblank h]

theorem result_exists (hplain : s.script = []) (hname : name ≠ "")
    (hkey : c.cacheKey (.text name) = .ok key)
    (hblank : Text.allBlank key = false) :
    ((c.exists? (.text name)).run ScriptedServer.call s t).result =
      .ok (s.server.live? key).isSome := by
  have hchecked : requireName (.text name) = .ok name :=
    (requireName_eq_ok_iff _ _).mpr ⟨rfl, hname⟩
  have hkeyed : Store.requireKey (.text key) = .ok key :=
    (Store.requireKey_eq_ok_iff _ _).mpr ⟨rfl, hblank⟩
  have hanswer : (s.server.run (.exists key)).1 =
      .ok (Server.count (if (s.server.live? key).isSome then 1 else 0)) :=
    (Server.actsOn_run s.server rfl).answer
  simp only [exists?, Program.bind_eq_andThen, hchecked, hkey, Program.ofExcept,
    Program.ofConverted, Program.andThen_done, Store.hasKey, Store.checked, hkeyed,
    Value.isNull,
    if_true]
  rw [Program.run_andThen, Store.run_ask hplain hanswer]
  cases (s.server.live? key).isSome <;> rfl

theorem run_restore (hplain : s.script = []) (hname : name ≠ "")
    (hkey : c.cacheKey (.text name) = .ok key)
    (hblank : Text.allBlank key = false)
    (h : Server.hashUnder (s.server.live? key) = some fields) :
    ((c.restore (.text name)).run ScriptedServer.call s t).result =
        (c.unpack t name (Server.textItems fields)).1 ∧
      ((c.restore (.text name)).run ScriptedServer.call s t).tree =
        (c.unpack t name (Server.textItems fields)).2 := by
  have hentries := run_entries (t := t) hplain hkey hblank h
  exact result_restore_of_entries hname (by rw [hentries])

theorem run_restore_absent (hplain : s.script = []) (hname : name ≠ "")
    (hkey : c.cacheKey (.text name) = .ok key)
    (hblank : Text.allBlank key = false) (h : s.server.live? key = none) :
    ((c.restore (.text name)).run ScriptedServer.call s t).result = .ok none ∧
      ((c.restore (.text name)).run ScriptedServer.call s t).tree = t := by
  have hunder : Server.hashUnder (s.server.live? key) = some [] := by rw [h]; rfl
  exact run_restore hplain hname hkey hblank hunder

theorem unpack_of_holds (hname : name ≠ "") (hholds : Holds name content fields) :
    c.unpack t name (Server.textItems fields) =
      ((c.deliver t (.text name) content).1.map some,
        (c.deliver t (.text name) content).2) := by
  have hsome : (Server.textItems fields).isEmpty = false := by
    cases fields with
    | nil => cases hholds.name
    | cons e fields => rfl
  have hcached : fieldOr (Server.textItems fields) nameField (.text name) =
      .text name :=
    fieldOr_textItems _ hholds.name hname
  simp only [unpack, hsome, Bool.false_eq_true, if_false, decodeContent_fieldOr hholds,
    hcached]

end Look

section Store

variable {s : ScriptedServer} {t : FileTree}

/-- Sent without a time limit, a record goes into the hash that is there, and
the deadline of that hash stays. -/
theorem run_send (hplain : s.script = []) {p : Parcel}
    (hseconds : p.seconds = none) {fields : Dict String String}
    (h : Server.hashUnder (s.server.live? p.key) = some fields) :
    (p.send.run ScriptedServer.call s t).result = .ok p.key ∧
      (p.send.run ScriptedServer.call s t).state.script = [] ∧
      (p.send.run ScriptedServer.call s t).state.server.live? p.key =
        some ⟨.hash (Dict.insertAll fields p.fields),
          (s.server.live? p.key).bind (·.deadline)⟩ := by
  have hfields : p.fields ≠ [] := by simp [Parcel.fields]
  obtain ⟨⟨n, hanswer⟩, hlive⟩ := Server.run_hsetAll_texts hfields h
  have hwrite : p.write.run ScriptedServer.call s t =
      { result := .ok (),
        state := { s with
          server := (s.server.run (.hsetAll p.key (Server.textItems p.fields))).2 },
        tree := t, calls := [.run (.hsetAll p.key (Server.textItems p.fields))] } := by
    simp only [Parcel.write, hseconds, Program.bind_eq_andThen]
    rw [Program.run_andThen, Store.run_ask hplain hanswer]
    rfl
  simp only [Parcel.send, Program.bind_eq_andThen]
  rw [Program.run_andThen, hwrite]
  exact ⟨rfl, hplain, hlive⟩

theorem run_send_error (hplain : s.script = []) {p : Parcel}
    (hseconds : p.seconds = none)
    (h : Server.hashUnder (s.server.live? p.key) = none) :
    ∃ e, (p.send.run ScriptedServer.call s t).result = .error e := by
  have hfields : p.fields ≠ [] := by simp [Parcel.fields]
  obtain ⟨hanswer, -⟩ := Server.run_hsetAll_otherKind (Server.textItems_ne_nil hfields) h
  obtain ⟨e, he⟩ : ∃ e,
    ((Store.ask "HSET" p.key (.hsetAll p.key (Server.textItems p.fields))).run
      ScriptedServer.call s t).result = .error e := Store.run_ask_error hplain hanswer
  refine ⟨e, ?_⟩
  have hwrite : (p.write.run ScriptedServer.call s t).result = .error e := by
    simp only [Parcel.write, hseconds, Program.bind_eq_andThen]
    rw [Program.run_andThen_error he]
  simp only [Parcel.send, Program.bind_eq_andThen]
  rw [Program.run_andThen_error hwrite]

theorem result_store {c : FileCache} {file : FileSource} {limit : Value}
    {name key : String} {content : List UInt8} {fields : Dict String String}
    (hplain : s.script = []) (hlimit : c.effectiveTtl limit = .ok none)
    (hread : file.readIn t = .ok (name, content))
    (hkey : c.cacheKey (.text name) = .ok key)
    (hblank : Text.allBlank key = false)
    (h : Server.hashUnder (s.server.live? key) = some fields) :
    ((c.store file limit).run ScriptedServer.call s t).result = .ok key := by
  rw [run_store, pack_of_readIn hlimit nofun hread hkey hblank]
  exact (run_send hplain rfl h).1

/-- What a successful store without a time limit has done. -/
structure Recorded (c : FileCache) (file : FileSource) (t : FileTree)
    (s s' : ScriptedServer) (name key : String) (content : List UInt8)
    (fields : Dict String String) : Prop where
  read : file.readIn t = .ok (name, content)
  keyed : c.cacheKey (.text name) = .ok key
  notBlank : Text.allBlank key = false
  holds : Holds name content fields
  script : s'.script = []
  live : s'.server.live? key =
    some ⟨.hash fields, (s.server.live? key).bind (·.deadline)⟩

theorem recorded_of_store {c : FileCache} {file : FileSource} {limit : Value}
    {key : String} (hplain : s.script = [])
    (hlimit : c.effectiveTtl limit = .ok none)
    (h : ((c.store file limit).run ScriptedServer.call s t).result = .ok key) :
    ∃ name content fields, Recorded c file t s
      ((c.store file limit).run ScriptedServer.call s t).state name key content fields := by
  rw [run_store] at h ⊢
  cases hpack : c.pack file limit t with
  | error e => simp [hpack] at h
  | ok p =>
      obtain ⟨hread, hkey, hblank, hlimit', -⟩ := of_pack hpack
      have hseconds : p.seconds = none := Except.ok.inj (hlimit'.symm.trans hlimit)
      simp only [hpack] at h ⊢
      cases hunder : Server.hashUnder (s.server.live? p.key) with
      | none =>
          obtain ⟨e, he⟩ := run_send_error (t := t) hplain hseconds hunder
          cases h.symm.trans he
      | some fields =>
          obtain ⟨hresult, hscript, hlive⟩ := run_send (t := t) hplain hseconds hunder
          cases Except.ok.inj (h.symm.trans hresult)
          exact ⟨p.name, p.content, _, hread, hkey, hblank, p.holds fields,
            hscript, hlive⟩

end Store

end FileCache

end FileStash
