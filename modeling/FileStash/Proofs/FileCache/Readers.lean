import FileStash.Proofs.FileCache.Record
import FileStash.Proofs.FileCache.WrongKind
import FileStash.Proofs.FileTree.Written
import FileStash.Proofs.Session.Unchanged

namespace FileStash.FileCache

variable {σ : Type} {client : Client σ} {c : FileCache} {t : FileTree}

inductive OfTheFile : StoreError → Prop
  | reported (fault : FileFault) : OfTheFile (.fileIO fault)
  | passed (failure : Failure) : OfTheFile (.bare failure)

theorem ofTheFile_writeFailure (p : Path) (f : Failure) : OfTheFile (writeFailure p f) := by
  unfold writeFailure
  split
  · apply OfTheFile.reported
  · apply OfTheFile.passed

theorem ofTheFile_of_target {name : Value} {e : StoreError} (h : c.target t name = .error e) :
    OfTheFile e := by
  unfold target at h
  cases hsafe : t.safePath c.scratchDir name with
  | ok p => simp [hsafe] at h
  | error f =>
      simp only [hsafe] at h
      split at h
      · cases hshown : name.shown <;> rw [hshown] at h <;> cases h
        · apply OfTheFile.passed
        · apply OfTheFile.reported
      · cases h
        apply OfTheFile.passed

/-- How `restore` and `restoreBytes` come out together, and the files that `restore`
leaves. -/
inductive Outcomes (t : FileTree) :
    Except StoreError (Option Path) → Except StoreError (List UInt8) → Prop
  | failed (e : StoreError) : Outcomes t (.error e) (.error e)
  | absent : Outcomes t (.ok none) (.ok [])
  | written (p : Path) (content : List UInt8) (holds : t.read p = .ok content) :
      Outcomes t (.ok (some p)) (.ok content)
  | undelivered (e : StoreError) (content : List UInt8) (cause : OfTheFile e) :
      Outcomes t (.error e) (.ok content)

namespace Outcomes

variable {restored : Except StoreError (Option Path)} {bytes : Except StoreError (List UInt8)}

theorem error_iff (h : Outcomes t restored bytes) {e : StoreError} (he : ¬OfTheFile e) :
    restored = .error e ↔ bytes = .error e := by
  cases h with
  | failed e' => simp
  | absent | written => simp
  | undelivered e' content cause =>
      constructor
      · rintro ⟨⟩
        exact absurd cause he
      · rintro ⟨⟩

theorem of_path (h : Outcomes t restored bytes) {p : Path} (hp : restored = .ok (some p)) :
    ∃ content, bytes = .ok content ∧ t.read p = .ok content := by
  cases h with
  | written p' content holds =>
      cases hp
      exact ⟨content, rfl, holds⟩
  | failed | absent | undelivered => cases hp

theorem of_none (h : Outcomes t restored bytes) (hnone : restored = .ok none) :
    bytes = .ok [] := by
  cases h with
  | absent => rfl
  | failed | written | undelivered => cases hnone

end Outcomes

theorem read_of_settle {p : Path} {content : List UInt8} {u : Unit}
    (h : (settle t p content).1 = .ok u) : (settle t p content).2.read p = .ok content := by
  rcases settle_cases t p content with
    ⟨f, t', -, hsettle⟩ | ⟨t', -, ⟨f, -, hsettle⟩ | ⟨t'', hwrite, hsettle⟩⟩
  · rw [hsettle] at h
    cases h
  · rw [hsettle] at h
    cases h
  · rw [hsettle]
    exact FileTree.read_of_write hwrite

theorem ofTheFile_of_settle {p : Path} {content : List UInt8} {e : StoreError}
    (h : (settle t p content).1 = .error e) : OfTheFile e := by
  rcases settle_cases t p content with
    ⟨f, t', -, hsettle⟩ | ⟨t', -, ⟨f, -, hsettle⟩ | ⟨t'', -, hsettle⟩⟩ <;>
    rw [hsettle] at h <;> cases h
  · apply ofTheFile_writeFailure
  · apply ofTheFile_writeFailure

theorem outcomes_deliver (c : FileCache) (t : FileTree) (name : Value) (content : List UInt8) :
    Outcomes (c.deliver t name content).2 ((c.deliver t name content).1.map some)
      (.ok content) := by
  rcases c.deliver_cases t name content with ⟨e, htarget, hdeliver⟩ | ⟨p, -, hdeliver⟩
  · rw [hdeliver]
    exact .undelivered e content (ofTheFile_of_target htarget)
  · rw [hdeliver]
    cases hsettle : (settle t p content).1 with
    | ok u => exact .written p content (read_of_settle hsettle)
    | error e => exact .undelivered e content (ofTheFile_of_settle hsettle)

theorem outcomes_unpack (c : FileCache) (t : FileTree) (name : String) (es : Dict Value Value) :
    Outcomes (c.unpack t name es).2 (c.unpack t name es).1
      (decodeContent (fieldOr es contentField (.text ""))) := by
  rcases c.unpack_cases t name es with
    ⟨hempty, hunpack⟩ | ⟨-, ⟨e, hdecode, hunpack⟩ | ⟨content, hdecode, hunpack⟩⟩
  · obtain rfl : es = [] := List.isEmpty_iff.mp hempty
    rw [hunpack]
    exact .absent
  · rw [hunpack, hdecode]
    exact .failed e
  · rw [hunpack, hdecode]
    apply outcomes_deliver

theorem outcomes (client : Client σ) (c : FileCache) (name : Value) (s : σ) (t : FileTree) :
    Outcomes ((c.restore name).run client s t).tree ((c.restore name).run client s t).result
      ((c.restoreBytes name).run client s t).result := by
  cases hrequired : requireName name with
  | error e =>
      rw [run_restore_refused hrequired, result_restoreBytes_refused hrequired]
      exact .failed e
  | ok n =>
      obtain ⟨rfl, hname⟩ := (requireName_eq_ok_iff _ _).mp hrequired
      cases hentries : ((c.entries n).run client s t).result with
      | error e =>
          rw [(run_restore_of_error hname hentries).1,
            result_restoreBytes_of_error hname hentries]
          exact .failed e
      | ok es =>
          obtain ⟨hresult, htree⟩ := result_restore_of_entries hname hentries
          rw [hresult, htree, result_restoreBytes_of_entries hname hentries]
          apply outcomes_unpack

/-! On a server that answers by no script. -/

/-- Names that are looked up: the others are refused before the server is asked. -/
def Takes (c : FileCache) (name : Value) : Prop :=
  ∃ n, name = .text n ∧ n ≠ "" ∧ ∀ key, c.cacheKey name = .ok key → Text.allBlank key = false

theorem takes_of_cacheKey {n key : String} (hname : n ≠ "")
    (hkey : c.cacheKey (.text n) = .ok key) (hblank : Text.allBlank key = false) :
    c.Takes (.text n) := by
  refine ⟨n, rfl, hname, ?_⟩
  intro key' hkey'
  cases hkey.symm.trans hkey'
  exact hblank

/-- The fields that both readers start from. -/
def lookUp (c : FileCache) (s : Server) (name : Value) :
    Except StoreError (Dict Value Value) :=
  (requireName name).bind (c.found s)

section Server

variable {s : ScriptedServer} {name : Value}

theorem result_restoreBytes_eq (hplain : s.script = []) :
    ((c.restoreBytes name).run ScriptedServer.call s t).result =
      (c.lookUp s.server name).bind fun es =>
        decodeContent (fieldOr es contentField (.text "")) := by
  unfold lookUp
  cases hrequired : requireName name with
  | error e => exact result_restoreBytes_refused hrequired
  | ok n =>
      obtain ⟨rfl, hname⟩ := (requireName_eq_ok_iff _ _).mp hrequired
      have hentries : ((c.entries n).run ScriptedServer.call s t).result = c.found s.server n :=
        result_entries hplain
      show _ = (c.found s.server n).bind _
      cases hfound : c.found s.server n with
      | error e => exact result_restoreBytes_of_error hname (hentries.trans hfound)
      | ok es => exact result_restoreBytes_of_entries hname (hentries.trans hfound)

theorem lookUp_congr {s s' : Server} (h : ∀ key, s.live? key = s'.live? key) :
    c.lookUp s name = c.lookUp s' name := by
  have hfound : c.found s = c.found s' := by
    funext n
    simp only [found, h]
  rw [lookUp, lookUp, hfound]

theorem lookUp_eq_found {n : String} (hname : n ≠ "") (s : Server) :
    c.lookUp s (.text n) = c.found s n := by
  have hchecked : requireName (.text n) = .ok n := (requireName_eq_ok_iff _ _).mpr ⟨rfl, hname⟩
  rw [lookUp, hchecked]
  rfl

theorem lookUp_otherKind {s : Server} {key : String} (htakes : c.Takes name)
    (hkey : c.cacheKey name = .ok key) (hkind : Store.OtherKind (s.live? key)) :
    c.lookUp s name = .error (.typeMismatch (.otherKind "HGETALL" key .wrongKind)) := by
  obtain ⟨n, rfl, hname, hblank⟩ := htakes
  rw [lookUp_eq_found hname, found_of_notBlank s hkey (hblank key hkey), hkind.hashUnder]

theorem lookUp_of_takes (s : Server) (htakes : c.Takes name) :
    (∃ f, c.lookUp s name = .error (.bare f)) ∨
      (∃ fault, c.lookUp s name = .error (.typeMismatch fault)) ∨
        ∃ fields, c.lookUp s name = .ok (Server.textItems fields) := by
  obtain ⟨n, rfl, hname, hblank⟩ := htakes
  rw [lookUp_eq_found hname]
  cases hkey : c.cacheKey (.text n) with
  | error f =>
      left
      exact ⟨f, by rw [found, hkey]⟩
  | ok key =>
      right
      rw [found_of_notBlank s hkey (hblank key hkey)]
      cases Server.hashUnder (s.live? key) with
      | none => exact .inl ⟨_, rfl⟩
      | some fields => exact .inr ⟨fields, rfl⟩

theorem lookUp_of_not_takes (s : Server) (hrefused : ¬c.Takes name) :
    ∃ fault, c.lookUp s name = .error (.invalidArgument fault) := by
  cases hrequired : requireName name with
  | error e =>
      have hfault : e = .invalidArgument .emptyFileName := error_of_requireName hrequired
      exact ⟨.emptyFileName, by rw [lookUp, hrequired, hfault]; rfl⟩
  | ok n =>
      obtain ⟨rfl, hname⟩ := (requireName_eq_ok_iff _ _).mp hrequired
      have hblank : ∃ key, c.cacheKey (.text n) = .ok key ∧ Text.allBlank key = true := by
        apply Classical.byContradiction
        intro hnone
        apply hrefused
        refine ⟨n, rfl, hname, fun key hkey => ?_⟩
        apply Bool.eq_false_iff.mpr
        intro hblank
        exact hnone ⟨key, hkey, hblank⟩
      obtain ⟨key, hkey, hblank⟩ := hblank
      exact ⟨.blankKey, by rw [lookUp_eq_found hname, found, hkey]; simp only [hblank, if_true]⟩

theorem refused_iff (hplain : s.script = []) :
    (∃ fault, ((c.restoreBytes name).run ScriptedServer.call s t).result =
      .error (.invalidArgument fault)) ↔ ¬c.Takes name := by
  rw [result_restoreBytes_eq hplain]
  constructor
  · rintro ⟨fault, hfault⟩ htakes
    rcases lookUp_of_takes s.server htakes with ⟨f, hlook⟩ | ⟨f, hlook⟩ | ⟨fields, hlook⟩ <;>
      rw [hlook] at hfault
    · cases hfault
    · cases hfault
    · have hdecode : decodeContent (fieldOr (Server.textItems fields) contentField (.text "")) =
          .error (.invalidArgument fault) := hfault
      rw [fieldOr_textItems_empty] at hdecode
      obtain ⟨_, hreported⟩ := error_of_decodeContent hdecode
      cases hreported
  · intro hrefused
    obtain ⟨fault, hlook⟩ := lookUp_of_not_takes s.server hrefused
    rw [hlook]
    exact ⟨fault, rfl⟩

theorem lookUp_of_not_exists (hplain : s.script = [])
    (h : ((c.exists? name).run ScriptedServer.call s t).result = .ok false) :
    c.lookUp s.server name = .ok [] := by
  cases hrequired : requireName name with
  | error e =>
      simp only [exists?, Program.bind_eq_andThen, hrequired] at h
      cases h
  | ok n =>
      obtain ⟨rfl, hname⟩ := (requireName_eq_ok_iff _ _).mp hrequired
      cases hkey : c.cacheKey (.text n) with
      | error f =>
          simp only [exists?, Program.bind_eq_andThen, hrequired, hkey, Program.ofExcept,
            Program.andThen_done] at h
          cases h
      | ok key =>
          cases hblank : Text.allBlank key with
          | true =>
              simp only [exists?, Program.bind_eq_andThen, hrequired, hkey, Program.ofExcept,
                Program.ofConverted, Program.andThen_done, Store.hasKey, Store.checked,
                Store.requireKey_of_blank hblank] at h
              cases h
          | false =>
              rw [result_exists hplain hname hkey hblank] at h
              have hnone : s.server.live? key = none := by simpa using h
              rw [lookUp_eq_found hname, found_of_notBlank _ hkey hblank, hnone]
              rfl

theorem result_restore_absent (hplain : s.script = [])
    (h : c.lookUp s.server name = .ok []) :
    ((c.restore name).run ScriptedServer.call s t).result = .ok none := by
  unfold lookUp at h
  cases hrequired : requireName name with
  | error e => simp [hrequired, Except.bind] at h
  | ok n =>
      obtain ⟨rfl, hname⟩ := (requireName_eq_ok_iff _ _).mp hrequired
      rw [hrequired] at h
      have hentries : ((c.entries n).run ScriptedServer.call s t).result = .ok [] :=
        (result_entries hplain).trans h
      exact (result_restore_of_entries hname hentries).1

end Server

/-- The two readers of a record agree, whatever the server and the files hold: they
report the same malformed content, and a path that `restore` answers leads to the
octets that `restoreBytes` answers, then and afterwards. Where `restore` answers none
there are no octets. A key that holds another kind of value is reported by both, but
for names that are refused, and these both refuse before they look. -/
theorem readers_agree (c : FileCache) (name : Value) (s : Server) (t : FileTree) :
    let restored := (c.restore name).run ScriptedServer.call ⟨s, []⟩ t
    let bytes := ((c.restoreBytes name).run ScriptedServer.call ⟨s, []⟩ t).result
    let later := (c.restoreBytes name).run ScriptedServer.call restored.state restored.tree
    (∀ fault, restored.result = .error (.decode fault) ↔ bytes = .error (.decode fault)) ∧
    (∀ p, restored.result = .ok (some p) →
      ∃ content, bytes = .ok content ∧ restored.tree.read p = .ok content) ∧
    (restored.result = .ok none → bytes = .ok []) ∧
    (∀ key, c.Takes name → c.cacheKey name = .ok key → Store.OtherKind (s.live? key) →
      restored.result = .error (.typeMismatch (.otherKind "HGETALL" key .wrongKind)) ∧
        bytes = .error (.typeMismatch (.otherKind "HGETALL" key .wrongKind))) ∧
    ((∃ fault, restored.result = .error (.invalidArgument fault)) ↔ ¬c.Takes name) ∧
    (∀ fault, restored.result = .error (.invalidArgument fault) ↔
      bytes = .error (.invalidArgument fault)) ∧
    (((c.exists? name).run ScriptedServer.call ⟨s, []⟩ t).result = .ok false →
      restored.result = .ok none ∧ bytes = .ok []) ∧
    later.result = bytes := by
  intro restored bytes later
  have houtcomes : Outcomes restored.tree restored.result bytes :=
    outcomes ScriptedServer.call c name ⟨s, []⟩ t
  have hbytes : bytes = (c.lookUp s name).bind fun es =>
      decodeContent (fieldOr es contentField (.text "")) := result_restoreBytes_eq rfl
  have hrefused : ∀ fault, restored.result = .error (.invalidArgument fault) ↔
      bytes = .error (.invalidArgument fault) := fun fault => houtcomes.error_iff nofun
  refine ⟨fun fault => houtcomes.error_iff nofun, fun p => houtcomes.of_path,
    houtcomes.of_none, fun key htakes hkey hkind => ?_, ?_, hrefused, fun hnone => ?_, ?_⟩
  · have hmismatch : bytes =
        .error (.typeMismatch (.otherKind "HGETALL" key .wrongKind)) := by
      rw [hbytes, lookUp_otherKind htakes hkey hkind]
      rfl
    refine ⟨(houtcomes.error_iff ?_).mpr hmismatch, hmismatch⟩
    nofun
  · calc (∃ fault, restored.result = .error (.invalidArgument fault))
      _ ↔ ∃ fault, bytes = .error (.invalidArgument fault) := exists_congr hrefused
      _ ↔ ¬c.Takes name := refused_iff rfl
  · have hlook := lookUp_of_not_exists rfl hnone
    refine ⟨result_restore_absent rfl hlook, ?_⟩
    rw [hbytes, hlook]
    rfl
  · have hagrees : restored.state.Agrees ⟨s, []⟩ :=
      .of_reads (Q := fun _ => True) (within_restore fun n key _ _ => ⟨_, rfl, trivial⟩) _ t
    have hlater : later.result = (c.lookUp restored.state.server name).bind fun es =>
        decodeContent (fieldOr es contentField (.text "")) := result_restoreBytes_eq hagrees.script
    rw [hlater, hbytes, lookUp_congr hagrees.server.live]

/-- A record whose name leads through a link, a key of another kind, and a key that
holds nothing. -/
theorem readers_agree_on_three_names :
    let t : FileTree :=
      { nodes := [(["scratch"], .directory), (["scratch", "to"], .link "sub")] }
    let c : FileCache := ⟨FileTree.pathOf ["scratch"], defaultPrefix, none⟩
    let s : Server := { entries :=
      [("file:b", ⟨.hash [(nameField, "to/b.txt"), (contentField, "AQ==")], some 60000⟩),
        ("file:l", ⟨.sequence ["AQ=="], none⟩)] }
    let restored (n : String) := (c.restore (.text n)).run ScriptedServer.call ⟨s, []⟩ t
    let bytes (n : String) := ((c.restoreBytes (.text n)).run ScriptedServer.call ⟨s, []⟩ t).result
    let p := FileTree.pathOf ["scratch", "sub", "b.txt"]
    let mismatch : StoreError := .typeMismatch (.otherKind "HGETALL" "file:l" .wrongKind)
    ((restored "b").result = .ok (some p) ∧
      ∃ content, bytes "b" = .ok content ∧ (restored "b").tree.read p = .ok content) ∧
    (c.Takes (.text "l") ∧ c.cacheKey (.text "l") = .ok "file:l" ∧
      Store.OtherKind (s.live? "file:l") ∧
      (restored "l").result = .error mismatch ∧ bytes "l" = .error mismatch) ∧
    (((c.exists? (.text "z")).run ScriptedServer.call ⟨s, []⟩ t).result = .ok false ∧
      (restored "z").result = .ok none ∧ bytes "z" = .ok []) := by
  intro t c s restored bytes p mismatch
  refine ⟨?_, ?_, ?_⟩
  · have hrestored : (restored "b").result = .ok (some p) := by decide +kernel
    obtain ⟨-, hpath, -⟩ := readers_agree c (.text "b") s t
    exact ⟨hrestored, hpath p hrestored⟩
  · have htakes : c.Takes (.text "l") := takes_of_cacheKey (by decide) rfl (by decide)
    have hkind : Store.OtherKind (s.live? "file:l") := ⟨_, rfl, rfl⟩
    obtain ⟨-, -, -, hmismatch, -⟩ := readers_agree c (.text "l") s t
    exact ⟨htakes, rfl, hkind, hmismatch "file:l" htakes rfl hkind⟩
  · have hnone : ((c.exists? (.text "z")).run ScriptedServer.call ⟨s, []⟩ t).result =
        .ok false := by decide +kernel
    obtain ⟨-, -, -, -, -, -, habsent, -⟩ := readers_agree c (.text "z") s t
    exact ⟨hnone, habsent hnone⟩

/-- Under the empty name nobody looks, so that nobody meets the kind of value that its
key holds. -/
theorem empty_name_refused_before_kind :
    let c : FileCache := ⟨FileTree.pathOf ["scratch"], defaultPrefix, none⟩
    let s : Server := { entries := [("file:", ⟨.text "v", none⟩)] }
    c.cacheKey (.text "") = .ok "file:" ∧ Store.OtherKind (s.live? "file:") ∧
      ((c.restore (.text "")).run ScriptedServer.call ⟨s, []⟩ {}).result =
        .error (.invalidArgument .emptyFileName) ∧
      ((c.restoreBytes (.text "")).run ScriptedServer.call ⟨s, []⟩ {}).result =
        .error (.invalidArgument .emptyFileName) :=
  ⟨rfl, ⟨_, rfl, rfl⟩, rfl, rfl⟩

end FileStash.FileCache
