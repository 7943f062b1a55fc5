import FileStash.Proofs.FileCache.Lifetime
import FileStash.Proofs.Store.LimitedHash

namespace FileStash.FileCache

open World (Lasts)

variable {c : FileCache} {name key : String} {content : List UInt8}
  {fields : Dict String String} {n : Int}

theorem Parcel.returns_send {p : Parcel} (hseconds : p.seconds = some n) (hpos : 0 < n) :
    p.send.Returns ScriptedServer.call fun s k s' =>
      s.script = [] → k = p.key ∧ s'.script = [] ∧
        ∃ fields, Store.Limited p.key (Server.textItems p.fields) n s.server s'.server
          fields := by
  have hput : p.write = Store.putWithin p.key (.map (Server.textItems p.fields)) n := by
    rw [write, hseconds]
    rfl
  have hwrite := @Store.returns_putWithin (fun _ _ => none) p.key
    (Server.textItems p.fields) n
  rw [← hput, ScriptedServer.interrupted_never] at hwrite
  have hnote : (Program.note .info logger
      ("Cached " ++ p.name ++ " under " ++ p.key ++ sizeNote p.content)).Harmless
      ScriptedServer.call Eq :=
    Program.harmless_of_silent (Q := fun _ => True) .refl (Program.within_note ..)
  refine (hwrite.andThen fun _ => hnote.returns.andThen fun _ =>
    Program.returns_done p.key).mono ?_
  rintro s k s' ⟨_, _, hwritten, _, _, rfl, rfl, rfl⟩ hplain
  obtain ⟨_, hanswer, rfl⟩ := hwritten (ScriptedServer.raises_of_plain hplain)
  exact ⟨rfl, hplain, Store.limited_of_run hpos hanswer⟩

/-- A record written within a limit holds the name and the content, whatever the
hash held before. -/
theorem Parcel.holds_of_limited {p : Parcel} {s s' : Server}
    (h : Store.Limited p.key (Server.textItems p.fields) n s s' fields) :
    Holds p.name p.content fields := by
  obtain ⟨older, entries, -, hsent, hfields⟩ := h.written
  cases hsent.symm.trans (Server.mapM_textItems p.fields)
  have hne : contentField ≠ nameField := by decide
  constructor <;> rw [hfields] <;> simp [Parcel.fields, Dict.get?, hne]

/-- What a successful store within a time limit has done. -/
structure RecordedWithin (n : Int) (c : FileCache) (file : FileSource) (w w' : World)
    (name key : String) (content : List UInt8) (fields : Dict String String) : Prop where
  read : file.readIn w.tree = .ok (name, content)
  keyed : c.cacheKey (.text name) = .ok key
  notBlank : Text.allBlank key = false
  holds : Holds name content fields
  script : w'.server.script = []
  now : w'.server.server.now = w.server.server.now
  live : w'.server.server.live? key =
    some ⟨.hash fields, some (w.server.server.now + 1000 * n)⟩

theorem recordedWithin_of_answer {w : World} {file : FileSource} {limit v : Value}
    (hplain : w.server.script = []) (hlimit : c.effectiveTtl limit = .ok (some n))
    (h : w.answer (.store c file limit) = .ok v) :
    ∃ name key content fields, v = .text key ∧
      RecordedWithin n c file w (w.step (.request (.store c file limit))) name key content
        fields := by
  rw [World.answer_store] at h
  rw [World.step_store]
  cases hresult : ((c.store file limit).run ScriptedServer.call w.server w.tree).result with
  | error e =>
      rw [hresult] at h
      cases h
  | ok key =>
      rw [hresult] at h
      cases h
      rw [run_store] at hresult ⊢
      cases hpack : c.pack file limit w.tree with
      | error e => simp [hpack] at hresult
      | ok p =>
          obtain ⟨hread, hkey, hblank, hlimit', hpos⟩ := of_pack hpack
          have hseconds : p.seconds = some n := Except.ok.inj (hlimit'.symm.trans hlimit)
          simp only [hpack] at hresult ⊢
          obtain ⟨rfl, hscript, fields, hlimited⟩ :=
            Parcel.returns_send hseconds (hpos n hseconds) _ _ key hresult hplain
          exact ⟨p.name, p.key, p.content, fields, rfl, hread, hkey, hblank,
            Parcel.holds_of_limited hlimited, hscript, hlimited.now, hlimited.live⟩

/-- What a store that succeeds leaves under its key: the whole record, and the
deadline where there is a time limit. -/
structure Kept (c : FileCache) (file : FileSource) (limit : Value) (w w' : World)
    (name key : String) (content : List UInt8) (e : Entry) : Prop where
  read : file.readIn w.tree = .ok (name, content)
  keyed : c.cacheKey (.text name) = .ok key
  notBlank : Text.allBlank key = false
  script : w'.server.script = []
  live : w'.server.server.live? key = some e
  record : ∃ fields, e.content = .hash fields ∧ Holds name content fields
  limited : ∀ n, c.effectiveTtl limit = .ok (some n) →
    e.deadline = some (w.server.server.now + 1000 * n)

theorem effectiveTtl_of_answer {w : World} {file : FileSource} {limit v : Value}
    (h : w.answer (.store c file limit) = .ok v) :
    ∃ seconds, c.effectiveTtl limit = .ok seconds := by
  rw [World.answer_store, run_store] at h
  cases hpack : c.pack file limit w.tree with
  | error e => simp [hpack, Except.map] at h
  | ok p =>
      obtain ⟨-, -, -, hlimit, -⟩ := of_pack hpack
      exact ⟨p.seconds, hlimit⟩

theorem kept_of_answer {w : World} (hplain : w.server.script = []) {file : FileSource}
    {limit v : Value} (h : w.answer (.store c file limit) = .ok v) :
    ∃ name key content e, v = .text key ∧
      Kept c file limit w (w.step (.request (.store c file limit))) name key content e := by
  obtain ⟨seconds, hlimit⟩ := effectiveTtl_of_answer h
  cases seconds with
  | none =>
      obtain ⟨name, key, content, fields, hv, hrec⟩ := recorded_of_answer hplain hlimit h
      refine ⟨name, key, content, _, hv, hrec.read, hrec.keyed, hrec.notBlank, hrec.script,
        hrec.live, ⟨fields, rfl, hrec.holds⟩, fun n hn => ?_⟩
      cases hlimit.symm.trans hn
  | some n =>
      obtain ⟨name, key, content, fields, hv, hrec⟩ := recordedWithin_of_answer hplain hlimit h
      refine ⟨name, key, content, _, hv, hrec.read, hrec.keyed, hrec.notBlank, hrec.script,
        hrec.live, ⟨fields, rfl, hrec.holds⟩, fun n' hn' => ?_⟩
      cases hlimit.symm.trans hn'
      rfl

/-- A session finds nothing under a name, and nothing comes back as a file. -/
structure Gone (c : FileCache) (w : World) (name : String) : Prop extends
    Misses c w name where
  unrestored : w.answer (.restore c (.text name)) = .ok .null
  untouched : (w.step (.request (.restore c (.text name)))).tree = w.tree

structure Refuses (c : FileCache) (w : World) (name : String) : Prop where
  there : w.answer (.contains c (.text name)) = .error (.invalidArgument .emptyFileName)
  content : w.answer (.restoreBytes c (.text name)) = .error (.invalidArgument .emptyFileName)
  file : w.answer (.restore c (.text name)) = .error (.invalidArgument .emptyFileName)

theorem refuses_empty (c : FileCache) (w : World) : Refuses c w "" :=
  ⟨rfl, rfl, rfl⟩

theorem gone_of_live {w : World} (hplain : w.server.script = []) (hname : name ≠ "")
    (hkey : c.cacheKey (.text name) = .ok key) (hblank : Text.allBlank key = false)
    (h : w.server.server.live? key = none) : Gone c w name where
  toMisses := misses_of_live hplain hname hkey hblank h
  unrestored := by
    rw [World.answer_restore, (run_restore_absent hplain hname hkey hblank h).1]
    rfl
  untouched := by
    rw [World.tree_step_restore, (run_restore_absent hplain hname hkey hblank h).2]

/-- A file that is stored within a time limit lasts exactly that long, whatever
lay under its key before and whatever a session does that does not change the
key: until then it is found with its content, and from that moment on it is not
there and no file is written for it. A file whose base name is empty is kept for
as long, but the look-ups refuse it. -/
theorem file_with_limit_lasts_exactly (c : FileCache) (file : FileSource)
    (limit : Value) (n : Int) (s : Server) (t : FileTree) (key : String)
    (hlimit : c.effectiveTtl limit = .ok (some n))
    (hstore : World.answer ⟨⟨s, []⟩, t⟩ (.store c file limit) = .ok (.text key)) :
    ∃ name content, file.readIn t = .ok (name, content) ∧
      c.cacheKey (.text name) = .ok key ∧
      ∀ later, (∀ st ∈ later, ¬st.Changes key) →
        let w := (World.step ⟨⟨s, []⟩, t⟩ (.request (.store c file limit))).after later
        let now := w.server.server.now
        let deadline := s.now + 1000 * n
        now = s.now + World.waited later ∧
        w.answer (.operate (.ttl (.text key))) =
          .ok (.int (if now < deadline then Server.wholeSeconds (deadline - now) else -2)) ∧
        (∀ m : Nat, now = s.now + 1000 * m →
          w.answer (.operate (.ttl (.text key))) = .ok (.int (if m < n then n - m else -2))) ∧
        (name ≠ "" → (now < deadline → Gets c w name content) ∧
          (deadline ≤ now → Gone c w name)) ∧
        (name = "" → Refuses c w name) := by
  obtain ⟨name, key', content, fields, hkey, hrec⟩ :=
    recordedWithin_of_answer rfl hlimit hstore
  cases hkey
  refine ⟨name, content, hrec.read, hrec.keyed, fun later hlater => ?_⟩
  intro w now deadline
  have hlasts : Lasts key _ w := Lasts.after_unchanged _ hlater
  have hplain : w.server.script = [] := hlasts.script.trans hrec.script
  have hlive : w.server.server.live? key =
      Server.alive now (some ⟨.hash fields, some deadline⟩) := by
    rw [hlasts.live, hrec.live]
  have hleft : w.answer (.operate (.ttl (.text key))) =
      .ok (.int (if now < deadline then Server.wholeSeconds (deadline - now) else -2)) := by
    rw [← Server.remaining_of_limit deadline now (.hash fields), ← hlive]
    exact Store.result_ttl hplain hrec.notBlank
  refine ⟨?_, hleft, fun m hm => ?_, fun hname => ?_, fun hname => ?_⟩
  · exact (World.now_after _ later).trans (by rw [hrec.now])
  · rw [hleft]
    by_cases hbefore : (m : Int) < n
    · have hspan : deadline - now = 1000 * ((n - m).toNat : Int) := by omega
      rw [if_pos (by omega), if_pos hbefore, hspan, Server.wholeSeconds_thousands,
        Int.toNat_of_nonneg (by omega)]
    · rw [if_neg (by omega), if_neg hbefore]
  · rw [Server.alive_some] at hlive
    refine ⟨fun hbefore => ?_, fun hend => ?_⟩
    · rw [if_pos (by simpa using hbefore)] at hlive
      exact gets_of_live hplain hname hrec.keyed hrec.notBlank hrec.holds hlive
    · rw [if_neg (by simpa using hend)] at hlive
      exact gone_of_live hplain hname hrec.keyed hrec.notBlank hlive
  · subst hname
    exact refuses_empty c w

/-- A minute over an older limit of a second, and an open file that is called
by a path without a name. -/
theorem file_with_limit_outlasts_older_deadline :
    let c : FileCache := ⟨⟨.single, ["scratch"]⟩, defaultPrefix, some 60⟩
    let older : Entry := ⟨.hash [("other", "x")], some 1000⟩
    let s : Server := { entries := [("file:a.txt", older)] }
    let file (label : String) : FileSource := .opened (some (.text label)) (.ok (.bytes [1]))
    let w (label : String) := World.step ⟨⟨s, []⟩, {}⟩ (.request (.store c (file label) .null))
    c.effectiveTtl .null = .ok (some 60) ∧
      (World.answer ⟨⟨s, []⟩, {}⟩ (.store c (file "a.txt") .null) = .ok (.text "file:a.txt") ∧
        Gets c ((w "a.txt").after [.wait 59999]) "a.txt" [1] ∧
        Gone c ((w "a.txt").after [.wait 60000]) "a.txt") ∧
      (World.answer ⟨⟨s, []⟩, {}⟩ (.store c (file "/") .null) = .ok (.text "file:") ∧
        Refuses c (w "/") "" ∧
        (w "/").answer (.operate (.ttl (.text "file:"))) = .ok (.int 60)) := by
  intro c older s file w
  have hlimit : c.effectiveTtl .null = .ok (some 60) := rfl
  have hrun : (c.store (file "a.txt") .null |>.run ScriptedServer.call ⟨s, []⟩ {}).result =
        .ok "file:a.txt" ∧
      (c.store (file "/") .null |>.run ScriptedServer.call ⟨s, []⟩ {}).result = .ok "file:" := by
    decide +kernel
  have hnamed : World.answer ⟨⟨s, []⟩, {}⟩ (.store c (file "a.txt") .null) =
      .ok (.text "file:a.txt") := by
    rw [World.answer_store, hrun.1]
    rfl
  have hnameless : World.answer ⟨⟨s, []⟩, {}⟩ (.store c (file "/") .null) =
      .ok (.text "file:") := by
    rw [World.answer_store, hrun.2]
    rfl
  have hwait : ∀ {key : String} (m : Nat), ∀ st ∈ [Step.wait m], ¬st.Changes key := by
    simp [Step.Changes]
  refine ⟨hlimit, ⟨hnamed, ?_⟩, hnameless, ?_⟩
  · obtain ⟨name, content, hread, -, hlasts⟩ :=
      file_with_limit_lasts_exactly c (file "a.txt") .null 60 s {} "file:a.txt" hlimit hnamed
    have hsame : ("a.txt", [(1 : UInt8)]) = (name, content) := Except.ok.inj hread
    cases hsame
    obtain ⟨hsoon, -, -, hearly, -⟩ := hlasts [.wait 59999] (hwait _)
    obtain ⟨hthen, -, -, hlate, -⟩ := hlasts [.wait 60000] (hwait _)
    exact ⟨(hearly (by decide)).1 (by rw [hsoon]; decide),
      (hlate (by decide)).2 (by rw [hthen]; decide)⟩
  · obtain ⟨name, content, hread, -, hlasts⟩ :=
      file_with_limit_lasts_exactly c (file "/") .null 60 s {} "file:" hlimit hnameless
    have hsame : ("", [(1 : UInt8)]) = (name, content) := Except.ok.inj hread
    cases hsame
    obtain ⟨hnow, -, hleft, -, hrefused⟩ := hlasts [] (by simp)
    exact ⟨hrefused rfl, hleft 0 hnow⟩

end FileStash.FileCache
