import FileStash.Proofs.Server.Deadline
import FileStash.Proofs.Session.World
import FileStash.Proofs.Store.Looking
import FileStash.Proofs.Store.Transaction

namespace FileStash.Store

open ScriptedServer (interrupted)

variable {fault : ScriptedServer → Call → Option ClientError} {key limit : Value}
  {items : List (Value × Value)} {n : Int}

theorem hashPutAll_limited (hitems : items ≠ [])
    (hlimit : requireDuration limit = .ok n) :
    hashPutAll key (.map items) limit =
      (Program.ofExcept (requireKey key)).andThen fun k =>
        (putWithin k (.map items) n).andThen fun _ => .done (.map items) := by
  have htruth : (Value.map items).truth = true := by
    simpa [Value.truth] using hitems
  simp only [hashPutAll, checked, htruth, optionalDuration_of_requireDuration hlimit,
    Program.bind_eq_andThen, Program.ofExcept, Program.andThen_done, Bool.not_true,
    Bool.false_eq_true, if_false]

/-- What a limited write has left: the items, as they are sent, lie over the
fields that were there, the whole limit is left, and every other key is as
before. -/
structure Limited (key : String) (items : List (Value × Value)) (n : Int)
    (s s' : Server) (fields : Dict String String) : Prop where
  now : s'.now = s.now
  written : ∃ older entries, Server.hashUnder (s.live? key) = some older ∧
    items.mapM Server.encodeItem = .ok entries ∧
    ∀ f, Dict.get? fields f = (Dict.get? entries.reverse f).or (Dict.get? older f)
  live : s'.live? key = some ⟨.hash fields, some (s.now + 1000 * n)⟩
  elsewhere : ∀ k, k ≠ key → s'.live? k = s.live? k

theorem limited_of_run {s : Server} {key : String} (hpos : 0 < n) {v : Value}
    (h : (s.run (.hsetAll key items)).1 = .ok v) :
    ∃ fields, Limited key items n s
      ((s.run (.hsetAll key items)).2.run (.expire key n)).2 fields := by
  obtain ⟨hne, older, entries, hunder, hsent⟩ := Server.of_run_hsetAll_ok h
  obtain ⟨-, hnow, hlive, helse⟩ := Server.run_hsetAll_expire hne hunder hsent hpos
  exact ⟨_, hnow, ⟨older, entries, hunder, hsent, Dict.get?_insertAll older entries⟩,
    hlive, helse⟩

theorem Limited.answers {key : String} {s s' : Server} {fields : Dict String String}
    (h : Limited key items n s s' fields) (hpos : 0 < n)
    (hblank : Text.allBlank key = false) (t : FileTree) :
    let w : World := ⟨⟨s', []⟩, t⟩
    w.answer (.operate (.hashGetAll (.text key))) = .ok (.map (Server.textItems fields)) ∧
      w.answer (.operate (.ttl (.text key))) = .ok (.int n) := by
  intro w
  have hunder : Server.hashUnder (w.server.server.live? key) = some fields := by
    rw [h.live]
    rfl
  refine ⟨result_hashGetAll rfl hblank hunder, ?_⟩
  have hleft : Server.remaining s'.now (s'.live? key) = n := by
    obtain ⟨m, rfl⟩ := Int.eq_ofNat_of_zero_le (Int.le_of_lt hpos)
    have hspan : s.now + 1000 * (m : Int) - s'.now = 1000 * m := by
      rw [h.now]
      omega
    simp only [Server.remaining, h.live, hspan, Server.wholeSeconds_thousands]
  have hanswer : w.answer (.operate (.ttl (.text key))) =
      .ok (.int (Server.remaining s'.now (s'.live? key))) := result_ttl rfl hblank
  rw [hanswer, hleft]

/-- On a server that answers by no script the transaction of a write that can be
made is answered. -/
theorem result_putWithin {s : ScriptedServer} {t : FileTree} {key : String}
    (hplain : s.script = []) (hne : items ≠ []) {older : Dict String String}
    {entries : List (String × String)}
    (h : Server.hashUnder (s.server.live? key) = some older)
    (hsent : items.mapM Server.encodeItem = .ok entries) (hpos : 0 < n) :
    ((putWithin key (.map items) n).run ScriptedServer.call s t).result = .ok () := by
  obtain ⟨⟨m, hwrite⟩, -⟩ := Server.run_hsetAll hne h hsent
  obtain ⟨hlimit, -⟩ := Server.run_hsetAll_expire hne h hsent hpos
  obtain ⟨r, hcommit⟩ := ScriptedServer.commit_ok hplain hwrite hlimit
  have hopen : s.call .openTransaction = (.ok .transaction, s) := by
    simp [ScriptedServer.call, ScriptedServer.scripted?, hplain, Dict.get?]
  have hqueue : ∀ c, s.call (.queue c) = (.ok .transaction, s) := fun _ => rfl
  simp only [putWithin, openTransaction, enqueue, calling, Program.bind_eq_andThen,
    Program.andThen, Program.run, hopen, hqueue, Value.toMap, Program.ofConverted, hcommit]

theorem undone_limited (hitems : items ≠ []) (hlimit : requireDuration limit = .ok n) :
    (hashPutAll key (.map items) limit).Undone (interrupted fault) Traceless := by
  rw [hashPutAll_limited hitems hlimit]
  refine Program.Harmless.andThen_undone Traceless.refl ?_ fun k => ?_
  · exact Program.harmless_of_silent (Q := fun _ => True) (fun _ => rfl)
      (Program.within_ofExcept _)
  · exact (undone_putWithin k _ n).andThen_sure fun _ => Program.sure_done _

theorem returns_limited (hitems : items ≠ []) (hlimit : requireDuration limit = .ok n) :
    (hashPutAll key (.map items) limit).Returns (interrupted fault) fun s v s' =>
      s.Raises → v = .map items ∧ ∃ k fields, requireKey key = .ok k ∧
        Limited k items n s.server s'.server fields := by
  rw [hashPutAll_limited hitems hlimit]
  refine ((Program.returns_ofExcept _).andThen fun k =>
    (returns_putWithin k items n).andThen fun _ => Program.returns_done _).mono ?_
  rintro s v s' ⟨k, _, ⟨hkey, rfl⟩, _, _, hput, rfl, rfl⟩ hraises
  obtain ⟨_, hwrite, rfl⟩ := hput hraises
  obtain ⟨fields, hlimited⟩ := limited_of_run (requireDuration_pos hlimit) hwrite
  exact ⟨rfl, k, fields, hkey, hlimited⟩

theorem result_limited {s : ScriptedServer} {t : FileTree} {k : String}
    (hplain : s.script = []) (hitems : items ≠ [])
    (hlimit : requireDuration limit = .ok n) (hkey : requireKey key = .ok k)
    {older : Dict String String} {entries : List (String × String)}
    (h : Server.hashUnder (s.server.live? k) = some older)
    (hsent : items.mapM Server.encodeItem = .ok entries) :
    ((hashPutAll key (.map items) limit).run ScriptedServer.call s t).result =
      .ok (.map items) := by
  have hput := result_putWithin (t := t) hplain hitems h hsent (requireDuration_pos hlimit)
  rw [hashPutAll_limited hitems hlimit, hkey]
  simp only [Program.ofExcept, Program.andThen_done]
  rw [Program.run_andThen_ok hput]
  rfl

/-- A write within a time limit either is answered, and then all its fields are
there with the whole limit, or fails, and then neither any key nor anything that
can ever be answered has changed, whichever call or command met with an error,
unless it is an interruption in place of the limit itself. Where none does, every
write is answered that can be sent and lies over no value of another kind. -/
theorem limited_write_all_or_nothing
    (fault : ScriptedServer → Call → Option ClientError) (key limit : Value)
    (items : List (Value × Value)) (n : Int) (s : ScriptedServer) (t : FileTree)
    (hitems : items ≠ []) (hlimit : requireDuration limit = .ok n)
    (hraises : s.Raises) :
    let run := (hashPutAll key (.map items) limit).run (interrupted fault) s t
    run.tree = t ∧
    (match run.result with
      | .error e => ¬s.InterruptsLimit e →
          (∀ k, run.state.server.live? k = s.server.live? k) ∧
            ∀ later, World.answers ⟨run.state, t⟩ later = World.answers ⟨s, t⟩ later
      | .ok v =>
          v = .map items ∧ ∃ k fields, key = .text k ∧
            Limited k items n s.server run.state.server fields ∧
            let w : World := ⟨⟨run.state.server, []⟩, t⟩
            w.answer (.operate (.hashGetAll key)) = .ok (.map (Server.textItems fields)) ∧
              w.answer (.operate (.ttl key)) = .ok (.int n)) ∧
    ((∀ s c, fault s c = none) → s.script = [] →
      ∀ k older entries, requireKey key = .ok k →
        Server.hashUnder (s.server.live? k) = some older →
        items.mapM Server.encodeItem = .ok entries → run.result = .ok (.map items)) := by
  intro run
  refine ⟨?_, ?_, ?_⟩
  · have hasks : (hashPutAll key (.map items) limit).Asks fun _ => True :=
      Operation.asks_putAll (fun _ _ _ => trivial) trivial (fun _ => trivial)
        fun _ _ _ _ => trivial
    exact hasks.tree_run s t
  · cases hresult : run.result with
    | error e =>
        intro hlet
        have hagrees : run.state.Agrees s :=
          (undone_limited hitems hlimit s t e hresult).resolve_left hlet
        have hworld : World.Agrees ⟨run.state, t⟩ ⟨s, t⟩ := ⟨hagrees, rfl⟩
        exact ⟨hagrees.server.live, hworld.answers⟩
    | ok v =>
        obtain ⟨hv, k, fields, hkey, hlimited⟩ :=
          returns_limited hitems hlimit s t v hresult hraises
        obtain ⟨rfl, hblank⟩ := (requireKey_eq_ok_iff key k).mp hkey
        exact ⟨hv, k, fields, rfl, hlimited,
          hlimited.answers (requireDuration_pos hlimit) hblank t⟩
  · intro hnever hplain k older entries hkey hunder hsent
    have hclient : interrupted fault = ScriptedServer.call := by
      rw [← ScriptedServer.interrupted_never]
      congr
      funext s c
      exact hnever s c
    have hresult := result_limited (t := t) hplain hitems hlimit hkey hunder hsent
    rwa [← hclient] at hresult

/-- Over a hash with three seconds left: two items that can be sent, and the
same with an absent value behind them. -/
theorem limited_write_over_live_hash :
    let s : ScriptedServer :=
      { server := { entries := [("k", ⟨.hash [("a", "0"), ("b", "1")], some 5000⟩)], now := 2000 } }
    let good : List (Value × Value) := [(.text "a", .int 7), (.int 3, .bytes [120])]
    let bad := good ++ [(.text "c", .null)]
    let run (items : List (Value × Value)) :=
      (hashPutAll (.text "k") (.map items) (.int 60)).run (interrupted fun _ _ => none) s {}
    requireDuration (.int 60) = .ok 60 ∧ s.Raises ∧
      ((run good).result = .ok (.map good) ∧
        ∃ fields, Limited "k" good 60 s.server (run good).state.server fields) ∧
      ((∃ e, (run bad).result = .error e) ∧
        (run bad).state.server.live? "k" = s.server.live? "k") := by
  intro s good bad run
  have hlimit : requireDuration (.int 60) = .ok 60 := rfl
  have hraises : s.Raises := ScriptedServer.raises_of_plain rfl
  refine ⟨hlimit, hraises, ?_, ?_⟩
  · obtain ⟨-, hwhole, hanswered⟩ :=
      limited_write_all_or_nothing (fun _ _ => none) (.text "k") (.int 60) good 60 s {}
        (by simp [good]) hlimit hraises
    have hresult := hanswered (fun _ _ => rfl) rfl "k" _ _ rfl rfl rfl
    simp only [hresult, Value.text.injEq] at hwhole
    obtain ⟨-, k, fields, rfl, hlimited, -⟩ := hwhole
    exact ⟨hresult, fields, hlimited⟩
  · obtain ⟨-, hwhole, -⟩ :=
      limited_write_all_or_nothing (fun _ _ => none) (.text "k") (.int 60) bad 60 s {}
        (by simp [bad]) hlimit hraises
    obtain ⟨e, he⟩ : ∃ e, (run bad).result = .error e := ⟨_, rfl⟩
    have hresult : ((hashPutAll (.text "k") (.map bad) (.int 60)).run
      (interrupted fun _ _ => none) s {}).result = .error e := he
    simp only [hresult] at hwhole
    have hkept := (hwhole (ScriptedServer.not_interruptsLimit_of_plain rfl e)).1 "k"
    exact ⟨⟨e, he⟩, hkept⟩

/-- An interruption in place of the limit: the write fails, and the fields are there
without any limit. -/
theorem interrupted_limit_leaves_fields :
    let interruption : ClientError := .ofGeneral "KeyboardInterrupt" none
    let s : ScriptedServer := { script := [("expire", .error interruption)] }
    let run := (hashPutAll (.text "k") (.map [(.text "f", .text "v")]) (.int 60)).run
      (interrupted fun _ _ => none) s {}
    requireDuration (.int 60) = .ok 60 ∧ run.result = .error (.bare (.client interruption)) ∧
      s.server.live? "k" = none ∧
      run.state.server.live? "k" = some ⟨.hash [("f", "v")], none⟩ :=
  ⟨rfl, rfl, rfl, rfl⟩

end FileStash.Store
