import FileStash.Proofs.Session.World
import FileStash.Proofs.Store.Transaction

namespace FileStash

namespace FileCache

open ScriptedServer (interrupted)

variable {fault : ScriptedServer → Call → Option ClientError}

theorem Parcel.undone_write (p : Parcel) :
    p.write.Undone (interrupted fault) Store.Traceless := by
  unfold write
  split
  · refine Program.Undone.andThen_sure ?_ fun _ => Program.sure_done ()
    refine Store.undone_ask (fun s reply h => ScriptedServer.interrupted_run_value s _ reply h) ?_
    exact ScriptedServer.interrupted_error
      (R := fun f s' s => Store.Traceless (Store.errorOf _ _ f) s' s)
      (fun _ => Store.Traceless.refl _)
      fun s f hf => .inr (ScriptedServer.hsetAll_texts_error (by simp [fields]) hf)
  · exact Store.undone_putWithin p.key _ _

theorem Parcel.undone_send (p : Parcel) :
    p.send.Undone (interrupted fault) Store.Traceless :=
  p.undone_write.andThen_sure fun _ _ _ => ⟨p.key, rfl⟩

/-- A file that is refused as it stands: there is none, its time limit is none,
it cannot be read, or no key can be made for it. -/
inductive Unsendable (c : FileCache) (limit : Value) (t : FileTree) :
    FileSource → Prop
  | absent : Unsendable c limit t (.value .null)
  | limitRefused {file : FileSource} {e : StoreError}
      (h : c.effectiveTtl limit = .error e) :
      Unsendable c limit t file
  | limitNotPositive {file : FileSource} {n : Int}
      (h : c.effectiveTtl limit = .ok (some n)) (hn : n ≤ 0) :
      Unsendable c limit t file
  | unreadable {file : FileSource} {e : StoreError} (h : file.readIn t = .error e) :
      Unsendable c limit t file
  | keyless {file : FileSource} {name : String} {content : List UInt8} {f : Failure}
      (h : file.readIn t = .ok (name, content))
      (hkey : c.cacheKey (.text name) = .error f) :
      Unsendable c limit t file
  | keyBlank {file : FileSource} {name key : String} {content : List UInt8}
      (h : file.readIn t = .ok (name, content))
      (hkey : c.cacheKey (.text name) = .ok key)
      (hblank : Text.allBlank key = true) : Unsendable c limit t file

theorem pack_of_unsendable {c : FileCache} {limit : Value} {t : FileTree}
    {file : FileSource} (h : c.Unsendable limit t file) :
    ∃ e, c.pack file limit t = .error e := by
  cases hpack : c.pack file limit t with
  | error e => exact ⟨e, rfl⟩
  | ok p =>
      obtain ⟨hread, hkey, hblank, hlimit, hpos⟩ := of_pack hpack
      exfalso
      cases h with
      | absent => cases hpack
      | limitRefused h => cases hlimit.symm.trans h
      | limitNotPositive h hn =>
          have hsome := Except.ok.inj (hlimit.symm.trans h)
          exact absurd (hpos _ hsome) (by omega)
      | unreadable h => cases hread.symm.trans h
      | keyless h hkey' =>
          cases hread.symm.trans h
          cases hkey.symm.trans hkey'
      | keyBlank h hkey' hblank' =>
          cases hread.symm.trans h
          cases hkey.symm.trans hkey'
          cases hblank.symm.trans hblank'

/-- A store that fails has left no trace: neither the files nor anything that
can ever be answered has changed, whichever call met with an error, unless it is an
interruption in place of the time limit. A file that is refused as it stands is
refused before any call is made. -/
theorem failed_store_leaves_no_trace
    (fault : ScriptedServer → Call → Option ClientError) (c : FileCache)
    (file : FileSource) (limit : Value) (s : ScriptedServer) (t : FileTree) :
    let run := (c.store file limit).run (interrupted fault) s t
    (∀ e, run.result = .error e → ¬s.InterruptsLimit e →
      run.tree = t ∧ (∀ key, run.state.server.live? key = s.server.live? key) ∧
        ∀ later, World.answers ⟨run.state, run.tree⟩ later =
          World.answers ⟨s, t⟩ later) ∧
    (c.Unsendable limit t file → (∃ e, run.result = .error e) ∧ run.calls = []) := by
  intro run
  have hrun : run = (c.store file limit).run (interrupted fault) s t := rfl
  have htree : run.tree = t := tree_store ..
  rw [run_store] at hrun
  constructor
  · intro e he hlet
    cases hpack : c.pack file limit t with
    | error e' =>
        simp only [hpack] at hrun
        rw [hrun]
        exact ⟨rfl, fun _ => rfl, fun _ => rfl⟩
    | ok p =>
        simp only [hpack] at hrun
        have hagrees : run.state.Agrees s := by
          rw [hrun] at he ⊢
          exact (p.undone_send s t e he).resolve_left hlet
        exact ⟨htree, hagrees.server.live,
          fun later => World.Agrees.answers ⟨hagrees, htree⟩ later⟩
  · intro h
    obtain ⟨e, he⟩ := pack_of_unsendable h
    simp only [he] at hrun
    rw [hrun]
    exact ⟨⟨e, rfl⟩, rfl⟩

/-- A transaction that breaks off over an older file, and an open file without a
name. -/
theorem interrupted_store_keeps_older_file :
    let c : FileCache := ⟨⟨.single, ["scratch"]⟩, defaultPrefix, none⟩
    let older : Entry := ⟨.hash [(nameField, "a"), (contentField, "AQ==")], some 90000⟩
    let s : ScriptedServer := { server := { entries := [("file:a", older)] } }
    let fault : ScriptedServer → Call → Option ClientError := fun _ call =>
      match call with
      | .commit _ => some (.ofLibrary "ConnectionError" "lost")
      | _ => none
    let run (file : FileSource) := (c.store file (.int 60)).run (interrupted fault) s {}
    let named : FileSource := .opened (some (.text "a")) (.ok (.bytes [2]))
    let nameless : FileSource := .opened none (.ok (.bytes [2]))
    ((run named).result = .error (.unavailable (.failed "HSET+EXPIRE" "file:a"
        (.ofLibrary "ConnectionError" "lost"))) ∧ (run named).calls.length = 4 ∧
      (run named).state.server.live? "file:a" = some older) ∧
    ((run nameless).result = .error (.invalidArgument .namelessFile) ∧
      (run nameless).calls = []) := by
  intro c older s fault run named nameless
  have hnamed : (run named).result =
    .error (.unavailable (.failed "HSET+EXPIRE" "file:a"
      (.ofLibrary "ConnectionError" "lost"))) := rfl
  have hkept :=
    ((failed_store_leaves_no_trace fault c named (.int 60) s {}).1 _ hnamed
      (ScriptedServer.not_interruptsLimit_of_plain rfl _)).2.1 "file:a"
  have hnameless : c.Unsendable (.int 60) {} nameless :=
    .unreadable (e := .invalidArgument .namelessFile) rfl
  have hsilent :=
    (failed_store_leaves_no_trace fault c nameless (.int 60) s {}).2 hnameless
  exact ⟨⟨hnamed, rfl, hkept⟩, rfl, hsilent.2⟩

/-- An interruption in place of the time limit: the store fails, and the file is
there without any limit. -/
theorem interrupted_limit_leaves_file :
    let c : FileCache := ⟨⟨.single, ["scratch"]⟩, defaultPrefix, none⟩
    let interruption : ClientError := .ofGeneral "KeyboardInterrupt" none
    let s : ScriptedServer := { script := [("expire", .error interruption)] }
    let run := (c.store (.opened (some (.text "a")) (.ok (.bytes [1]))) (.int 60)).run
      (interrupted fun _ _ => none) s {}
    run.result = .error (.bare (.client interruption)) ∧ s.server.live? "file:a" = none ∧
      run.state.server.live? "file:a" =
        some ⟨.hash [(nameField, "a"), (contentField, "AQ==")], none⟩ :=
  ⟨rfl, rfl, rfl⟩

end FileCache

end FileStash
