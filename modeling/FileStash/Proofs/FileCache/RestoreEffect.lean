import FileStash.Proofs.FileCache.Record
import FileStash.Proofs.FileTree.Directories
import FileStash.Proofs.FileTree.LoopFree
import FileStash.Proofs.FileTree.Written
import FileStash.Proofs.Session.Unchanged

/-!
What `restore` does to the files and to the server, in a tree whose links go
round nowhere: to the server nothing that can be seen, and to the files what the
outcome says, also where the write into the opened file breaks off.
-/

namespace FileStash

namespace FileTree

variable {t t' : FileTree} {p : Path}

/-- A file has been written, and directories on the way to it may have been made;
nothing else has changed. -/
structure Delivered (t t' : FileTree) (p : Path) (content : List UInt8) : Prop where
  read : t'.read p = .ok content
  file : ∃ modified, t'.get? p.parts = some (.file content modified)
  elsewhere : ∀ loc, loc ≠ p.parts → t'.get? loc = t.get? loc ∨
    (loc <+: p.parts ∧ t.get? loc = none ∧ t'.get? loc = some .directory)

/-- Directories may have been made where nothing was; nothing else has
changed. -/
def OnlyDirectories (t t' : FileTree) : Prop :=
  ∀ loc, t'.get? loc = t.get? loc ∨ (t.get? loc = none ∧ t'.get? loc = some .directory)

theorem OnlyDirectories.refl (t : FileTree) : OnlyDirectories t t :=
  fun _ => .inl rfl

theorem Grows.onlyDirectories {way : Location} (h : Grows t t' way) :
    OnlyDirectories t t' := by
  intro loc
  rcases h.kept loc with hsame | ⟨-, hnone, hdir⟩
  · exact .inl hsame
  · exact .inr ⟨hnone, hdir⟩

theorem delivered_of_write {content : List UInt8} {t'' : FileTree}
    (habs : p.isAbsolute = true) (hstraight : t.Straight p.parts)
    (hgrows : Grows t t' p.parent.parts) (hwrite : t'.write p content = .ok t'') :
    Delivered t t'' p content := by
  have hstraight' : t'.Straight p.parts := hstraight.congr hgrows.link?
  have hread := read_of_write hwrite
  obtain ⟨hne, rfl⟩ := of_write habs hstraight' hwrite
  refine ⟨hread, ⟨t'.clock, get?_put_self t' _ hne⟩, fun loc hloc => ?_⟩
  rw [get?_put_of_ne t' _ hloc]
  rcases hgrows.kept loc with hsame | ⟨hway, hnone, hdir⟩
  · exact .inl hsame
  · exact .inr ⟨hway.trans (List.dropLast_prefix _), hnone, hdir⟩

end FileTree

namespace FileCache

open FileTree (OnlyDirectories Delivered)

variable {c : FileCache} {t : FileTree} {p : Path} {content : List UInt8}

/-- A settlement that fails has made directories at most, and its failure is that
of writing. -/
theorem of_settle_error (habs : p.isAbsolute = true) (hstraight : t.Straight p.parts)
    {e : StoreError} (h : (settle t p content).1 = .error e) :
    OnlyDirectories t (settle t p content).2 ∧ ∃ f, e = writeFailure p f := by
  have hgrows : FileTree.Grows t (t.makeDirectories p.parent).2 p.parent.parts :=
    FileTree.grows_makeDirectoriesUpTo _ habs hstraight.dropLast
  rcases settle_cases t p content with
    ⟨f, t', hmake, hsettle⟩ | ⟨t', hmake, ⟨f, -, hsettle⟩ | ⟨t'', -, hsettle⟩⟩ <;>
    rw [hsettle] at h ⊢ <;> cases h <;> rw [hmake] at hgrows <;>
    exact ⟨hgrows.onlyDirectories, f, rfl⟩

theorem of_settle_done (habs : p.isAbsolute = true) (hstraight : t.Straight p.parts)
    (h : (settle t p content).1 = .ok ()) :
    Delivered t (settle t p content).2 p content := by
  have hgrows : FileTree.Grows t (t.makeDirectories p.parent).2 p.parent.parts :=
    FileTree.grows_makeDirectoriesUpTo _ habs hstraight.dropLast
  rcases settle_cases t p content with
    ⟨f, t', -, hsettle⟩ | ⟨t', hmake, ⟨f, -, hsettle⟩ | ⟨t'', hwrite, hsettle⟩⟩ <;>
    rw [hsettle] at h ⊢ <;> cases h
  rw [hmake] at hgrows
  exact FileTree.delivered_of_write habs hstraight hgrows hwrite

theorem of_settle_ok {broken : Option FileTree.Break} (habs : p.isAbsolute = true)
    (hstraight : t.Straight p.parts) (h : (settle t p content broken).1 = .ok ()) :
    Delivered t (settle t p content broken).2 p content := by
  cases broken with
  | none => exact of_settle_done habs hstraight h
  | some b =>
      rw [settle_broken] at h
      cases hsettle : (settle t p (content.take b.taken)).1 <;> simp [hsettle, Except.bind] at h

/-- What a delivery that fails has left: directories at most, unless the write into
the opened file has broken off; then that file holds what had been taken. -/
def Halted (t t' : FileTree) (p : Path) (content : List UInt8)
    (broken : Option FileTree.Break) (e : StoreError) : Prop :=
  OnlyDirectories t t' ∨ ∃ b, broken = some b ∧ e = writeFailure p b.failure ∧
    Delivered t t' p (content.take b.taken)

theorem of_settle_failed {broken : Option FileTree.Break} (habs : p.isAbsolute = true)
    (hstraight : t.Straight p.parts) {e : StoreError}
    (h : (settle t p content broken).1 = .error e) :
    Halted t (settle t p content broken).2 p content broken e ∧ ∃ f, e = writeFailure p f := by
  cases broken with
  | none =>
      obtain ⟨honly, hfailure⟩ := of_settle_error habs hstraight h
      exact ⟨.inl honly, hfailure⟩
  | some b =>
      rw [settle_broken] at h ⊢
      cases hsettle : (settle t p (content.take b.taken)).1 with
      | error e' =>
          rw [hsettle] at h
          cases h
          obtain ⟨honly, hfailure⟩ := of_settle_error habs hstraight hsettle
          exact ⟨.inl honly, hfailure⟩
      | ok u =>
          rw [hsettle] at h
          cases h
          exact ⟨.inr ⟨b, rfl, rfl, of_settle_done habs hstraight hsettle⟩, _, rfl⟩

/-- Errors that come before any file is touched: the content cannot be decoded,
or the name is refused. -/
inductive Early : StoreError → Prop
  | undecodable (fault : Base64.Fault) : Early (.decode fault)
  | refused (shown : String) (cause : Failure) : Early (.fileIO (.refusedName shown cause))

theorem not_early_writeFailure (p : Path) (f : Failure) : ¬Early (writeFailure p f) := by
  unfold writeFailure
  split <;> exact nofun

variable {broken : Option FileTree.Break}

theorem of_unpack_none {name : String} {es : Dict Value Value}
    (h : (c.unpack t name es broken).1 = .ok none) : (c.unpack t name es broken).2 = t := by
  rcases c.unpack_cases t name es broken with
    ⟨-, hunpack⟩ | ⟨-, ⟨e, -, hunpack⟩ | ⟨content, -, hunpack⟩⟩
  · rw [hunpack]
  · rw [hunpack]
  · rw [hunpack] at h
    cases hdelivered : (c.deliver t (fieldOr es nameField (.text name)) content broken).1 <;>
      simp [hdelivered, Except.map] at h

section Unpack

variable (hlawful : t.Lawful) (hloops : t.LoopFree)
include hlawful hloops

theorem of_deliver_ok {name : Value} (h : (c.deliver t name content broken).1 = .ok p) :
    Delivered t (c.deliver t name content broken).2 p content := by
  rcases c.deliver_cases t name content broken with ⟨e, -, hdeliver⟩ | ⟨p', hsafe, hdeliver⟩
  · rw [hdeliver] at h
    cases h
  · obtain ⟨habs, hstraight⟩ := hlawful.tidy.straight_of_safePath hloops hsafe
    rw [hdeliver] at h ⊢
    cases hsettle : (settle t p' content broken).1 with
    | error e =>
        rw [hsettle] at h
        cases h
    | ok u =>
        rw [hsettle] at h
        cases h
        exact of_settle_ok habs hstraight hsettle

theorem of_deliver_failed {name : Value} {e : StoreError}
    (h : (c.deliver t name content broken).1 = .error e) :
    (OnlyDirectories t (c.deliver t name content broken).2 ∨
      ∃ p, t.safePath c.scratchDir name = .ok p ∧
        Halted t (c.deliver t name content broken).2 p content broken e) ∧
      (Early e → (c.deliver t name content broken).2 = t) := by
  rcases c.deliver_cases t name content broken with ⟨e', -, hdeliver⟩ | ⟨p', hsafe, hdeliver⟩
  · rw [hdeliver]
    exact ⟨.inl (.refl t), fun _ => rfl⟩
  · obtain ⟨habs, hstraight⟩ := hlawful.tidy.straight_of_safePath hloops hsafe
    rw [hdeliver] at h ⊢
    cases hsettle : (settle t p' content broken).1 with
    | error e' =>
        rw [hsettle] at h
        cases h
        obtain ⟨hhalted, f, rfl⟩ := of_settle_failed habs hstraight hsettle
        exact ⟨.inr ⟨p', hsafe, hhalted⟩,
          fun hearly => absurd hearly (not_early_writeFailure p' f)⟩
    | ok u =>
        rw [hsettle] at h
        cases h

theorem of_unpack_some {name : String} {es : Dict Value Value}
    (h : (c.unpack t name es broken).1 = .ok (some p)) :
    ∃ content, es.isEmpty = false ∧
      decodeContent (fieldOr es contentField (.text "")) = .ok content ∧
      Delivered t (c.unpack t name es broken).2 p content := by
  rcases c.unpack_cases t name es broken with
    ⟨-, hunpack⟩ | ⟨hsome, ⟨e, -, hunpack⟩ | ⟨content, hdecode, hunpack⟩⟩
  · rw [hunpack] at h
    cases h
  · rw [hunpack] at h
    cases h
  · rw [hunpack] at h ⊢
    refine ⟨content, hsome, hdecode, ?_⟩
    cases hdelivered : (c.deliver t (fieldOr es nameField (.text name)) content broken).1 with
    | error e => simp [hdelivered, Except.map] at h
    | ok p' =>
        rw [hdelivered] at h
        cases h
        exact of_deliver_ok hlawful hloops hdelivered

theorem of_unpack_error {name : String} {es : Dict Value Value} {e : StoreError}
    (h : (c.unpack t name es broken).1 = .error e) :
    (OnlyDirectories t (c.unpack t name es broken).2 ∨
      ∃ p content, es.isEmpty = false ∧
        decodeContent (fieldOr es contentField (.text "")) = .ok content ∧
        t.safePath c.scratchDir (fieldOr es nameField (.text name)) = .ok p ∧
        Halted t (c.unpack t name es broken).2 p content broken e) ∧
      (Early e → (c.unpack t name es broken).2 = t) := by
  rcases c.unpack_cases t name es broken with
    ⟨-, hunpack⟩ | ⟨hsome, ⟨e', -, hunpack⟩ | ⟨content, hdecode, hunpack⟩⟩
  · rw [hunpack]
    exact ⟨.inl (.refl t), fun _ => rfl⟩
  · rw [hunpack]
    exact ⟨.inl (.refl t), fun _ => rfl⟩
  · rw [hunpack] at h ⊢
    cases hdelivered : (c.deliver t (fieldOr es nameField (.text name)) content broken).1 with
    | error e' =>
        rw [hdelivered] at h
        cases h
        obtain ⟨hleft, hearly⟩ := of_deliver_failed hlawful hloops hdelivered
        refine ⟨hleft.imp id ?_, hearly⟩
        rintro ⟨p, hsafe, hhalted⟩
        exact ⟨p, content, hsome, hdecode, hsafe, hhalted⟩
    | ok p' => simp [hdelivered, Except.map] at h

end Unpack

/-- A record is kept under the key of the name, and this is its content; a field
that is missing stands for no octets. -/
def Caches (c : FileCache) (s : Server) (name : Value) (content : List UInt8) : Prop :=
  ∃ key fields deadline, c.cacheKey name = .ok key ∧
    s.live? key = some ⟨.hash fields, deadline⟩ ∧
    Base64.decode ((Dict.get? fields contentField).getD "").toList = .ok content

theorem caches_of_entries {s : ScriptedServer} {n : String} {es : Dict Value Value}
    (hplain : s.script = [])
    (hentries : ((c.entries n).run ScriptedServer.call s t).result = .ok es)
    (hsome : es.isEmpty = false)
    (hdecode : decodeContent (fieldOr es contentField (.text "")) = .ok content) :
    c.Caches s.server (.text n) content := by
  obtain ⟨key, fields, hkey, hunder, rfl⟩ := of_entries_ok hplain hentries
  rw [fieldOr_textItems_empty] at hdecode
  have hdecoded : Base64.decode ((Dict.get? fields contentField).getD "").toList =
      .ok content := decodeContent_text_eq_ok_iff.mp hdecode
  cases hlive : s.server.live? key with
  | none =>
      rw [hlive] at hunder
      cases hunder
      cases hsome
  | some e =>
      obtain ⟨held, deadline⟩ := e
      rw [hlive] at hunder
      cases held with
      | hash fields' =>
          cases hunder
          exact ⟨key, _, deadline, hkey, hlive, hdecoded⟩
      | _ => cases hunder

/-- What `restore` has done besides making directories when it fails: a write that broke
off in the opened file has left that file with what had been taken of the content. -/
theorem of_restore_error {name : Value} {s : Server} (hlawful : t.Lawful) (hloops : t.LoopFree)
    {e : StoreError}
    (h : ((c.restore name broken).run ScriptedServer.call ⟨s, []⟩ t).result = .error e) :
    let run := (c.restore name broken).run ScriptedServer.call ⟨s, []⟩ t
    OnlyDirectories t run.tree ∨
      ∃ b cached p content, broken = some b ∧ c.Caches s name content ∧
        t.safePath c.scratchDir cached = .ok p ∧ e = writeFailure p b.failure ∧
        Delivered t run.tree p (content.take b.taken) := by
  intro run
  rcases restore_cases ScriptedServer.call c name ⟨s, []⟩ t broken with
    ⟨e, -, htree, -⟩ | ⟨n, es, rfl, -, hentries, hresult, htree⟩
  · have htree' : run.tree = t := htree
    rw [htree']
    exact .inl (.refl t)
  · have htree' : run.tree = (c.unpack t n es broken).2 := htree
    rw [htree']
    rcases (of_unpack_error hlawful hloops (hresult.symm.trans h)).1 with
      honly | ⟨p, content, hfields, hdecode, hsafe, honly | ⟨b, hb, hfailure, hfile⟩⟩
    · exact .inl honly
    · exact .inl honly
    · exact .inr ⟨b, _, p, content, hb, caches_of_entries rfl hentries hfields hdecode, hsafe,
        hfailure, hfile⟩

end FileCache

end FileStash
