import FileStash.Proofs.FileCache.Storing
import FileStash.Proofs.FileCache.Unpacking
import FileStash.Proofs.FileTree.Failures
import FileStash.Proofs.Store.OwnErrors

/-!
Which errors a file cache lets through. With a client that raises errors of its
own library only, every operation ends in an answer or in an error of this
library, but for two: a path with a NUL in it is passed on as the value that it
is when it is read, and links that go round are passed on when a name is looked
at.
-/

namespace FileStash

open StoreError (Own)

namespace FileSource

variable {t : FileTree} {file : FileSource}

/-- A source as it is documented: a text or a path, or an open file that answers
octets or an error of the operating system. -/
def Proper : FileSource → Prop
  | .value (.text _) | .value (.path _) | .opened _ (.ok (.bytes _)) => True
  | .opened _ (.error e) => e.family = .system
  | _ => False

/-- A path that has a name, and a NUL somewhere. -/
def NulPath : FileSource → Prop
  | .value v => ∃ p, v.toPath = .ok p ∧ p.name ≠ "" ∧ p.hasNul = true
  | .opened .. => False

inductive Unread : StoreError → Prop
  | refused (fault : ArgumentFault) : Unread (.invalidArgument fault)
  | failed (fault : FileFault) : Unread (.fileIO fault)

theorem readIn_nul (h : file.NulPath) :
    file.readIn t = .error (.bare (.illFormed .embeddedNul)) := by
  cases file with
  | opened name content => exact h.elim
  | value v =>
      obtain ⟨p, hp, hname, hnul⟩ := h
      have hnamed : p.name.isEmpty = false := by simpa using hname
      simp [readIn, hp, hnamed, FileTree.read_nul hnul, readFailure, Failure.isSystem]

theorem unread_of_opened {name : Option Value} {content : Except ClientError Value}
    (hfile : (FileSource.opened name content).Proper) {e : StoreError}
    (h : (FileSource.opened name content).readIn t = .error e) : Unread e := by
  simp only [readIn] at h
  cases hname : usableName? name with
  | none =>
      rw [hname] at h
      cases h
      exact .refused _
  | some p =>
      rw [hname] at h
      cases content with
      | error e' =>
          have hfamily : e'.family = .system := hfile
          simp only [contentOf, hfamily, if_true, Except.map] at h
          cases h
          exact .failed _
      | ok v =>
          cases v with
          | bytes b => cases h
          | _ => exact hfile.elim

theorem of_readIn_error (hfile : file.Proper) {e : StoreError}
    (h : file.readIn t = .error e) :
    Unread e ∨ (file.NulPath ∧ e = .bare (.illFormed .embeddedNul)) := by
  cases file with
  | opened name content => exact .inl (unread_of_opened hfile h)
  | value v =>
      obtain ⟨p, hp, shown, hshown⟩ : ∃ p, v.toPath = .ok p ∧ ∃ s, v.shown = .ok s := by
        cases v with
        | text s => exact ⟨_, rfl, Text.quote s, by simp [Value.shown, Value.shown?_text]⟩
        | path p =>
            have hshown : (Value.path p).shown? =
                some ("PosixPath(" ++ Text.quote p.text ++ ")") := by simp [Value.shown?]
            exact ⟨p, rfl, _, by rw [Value.shown, hshown]⟩
        | _ => exact hfile.elim
      simp only [readIn, hp, hshown] at h
      split at h
      · cases h
        exact .inl (.refused _)
      · rename_i hname
        -- A NUL is met before the system is asked; all the rest is the system's.
        cases hnul : p.hasNul with
        | true =>
            rw [FileTree.read_nul hnul] at h
            cases h
            exact .inr ⟨⟨p, hp, by simpa using hname, hnul⟩, rfl⟩
        | false =>
            cases hread : t.read p with
            | ok bytes => simp [hread] at h
            | error f =>
                simp only [hread, readFailure, FileTree.isSystem_of_read hnul hread,
                  if_true] at h
                cases h
                exact .inl (.failed _)

end FileSource

namespace FileCache

variable {σ : Type} {client : Client σ} {c : FileCache} {t : FileTree}

/-- A cache as it is created with a text for its prefix: that prefix, and no
limit but a positive one. -/
theorem of_create {temporary : Path} {scratch ttl : Value} {first : String}
    (h : create true temporary scratch (.text first) ttl = .ok c) :
    c.keyPrefix.plain = .ok first ∧ ∀ n, c.ttl = some n → 0 < n := by
  unfold create at h
  cases hdir : Store.bare (chooseScratch temporary scratch) with
  | error e => simp [hdir, bind, Except.bind] at h
  | ok dir =>
      cases hseconds : Store.optionalDuration ttl with
      | error e => simp [hdir, hseconds, bind, Except.bind] at h
      | ok seconds =>
          simp only [hdir, hseconds, bind, Except.bind, Bool.not_true, Bool.false_eq_true,
            if_false, Except.ok.injEq] at h
          subst h
          refine ⟨rfl, fun n hn => ?_⟩
          have hsome : seconds = some n := hn
          exact Store.optionalDuration_pos (hsome ▸ hseconds)

theorem fieldOr_texts {es : Dict Value Value} (h : Dict.Texts es) (field default : String) :
    ∃ s, fieldOr es field (.text default) = .text s := by
  unfold fieldOr
  cases hv : Dict.get? es (.text field) with
  | none => exact ⟨default, rfl⟩
  | some v =>
      obtain ⟨s, rfl⟩ := h field v hv
      dsimp only
      split
      · exact ⟨s, rfl⟩
      · exact ⟨default, rfl⟩

theorem own_of_decodeContent {es : Dict Value Value} (h : Dict.Texts es) {e : StoreError}
    (he : decodeContent (fieldOr es contentField (.text "")) = .error e) : e.Own := by
  obtain ⟨s, hs⟩ := fieldOr_texts h contentField ""
  rw [hs] at he
  obtain ⟨fault, rfl⟩ := error_of_decodeContent he
  trivial

/-! The files. -/

inductive Undelivered : StoreError → Prop
  | mk (fault : FileFault) : Undelivered (.fileIO fault)

theorem of_target_error {name : String} {e : StoreError}
    (h : c.target t (.text name) = .error e) :
    Undelivered e ∨ ∃ path, e = .bare (.linkLoop path) ∧
      t.safePath c.scratchDir (.text name) = .error (.linkLoop path) := by
  have hshown : (Value.text name).shown = .ok (Text.quote name) := by
    simp [Value.shown, Value.shown?_text]
  unfold target at h
  cases hsafe : t.safePath c.scratchDir (.text name) with
  | ok p => simp [hsafe] at h
  | error f =>
      simp only [hsafe, hshown, Store.bare, bind, Except.bind] at h
      rcases FileTree.of_safePath_error hsafe with hill | ⟨-, path, rfl, -⟩
      · rw [if_pos hill] at h
        cases h
        exact .inl ⟨_⟩
      · cases h
        exact .inr ⟨path, rfl, rfl⟩

theorem unwritable_of_settle {p : Path} {content : List UInt8} (hnul : p.hasNul = false)
    {e : StoreError} (h : (settle t p content).1 = .error e) :
    ∃ f, e = .fileIO (.unwritable p.text f) := by
  rcases settle_cases t p content with
    ⟨f, t', hmake, hsettle⟩ | ⟨t', -, ⟨f, hwrite, hsettle⟩ | ⟨t'', -, hsettle⟩⟩ <;>
    rw [hsettle] at h <;> cases h
  · have hsystem : f.isSystem = true :=
      FileTree.isSystem_of_makeDirectoriesUpTo (FileTree.hasNul_parent hnul)
        (congrArg Prod.fst hmake)
    exact ⟨f, by rw [writeFailure, if_pos hsystem]⟩
  · exact ⟨f, by rw [writeFailure, if_pos (FileTree.isSystem_of_write hnul hwrite)]⟩

theorem of_deliver_error {name : String} {content : List UInt8} {e : StoreError}
    (h : (c.deliver t (.text name) content).1 = .error e) :
    Undelivered e ∨ ∃ path, e = .bare (.linkLoop path) ∧
      t.safePath c.scratchDir (.text name) = .error (.linkLoop path) := by
  rcases c.deliver_cases t (.text name) content with
    ⟨e', htarget, hdeliver⟩ | ⟨p, hsafe, hdeliver⟩
  · rw [hdeliver] at h
    cases h
    exact of_target_error htarget
  · obtain ⟨_, _, -, -, hfull, -⟩ := FileTree.of_safePath hsafe
    rw [hdeliver] at h
    cases hsettle : (settle t p content).1 with
    | error e' =>
        rw [hsettle] at h
        cases h
        obtain ⟨f, rfl⟩ := unwritable_of_settle (FileTree.hasNul_of_resolve hfull) hsettle
        exact .inl ⟨_⟩
    | ok u =>
        rw [hsettle] at h
        cases h

/-- The content of a record can be decoded, but links go round where its name
leads to. -/
structure GoesRound (c : FileCache) (t : FileTree) (name : String) (es : Dict Value Value)
    (f : Failure) : Prop where
  there : es.isEmpty = false
  decodes : ∃ content, decodeContent (fieldOr es contentField (.text "")) = .ok content
  loop : ∃ path, f = .linkLoop path
  target : t.safePath c.scratchDir (fieldOr es nameField (.text name)) = .error f

theorem unpack_of_goesRound {name : String} {es : Dict Value Value} {f : Failure}
    (h : c.GoesRound t name es f) : (c.unpack t name es).1 = .error (.bare f) := by
  obtain ⟨hsome, ⟨content, hdecode⟩, ⟨path, rfl⟩, hsafe⟩ := h
  have htarget : c.target t (fieldOr es nameField (.text name)) =
      .error (.bare (.linkLoop path)) := by
    simp only [target, hsafe]
    rfl
  simp only [unpack, hsome, hdecode, deliver, htarget, Bool.false_eq_true, if_false, Except.map]

/-- Unpacking fails for the content, for the file to be written, or because links
go round. -/
theorem of_unpack_failed {name : String} {es : Dict Value Value} (hes : Dict.Texts es)
    {e : StoreError} (h : (c.unpack t name es).1 = .error e) :
    decodeContent (fieldOr es contentField (.text "")) = .error e ∨ Undelivered e ∨
      ∃ f, e = .bare f ∧ c.GoesRound t name es f := by
  rcases c.unpack_cases t name es with
    ⟨-, hunpack⟩ | ⟨hsome, ⟨e', hdecode, hunpack⟩ | ⟨content, hdecode, hunpack⟩⟩
  · rw [hunpack] at h
    cases h
  · rw [hunpack] at h
    cases h
    exact .inl hdecode
  · obtain ⟨s, hs⟩ := fieldOr_texts hes nameField name
    rw [hunpack, hs] at h
    cases hdelivered : (c.deliver t (.text s) content).1 with
    | ok p => simp [hdelivered, Except.map] at h
    | error e' =>
        rw [hdelivered] at h
        cases h
        rcases of_deliver_error hdelivered with hown | ⟨path, rfl, hsafe⟩
        · exact .inr (.inl hown)
        · exact .inr (.inr ⟨_, rfl, hsome, ⟨content, hdecode⟩, ⟨path, rfl⟩, hs ▸ hsafe⟩)

theorem own_of_requireName {name : String} {e : StoreError}
    (h : requireName (.text name) = .error e) : e.Own := by
  rw [error_of_requireName h]
  trivial

theorem ends_requireName (name : String) :
    (Program.ofExcept (requireName (.text name))).Ends client (fun _ => True) Own :=
  Program.ends_ofExcept (fun _ _ => trivial) fun _ => own_of_requireName

theorem ends_send (h : Orderly client) (p : Parcel) :
    p.send.Ends client (fun _ => True) Own := by
  refine Program.Ends.andThen (Q := fun _ => True) ?_ fun _ _ =>
    Program.Ends.andThen (Program.ends_note _ _ _) fun _ _ => Program.ends_done trivial
  unfold Parcel.write
  split
  · exact (Store.ends_write h "HSET" p.key p.fields).andThen fun _ _ =>
      Program.ends_done trivial
  · exact Store.ends_putWithin h p.key p.fields _

theorem effectiveTtl_pos (hpositive : ∀ n, c.ttl = some n → 0 < n) {limit : Value} {n : Int}
    (h : c.effectiveTtl limit = .ok (some n)) : 0 < n := by
  by_cases hnull : limit = .null
  · subst hnull
    exact hpositive n (Except.ok.inj h)
  · have hsame : c.effectiveTtl limit = Store.optionalDuration limit := by
      cases limit <;> first | rfl | exact absurd rfl hnull
    exact Store.optionalDuration_pos (hsame ▸ h)

section Created

variable {first : String} (hlead : c.keyPrefix.plain = .ok first)
include hlead

theorem ends_entries (h : Orderly client) (name : String) :
    (c.entries name).Ends client Dict.Texts Own := by
  simp only [entries, Program.bind_eq_andThen, cacheKey_text hlead, Program.ofConverted,
    Program.andThen_done]
  exact Store.ends_hashGetAll h _

theorem ends_exists (h : Orderly client) (name : String) :
    (c.exists? (.text name)).Ends client (fun _ => True) Own := by
  refine Program.Ends.andThen (ends_requireName name) fun n _ => ?_
  rw [cacheKey_text hlead]
  exact Store.ends_hasKey h _

theorem ends_restoreBytes (h : Orderly client) (name : String) :
    (c.restoreBytes (.text name)).Ends client (fun _ => True) Own := by
  refine Program.Ends.andThen (ends_requireName name) fun n _ => ?_
  refine Program.Ends.andThen (ends_entries hlead h n) fun es hes => ?_
  have hdecode : (Program.ofExcept
      (decodeContent (fieldOr es contentField (.text "")))).Ends client (fun _ => True) Own :=
    Program.ends_ofExcept (fun _ _ => trivial) fun e he => own_of_decodeContent hes he
  split
  · exact Program.Ends.andThen (Program.ends_note _ _ _) fun _ _ => hdecode
  · exact hdecode

/-- Packing a source fails for its limit, and else for what cannot be read, or for
a key of blanks. -/
theorem pack_error_iff (hpositive : ∀ n, c.ttl = some n → 0 < n) {file : FileSource}
    (hfile : file.Proper) {limit : Value} (e : StoreError) :
    c.pack file limit t = .error e ↔ c.effectiveTtl limit = .error e ∨
      ∃ seconds, c.effectiveTtl limit = .ok seconds ∧ (file.readIn t = .error e ∨
        ∃ name content, file.readIn t = .ok (name, content) ∧
          Text.allBlank (first ++ name) = true ∧ e = .invalidArgument .blankKey) := by
  unfold pack
  split
  · exact hfile.elim
  · cases hlimit : c.effectiveTtl limit with
    | error e' => simp [bind, Except.bind]
    | ok seconds =>
        cases hread : file.readIn t with
        | error e' => simp [bind, Except.bind]
        | ok r =>
            obtain ⟨name, content⟩ := r
            have hkey := cacheKey_text hlead name
            have hpos : ∀ n, seconds = some n → 0 < n := by
              rintro n rfl
              exact effectiveTtl_pos hpositive hlimit
            have hseconds := optionalDuration_of_pos hpos
            simp only [hkey, hseconds, Store.bare, Store.requireKey, bind, Except.bind]
            cases hblank : Text.allBlank (first ++ name) with
            | false => simp [hblank]
            | true =>
                simp only [if_true, Except.error.injEq, reduceCtorEq, false_or, Except.ok.injEq,
                  Prod.mk.injEq, exists_eq_left']
                constructor
                · rintro rfl
                  exact ⟨name, content, ⟨rfl, rfl⟩, hblank, rfl⟩
                · rintro ⟨_, _, -, -, rfl⟩
                  rfl

section Operations

variable (h : Orderly client)
include h

theorem store_bare_iff (hpositive : ∀ n, c.ttl = some n → 0 < n) {file : FileSource}
    (hfile : file.Proper) (limit : Value) (s : σ) (t : FileTree) (f : Failure) :
    ((c.store file limit).run client s t).result = .error (.bare f) ↔
      c.effectiveTtl limit = .error (.bare f) ∨ (∃ seconds, c.effectiveTtl limit = .ok seconds) ∧
        file.NulPath ∧ f = .illFormed .embeddedNul := by
  -- Sending ends in errors of the library's own: what is passed on is met before.
  have hpacked : ((c.store file limit).run client s t).result = .error (.bare f) ↔
      c.pack file limit t = .error (.bare f) := by
    rw [run_store]
    cases hpack : c.pack file limit t with
    | error e => simp
    | ok p =>
        simp only [reduceCtorEq, iff_false]
        exact fun hbare => (ends_send h p s t).2 _ hbare
  rw [hpacked, pack_error_iff hlead hpositive hfile]
  have hread : file.readIn t = .error (.bare f) ↔
      file.NulPath ∧ f = .illFormed .embeddedNul := by
    constructor
    · intro hbare
      rcases FileSource.of_readIn_error hfile hbare with hunread | ⟨hnul, hf⟩
      · cases hunread
      · exact ⟨hnul, StoreError.bare.inj hf⟩
    · rintro ⟨hnul, rfl⟩
      exact FileSource.readIn_nul hnul
  simp only [hread, reduceCtorEq, and_false, exists_false, or_false]
  simp only [exists_and_right]

theorem restore_bare_iff (name : String) (s : σ) (t : FileTree) (f : Failure) :
    ((c.restore (.text name)).run client s t).result = .error (.bare f) ↔
      name ≠ "" ∧ ∃ es, ((c.entries name).run client s t).result = .ok es ∧
        c.GoesRound t name es f := by
  constructor
  · intro hbare
    rcases restore_cases client c (.text name) s t with
      ⟨e, hresult, -, hearly⟩ | ⟨n, es, hn, hname, hentries, hresult, -⟩
    · exfalso
      cases hbare.symm.trans hresult
      rcases hearly with hrequired | ⟨n, -, hentries⟩
      · exact own_of_requireName hrequired
      · exact (ends_entries hlead h n s t).2 _ hentries
    · cases hn
      have htexts := (ends_entries hlead h name s t).1 es hentries
      rw [hresult] at hbare
      rcases of_unpack_failed htexts hbare with hdecode | hown | ⟨_, hf, hround⟩
      · exact (own_of_decodeContent htexts hdecode).elim
      · cases hown
      · cases hf
        exact ⟨hname, es, hentries, hround⟩
  · rintro ⟨hname, es, hentries, hround⟩
    rw [(result_restore_of_entries hname hentries).1]
    exact unpack_of_goesRound hround

/-- Past the decoding of the content, only the file to be written is left to
fail. -/
theorem undelivered_of_restore {name : String} {es : Dict Value Value}
    {content : List UInt8} {s : σ} {e : StoreError} (hname : name ≠ "")
    (hentries : ((c.entries name).run client s t).result = .ok es)
    (hdecode : decodeContent (fieldOr es contentField (.text "")) = .ok content)
    (he : ((c.restore (.text name)).run client s t).result = .error e) :
    Undelivered e ∨ ∃ f, e = .bare f ∧ c.GoesRound t name es f := by
  have htexts := (ends_entries hlead h name s t).1 es hentries
  rw [(result_restore_of_entries hname hentries).1] at he
  rcases of_unpack_failed htexts he with hfailed | hunpacked
  · cases hdecode.symm.trans hfailed
  · exact hunpacked

theorem own_of_restore (hlawful : t.Lawful) (hloops : t.LoopFree) {name : String} {s : σ}
    {e : StoreError} (he : ((c.restore (.text name)).run client s t).result = .error e) :
    e.Own := by
  cases e with
  | bare f =>
      obtain ⟨-, es, hentries, hround⟩ := (restore_bare_iff hlead h name s t f).mp he
      obtain ⟨path, rfl⟩ := hround.loop
      have htexts := (ends_entries hlead h name s t).1 es hentries
      obtain ⟨n, hn⟩ := fieldOr_texts htexts nameField name
      have htarget := hround.target
      rw [hn] at htarget
      exact absurd htarget (hlawful.safePath_ne_linkLoop hloops _ n path)
  | _ => trivial

end Operations

end Created

end FileCache

end FileStash
