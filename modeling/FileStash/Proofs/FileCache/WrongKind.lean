import FileStash.Proofs.FileCache.Storing
import FileStash.Proofs.Store.LimitedHash
import FileStash.Proofs.Store.OwnErrors

namespace FileStash

variable {σ : Type}

/-- What the client says about the command of a transaction that failed: its number
and its text. -/
structure Caption where
  number : Nat
  command : String

namespace ClientError

/-- An error as a transaction raises it again, with or without a caption. -/
def reraised (e : ClientError) : Option Caption → ClientError
  | none => e
  | some c =>
      { e with
        text := "Command # " ++ toString c.number ++ " (" ++ c.command ++
          ") of pipeline caused error: " ++ e.text }

theorem family_reraised (e : ClientError) (caption : Option Caption) :
    (e.reraised caption).family = e.family := by
  cases caption <;> rfl

theorem reportsWrongKind_captioned (e : ClientError) (c : Caption) :
    (e.reraised (some c)).reportsWrongKind = false := by
  have hfirst : (e.reraised (some c)).text.toList =
      'C' :: ("ommand # ".toList ++ (toString c.number).toList ++ " (".toList ++
        c.command.toList ++ ") of pipeline caused error: ".toList ++ e.text.toList) := by
    simp [reraised, String.toList_append]
  rw [reportsWrongKind, hfirst]
  rfl

end ClientError

/-- The error of a failed command, raised again by the transaction. Only what the
server rejected gets a caption. -/
def Failure.reraised (caption : Option Caption) : Failure → Failure
  | .client e => if e.family = .rejection then .client (e.reraised caption) else .client e
  | f => f

/-- A client that puts a caption in front of the error that a transaction fails
with. -/
def Client.captioning (caption : List Command → Option Caption) (client : Client σ) :
    Client σ := fun s c =>
  match c with
  | .commit cs => ((client s c).1.mapError (Failure.reraised (caption cs)), (client s c).2)
  | _ => client s c

/-- What a program comes to behind a part that succeeds and leaves `Held` as it is. -/
theorem Program.result_andThen_held {α β : Type} {client : Client σ} {Held : σ → Prop}
    {p : Program α} {f : α → Program β} {s : σ} {t : FileTree} {a : α} {r : Except StoreError β}
    (hp : (p.run client s t).result = .ok a ∧ Held (p.run client s t).state)
    (hf : ∀ s t, Held s → ((f a).run client s t).result = r) :
    ((p.andThen f).run client s t).result = r := by
  rw [run_andThen_ok hp.1]
  exact hf _ _ hp.2

namespace Store

/-- The two commands of a write within a time limit. -/
def limitedWrite (key : String) (items : List (Value × Value)) (n : Int) : List Command :=
  [.hsetAll key items, .expire key n]

/-- What is relied on about a client while `Held`, where the key holds another kind
of value: the server rejects the write, a transaction can be opened and filled and
changes nothing that counts, and its commit raises the same error with a
caption. -/
structure RefusesWrite (client : Client σ) (Held : σ → Prop) (key : String)
    (items : List (Value × Value)) (e : ClientError) (caption : List Command → Option Caption) :
    Prop where
  rejected : e.family = .rejection
  wrongKind : e.reportsWrongKind = true
  plain : ∀ s, Held s → (client s (.run (.hsetAll key items))).1 = .error (.client e)
  opening : ∀ s, Held s →
    (client s .openTransaction).1 = .ok .transaction ∧ Held (client s .openTransaction).2
  queue : ∀ s c, Held s → (∃ r, (client s (.queue c)).1 = .ok r) ∧ Held (client s (.queue c)).2
  commit : ∀ s n, Held s → (client s (.commit (limitedWrite key items n))).1 =
    .error (.client (e.reraised (caption (limitedWrite key items n))))

/-- What a transaction that failed for the kind of the value is reported as. -/
def reported (key : String) (e : ClientError) : Option Caption → StoreError
  | none => .typeMismatch (.otherKind "HSET+EXPIRE" key e)
  | some c => .unavailable (.failed "HSET+EXPIRE" key (e.reraised (some c)))

section RefusesWrite

variable {client : Client σ} {Held : σ → Prop} {key : String} {items : List (Value × Value)}
  {e : ClientError} {caption : List Command → Option Caption} {s : σ}

theorem errorOf_reraised (hfamily : e.family = .rejection) (hkind : e.reportsWrongKind = true)
    (c : Option Caption) :
    errorOf "HSET+EXPIRE" key (.client (e.reraised c)) = reported key e c := by
  cases c with
  | none => exact errorOf_wrongKind _ hfamily hkind
  | some c =>
      have hfamily' := (e.family_reraised (some c)).trans hfamily
      have hkind' := e.reportsWrongKind_captioned c
      simp only [errorOf, hfamily', hkind', Bool.false_eq_true, if_false, reported]

theorem RefusesWrite.result_ask (h : RefusesWrite client Held key items e caption) (hs : Held s)
    (t : FileTree) :
    ((ask "HSET" key (.hsetAll key items)).run client s t).result =
      .error (.typeMismatch (.otherKind "HSET" key e)) := by
  rw [result_ask_failed (h.plain s hs), errorOf_wrongKind _ h.rejected h.wrongKind]

theorem RefusesWrite.run_openTransaction (h : RefusesWrite client Held key items e caption) (hs : Held s)
    (t : FileTree) :
    let run := (openTransaction "HSET+EXPIRE" key).run client s t
    run.result = .ok () ∧ Held run.state := by
  obtain ⟨hreply, hheld⟩ := h.opening s hs
  simp only [openTransaction, Program.bind_eq_andThen]
  rw [Program.run_andThen_ok (result_calling_ok hreply t)]
  refine ⟨rfl, ?_⟩
  simpa only [Program.run, state_calling] using hheld

theorem RefusesWrite.run_enqueue (h : RefusesWrite client Held key items e caption) (hs : Held s)
    (c : Command) (t : FileTree) :
    let run := (enqueue "HSET+EXPIRE" key c).run client s t
    run.result = .ok () ∧ Held run.state := by
  obtain ⟨⟨r, hreply⟩, hheld⟩ := h.queue s c hs
  simp only [enqueue, Program.bind_eq_andThen]
  rw [Program.run_andThen_ok (result_calling_ok hreply t)]
  refine ⟨rfl, ?_⟩
  simpa only [Program.run, state_calling] using hheld

theorem RefusesWrite.result_putWithin (h : RefusesWrite client Held key items e caption) (hs : Held s)
    (n : Int) (t : FileTree) :
    ((putWithin key (.map items) n).run client s t).result =
      .error (reported key e (caption (limitedWrite key items n))) := by
  refine Program.result_andThen_held (h.run_openTransaction hs t) fun s t hs => ?_
  refine Program.result_andThen_held (p := Program.ofConverted (.ok items)) ⟨rfl, hs⟩
    fun s t hs => ?_
  refine Program.result_andThen_held (h.run_enqueue hs (.hsetAll key items) t) fun s t hs => ?_
  refine Program.result_andThen_held (h.run_enqueue hs (.expire key n) t) fun s t hs => ?_
  have hcommit : ((calling "HSET+EXPIRE" key (.commit (limitedWrite key items n))).run
      client s t).result = .error (reported key e (caption (limitedWrite key items n))) := by
    rw [result_calling_error (h.commit s n hs), errorOf_reraised h.rejected h.wrongKind]
  exact congrArg Run.result (Program.run_andThen_error hcommit)

theorem RefusesWrite.result_hashPutAll (h : RefusesWrite client Held key items e caption) (hs : Held s)
    (hblank : Text.allBlank key = false) (hitems : items ≠ []) {limit : Value} {n : Int}
    (hlimit : requireDuration limit = .ok n) (t : FileTree) :
    ((hashPutAll (.text key) (.map items) .null).run client s t).result =
        .error (.typeMismatch (.otherKind "HSET" key e)) ∧
      ((hashPutAll (.text key) (.map items) limit).run client s t).result =
        .error (reported key e (caption (limitedWrite key items n))) := by
  have hkey : requireKey (.text key) = .ok key := (requireKey_eq_ok_iff _ _).mpr ⟨rfl, hblank⟩
  constructor
  · have htruth : (Value.map items).truth = true := by
      simpa [Value.truth] using hitems
    have hask := h.result_ask hs t
    simp only [hashPutAll, checked, hkey, optionalDuration, htruth, Value.toMap,
      Program.ofConverted, Program.bind_eq_andThen, Program.ofExcept, Program.andThen_done,
      Bool.not_true, Bool.false_eq_true, if_false]
    rw [Program.run_andThen_error hask]
  · rw [hashPutAll_limited hitems hlimit, hkey]
    simp only [Program.ofExcept, Program.andThen_done]
    rw [Program.run_andThen_error (h.result_putWithin hs n t)]

end RefusesWrite

/-- Whether an entry is there that is no hash. -/
def OtherKind (held : Option Entry) : Prop :=
  ∃ entry, held = some entry ∧ Server.Content.hash? entry.content = none

theorem OtherKind.hashUnder {held : Option Entry} (h : OtherKind held) :
    Server.hashUnder held = none := by
  obtain ⟨entry, rfl, hview⟩ := h
  exact hview

/-- The server itself refuses in this way, whatever its transactions say about their
commands. -/
theorem refuses_captioning (caption : List Command → Option Caption) (key : String)
    {items : List (Value × Value)} (hitems : items ≠ []) :
    RefusesWrite (Client.captioning caption Server.client) (fun s => OtherKind (s.live? key)) key
      items .wrongKind caption where
  rejected := ClientError.wrongKind_family
  wrongKind := by decide
  plain s hs := by
    have hrun := (Server.run_hsetAll_otherKind hitems hs.hashUnder).1
    simp only [Client.captioning, Server.client_run, hrun]
    rfl
  opening s hs := ⟨rfl, hs⟩
  queue s c hs := ⟨⟨_, rfl⟩, hs⟩
  commit s n hs := by
    have hrun := (Server.run_hsetAll_otherKind hitems hs.hashUnder).1
    have hcommit : (Server.client s (.commit (limitedWrite key items n))).1 =
        .error Server.wrongKind := by
      simp only [Server.client, ScriptedServer.call, ScriptedServer.commit, limitedWrite,
        ScriptedServer.answerAll, ScriptedServer.answer, ScriptedServer.scripted?, Dict.get?,
        Option.map_none]
      rcases h : s.run (.hsetAll key items) with ⟨f | v, s'⟩
      · rw [h] at hrun
        simpa only [Except.map, Except.error.injEq] using hrun
      · rw [h] at hrun
        cases hrun
    have hreraised : Failure.reraised (caption (limitedWrite key items n)) Server.wrongKind =
        .client (ClientError.wrongKind.reraised (caption (limitedWrite key items n))) := by
      rw [Server.wrongKind, Failure.reraised, if_pos ClientError.wrongKind_family]
    simp only [Client.captioning, hcommit]
    exact congrArg Except.error hreraised

end Store

namespace FileCache

open Store (RefusesWrite reported limitedWrite)

variable {client : Client σ} {Held : σ → Prop} {key : String} {items : List (Value × Value)}
  {e : ClientError} {caption : List Command → Option Caption} {s : σ}

theorem result_store_refused (h : RefusesWrite client Held key items e caption) (hs : Held s)
    {c : FileCache} {file : FileSource} {limit : Value} {t : FileTree} {p : Parcel}
    (hpack : c.pack file limit t = .ok p) (hkey : p.key = key)
    (hitems : Server.textItems p.fields = items) :
    ((c.store file limit).run client s t).result =
      .error (match p.seconds with
        | none => .typeMismatch (.otherKind "HSET" key e)
        | some n => reported key e (caption (limitedWrite key items n))) := by
  subst hkey hitems
  have hwrite : (p.write.run client s t).result =
      .error (match p.seconds with
        | none => .typeMismatch (.otherKind "HSET" p.key e)
        | some n =>
            reported p.key e (caption (limitedWrite p.key (Server.textItems p.fields) n))) := by
    unfold Parcel.write
    cases p.seconds with
    | none => exact congrArg Run.result (Program.run_andThen_error (h.result_ask hs t))
    | some n => exact h.result_putWithin hs n t
  rw [run_store, hpack]
  simp only [Parcel.send, Program.bind_eq_andThen]
  rw [Program.run_andThen_error hwrite]

/-- A write under a key that holds another kind of value is reported as a mismatch
where it is a plain one, and where it is a transaction that raises the error as it
is. A transaction that puts a caption in front of the error is reported as trouble
with the server, whatever the caption says. It is the same for a mapping and for a
file. -/
theorem wrong_kind_known_without_caption {σ : Type} {client : Client σ} {Held : σ → Prop}
    {key : String} {items : List (Value × Value)} {e : ClientError}
    {caption : List Command → Option Caption}
    (h : RefusesWrite client Held key items e caption) {s : σ} (hs : Held s) (t : FileTree) :
    (∀ limit n, Text.allBlank key = false → items ≠ [] → Store.requireDuration limit = .ok n →
      ((Store.hashPutAll (.text key) (.map items) .null).run client s t).result =
        .error (.typeMismatch (.otherKind "HSET" key e)) ∧
      ((Store.hashPutAll (.text key) (.map items) limit).run client s t).result =
        .error (reported key e (caption (limitedWrite key items n)))) ∧
    (∀ c file limit p, FileCache.pack c file limit t = .ok p → p.key = key →
      Server.textItems p.fields = items →
      ((c.store file limit).run client s t).result =
        .error (match p.seconds with
          | none => .typeMismatch (.otherKind "HSET" key e)
          | some n => reported key e (caption (limitedWrite key items n)))) := by
  constructor
  · intro limit n hblank hitems hlimit
    exact h.result_hashPutAll hs hblank hitems hlimit t
  · intro c file limit p hpack hkey hitems
    exact result_store_refused h hs hpack hkey hitems

/-- A sequence under the key of a mapping and a text under the key of a file, with
and without captions. -/
theorem mapping_and_file_over_another_kind :
    let s : Server :=
      { entries := [("k", ⟨.sequence ["x"], none⟩), ("file:a.txt", ⟨.text "v", none⟩)] }
    let items : List (Value × Value) := [(.text "f", .text "v")]
    let c : FileCache := ⟨⟨.single, ["scratch"]⟩, defaultPrefix, none⟩
    let file : FileSource := .opened (some (.text "a.txt")) (.ok (.bytes [1]))
    let first : Caption := ⟨1, "HSET k f v"⟩
    let plain := Client.captioning (fun _ => none) Server.client
    let captioned := Client.captioning (fun _ => some first) Server.client
    let e := ClientError.wrongKind
    let put (client : Client Server) (limit : Value) :=
      ((Store.hashPutAll (.text "k") (.map items) limit).run client s {}).result
    let store (client : Client Server) (limit : Value) :=
      ((c.store file limit).run client s {}).result
    put captioned .null = .error (.typeMismatch (.otherKind "HSET" "k" e)) ∧
      put plain (.int 60) = .error (.typeMismatch (.otherKind "HSET+EXPIRE" "k" e)) ∧
      put captioned (.int 60) =
        .error (.unavailable (.failed "HSET+EXPIRE" "k" (e.reraised (some first)))) ∧
      store captioned .null = .error (.typeMismatch (.otherKind "HSET" "file:a.txt" e)) ∧
      store captioned (.int 60) =
        .error (.unavailable (.failed "HSET+EXPIRE" "file:a.txt" (e.reraised (some first)))) := by
  intro s items c file first plain captioned e put store
  have hk : Store.OtherKind (s.live? "k") := ⟨_, rfl, rfl⟩
  have hfile : Store.OtherKind (s.live? "file:a.txt") := ⟨_, rfl, rfl⟩
  have hitems : items ≠ [] := by simp [items]
  have hmapping := fun caption => (wrong_kind_known_without_caption
    (Store.refuses_captioning caption "k" hitems) hk {}).1 (.int 60) 60 (by decide) hitems rfl
  have hfields : Server.textItems [(nameField, "a.txt"), (contentField, "AQ==")] ≠ [] :=
    Server.textItems_ne_nil (by simp)
  have hrecord := fun limit p => (wrong_kind_known_without_caption
    (Store.refuses_captioning (fun _ => some first) "file:a.txt" hfields) hfile {}).2
    c file limit p
  refine ⟨(hmapping _).1, (hmapping _).2, (hmapping _).2, ?_, ?_⟩
  · exact hrecord .null ⟨"a.txt", [1], "file:a.txt", none⟩ rfl rfl rfl
  · exact hrecord (.int 60) ⟨"a.txt", [1], "file:a.txt", some 60⟩ rfl rfl rfl

end FileCache

end FileStash
