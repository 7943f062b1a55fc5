import FileStash.Proofs.FileCache.Reading

namespace FileStash.FileCache

variable {σ : Type} {c : FileCache} {t : FileTree}

theorem decodeContent_text (s : String) :
    decodeContent (.text s) =
      match Base64.decode s.toList with
      | .ok content => .ok content
      | .error fault => .error (.decode fault) := by
  rw [decodeContent]
  cases Base64.decode s.toList <;> rfl

theorem decodeContent_text_eq_ok_iff {s : String} {content : List UInt8} :
    decodeContent (.text s) = .ok content ↔ Base64.decode s.toList = .ok content := by
  rw [decodeContent_text]
  cases Base64.decode s.toList <;> simp

theorem error_of_decodeContent {s : String} {e : StoreError}
    (h : decodeContent (.text s) = .error e) : ∃ fault, e = .decode fault := by
  rw [decodeContent_text] at h
  split at h
  · cases h
  · cases h
    exact ⟨_, rfl⟩

theorem target_eq_ok_iff {name : Value} {p : Path} :
    c.target t name = .ok p ↔ t.safePath c.scratchDir name = .ok p := by
  simp only [target]
  cases t.safePath c.scratchDir name with
  | ok p' => simp
  | error f =>
      simp only [reduceCtorEq, iff_false]
      split
      · cases Store.bare name.shown <;> exact nofun
      · exact nofun

theorem plain_of_target {name : Value} {p : Path} (h : c.target t name = .ok p) :
    ∃ shown, name.plain = .ok shown := by
  rw [target_eq_ok_iff] at h
  cases name with
  | text s => exact ⟨s, rfl⟩
  | path p => exact ⟨p.text, rfl⟩
  | _ =>
      simp only [FileTree.safePath, Value.toPath, bind, Except.bind] at h
      cases hroot : t.resolve c.scratchDir <;> simp [hroot] at h

/-- The outcome of writing a file, and the tree afterwards. -/
def settle (t : FileTree) (p : Path) (content : List UInt8)
    (broken : Option FileTree.Break := none) : Except StoreError Unit × FileTree :=
  match t.makeDirectories p.parent with
  | (.error f, t') => (.error (writeFailure p f), t')
  | (.ok (), t') =>
      match t'.fill p content broken with
      | (.error f, t'') => (.error (writeFailure p f), t'')
      | (.ok (), t'') => (.ok (), t'')

theorem settle_cases (t : FileTree) (p : Path) (content : List UInt8) :
    (∃ f t', t.makeDirectories p.parent = (.error f, t') ∧
      settle t p content = (.error (writeFailure p f), t')) ∨
      ∃ t', t.makeDirectories p.parent = (.ok (), t') ∧
        ((∃ f, t'.write p content = .error f ∧
            settle t p content = (.error (writeFailure p f), t')) ∨
          ∃ t'', t'.write p content = .ok t'' ∧ settle t p content = (.ok (), t'')) := by
  rcases hmake : t.makeDirectories p.parent with ⟨f | u, t'⟩
  · exact .inl ⟨f, t', rfl, by simp only [settle, hmake]⟩
  · refine .inr ⟨t', rfl, ?_⟩
    cases hwrite : t'.write p content with
    | error f => exact .inl ⟨f, rfl, by simp only [settle, hmake, FileTree.fill, hwrite]⟩
    | ok t'' => exact .inr ⟨t'', rfl, by simp only [settle, hmake, FileTree.fill, hwrite]⟩

/-- A write that breaks off leaves what a write of the octets leaves that have been
taken. -/
theorem settle_broken (t : FileTree) (p : Path) (content : List UInt8) (b : FileTree.Break) :
    settle t p content (some b) =
      ((settle t p (content.take b.taken)).1.bind fun _ => .error (writeFailure p b.failure),
        (settle t p (content.take b.taken)).2) := by
  simp only [settle, FileTree.fill]
  rcases t.makeDirectories p.parent with ⟨f | u, t'⟩
  · rfl
  · dsimp only
    cases t'.write p (content.take b.taken) <;> rfl

theorem run_materialise (client : Client σ) (p : Path) (content : List UInt8)
    (broken : Option FileTree.Break) (s : σ) (t : FileTree) :
    (materialise p content broken).run client s t =
      { result := (settle t p content broken).1, state := s,
        tree := (settle t p content broken).2 } := by
  simp only [materialise, settle, Program.currentTree, Program.replaceTree,
    Program.bind_eq_andThen, Program.andThen, Program.run]
  rcases t.makeDirectories p.parent with ⟨f | u, t'⟩
  · rfl
  · dsimp only [Program.andThen, Program.run]
    rcases t'.fill p content broken with ⟨f | u, t''⟩ <;> rfl

/-- Where a file of a name is delivered, and the tree afterwards. -/
def deliver (c : FileCache) (t : FileTree) (name : Value) (content : List UInt8)
    (broken : Option FileTree.Break := none) : Except StoreError Path × FileTree :=
  match c.target t name with
  | .error e => (.error e, t)
  | .ok p =>
      match settle t p content broken with
      | (.error e, t') => (.error e, t')
      | (.ok (), t') => (.ok p, t')

/-- What becomes of the fields that are kept under a name, and the tree
afterwards. -/
def unpack (c : FileCache) (t : FileTree) (name : String) (es : Dict Value Value)
    (broken : Option FileTree.Break := none) : Except StoreError (Option Path) × FileTree :=
  if es.isEmpty then (.ok none, t)
  else
    match decodeContent (fieldOr es contentField (.text "")) with
    | .error e => (.error e, t)
    | .ok content =>
        let delivered := c.deliver t (fieldOr es nameField (.text name)) content broken
        (delivered.1.map some, delivered.2)

theorem deliver_of_safePath {name : Value} {p : Path}
    (h : t.safePath c.scratchDir name = .ok p) (content : List UInt8)
    (broken : Option FileTree.Break := none) :
    c.deliver t name content broken =
      ((settle t p content broken).1.map fun _ => p, (settle t p content broken).2) := by
  simp only [deliver, target_eq_ok_iff.mpr h]
  rcases settle t p content broken with ⟨e | u, t'⟩ <;> rfl

theorem deliver_cases (c : FileCache) (t : FileTree) (name : Value) (content : List UInt8)
    (broken : Option FileTree.Break := none) :
    (∃ e, c.target t name = .error e ∧ c.deliver t name content broken = (.error e, t)) ∨
      ∃ p, t.safePath c.scratchDir name = .ok p ∧
        c.deliver t name content broken =
          ((settle t p content broken).1.map fun _ => p, (settle t p content broken).2) := by
  cases htarget : c.target t name with
  | error e => exact .inl ⟨e, rfl, by simp only [deliver, htarget]⟩
  | ok p =>
      have hsafe := target_eq_ok_iff.mp htarget
      exact .inr ⟨p, hsafe, deliver_of_safePath hsafe content broken⟩

theorem unpack_cases (c : FileCache) (t : FileTree) (name : String) (es : Dict Value Value)
    (broken : Option FileTree.Break := none) :
    (es.isEmpty = true ∧ c.unpack t name es broken = (.ok none, t)) ∨
      es.isEmpty = false ∧
        ((∃ e, decodeContent (fieldOr es contentField (.text "")) = .error e ∧
            c.unpack t name es broken = (.error e, t)) ∨
          ∃ content, decodeContent (fieldOr es contentField (.text "")) = .ok content ∧
            c.unpack t name es broken =
              ((c.deliver t (fieldOr es nameField (.text name)) content broken).1.map some,
                (c.deliver t (fieldOr es nameField (.text name)) content broken).2)) := by
  unfold unpack
  cases hempty : es.isEmpty with
  | true => exact .inl ⟨rfl, by rw [if_pos rfl]⟩
  | false =>
      rw [if_neg Bool.false_ne_true]
      refine .inr ⟨rfl, ?_⟩
      cases decodeContent (fieldOr es contentField (.text "")) with
      | error e => exact .inl ⟨e, rfl, rfl⟩
      | ok content => exact .inr ⟨content, rfl, rfl⟩

section Run

variable {client : Client σ} {s : σ} {name : String} {broken : Option FileTree.Break}

theorem tree_entries (client : Client σ) (c : FileCache) (name : String) (s : σ)
    (t : FileTree) : ((c.entries name).run client s t).tree = t :=
  Program.Within.tree_run (P := fun _ => True) (within_entries fun _ _ => trivial) s t

theorem run_restore_refused {v : Value} {e : StoreError} (h : requireName v = .error e) :
    (c.restore v broken).run client s t = { result := .error e, state := s, tree := t } := by
  simp only [restore, h, Program.bind_eq_andThen]
  rfl

theorem run_restore_of_error (hname : name ≠ "") {e : StoreError}
    (h : ((c.entries name).run client s t).result = .error e) :
    ((c.restore (.text name) broken).run client s t).result = .error e ∧
      ((c.restore (.text name) broken).run client s t).tree = t := by
  have hchecked : requireName (.text name) = .ok name :=
    (requireName_eq_ok_iff _ _).mpr ⟨rfl, hname⟩
  simp only [restore, Program.bind_eq_andThen, hchecked, Program.ofExcept,
    Program.andThen_done]
  rw [Program.run_andThen_error h]
  exact ⟨rfl, tree_entries client c name s t⟩

theorem result_restore_of_entries (hname : name ≠ "") {es : Dict Value Value}
    (h : ((c.entries name).run client s t).result = .ok es) :
    ((c.restore (.text name) broken).run client s t).result =
        (c.unpack t name es broken).1 ∧
      ((c.restore (.text name) broken).run client s t).tree =
        (c.unpack t name es broken).2 := by
  have hchecked : requireName (.text name) = .ok name :=
    (requireName_eq_ok_iff _ _).mpr ⟨rfl, hname⟩
  simp only [restore, unpack, Program.bind_eq_andThen, hchecked, Program.ofExcept,
    Program.andThen_done]
  rw [Program.run_andThen_ok h]
  dsimp only
  rw [tree_entries]
  split
  · exact ⟨rfl, rfl⟩
  · cases decodeContent (fieldOr es contentField (.text "")) with
    | error e => exact ⟨rfl, rfl⟩
    | ok content =>
        simp only [Program.currentTree, Program.andThen, Program.run, deliver]
        cases htarget : c.target t (fieldOr es nameField (.text name)) with
        | error e => exact ⟨rfl, rfl⟩
        | ok p =>
            obtain ⟨shown, hshown⟩ := plain_of_target htarget
            simp only [Program.andThen_done, hshown, Program.ofConverted]
            rw [Program.run_andThen, run_materialise]
            rcases settle t p content broken with ⟨e | u, t'⟩ <;> exact ⟨rfl, rfl⟩

theorem result_restoreBytes_refused {v : Value} {e : StoreError}
    (h : requireName v = .error e) :
    ((c.restoreBytes v).run client s t).result = .error e := by
  simp only [restoreBytes, h, Program.bind_eq_andThen]
  rfl

theorem result_restoreBytes_of_error (hname : name ≠ "") {e : StoreError}
    (h : ((c.entries name).run client s t).result = .error e) :
    ((c.restoreBytes (.text name)).run client s t).result = .error e := by
  have hchecked : requireName (.text name) = .ok name :=
    (requireName_eq_ok_iff _ _).mpr ⟨rfl, hname⟩
  simp only [restoreBytes, Program.bind_eq_andThen, hchecked, Program.ofExcept,
    Program.andThen_done]
  rw [Program.run_andThen_error h]

theorem result_restoreBytes_of_entries (hname : name ≠ "") {es : Dict Value Value}
    (h : ((c.entries name).run client s t).result = .ok es) :
    ((c.restoreBytes (.text name)).run client s t).result =
      decodeContent (fieldOr es contentField (.text "")) := by
  have hchecked : requireName (.text name) = .ok name :=
    (requireName_eq_ok_iff _ _).mpr ⟨rfl, hname⟩
  simp only [restoreBytes, Program.bind_eq_andThen, hchecked, Program.ofExcept,
    Program.andThen_done]
  rw [Program.run_andThen_ok h]
  split <;> cases decodeContent (fieldOr es contentField (.text "")) <;> rfl

/-- All that `restore` can do: it ends without a look at the files, or it
unpacks the fields that are kept under the name. -/
theorem restore_cases (client : Client σ) (c : FileCache) (name : Value) (s : σ)
    (t : FileTree) (broken : Option FileTree.Break := none) :
    (∃ e, ((c.restore name broken).run client s t).result = .error e ∧
      ((c.restore name broken).run client s t).tree = t ∧
      (requireName name = .error e ∨
        ∃ n, name = .text n ∧ ((c.entries n).run client s t).result = .error e)) ∨
      ∃ n es, name = .text n ∧ n ≠ "" ∧
        ((c.entries n).run client s t).result = .ok es ∧
        ((c.restore name broken).run client s t).result = (c.unpack t n es broken).1 ∧
        ((c.restore name broken).run client s t).tree = (c.unpack t n es broken).2 := by
  cases hrequired : requireName name with
  | error e =>
      rw [run_restore_refused hrequired]
      exact .inl ⟨e, rfl, rfl, .inl rfl⟩
  | ok n =>
      obtain ⟨rfl, hname⟩ := (requireName_eq_ok_iff _ _).mp hrequired
      cases hentries : ((c.entries n).run client s t).result with
      | error e =>
          obtain ⟨hresult, htree⟩ := run_restore_of_error hname hentries
          exact .inl ⟨e, hresult, htree, .inr ⟨n, rfl, hentries⟩⟩
      | ok es =>
          exact .inr ⟨n, es, rfl, hname, hentries, result_restore_of_entries hname hentries⟩

end Run

end FileStash.FileCache
