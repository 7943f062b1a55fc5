import FileStash.FileCache.Basic
import FileStash.Proofs.Server.TextHash
import FileStash.Proofs.Store.Asking

namespace FileStash

variable {σ : Type}

namespace FileSource

/-- The base name and the content of a source in a tree. -/
def readIn (t : FileTree) : FileSource → Except StoreError (String × List UInt8)
  | .opened name content =>
      match usableName? name with
      | none => .error (.invalidArgument .namelessFile)
      | some p => (contentOf p.name content).map fun bytes => (p.name, bytes)
  | .value v =>
      match v.toPath with
      | .error f => .error (.bare f)
      | .ok p =>
          if p.name.isEmpty then
            match v.shown with
            | .error f => .error (.bare f)
            | .ok shown => .error (.invalidArgument (.noFileName shown))
          else
            match t.read p with
            | .ok bytes => .ok (p.name, bytes)
            | .error f => .error (readFailure p f)

theorem readIn_opened_text {label : String} (h : label ≠ "") (content : List UInt8)
    (t : FileTree) :
    readIn t (.opened (some (.text label)) (.ok (.bytes content))) =
      .ok ((Path.ofText label).name, content) := by
  have hsome : label.isEmpty = false := by simpa using h
  simp only [readIn, usableName?, hsome, Bool.false_eq_true, if_false]
  rfl

theorem run_read (client : Client σ) (file : FileSource) (s : σ) (t : FileTree) :
    file.read.run client s t = { result := file.readIn t, state := s, tree := t } := by
  cases file with
  | opened name content =>
      simp only [read, readIn]
      cases usableName? name with
      | none => rfl
      | some p =>
          dsimp only
          cases contentOf p.name content <;> rfl
  | value v =>
      simp only [read, readIn, Program.bind_eq_andThen]
      cases v.toPath with
      | error f => rfl
      | ok p =>
          simp only [Program.ofConverted, Program.andThen_done]
          split
          · cases v.shown <;> rfl
          · simp only [Program.currentTree, Program.andThen, Program.run]
            cases t.read p <;> rfl

/-- The path whose last part names the record of a source. -/
def path? : FileSource → Option Path
  | .opened name _ => usableName? name
  | .value v => v.toPath.toOption

theorem path?_of_readIn {t : FileTree} {file : FileSource} {name : String}
    {content : List UInt8} (h : file.readIn t = .ok (name, content)) :
    ∃ p, file.path? = some p ∧ p.name = name := by
  cases file with
  | opened label answer =>
      simp only [readIn] at h
      cases hp : usableName? label with
      | none => simp [hp] at h
      | some p =>
          refine ⟨p, hp, ?_⟩
          simp only [hp] at h
          cases hbytes : contentOf p.name answer with
          | error e => simp [hbytes, Except.map] at h
          | ok bytes =>
              simp only [hbytes, Except.map, Except.ok.injEq, Prod.mk.injEq] at h
              exact h.1
  | value v =>
      simp only [readIn] at h
      cases hp : v.toPath with
      | error f => simp [hp] at h
      | ok p =>
          refine ⟨p, by simp [path?, hp, Except.toOption], ?_⟩
          simp only [hp] at h
          split at h
          · cases hshown : v.shown <;> simp [hshown] at h
          · cases hread : t.read p with
            | error f => simp [hread] at h
            | ok bytes =>
                simp only [hread, Except.ok.injEq, Prod.mk.injEq] at h
                exact h.1

end FileSource

namespace FileCache

structure Parcel where
  name : String
  content : List UInt8
  key : String
  seconds : Option Int

/-- All that is decided about a file before the server is asked. -/
def pack (c : FileCache) (file : FileSource) (limit : Value) (t : FileTree) :
    Except StoreError Parcel :=
  match file with
  | .value .null => .error (.invalidArgument .noFile)
  | file => do
      let seconds ← c.effectiveTtl limit
      let (name, content) ← file.readIn t
      let key ← Store.bare (c.cacheKey (.text name))
      let key ← Store.requireKey (.text key)
      let seconds ← Store.optionalDuration (durationValue seconds)
      .ok ⟨name, content, key, seconds⟩

namespace Parcel

/-- The fields of the record, in the order in which they are written. -/
def fields (p : Parcel) : List (String × String) :=
  [(nameField, p.name), (contentField, encodeContent p.content)]

/-- The write itself, in one transaction with its time limit where there is
one. -/
def write (p : Parcel) : Program Unit :=
  match p.seconds with
  | none => do
      let _ ← Store.ask "HSET" p.key (.hsetAll p.key (Server.textItems p.fields))
      .done ()
  | some n => Store.putWithin p.key (record p.name p.content) n

def send (p : Parcel) : Program String := do
  p.write
  Program.note .info logger
    ("Cached " ++ p.name ++ " under " ++ p.key ++ sizeNote p.content)
  .done p.key

theorem within_send {P : Call → Prop} {Q : FileTree → Prop} (p : Parcel)
    (h : ∀ c : Call, (∀ k ∈ c.keys, k = p.key) → P c) : p.send.Within P Q := by
  refine Program.Within.bind ?_ fun _ => (Program.within_note ..).bind fun _ => trivial
  unfold write
  split
  · refine (Store.within_ask (h _ ?_)).bind fun _ => trivial
    simp [Call.keys, Command.keys]
  · refine Store.within_putWithin (h _ ?_) (fun c => h _ ?_) fun entries => h _ ?_
    all_goals simp [Call.keys, Command.keys]

end Parcel

theorem optionalDuration_durationValue {limit seconds : Option Int}
    (h : Store.optionalDuration (durationValue limit) = .ok seconds) :
    seconds = limit ∧ ∀ n, limit = some n → 0 < n := by
  cases limit with
  | none =>
      cases h
      simp
  | some m =>
      cases hm : Store.requireDuration (.int m) with
      | error e => simp [durationValue, Store.optionalDuration, hm, Except.map] at h
      | ok n =>
          simp only [durationValue, Store.optionalDuration, hm, Except.map,
            Except.ok.injEq] at h
          have hpos : 0 < n := Store.requireDuration_pos hm
          have hn : n = m := by
            simp only [Store.requireDuration, Value.toInt] at hm
            split at hm
            · exact (Except.ok.inj hm).symm
            · cases hshown : Store.bare (Value.int m).shown <;>
                simp [hshown, bind, Except.bind] at hm
          subst h hn
          simpa using hpos

theorem optionalDuration_of_pos {seconds : Option Int}
    (h : ∀ n, seconds = some n → 0 < n) :
    Store.optionalDuration (durationValue seconds) = .ok seconds := by
  cases seconds with
  | none => rfl
  | some n =>
      have hpos := h n rfl
      simp [durationValue, Store.optionalDuration, Store.requireDuration, Value.toInt, hpos,
        Except.map]

/-- What a parcel holds: what was read, the key made of the name, and the time
limit in force. -/
theorem of_pack {c : FileCache} {file : FileSource} {limit : Value}
    {t : FileTree} {p : Parcel} (h : c.pack file limit t = .ok p) :
    file.readIn t = .ok (p.name, p.content) ∧ c.cacheKey (.text p.name) = .ok p.key ∧
      Text.allBlank p.key = false ∧ c.effectiveTtl limit = .ok p.seconds ∧
      ∀ n, p.seconds = some n → 0 < n := by
  unfold pack at h
  split at h
  · cases h
  · cases hlimit : c.effectiveTtl limit with
    | error e => simp [hlimit, bind, Except.bind] at h
    | ok seconds =>
        cases hread : file.readIn t with
        | error e => simp [hlimit, hread, bind, Except.bind] at h
        | ok r =>
            obtain ⟨name, content⟩ := r
            cases hkey : c.cacheKey (.text name) with
            | error f => simp [hlimit, hread, hkey, Store.bare, bind, Except.bind] at h
            | ok key =>
                simp only [hlimit, hread, hkey, Store.bare, bind, Except.bind] at h
                cases hchecked : Store.requireKey (.text key) with
                | error e => simp [hchecked] at h
                | ok key' =>
                    obtain ⟨hsame, hblank⟩ :=
                      (Store.requireKey_eq_ok_iff _ _).mp hchecked
                    cases hsame
                    cases hduration : Store.optionalDuration (durationValue seconds) with
                    | error e => simp [hchecked, hduration] at h
                    | ok seconds' =>
                        obtain ⟨rfl, hpos⟩ := optionalDuration_durationValue hduration
                        simp only [hchecked, hduration, Except.ok.injEq] at h
                        subst h
                        exact ⟨rfl, hkey, hblank, rfl, hpos⟩

theorem pack_of_readIn {c : FileCache} {file : FileSource} {limit : Value}
    {t : FileTree} {name key : String} {content : List UInt8} {seconds : Option Int}
    (hlimit : c.effectiveTtl limit = .ok seconds) (hpos : ∀ n, seconds = some n → 0 < n)
    (hread : file.readIn t = .ok (name, content))
    (hkey : c.cacheKey (.text name) = .ok key)
    (hblank : Text.allBlank key = false) :
    c.pack file limit t = .ok ⟨name, content, key, seconds⟩ := by
  have hchecked : Store.requireKey (.text key) = .ok key :=
    (Store.requireKey_eq_ok_iff _ _).mpr ⟨rfl, hblank⟩
  unfold pack
  split
  · cases hread
  · simp only [hlimit, hread, hkey, Store.bare, bind, Except.bind, hchecked,
      optionalDuration_of_pos hpos]

theorem hashPutAll_record (name : String) (content : List UInt8) (key : String)
    (limit : Value) :
    Store.hashPutAll (.text key) (record name content) limit =
      (Program.ofExcept (Store.requireKey (.text key))).andThen fun key =>
        (Program.ofExcept (Store.optionalDuration limit)).andThen fun seconds =>
          (Parcel.write ⟨name, content, key, seconds⟩).andThen fun _ =>
            .done (record name content) := by
  have htruth : (record name content).truth = true := rfl
  simp only [Store.hashPutAll, Store.checked, htruth, Program.bind_eq_andThen,
    Bool.not_true, Bool.false_eq_true, if_false]
  congr 1
  funext key
  congr 1
  funext seconds
  cases seconds with
  | none =>
      simp only [Parcel.write, record, Value.toMap, Program.bind_eq_andThen,
        Program.ofConverted, Program.andThen_done, Program.andThen_assoc, Parcel.fields,
        Server.textItems, List.map_cons, List.map_nil]
  | some n => rfl

/-- A file that cannot be packed is refused without a call, and any other is
only sent. -/
theorem run_store (client : Client σ) (c : FileCache) (file : FileSource)
    (limit : Value) (s : σ) (t : FileTree) :
    (c.store file limit).run client s t =
      match c.pack file limit t with
      | .error e => { result := .error e, state := s, tree := t }
      | .ok p => p.send.run client s t := by
  unfold store pack
  split
  · rfl
  · simp only [Program.bind_eq_andThen, hashPutAll_record]
    cases c.effectiveTtl limit with
    | error e => rfl
    | ok seconds =>
        simp only [Program.ofExcept, Program.andThen_done, bind, Except.bind]
        rw [Program.run_andThen, FileSource.run_read]
        cases file.readIn t with
        | error e => rfl
        | ok r =>
            obtain ⟨name, content⟩ := r
            dsimp only
            cases c.cacheKey (.text name) with
            | error f => rfl
            | ok key =>
                simp only [Program.ofConverted, Program.andThen_done, Store.bare]
                cases hkey : Store.requireKey (.text key) with
                | error e => rfl
                | ok key' =>
                    obtain rfl : key = key' :=
                      Value.text.inj ((Store.requireKey_eq_ok_iff _ _).mp hkey).1
                    simp only [Program.andThen_done]
                    cases Store.optionalDuration (durationValue seconds) with
                    | error e => rfl
                    | ok limit' =>
                        simp only [Program.andThen_done, Program.andThen_assoc,
                          Parcel.send, Program.bind_eq_andThen, List.nil_append]

theorem tree_store (client : Client σ) (c : FileCache) (file : FileSource)
    (limit : Value) (s : σ) (t : FileTree) :
    ((c.store file limit).run client s t).tree = t := by
  rw [run_store]
  cases c.pack file limit t with
  | error e => rfl
  | ok p =>
      exact Program.Within.tree_run (P := fun _ => True)
        (p.within_send fun _ _ => trivial) s t

end FileCache

end FileStash
