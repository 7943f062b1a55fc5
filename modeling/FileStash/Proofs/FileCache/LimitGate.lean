import FileStash.Proofs.FileCache.Storing
import FileStash.Proofs.Store.Duration

namespace FileStash

open Store (requireKey requireKey_eq_ok_iff requireDuration requireDuration_pos transactionCalls
  Gated GateSlip)

namespace FileCache

variable {c : FileCache} {file : FileSource} {v limit : Value} {n : Int} {e : StoreError}

theorem effectiveTtl_eq (hv : v ≠ .null) :
    c.effectiveTtl v = (requireDuration v).map some := by
  unfold effectiveTtl
  split
  · exact absurd rfl hv
  · rfl

theorem store_refused (hfile : file ≠ .value .null) (hnull : v ≠ .null)
    (hv : requireDuration v = .error e) : c.store file v = .fail e := by
  unfold store
  split
  · exact absurd rfl hfile
  · simp only [effectiveTtl_eq hnull, hv, Except.map, Program.bind_eq_andThen, Program.ofExcept,
      Program.andThen_fail]

/-- With its limit in force a file that can be read is sent in one transaction. -/
theorem sends_store {σ : Type} (client : Client σ) (s : σ) {t : FileTree} {name key : String}
    {content : List UInt8} (hlimit : c.effectiveTtl limit = .ok (some n)) (hpos : 0 < n)
    (hread : file.readIn t = .ok (name, content)) (hkey : c.cacheKey (.text name) = .ok key)
    (hblank : Text.allBlank key = false) :
    ((c.store file limit).run client s t).Sends (transactionCalls key
      [(.text nameField, .text name), (.text contentField, .text (encodeContent content))] n) := by
  have hpositive : ∀ m, some n = some m → 0 < m := by
    rintro m ⟨⟩
    exact hpos
  rw [run_store, pack_of_readIn hlimit hpositive hread hkey hblank]
  refine Program.Follows.sends ?_ ((Store.begins_putWithin key (record name content) n).andThen _)
    s t
  exact (Store.follows_putWithin rfl n).andThen_silent fun _ =>
    (Program.within_note ..).bind fun _ => trivial

theorem create_eq {temporary dir : Path} {scratch : Value} (keyPrefix : Value)
    (hscratch : chooseScratch temporary scratch = .ok dir) (hnull : v ≠ .null) :
    create true temporary scratch keyPrefix v =
      (requireDuration v).map fun n => ⟨dir, keyPrefix, some n⟩ := by
  simp only [create, hscratch, Store.bare, Store.optionalDuration_eq hnull, bind, Except.bind]
  cases requireDuration v <;> rfl

end FileCache

/-- Whatever takes a limit fails with the error at once: it makes no call, and looks
at no file. -/
structure LimitRefused (v : Value) (e : StoreError) : Prop where
  set : ∀ key value, Text.allBlank key = false → Store.setValue (.text key) value v = .fail e
  putAll : ∀ key mapping, Text.allBlank key = false →
    Store.hashPutAll (.text key) mapping v = .fail e
  expire : ∀ key, Text.allBlank key = false → Store.expire (.text key) v = .fail e
  create : ∀ temporary scratch dir keyPrefix, FileCache.chooseScratch temporary scratch = .ok dir →
    FileCache.create true temporary scratch keyPrefix v = .error e
  store : ∀ (c : FileCache) file, file ≠ .value .null → c.store file v = .fail e

/-- Whatever takes a limit goes on with the duration, and sends no other: at once, or
later where a cache keeps it. -/
structure LimitSent (v : Value) (n : Int) : Prop where
  set : ∀ {σ : Type} (client : Client σ) s t key value, Text.allBlank key = false →
    ((Store.setValue (.text key) value v).run client s t).Sends [.run (.set key value (some n))]
  putAll : ∀ {σ : Type} (client : Client σ) s t key mapping items, Text.allBlank key = false →
    mapping.truth = true → mapping.toMap = .ok items →
    ((Store.hashPutAll (.text key) mapping v).run client s t).Sends (transactionCalls key items n)
  expire : ∀ {σ : Type} (client : Client σ) s t key, Text.allBlank key = false →
    ((Store.expire (.text key) v).run client s t).Sends [.run (.expire key n)]
  create : ∀ temporary scratch dir keyPrefix, FileCache.chooseScratch temporary scratch = .ok dir →
    FileCache.create true temporary scratch keyPrefix v = .ok ⟨dir, keyPrefix, some n⟩
  store : ∀ {σ : Type} (client : Client σ) s t (c : FileCache) (file : FileSource) limit name content
    key, limit = v ∨ limit = .null ∧ c.ttl = some n →
    file.readIn t = .ok (name, content) → c.cacheKey (.text name) = .ok key →
    Text.allBlank key = false →
    ((c.store file limit).run client s t).Sends (transactionCalls key
      [(.text FileCache.nameField, .text name),
        (.text FileCache.contentField, .text (FileCache.encodeContent content))] n)

theorem limitRefused {v : Value} (hnull : v ≠ .null) {e : StoreError}
    (hv : requireDuration v = .error e) : LimitRefused v e where
  set key value hblank :=
    Store.setValue_refused ((requireKey_eq_ok_iff _ _).mpr ⟨rfl, hblank⟩) hv hnull value
  putAll key mapping hblank :=
    Store.hashPutAll_refused ((requireKey_eq_ok_iff _ _).mpr ⟨rfl, hblank⟩) hv hnull mapping
  expire key hblank := Store.expire_refused ((requireKey_eq_ok_iff _ _).mpr ⟨rfl, hblank⟩) hv
  create temporary scratch dir keyPrefix hscratch := by
    rw [FileCache.create_eq keyPrefix hscratch hnull, hv]
    rfl
  store c file hfile := FileCache.store_refused hfile hnull hv

theorem limitSent {v : Value} (hnull : v ≠ .null) {n : Int} (hv : requireDuration v = .ok n) :
    LimitSent v n where
  set client s t key value hblank :=
    Store.sends_setValue client s t ((requireKey_eq_ok_iff _ _).mpr ⟨rfl, hblank⟩) hv value
  putAll client s t key mapping items hblank htruth hitems :=
    Store.sends_hashPutAll client s t ((requireKey_eq_ok_iff _ _).mpr ⟨rfl, hblank⟩) hv htruth hitems
  expire client s t key hblank :=
    Store.sends_expire client s t ((requireKey_eq_ok_iff _ _).mpr ⟨rfl, hblank⟩) hv
  create temporary scratch dir keyPrefix hscratch := by
    rw [FileCache.create_eq keyPrefix hscratch hnull, hv]
    rfl
  store client s t c file limit name content key hlimit hread hkey hblank := by
    have hforce : c.effectiveTtl limit = .ok (some n) := by
      obtain rfl | ⟨rfl, hkept⟩ := hlimit
      · rw [FileCache.effectiveTtl_eq hnull, hv]
        rfl
      · exact congrArg Except.ok hkept
    exact FileCache.sends_store client s hforce (requireDuration_pos hv) hread hkey hblank

/-- Whatever converts to a positive integer passes the gate as that integer, and it is
the only limit that is sent. Everything else is refused before any call and any look
at a file, as an invalid argument except where it slips. -/
theorem limit_gate {v : Value} (hnull : v ≠ .null) :
    Gated v (requireDuration v) ∧
      (∀ n, requireDuration v = .ok n ↔ v.toInt = .ok n ∧ 0 < n) ∧
      (∀ f, requireDuration v = .error (.bare f) ↔ GateSlip v f) ∧
      (∀ e, requireDuration v = .error e → LimitRefused v e) ∧
      ∀ n, requireDuration v = .ok n → LimitSent v n := by
  refine ⟨Store.gated v, Store.requireDuration_eq_ok_iff v, fun f => ⟨?_, ?_⟩,
    fun e => limitRefused hnull, fun n => limitSent hnull⟩
  · intro h
    have hgated := Store.gated v
    rw [h] at hgated
    cases hgated with
    | slip hslip => exact hslip
  · exact Store.requireDuration_of_slip

/-- A padded number is sent as it is meant, an empty list is refused as an argument, and
an infinite number as an overflow. -/
theorem number_sent_list_and_infinity_refused :
    let set (v : Value) := Store.setValue (.text "k") (.text "x") v
    let store (v : Value) := (⟨FileTree.pathOf ["scratch"], FileCache.defaultPrefix, none⟩ :
      FileCache).store (.opened (some (.text "a.txt")) (.ok (.bytes [1]))) v
    ((set (.text " 4_2 ")).run ScriptedServer.call {} {}).Sends
        [.run (.set "k" (.text "x") (some 42))] ∧
      store (.list []) = .fail (.invalidArgument (.notDuration "[]" .wrongType)) ∧
      set (.float (.infinite false)) = .fail (.bare .overflow) ∧
      store (.float (.infinite false)) = .fail (.bare .overflow) := by
  intro set store
  obtain ⟨-, hpass, -, -, hsent⟩ := limit_gate (v := .text " 4_2 ") nofun
  obtain ⟨-, -, -, hlist, -⟩ := limit_gate (v := .list []) nofun
  obtain ⟨-, -, hslip, hinfinite, -⟩ := limit_gate (v := .float (.infinite false)) nofun
  have hoverflow := hinfinite _ ((hslip _).mpr (.infinite false))
  refine ⟨?_, ?_, ?_, ?_⟩
  · exact (hsent 42 ((hpass 42).mpr ⟨rfl, by decide⟩)).set _ _ _ "k" _ (by decide)
  · exact (hlist _ rfl).store _ _ nofun
  · exact hoverflow.set "k" _ (by decide)
  · exact hoverflow.store _ _ nofun

end FileStash
