import FileStash.Proofs.Store.Duration
import FileStash.Proofs.Store.Plan
import Mathlib.Data.List.TakeWhile

/-!
What an operation sends. Nothing goes to the client before every argument has
passed, and then nothing but what the operation is about: one command with the
elements in the order in which they were handed in, or one transaction. By convention a
collection is the list of the elements that it hands out: every operation reads it off
once, and there is no value whose elements could be handed out only once.
-/

namespace FileStash

theorem Text.trim_eq_nil_iff {p : Char → Bool} {cs : List Char} :
    trim p cs = [] ↔ cs.all p = true := by
  constructor
  · intro h
    have hreverse : (cs.dropWhile p).reverse.dropWhile p = [] := by simpa [trim] using h
    have hback := List.dropWhile_eq_nil_iff.mp hreverse
    have hfront : cs.dropWhile p = [] := by
      apply List.eq_nil_iff_forall_not_mem.mpr
      intro c hc
      have hne : cs.dropWhile p ≠ [] := List.ne_nil_of_mem hc
      have hhead := List.head_dropWhile_not p hne
      rw [hback _ (List.mem_reverse.mpr (List.head_mem hne))] at hhead
      cases hhead
    simpa using List.dropWhile_eq_nil_iff.mp hfront
  · exact trim_eq_nil_of_all

theorem Run.Sends.eq_of_single {σ α : Type} {run : Run σ α} {c : Call} (h : run.Sends [c]) :
    run.calls = [c] := by
  rcases List.prefix_cons_iff.mp h.within with hnil | ⟨calls, hcalls, hrest⟩
  · exact (h.begun hnil).elim
  · rw [hcalls, List.prefix_nil.mp hrest]

namespace Store

/-- A text of which something is left between the blanks. -/
def UsableKey : Value → Prop
  | .text k => Text.trim Text.isBlank k.toList ≠ []
  | _ => False

theorem requireKey_of_usable {k : String} (h : UsableKey (.text k)) :
    requireKey (.text k) = .ok k := by
  have hblank : ¬Text.allBlank k = true := fun hall => h (Text.trim_eq_nil_iff.mpr hall)
  simp only [requireKey, hblank]
  rfl

theorem requireKey_of_unusable {v : Value} (h : ¬UsableKey v) :
    requireKey v = .error (.invalidArgument .blankKey) := by
  cases v with
  | text k => exact requireKey_of_blank (Text.trim_eq_nil_iff.mp (Classical.not_not.mp h))
  | _ => rfl

theorem UsableKey.text {v : Value} (h : UsableKey v) : ∃ k, v = .text k := by
  cases v with
  | text k => exact ⟨k, rfl⟩
  | _ => exact h.elim

theorem requireKeys_of_unusable {vs : List Value} {v : Value} (hv : v ∈ vs) (h : ¬UsableKey v) :
    requireKeys vs = .error (.invalidArgument .blankKey) := by
  induction vs with
  | nil => cases hv
  | cons w vs ih =>
      by_cases hw : UsableKey w
      · obtain ⟨k, rfl⟩ := hw.text
        have hrest : v ∈ vs := by
          rcases List.mem_cons.mp hv with rfl | hrest
          · exact absurd hw h
          · exact hrest
        simp only [requireKeys, requireKey_of_usable hw, ih hrest, Except.map]
      · simp only [requireKeys, requireKey_of_unusable hw]

theorem texts_of_usable {vs : List Value} (h : ∀ v ∈ vs, UsableKey v) :
    ∃ ks : List String, vs = ks.map .text := by
  induction vs with
  | nil => exact ⟨[], rfl⟩
  | cons v vs ih =>
      obtain ⟨k, rfl⟩ := (h v (List.mem_cons_self ..)).text
      obtain ⟨ks, rfl⟩ := ih fun w hw => h w (List.mem_cons_of_mem _ hw)
      exact ⟨k :: ks, rfl⟩

theorem requireKeys_of_usable {ks : List String} (h : ∀ v ∈ ks.map Value.text, UsableKey v) :
    requireKeys (ks.map .text) = .ok ks := by
  induction ks with
  | nil => rfl
  | cons k ks ih =>
      have hk := requireKey_of_usable (h _ (List.mem_cons_self ..))
      have hks := ih fun w hw => h w (List.mem_cons_of_mem _ hw)
      simp only [List.map_cons, requireKeys, hk, hks, Except.map]

/-- An absent limit, or one that stands for a positive number of seconds. -/
inductive LimitedTo : Value → Option Int → Prop
  | never : LimitedTo .null none
  | seconds {v : Value} {n : Int} (hn : v.toInt = .ok n) (hpos : 0 < n) : LimitedTo v (some n)

theorem LimitedTo.requireDuration {v : Value} {n : Int} (h : LimitedTo v (some n)) :
    requireDuration v = .ok n := by
  cases h with
  | seconds hn hpos => exact (requireDuration_eq_ok_iff v n).mpr ⟨hn, hpos⟩

theorem LimitedTo.optionalDuration {v : Value} {seconds : Option Int} (h : LimitedTo v seconds) :
    optionalDuration v = .ok seconds := by
  cases h with
  | never => rfl
  | seconds hn hpos =>
      exact optionalDuration_of_requireDuration (LimitedTo.seconds hn hpos).requireDuration

inductive Exchange
  | nothing (answer : Value)
  | command (c : Command)
  | transaction (key : String) (items : List (Value × Value)) (seconds : Int)

namespace Exchange

def about {α : Type} (elements : List α) (idle : Value) (c : Command) : Exchange :=
  if elements.isEmpty then .nothing idle else .command c

def writing (key : String) (items : List (Value × Value)) : Option Int → Exchange
  | none => .command (.hsetAll key items)
  | some n => .transaction key items n

end Exchange

namespace Operation

def type? : Operation → Option ValueType
  | .getValue _ type | .hashGet _ _ type => type
  | _ => none

/-- An operation that is given a key which it cannot use, or a type that no value is
read as. -/
inductive Barred (op : Operation) : Prop
  | key {v : Value} (given : v ∈ op.keys) (unusable : ¬UsableKey v)
  | type {name : String} (asked : op.type? = some (.unsupported name))

/-- Collections have elements, mappings are maps, and every limit is one. -/
def Declared : Operation → Prop
  | .setValue _ _ limit => ∃ seconds, LimitedTo limit seconds
  | .hashPutAll _ mapping limit =>
      (∃ entries, mapping = .map entries) ∧ ∃ seconds, LimitedTo limit seconds
  | .hashMultiGet _ xs | .hashDeleteKeys _ xs | .listPushAll _ xs | .deleteKeys xs =>
      ∃ vs, xs.elements = .ok vs
  | .scoredAdd _ scores => ∃ entries, scores = .map entries
  | .expire _ seconds => ∃ n, LimitedTo seconds (some n)
  | _ => True

/-- What an operation is there to send, by the elements that it has been given. -/
inductive Demands : Operation → Exchange → Prop
  | ping : Demands .ping (.command .ping)
  | setValue {k : String} (value : Value) {limit : Value} {seconds : Option Int}
      (limited : LimitedTo limit seconds) :
      Demands (.setValue (.text k) value limit) (.command (.set k value seconds))
  | getValue {k : String} (type : Option ValueType) :
      Demands (.getValue (.text k) type) (.command (.get k))
  | hashPut {k : String} (field value : Value) :
      Demands (.hashPut (.text k) field value) (.command (.hset k field value))
  | hashPutAll {k : String} (entries : List (Value × Value)) {limit : Value}
      {seconds : Option Int} (limited : LimitedTo limit seconds) :
      Demands (.hashPutAll (.text k) (.map entries) limit)
        (if entries.isEmpty then .nothing (.map entries) else .writing k entries seconds)
  | hashGet {k : String} (field : Value) (type : Option ValueType) :
      Demands (.hashGet (.text k) field type) (.command (.hget k field))
  | hashMultiGet {k : String} {fields : Value} {fs : List Value} (read : fields.elements = .ok fs) :
      Demands (.hashMultiGet (.text k) fields) (.about fs (.list []) (.hmget k fs))
  | hashGetAll {k : String} : Demands (.hashGetAll (.text k)) (.command (.hgetall k))
  | hashDeleteKey {k : String} (field : Value) :
      Demands (.hashDeleteKey (.text k) field) (.command (.hdel k [field]))
  | hashDeleteKeys {k : String} {fields : Value} {fs : List Value}
      (read : fields.elements = .ok fs) :
      Demands (.hashDeleteKeys (.text k) fields) (.about fs (.int 0) (.hdel k fs))
  | setAdd {k : String} (members : List Value) :
      Demands (.setAdd (.text k) members) (.about members (.int 0) (.sadd k members))
  | setDelete {k : String} (members : List Value) :
      Demands (.setDelete (.text k) members) (.about members (.int 0) (.srem k members))
  | setGetAll {k : String} : Demands (.setGetAll (.text k)) (.command (.smembers k))
  | scoredAdd {k : String} (entries : List (Value × Value)) :
      Demands (.scoredAdd (.text k) (.map entries)) (.about entries (.int 0) (.zadd k entries))
  | scoredDelete {k : String} (members : List Value) :
      Demands (.scoredDelete (.text k) members) (.about members (.int 0) (.zrem k members))
  | listPush {k : String} (value : Value) :
      Demands (.listPush (.text k) value) (.command (.rpush k [value]))
  | listPushAll {k : String} {values : Value} {vs : List Value} (read : values.elements = .ok vs) :
      Demands (.listPushAll (.text k) values) (.about vs (.int 0) (.rpush k vs))
  | listGet {k : String} (first last : Value) :
      Demands (.listGet (.text k) first last) (.command (.lrange k first last))
  | listGetAll {k : String} :
      Demands (.listGetAll (.text k)) (.command (.lrange k (.int 0) (.int (-1))))
  | hasKey {k : String} : Demands (.hasKey (.text k) .null) (.command (.exists k))
  | hasField {k : String} {field : Value} (given : field.isNull = false) :
      Demands (.hasKey (.text k) field) (.command (.hexists k field))
  | delete {k : String} : Demands (.delete (.text k)) (.command (.delete [k]))
  | deleteKeys {keys : Value} {ks : List String} (read : keys.elements = .ok (ks.map .text)) :
      Demands (.deleteKeys keys) (.about ks (.int 0) (.delete ks))
  | expire {k : String} {limit : Value} {n : Int} (limited : LimitedTo limit (some n)) :
      Demands (.expire (.text k) limit) (.command (.expire k n))
  | ttl {k : String} : Demands (.ttl (.text k)) (.command (.ttl k))

variable {op : Operation}

theorem keys_deleteKeys {keys : Value} {vs : List Value} (h : keys.elements = .ok vs) :
    (Operation.deleteKeys keys).keys = vs := by
  simp only [Operation.keys, h, Except.toOption, Option.getD_some]

theorem usable_of_not_barred (h : ¬op.Barred) {v : Value} (hv : v ∈ op.keys) : UsableKey v :=
  Classical.byContradiction fun hnot => h (.key hv hnot)

theorem supported_of_not_barred (h : ¬op.Barred) : requireType op.type? = .ok () := by
  cases htype : op.type? with
  | none => rfl
  | some t =>
      cases t with
      | unsupported name => exact (h (.type htype)).elim
      | _ => rfl

theorem plan_of_unusable {v : Value} (hv : v ∈ op.keys) (h : ¬UsableKey v) :
    op.plan = .error (.invalidArgument .blankKey) := by
  have hkey := requireKey_of_unusable h
  cases op with
  | ping => cases hv
  | deleteKeys keys =>
      cases helements : keys.elements with
      | error f =>
          simp only [Operation.keys, helements] at hv
          cases hv
      | ok vs =>
          rw [keys_deleteKeys helements] at hv
          simp only [plan, helements, bare, requireKeys_of_unusable hv h, bind, Except.bind]
  | _ =>
      obtain rfl := List.mem_singleton.mp hv
      simp only [plan, hkey, bind, Except.bind]

theorem Barred.plan (h : op.Barred) : ∃ fault, op.plan = .error (.invalidArgument fault) := by
  cases h with
  | key given unusable => exact ⟨_, plan_of_unusable given unusable⟩
  | @type name asked =>
      have htype : requireType op.type? = .error (.invalidArgument (.unsupportedType name)) := by
        rw [asked]
        rfl
      cases op with
      | getValue key type | hashGet key field type =>
          by_cases hkey : UsableKey key
          · obtain ⟨k, rfl⟩ := hkey.text
            refine ⟨.unsupportedType name, ?_⟩
            simp only [Operation.type?] at htype
            simp only [plan, requireKey_of_usable hkey, htype, bind, Except.bind]
          · exact ⟨_, plan_of_unusable (List.mem_singleton_self _) hkey⟩
      | _ => cases asked

inductive Planned : Checked Plan → Exchange → Prop
  | answer {v : Value} : Planned (.ok (.answer v)) (.nothing v)
  | ask {operation key : String} {c : Command} {conclude : Value → Checked Value} :
      Planned (.ok (.ask operation key c conclude)) (.command c)
  | transact {key : String} {items : List (Value × Value)} {n : Int} :
      Planned (.ok (.transact key (.map items) n)) (.transaction key items n)

theorem planned_about {α : Type} {vs : List α} {idle : Value} {operation key : String}
    {c : Command} {conclude : Value → Checked Value} (xs : List Value)
    (h : xs.isEmpty = vs.isEmpty) :
    Planned (.ok (.about xs idle (.ask operation key c conclude))) (.about vs idle c) := by
  unfold Plan.about Exchange.about
  rw [h]
  cases vs.isEmpty
  · exact .ask
  · exact .answer

theorem Demands.planned {e : Exchange} (hdemands : op.Demands e) (h : ¬op.Barred) :
    Planned op.plan e := by
  have hkey : ∀ {k : String}, .text k ∈ op.keys → requireKey (.text k) = .ok k := fun hk =>
    requireKey_of_usable (usable_of_not_barred h hk)
  have hsingle : ∀ {k : String}, op.keys = [.text k] → requireKey (.text k) = .ok k := fun hk =>
    hkey (hk ▸ List.mem_singleton_self _)
  have htype := supported_of_not_barred h
  cases hdemands with
  | ping => exact .ask
  | setValue value limited =>
      simp only [plan, hsingle rfl, limited.optionalDuration, bind, Except.bind]
      exact .ask
  | getValue type | hashGet field type =>
      simp only [type?] at htype
      simp only [plan, hsingle rfl, htype, bind, Except.bind]
      exact .ask
  | hashPutAll entries limited =>
      simp only [plan, hsingle rfl, limited.optionalDuration, Value.truth, Value.toMap, bare, bind,
        Except.bind]
      cases entries with
      | nil => exact .answer
      | cons entry entries =>
          cases limited with
          | never => exact .ask
          | seconds hn hpos => exact .transact
  | hashPut | hashGetAll | hashDeleteKey | setGetAll | listPush | listGet | listGetAll | delete
  | ttl =>
      simp only [plan, hsingle rfl, bind, Except.bind]
      exact .ask
  | hashMultiGet read | hashDeleteKeys read | listPushAll read =>
      simp only [plan, hsingle rfl, read, bare, bind, Except.bind]
      exact planned_about _ rfl
  | setAdd | setDelete | scoredDelete =>
      simp only [plan, hsingle rfl, bind, Except.bind]
      exact planned_about _ rfl
  | scoredAdd entries =>
      simp only [plan, hsingle rfl, Value.truth, Value.toMap, bare, bind, Except.bind]
      cases entries with
      | nil => exact .answer
      | cons entry entries => exact .ask
  | hasKey =>
      simp only [plan, hsingle rfl, bind, Except.bind]
      exact .ask
  | hasField given =>
      simp only [plan, hsingle rfl, given, bind, Except.bind]
      exact .ask
  | @deleteKeys keys ks read =>
      have husable : ∀ v ∈ ks.map Value.text, UsableKey v := fun v hv =>
        usable_of_not_barred h (by rwa [keys_deleteKeys read])
      simp only [plan, read, requireKeys_of_usable husable, bare, bind, Except.bind]
      cases ks with
      | nil => exact .answer
      | cons k ks => exact .ask
  | expire limited =>
      simp only [plan, hsingle rfl, limited.requireDuration, bind, Except.bind]
      exact .ask

theorem Declared.demands (hop : op.Declared) (h : ¬op.Barred) : ∃ e, op.Demands e := by
  have htext : ∀ {key : Value}, op.keys = [key] → ∃ k, key = .text k := fun hkey =>
    (usable_of_not_barred h (hkey ▸ List.mem_singleton_self _)).text
  cases op with
  | ping => exact ⟨_, .ping⟩
  | deleteKeys keys =>
      obtain ⟨vs, hvs⟩ := hop
      have husable : ∀ v ∈ vs, UsableKey v := fun v hv =>
        usable_of_not_barred h (by rwa [keys_deleteKeys hvs])
      obtain ⟨ks, rfl⟩ := texts_of_usable husable
      exact ⟨_, .deleteKeys hvs⟩
  | setValue key value limit =>
      obtain ⟨k, rfl⟩ := htext rfl
      obtain ⟨seconds, hlimit⟩ := hop
      exact ⟨_, .setValue value hlimit⟩
  | hashPutAll key mapping limit =>
      obtain ⟨k, rfl⟩ := htext rfl
      obtain ⟨⟨entries, rfl⟩, seconds, hlimit⟩ := hop
      exact ⟨_, .hashPutAll entries hlimit⟩
  | hashMultiGet key fields =>
      obtain ⟨k, rfl⟩ := htext rfl
      obtain ⟨fs, hfs⟩ := hop
      exact ⟨_, .hashMultiGet hfs⟩
  | hashDeleteKeys key fields =>
      obtain ⟨k, rfl⟩ := htext rfl
      obtain ⟨fs, hfs⟩ := hop
      exact ⟨_, .hashDeleteKeys hfs⟩
  | listPushAll key values =>
      obtain ⟨k, rfl⟩ := htext rfl
      obtain ⟨vs, hvs⟩ := hop
      exact ⟨_, .listPushAll hvs⟩
  | scoredAdd key scores =>
      obtain ⟨k, rfl⟩ := htext rfl
      obtain ⟨entries, rfl⟩ := hop
      exact ⟨_, .scoredAdd entries⟩
  | expire key seconds =>
      obtain ⟨k, rfl⟩ := htext rfl
      obtain ⟨n, hlimit⟩ := hop
      exact ⟨_, .expire hlimit⟩
  | hasKey key field =>
      obtain ⟨k, rfl⟩ := htext rfl
      cases hfield : field.isNull with
      | false => exact ⟨_, .hasField hfield⟩
      | true =>
          cases field with
          | null => exact ⟨_, .hasKey⟩
          | _ => cases hfield
  | _ =>
      obtain ⟨k, rfl⟩ := htext rfl
      exact ⟨_, by constructor⟩

end Operation

section Run

variable {σ : Type} {client : Client σ}

/-- Transactions can be opened, and commands be put into them. -/
structure Transacts (client : Client σ) (s : σ) : Prop where
  opens : (client s .openTransaction).1 = .ok .transaction
  queues : ∀ s c, ∃ r, (client s (.queue c)).1 = .ok r

theorem calls_of_transacts {s : σ} (h : Transacts client s) (key : String)
    (items : List (Value × Value)) (n : Int) (t : FileTree) :
    ((putWithin key (.map items) n).run client s t).calls = transactionCalls key items n := by
  have hitems : (Value.map items).toMap = .ok items := rfl
  have hfollows : (putWithin key (.map items) n).Follows client (transactionCalls key items n) :=
    follows_putWithin hitems n
  obtain ⟨r, hwrite⟩ := h.queues (client s .openTransaction).2 (.hsetAll key items)
  obtain ⟨r', hlimit⟩ := h.queues
    (client (client s .openTransaction).2 (.queue (.hsetAll key items))).2 (.expire key n)
  apply (hfollows s t).1.eq_of_length_le
  -- Nothing can fail before the commit, and there are no calls behind it.
  simp only [putWithin, openTransaction, enqueue, calling, Program.bind_eq_andThen,
    Program.andThen, hitems, Program.ofConverted, Program.run, h.opens, hwrite, hlimit,
    transactionCalls, List.length_cons, List.length_nil]
  omega

namespace Exchange

/-- A run that has made the exchange and no other. A transaction is broken off where
the client lets it be neither opened nor filled. -/
def MadeBy (client : Client σ) (s : σ) (run : Run σ Value) : Exchange → Prop
  | .nothing answer => run.result = .ok answer ∧ run.calls = [] ∧ run.state = s
  | .command c => run.calls = [.run c]
  | .transaction key items n =>
      run.Sends (transactionCalls key items n) ∧
        (Transacts client s → run.calls = transactionCalls key items n)

end Exchange

theorem madeBy_of_planned {p : Checked Plan} {e : Exchange} (h : Operation.Planned p e) (s : σ)
    (t : FileTree) :
    e.MadeBy client s (((Program.ofExcept p).andThen Plan.program).run client s t) := by
  cases h with
  | answer => exact ⟨rfl, rfl, rfl⟩
  | @ask operation key c conclude =>
      have hfollows : (Plan.program (.ask operation key c conclude)).Follows client [.run c] :=
        (follows_ask operation key c).andThen_silent fun v => Program.within_ofExcept _
      exact (hfollows.sends ((begins_ask operation key c).andThen _) s t).eq_of_single
  | @transact key items n =>
      have hfollows : (Plan.program (.transact key (.map items) n)).Follows client
          (transactionCalls key items n) :=
        (follows_putWithin rfl n).andThen_silent fun _ => trivial
      refine ⟨hfollows.sends ((begins_putWithin key _ n).andThen _) s t, ?_⟩
      intro htransacts
      apply (hfollows s t).1.eq_of_length_le
      rw [← calls_of_transacts htransacts key items n t]
      exact (Program.calls_prefix_andThen _ _ s t).length_le

/-- An operation that is given an unusable key or an unsupported type is refused as
such, and the client is not called. Any other sends what it is there to send: nothing
where it has no elements, and otherwise one command or one transaction. -/
theorem refused_unsent_or_one_exchange (op : Operation) (client : Client σ) (s : σ)
    (t : FileTree) :
    let run := op.program.run client s t
    (op.Barred → (∃ fault, run.result = .error (.invalidArgument fault)) ∧
        run.calls = [] ∧ run.state = s) ∧
      (op.Declared → ¬op.Barred → ∃ e, op.Demands e ∧ e.MadeBy client s run) := by
  intro run
  constructor
  · intro hbarred
    obtain ⟨fault, hplan⟩ := hbarred.plan
    have hrun : run = (Program.fail (.invalidArgument fault)).run client s t := by
      simp only [run, op.program_eq, hplan]
      rfl
    rw [hrun]
    exact ⟨⟨fault, rfl⟩, rfl, rfl⟩
  · intro hdeclared hbarred
    obtain ⟨e, hdemands⟩ := hdeclared.demands hbarred
    refine ⟨e, hdemands, ?_⟩
    simp only [run, op.program_eq]
    exact madeBy_of_planned (hdemands.planned hbarred) s t

/-- A blank key among several, members in their order, no items, and a limited
hash. -/
theorem blank_key_unsent_and_members_sent_in_order :
    let run (op : Operation) := op.program.run ScriptedServer.call { server.now := 7 } {}
    let entries := [(Value.text "f", Value.int 1)]
    (run (.deleteKeys (.list [k, .text " \t"]))).calls = [] ∧
      (run (.setAdd (.text "k") [.int 3, .int 1, .int 3])).calls =
        [.run (.sadd "k" [.int 3, .int 1, .int 3])] ∧
      (run (.listPushAll (.text "k") (.list []))).result = .ok (.int 0) ∧
      (run (.hashPutAll (.text "k") (.map entries) (.text "60"))).calls =
        transactionCalls "k" entries 60 := by
  intro run entries
  have husable : UsableKey (.text "k") := by
    intro h
    cases h
  have hfree : ∀ {op : Operation}, op.keys = [.text "k"] → op.type? = none → ¬op.Barred := by
    rintro op hkeys htype (⟨given, unusable⟩ | asked)
    · rw [hkeys, List.mem_singleton] at given
      exact unusable (given ▸ husable)
    · rw [htype] at asked
      cases asked
  have hall := fun op =>
    refused_unsent_or_one_exchange op ScriptedServer.call { server.now := 7 } {}
  refine ⟨?_, ?_, ?_, ?_⟩
  · have hblank : ¬UsableKey (.text " \t") := fun h => h (by decide)
    exact ((hall _).1 (.key (List.mem_cons_of_mem _ (List.mem_singleton_self _)) hblank)).2.1
  · obtain ⟨e, hdemands, hmade⟩ :=
      (hall (.setAdd (.text "k") [.int 3, .int 1, .int 3])).2 trivial (hfree rfl rfl)
    cases hdemands
    exact hmade
  · obtain ⟨e, hdemands, hmade⟩ :=
      (hall (.listPushAll (.text "k") (.list []))).2 ⟨[], rfl⟩ (hfree rfl rfl)
    cases hdemands with
    | listPushAll read =>
        cases read
        exact hmade.1
  · have hlimit : LimitedTo (.text "60") (some 60) := .seconds rfl (by decide)
    obtain ⟨e, hdemands, hmade⟩ :=
      (hall (.hashPutAll (.text "k") (.map entries) (.text "60"))).2
        ⟨⟨entries, rfl⟩, some 60, hlimit⟩ (hfree rfl rfl)
    cases hdemands with
    | hashPutAll entries limited =>
        cases limited with
        | seconds hn hpos =>
            cases hn
            exact hmade.2 ⟨rfl, fun _ _ => ⟨_, rfl⟩⟩

end Run

end Store

end FileStash
