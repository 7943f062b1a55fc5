import FileStash.Proofs.Program.Effects
import FileStash.Store.Collection
import FileStash.Store.Hash
import FileStash.Store.Scalar

namespace FileStash.Store

inductive Operation
  | ping
  | setValue (key value limit : Value)
  | getValue (key : Value) (type : Option ValueType)
  | hashPut (key field value : Value)
  | hashPutAll (key mapping limit : Value)
  | hashGet (key field : Value) (type : Option ValueType)
  | hashMultiGet (key fields : Value)
  | hashGetAll (key : Value)
  | hashDeleteKey (key field : Value)
  | hashDeleteKeys (key fields : Value)
  | setAdd (key : Value) (members : List Value)
  | setDelete (key : Value) (members : List Value)
  | setGetAll (key : Value)
  | scoredAdd (key scores : Value)
  | scoredDelete (key : Value) (members : List Value)
  | listPush (key value : Value)
  | listPushAll (key values : Value)
  | listGet (key first last : Value)
  | listGetAll (key : Value)
  | hasKey (key field : Value)
  | delete (key : Value)
  | deleteKeys (keys : Value)
  | expire (key seconds : Value)
  | ttl (key : Value)

/-- A program whose answer is shown as a value. -/
def answering {α : Type} (show? : α → Value) (p : Program α) : Program Value :=
  p.andThen fun a => .done (show? a)

namespace Operation

def program : Operation → Program Value
  | .ping => answering .bool Store.ping
  | .setValue key value limit => Store.setValue key value limit
  | .getValue key type => Store.getValue key type
  | .hashPut key field value => Store.hashPut key field value
  | .hashPutAll key mapping limit => Store.hashPutAll key mapping limit
  | .hashGet key field type => Store.hashGet key field type
  | .hashMultiGet key fields => answering .list (Store.hashMultiGet key fields)
  | .hashGetAll key => answering .map (Store.hashGetAll key)
  | .hashDeleteKey key field => answering .int (Store.hashDeleteKey key field)
  | .hashDeleteKeys key fields => answering .int (Store.hashDeleteKeys key fields)
  | .setAdd key members => answering .int (Store.setAdd key members)
  | .setDelete key members => answering .int (Store.setDelete key members)
  | .setGetAll key => answering .set (Store.setGetAll key)
  | .scoredAdd key scores => answering .int (Store.scoredAdd key scores)
  | .scoredDelete key members => answering .int (Store.scoredDelete key members)
  | .listPush key value => answering .int (Store.listPush key value)
  | .listPushAll key values => answering .int (Store.listPushAll key values)
  | .listGet key first last => answering .list (Store.listGet key first last)
  | .listGetAll key => answering .list (Store.listGetAll key)
  | .hasKey key field => answering .bool (Store.hasKey key field)
  | .delete key => answering .bool (Store.delete key)
  | .deleteKeys keys => answering .int (Store.deleteKeys keys)
  | .expire key seconds => answering .bool (Store.expire key seconds)
  | .ttl key => answering .int (Store.ttl key)

/-- The values that an operation is given as keys. -/
def keys : Operation → List Value
  | .ping => []
  | .setValue key .. | .getValue key _ | .hashPut key .. | .hashPutAll key .. | .hashGet key ..
  | .hashMultiGet key _ | .hashGetAll key | .hashDeleteKey key _ | .hashDeleteKeys key _
  | .setAdd key _ | .setDelete key _ | .setGetAll key | .scoredAdd key _ | .scoredDelete key _
  | .listPush key _ | .listPushAll key _ | .listGet key .. | .listGetAll key | .hasKey key _
  | .delete key | .expire key _ | .ttl key => [key]
  | .deleteKeys keys => keys.elements.toOption.getD []

def Names (key : String) (op : Operation) : Prop :=
  .text key ∈ op.keys

def Reads : Operation → Prop
  | .ping | .getValue .. | .hashGet .. | .hashMultiGet .. | .hashGetAll _ | .setGetAll _
  | .listGet .. | .listGetAll _ | .hasKey .. | .ttl _ => True
  | _ => False

/-- A call that an operation may make: about its own keys, and nothing but a look
where the operation only looks. -/
structure Sends (op : Operation) (c : Call) : Prop where
  own : ∀ k ∈ c.keys, op.Names k
  looks : op.Reads → c.Reads

section Sends

variable {op : Operation} {key : Value} {c : Command} {k : String}

theorem names_of_keys (hop : op.keys = [key]) (hk : key = .text k) (hc : c.keys = [k]) :
    ∀ k' ∈ (Call.run c).keys, op.Names k' := by
  intro k' hk'
  simp only [Call.keys, hc, List.mem_singleton] at hk'
  simp [Names, hop, hk, hk']

theorem Sends.look (hop : op.keys = [key]) (hk : key = .text k) (hc : c.keys = [k])
    (h : c.Reads) : op.Sends (.run c) :=
  ⟨names_of_keys hop hk hc, fun _ => ⟨c, rfl, h⟩⟩

theorem Sends.change (hop : op.keys = [key]) (hk : key = .text k) (hc : c.keys = [k])
    (h : ¬op.Reads) : op.Sends (.run c) :=
  ⟨names_of_keys hop hk hc, fun hlooks => (h hlooks).elim⟩

end Sends

end Operation

section Within

variable {P : Call → Prop} {Q : FileTree → Prop} {α β : Type}

theorem within_meaning (operation key : String) (f : Failure) :
    (meaning operation key f : Program α).Within P Q := by
  unfold meaning
  split
  · split
    · split <;> trivial
    all_goals trivial
  · trivial

theorem within_calling {operation key : String} {c : Call} (h : P c) :
    (calling operation key c).Within P Q := by
  refine ⟨h, fun r => ?_⟩
  cases r with
  | ok reply => trivial
  | error f => exact within_meaning operation key f

theorem within_ask {operation key : String} {c : Command} (h : P (.run c)) :
    (ask operation key c).Within P Q := by
  refine (within_calling h).bind fun reply => ?_
  cases reply <;> trivial

theorem within_count (v : Value) : (count v).Within P Q := by
  unfold count
  split
  · trivial
  · exact Program.within_ofConverted _

theorem within_countAsk {operation key : String} {c : Command} (h : P (.run c)) :
    (ask operation key c >>= count).Within P Q :=
  (within_ask h).bind within_count

theorem within_answering {show? : α → Value} {p : Program α} (h : p.Within P Q) :
    (answering show? p).Within P Q :=
  h.andThen fun _ => trivial

theorem within_requireKey {key : Value} {f : String → Program β}
    (h : ∀ k, key = .text k → (f k).Within P Q) :
    (checked (requireKey key) >>= f).Within P Q :=
  Program.Within.ofExcept_bind fun k hk => h k ((requireKey_eq_ok_iff key k).mp hk).1

theorem within_withElements {operation : String} {key : Value}
    {elements : List Value} {command : String → List Value → Command}
    (h : ∀ k, key = .text k → P (.run (command k elements))) :
    (withElements operation key elements command).Within P Q := by
  refine within_requireKey fun k hk => ?_
  split
  · trivial
  · exact within_countAsk (h k hk)

theorem within_putWithin {key : String} {mapping : Value} {seconds : Int}
    (hopen : P .openTransaction) (hqueue : ∀ c, P (.queue c))
    (hcommit : ∀ entries, P (.commit [.hsetAll key entries, .expire key seconds])) :
    (putWithin key mapping seconds).Within P Q := by
  have henqueue : ∀ c, (enqueue "HSET+EXPIRE" key c).Within P Q := fun c =>
    (within_calling (hqueue c)).bind fun _ => trivial
  refine Program.Within.bind ?_ fun _ => Program.Within.ofConverted_bind fun entries _ => ?_
  · refine (within_calling hopen).bind fun reply => ?_
    cases reply <;> trivial
  · refine (henqueue _).bind fun _ => (henqueue _).bind fun _ => ?_
    exact (within_calling (hcommit entries)).bind fun _ => trivial

end Within

namespace Operation

theorem mem_of_requireKeys {vs : List Value} {ks : List String}
    (h : requireKeys vs = .ok ks) :
    ∀ k ∈ ks, Value.text k ∈ vs := by
  induction vs generalizing ks with
  | nil =>
      cases h
      simp
  | cons v vs ih =>
      unfold requireKeys at h
      cases hv : requireKey v with
      | error e => simp [hv] at h
      | ok k =>
          cases hvs : requireKeys vs with
          | error e => simp [hv, hvs, Except.map] at h
          | ok rest =>
              simp only [hv, hvs, Except.map, Except.ok.injEq] at h
              subst h
              intro k' hk'
              rcases List.mem_cons.mp hk' with rfl | hk'
              · have hvk := ((requireKey_eq_ok_iff v k').mp hv).1
                simp [hvk]
              · exact List.mem_cons_of_mem v (ih hvs k' hk')

theorem asks_putAll {key mapping limit : Value} {P : Call → Prop}
    (hrun : ∀ k entries, key = .text k → P (.run (.hsetAll k entries)))
    (hopen : P .openTransaction) (hqueue : ∀ c, P (.queue c))
    (hcommit : ∀ k entries n, key = .text k →
      P (.commit [.hsetAll k entries, .expire k n])) :
    (Store.hashPutAll key mapping limit).Asks P := by
  refine within_requireKey fun k hk => Program.Within.ofExcept_bind fun seconds _ => ?_
  split
  · trivial
  · cases seconds with
    | none =>
        refine Program.Within.ofConverted_bind fun entries _ => ?_
        exact (within_ask (hrun k entries hk)).bind fun _ => trivial
    | some n =>
        refine (within_putWithin hopen hqueue fun entries => ?_).bind fun _ => trivial
        exact hcommit k entries n hk

theorem asks_program (op : Operation) : op.program.Asks op.Sends := by
  -- The operations differ in their checks in front of the call, and in what they
  -- make of its answer.
  cases op with
  | ping =>
      refine within_answering ((within_ask ?_).bind fun _ => trivial)
      exact ⟨by simp [Call.keys, Command.keys], fun _ => ⟨_, rfl, trivial⟩⟩
  | setValue key value limit =>
      refine within_requireKey fun k hk => Program.Within.ofExcept_bind fun _ _ => ?_
      exact (within_ask (.change rfl hk rfl id)).bind fun _ => trivial
  | getValue key type | hashGet key field type =>
      refine within_requireKey fun k hk => Program.Within.ofExcept_bind fun _ _ => ?_
      exact (within_ask (.look rfl hk rfl trivial)).bind fun _ => Program.within_ofExcept _
  | hashPut key field value =>
      refine within_requireKey fun k hk => ?_
      exact (within_ask (.change rfl hk rfl id)).bind fun _ => trivial
  | hashPutAll key mapping limit =>
      have hqueue : ∀ c : Call, c.keys = [] → (hashPutAll key mapping limit).Sends c :=
        fun c hc => ⟨by simp [hc], False.elim⟩
      refine asks_putAll (fun k entries hk => .change rfl hk rfl id) (hqueue _ rfl)
        (fun _ => hqueue _ rfl) fun k entries n hk => ⟨?_, False.elim⟩
      simp [Call.keys, Command.keys, Names, keys, hk]
  | hashMultiGet key fields =>
      refine within_answering (within_requireKey fun k hk => ?_)
      refine Program.Within.ofConverted_bind fun fs _ => ?_
      split
      · trivial
      · refine (within_ask (.look rfl hk rfl trivial)).bind fun v => ?_
        split
        · trivial
        · exact Program.within_ofConverted _
  | scoredAdd key scores =>
      refine within_answering (within_requireKey fun k hk => ?_)
      split
      · trivial
      · exact Program.Within.ofConverted_bind fun entries _ =>
          within_countAsk (.change rfl hk rfl id)
  | setAdd key members | setDelete key members | scoredDelete key members =>
      exact within_answering (within_withElements fun k hk => .change rfl hk rfl id)
  | hashDeleteKey key value | listPush key value =>
      refine within_answering (within_requireKey fun k hk => ?_)
      exact within_countAsk (.change rfl hk rfl id)
  | hashDeleteKeys key values | listPushAll key values =>
      refine within_answering (within_requireKey fun k hk => ?_)
      refine Program.Within.ofConverted_bind fun vs _ => ?_
      split
      · trivial
      · exact within_countAsk (.change rfl hk rfl id)
  | hashGetAll key | setGetAll key | listGet key first last | listGetAll key =>
      refine within_answering (within_requireKey fun k hk => ?_)
      refine (within_ask (.look rfl hk rfl trivial)).bind fun v => ?_
      split
      · exact Program.within_ofConverted _
      · trivial
  | hasKey key field =>
      refine within_answering (within_requireKey fun k hk => ?_)
      split
      · refine (within_ask (.look rfl hk rfl trivial)).bind fun v => ?_
        exact (within_count v).bind fun _ => trivial
      · exact (within_ask (.look rfl hk rfl trivial)).bind fun _ => trivial
  | delete key =>
      refine within_answering (within_requireKey fun k hk => ?_)
      refine (within_ask (.change rfl hk rfl id)).bind fun v => ?_
      exact (within_count v).bind fun _ => trivial
  | deleteKeys several =>
      refine within_answering (Program.Within.ofConverted_bind fun vs hvs => ?_)
      refine Program.Within.ofExcept_bind fun ks hks => ?_
      cases ks with
      | nil => trivial
      | cons k rest =>
          refine within_countAsk ⟨fun k' hk' => ?_, False.elim⟩
          have hmem := mem_of_requireKeys hks k' hk'
          simpa [Names, keys, hvs, Except.toOption] using hmem
  | expire key seconds =>
      refine within_answering (within_requireKey fun k hk => ?_)
      refine Program.Within.ofExcept_bind fun _ _ => ?_
      exact (within_ask (.change rfl hk rfl id)).bind fun _ => trivial
  | ttl key =>
      refine within_answering (within_requireKey fun k hk => ?_)
      refine (within_ask (.look rfl hk rfl trivial)).bind fun v => ?_
      split
      · trivial
      · exact Program.within_ofConverted _

end Operation

end FileStash.Store
