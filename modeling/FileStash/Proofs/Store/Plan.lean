import FileStash.Proofs.Store.Operation

/-!
What an operation comes to once its arguments have passed: an answer without a
question, one question to the server with what is made of the reply, or one
transaction. Whatever an operation does with its client can be read off here.
-/

namespace FileStash

namespace Program

variable {α β : Type}

theorem ofExcept_ok (a : α) : ofExcept (.ok a) = done a := rfl

theorem ofExcept_bind (c : Except StoreError α) (f : α → Except StoreError β) :
    ofExcept (c >>= f) = (ofExcept c).andThen fun a => ofExcept (f a) := by
  cases c <;> rfl

theorem ofExcept_map (c : Except StoreError α) (f : α → β) :
    ofExcept (c.map f) = (ofExcept c).andThen fun a => done (f a) := by
  cases c <;> rfl

theorem ofConverted_eq (c : Except Failure α) :
    ofConverted c = ofExcept (Store.bare c) := by
  cases c <;> rfl

end Program

namespace Store

inductive Plan
  | answer (v : Value)
  | ask (operation key : String) (c : Command) (conclude : Value → Checked Value)
  | transact (key : String) (mapping : Value) (seconds : Int)

namespace Plan

def program : Plan → Program Value
  | .answer v => .done v
  | .ask operation key c conclude => do
      checked (conclude (← Store.ask operation key c))
  | .transact key mapping n => do
      putWithin key mapping n
      .done mapping

/-- A question about elements; without elements nothing is asked. -/
def about (elements : List Value) (idle : Value) (p : Plan) : Plan :=
  if elements.isEmpty then .answer idle else p

end Plan

def counted (v : Value) : Checked Int :=
  if v.isNull then .ok 0 else bare v.toInt

theorem count_eq (v : Value) : count v = Program.ofExcept (counted v) := by
  unfold count counted
  split
  · rfl
  · exact Program.ofConverted_eq _

def asCount (v : Value) : Checked Value :=
  (counted v).map .int

def someCounted (v : Value) : Checked Value :=
  ((counted v).map fun n => decide (0 < n)).map .bool

/-- The elements of a reply; an indefinite reply has none. -/
def collected {α : Type} (v : Value) (c : Except Failure (List α)) : Checked (List α) :=
  if v.truth then bare c else .ok []

theorem collected_eq {α : Type} (v : Value) (c : Except Failure (List α)) :
    (if v.truth then Program.ofConverted c else .done []) = Program.ofExcept (collected v c) := by
  unfold collected
  split
  · exact Program.ofConverted_eq c
  · rfl

namespace Operation

def plan : Operation → Checked Plan
  | .ping => .ok (.ask "PING" "-" .ping fun v => .ok (.bool (flag v)))
  | .setValue key value limit => do
      let k ← requireKey key
      let seconds ← optionalDuration limit
      .ok (.ask "SET" k (.set k value seconds) fun _ => .ok value)
  | .getValue key type => do
      let k ← requireKey key
      requireType type
      .ok (.ask "GET" k (.get k) fun v => coerce v type)
  | .hashPut key field value => do
      let k ← requireKey key
      .ok (.ask "HSET" k (.hset k field value) fun _ => .ok value)
  | .hashPutAll key mapping limit => do
      let k ← requireKey key
      let seconds ← optionalDuration limit
      if !mapping.truth then .ok (.answer mapping)
      else
        match seconds with
        | none => do
            let entries ← bare mapping.toMap
            .ok (.ask "HSET" k (.hsetAll k entries) fun _ => .ok mapping)
        | some n => .ok (.transact k mapping n)
  | .hashGet key field type => do
      let k ← requireKey key
      requireType type
      .ok (.ask "HGET" k (.hget k field) fun v => coerce v type)
  | .hashMultiGet key fields => do
      let k ← requireKey key
      let fs ← bare fields.elements
      .ok (.about fs (.list []) (.ask "HMGET" k (.hmget k fs) fun v =>
        (if v.isNull then .ok (List.replicate fs.length .null) else bare v.elements).map .list))
  | .hashGetAll key => do
      let k ← requireKey key
      .ok (.ask "HGETALL" k (.hgetall k) fun v => (collected v v.toMap).map .map)
  | .hashDeleteKey key field => do
      let k ← requireKey key
      .ok (.ask "HDEL" k (.hdel k [field]) asCount)
  | .hashDeleteKeys key fields => do
      let k ← requireKey key
      let fs ← bare fields.elements
      .ok (.about fs (.int 0) (.ask "HDEL" k (.hdel k fs) asCount))
  | .setAdd key members => do
      let k ← requireKey key
      .ok (.about members (.int 0) (.ask "SADD" k (.sadd k members) asCount))
  | .setDelete key members => do
      let k ← requireKey key
      .ok (.about members (.int 0) (.ask "SREM" k (.srem k members) asCount))
  | .setGetAll key => do
      let k ← requireKey key
      .ok (.ask "SMEMBERS" k (.smembers k) fun v => (collected v v.toSet).map .set)
  | .scoredAdd key scores => do
      let k ← requireKey key
      if !scores.truth then .ok (.answer (.int 0))
      else do
        let entries ← bare scores.toMap
        .ok (.ask "ZADD" k (.zadd k entries) asCount)
  | .scoredDelete key members => do
      let k ← requireKey key
      .ok (.about members (.int 0) (.ask "ZREM" k (.zrem k members) asCount))
  | .listPush key value => do
      let k ← requireKey key
      .ok (.ask "RPUSH" k (.rpush k [value]) asCount)
  | .listPushAll key values => do
      let k ← requireKey key
      let vs ← bare values.elements
      .ok (.about vs (.int 0) (.ask "RPUSH" k (.rpush k vs) asCount))
  | .listGet key first last => do
      let k ← requireKey key
      .ok (.ask "LRANGE" k (.lrange k first last) fun v => (collected v v.elements).map .list)
  | .listGetAll key => do
      let k ← requireKey key
      .ok (.ask "LRANGE" k (.lrange k (.int 0) (.int (-1))) fun v =>
        (collected v v.elements).map .list)
  | .hasKey key field => do
      let k ← requireKey key
      if field.isNull then .ok (.ask "EXISTS" k (.exists k) someCounted)
      else .ok (.ask "HEXISTS" k (.hexists k field) fun v => .ok (.bool (flag v)))
  | .delete key => do
      let k ← requireKey key
      .ok (.ask "DEL" k (.delete [k]) someCounted)
  | .deleteKeys keys => do
      let vs ← bare keys.elements
      let ks ← requireKeys vs
      match ks with
      | [] => .ok (.answer (.int 0))
      | k :: _ => .ok (.ask "DEL" k (.delete ks) asCount)
  | .expire key seconds => do
      let k ← requireKey key
      let n ← requireDuration seconds
      .ok (.ask "EXPIRE" k (.expire k n) fun v => .ok (.bool (flag v)))
  | .ttl key => do
      let k ← requireKey key
      .ok (.ask "TTL" k (.ttl k) fun v =>
        (if v.isNull then .ok (-2) else bare v.toInt).map .int)

section Normal

variable {α β : Type} {operation key : String} {c : Command}

open Program (ofExcept)

theorem checked_eq (c : Checked β) (f : β → Program Value) (plan : β → Checked Plan)
    (h : ∀ b, f b = (ofExcept (plan b)).andThen Plan.program) :
    (ofExcept c).andThen f = (ofExcept (c >>= plan)).andThen Plan.program := by
  cases c with
  | error e => rfl
  | ok b => exact h b

theorem answering_checked (show? : α → Value) (c : Checked β) (f : β → Program α)
    (plan : β → Checked Plan)
    (h : ∀ b, answering show? (f b) = (ofExcept (plan b)).andThen Plan.program) :
    answering show? ((ofExcept c).andThen f) =
      (ofExcept (c >>= plan)).andThen Plan.program := by
  rw [answering, Program.andThen_assoc]
  exact checked_eq c _ plan h

theorem ask_eq (conclude : Value → Checked Value) :
    (ask operation key c).andThen (fun v => ofExcept (conclude v)) =
      Plan.program (.ask operation key c conclude) := rfl

theorem answering_ask (show? : α → Value) {f : Value → Program α}
    (conclude : Value → Checked α) (h : ∀ v, f v = ofExcept (conclude v)) :
    answering show? ((ask operation key c).andThen f) =
      Plan.program (.ask operation key c fun v => (conclude v).map show?) := by
  obtain rfl : f = fun v => ofExcept (conclude v) := funext h
  simp only [answering, Plan.program, checked, Program.bind_eq_andThen, Program.andThen_assoc,
    Program.ofExcept_map]

theorem answering_count :
    answering .int ((ask operation key c).andThen count) =
      Plan.program (.ask operation key c asCount) :=
  answering_ask .int counted count_eq

theorem answering_someCounted :
    answering .bool ((ask operation key c).andThen fun v => (count v).andThen fun n =>
        .done (decide (0 < n))) =
      Plan.program (.ask operation key c someCounted) := by
  refine answering_ask .bool (fun v => (counted v).map fun n => decide (0 < n)) fun v => ?_
  rw [count_eq, Program.ofExcept_map]

theorem answering_about (elements : List Value) (show? : α → Value) (idle : α) {p : Program α}
    {plan : Plan} (h : answering show? p = plan.program) :
    answering show? (if elements.isEmpty then .done idle else p) =
      (ofExcept (.ok (Plan.about elements (show? idle) plan))).andThen Plan.program := by
  simp only [Program.ofExcept_ok, Program.andThen_done, Plan.about]
  split
  · rfl
  · exact h

theorem answering_withElements (operation : String) (key : Value) (elements : List Value)
    (command : String → List Value → Command) :
    answering .int (withElements operation key elements command) =
      (ofExcept (do
        let k ← requireKey key
        .ok (Plan.about elements (.int 0)
          (.ask operation k (command k elements) asCount)))).andThen Plan.program :=
  answering_checked _ _ _ _ fun _ => answering_about _ _ _ answering_count

end Normal

section Checked

variable {k v limit : Value} {key : String}

/-! The plans of single values and fields, with their arguments checked. -/

theorem plan_setValue (hk : requireKey k = .ok key) :
    (setValue k v limit).plan =
      (optionalDuration limit).map fun seconds =>
        .ask "SET" key (.set key v seconds) fun _ => .ok v := by
  simp only [plan, hk, bind, Except.bind]
  cases optionalDuration limit <;> rfl

theorem plan_getValue (hk : requireKey k = .ok key) {t : Option ValueType}
    (ht : requireType t = .ok ()) :
    (getValue k t).plan = .ok (.ask "GET" key (.get key) fun v => coerce v t) := by
  simp only [plan, hk, ht, bind, Except.bind]

theorem plan_hashPut (hk : requireKey k = .ok key) (field : Value) :
    (hashPut k field v).plan = .ok (.ask "HSET" key (.hset key field v) fun _ => .ok v) := by
  simp only [plan, hk, bind, Except.bind]

theorem plan_hashPutAll (hk : requireKey k = .ok key) (item : Value × Value) :
    (hashPutAll k (.map [item]) limit).plan =
      (optionalDuration limit).map fun
        | none => .ask "HSET" key (.hsetAll key [item]) fun _ => .ok (.map [item])
        | some n => .transact key (.map [item]) n := by
  simp only [plan, hk, bind, Except.bind]
  cases optionalDuration limit with
  | error e => rfl
  | ok seconds => cases seconds <;> rfl

theorem plan_hashGet (hk : requireKey k = .ok key) (field : Value) {t : Option ValueType}
    (ht : requireType t = .ok ()) :
    (hashGet k field t).plan = .ok (.ask "HGET" key (.hget key field) fun v => coerce v t) := by
  simp only [plan, hk, ht, bind, Except.bind]

theorem plan_hashGetAll (hk : requireKey k = .ok key) :
    (hashGetAll k).plan =
      .ok (.ask "HGETALL" key (.hgetall key) fun v => (collected v v.toMap).map .map) := by
  simp only [plan, hk, bind, Except.bind]

theorem plan_hasField (hk : requireKey k = .ok key) {field : Value}
    (hfield : field.isNull = false) :
    (hasKey k field).plan =
      .ok (.ask "HEXISTS" key (.hexists key field) fun v => .ok (.bool (flag v))) := by
  simp only [plan, hk, hfield, bind, Except.bind, Bool.false_eq_true, if_false]

theorem plan_hashMultiGet (hk : requireKey k = .ok key) {fields : Value} {fs : List Value}
    (hfs : fields.elements = .ok fs) :
    (hashMultiGet k fields).plan =
      .ok (.about fs (.list []) (.ask "HMGET" key (.hmget key fs) fun v =>
        (if v.isNull then .ok (List.replicate fs.length .null) else bare v.elements).map .list)) := by
  simp only [plan, hk, hfs, bare, bind, Except.bind]

/-! The plans of collections. -/

theorem plan_hashPutAll_lasting (hk : requireKey k = .ok key) (items : List (Value × Value)) :
    (hashPutAll k (.map items) .null).plan =
      .ok (if items.isEmpty then .answer (.map [])
        else .ask "HSET" key (.hsetAll key items) fun _ => .ok (.map items)) := by
  simp only [plan, hk, bind, Except.bind]
  cases items <;> rfl

theorem plan_hashDeleteKey (hk : requireKey k = .ok key) (field : Value) :
    (hashDeleteKey k field).plan = .ok (.ask "HDEL" key (.hdel key [field]) asCount) := by
  simp only [plan, hk, bind, Except.bind]

theorem plan_hashDeleteKeys (hk : requireKey k = .ok key) {fields : Value} {fs : List Value}
    (hfs : fields.elements = .ok fs) :
    (hashDeleteKeys k fields).plan =
      .ok (.about fs (.int 0) (.ask "HDEL" key (.hdel key fs) asCount)) := by
  simp only [plan, hk, hfs, bare, bind, Except.bind]

theorem plan_setAdd (hk : requireKey k = .ok key) (members : List Value) :
    (setAdd k members).plan =
      .ok (.about members (.int 0) (.ask "SADD" key (.sadd key members) asCount)) := by
  simp only [plan, hk, bind, Except.bind]

theorem plan_setDelete (hk : requireKey k = .ok key) (members : List Value) :
    (setDelete k members).plan =
      .ok (.about members (.int 0) (.ask "SREM" key (.srem key members) asCount)) := by
  simp only [plan, hk, bind, Except.bind]

theorem plan_scoredAdd (hk : requireKey k = .ok key) (scores : List (Value × Value)) :
    (scoredAdd k (.map scores)).plan =
      .ok (.about (scores.map (·.1)) (.int 0) (.ask "ZADD" key (.zadd key scores) asCount)) := by
  simp only [plan, hk, bind, Except.bind]
  cases scores <;> rfl

theorem plan_scoredDelete (hk : requireKey k = .ok key) (members : List Value) :
    (scoredDelete k members).plan =
      .ok (.about members (.int 0) (.ask "ZREM" key (.zrem key members) asCount)) := by
  simp only [plan, hk, bind, Except.bind]

theorem plan_listPush (hk : requireKey k = .ok key) (v : Value) :
    (listPush k v).plan = .ok (.ask "RPUSH" key (.rpush key [v]) asCount) := by
  simp only [plan, hk, bind, Except.bind]

theorem plan_listPushAll (hk : requireKey k = .ok key) {values : Value} {vs : List Value}
    (hvs : values.elements = .ok vs) :
    (listPushAll k values).plan =
      .ok (.about vs (.int 0) (.ask "RPUSH" key (.rpush key vs) asCount)) := by
  simp only [plan, hk, hvs, bare, bind, Except.bind]

theorem plan_setGetAll (hk : requireKey k = .ok key) :
    (setGetAll k).plan =
      .ok (.ask "SMEMBERS" key (.smembers key) fun v => (collected v v.toSet).map .set) := by
  simp only [plan, hk, bind, Except.bind]

theorem plan_listGet (hk : requireKey k = .ok key) (first last : Value) :
    (listGet k first last).plan =
      .ok (.ask "LRANGE" key (.lrange key first last) fun v =>
        (collected v v.elements).map .list) := by
  simp only [plan, hk, bind, Except.bind]

theorem plan_listGetAll (hk : requireKey k = .ok key) :
    (listGetAll k).plan = (listGet k (.int 0) (.int (-1))).plan := by
  simp only [plan, hk, bind, Except.bind]

theorem plan_delete (hk : requireKey k = .ok key) :
    (delete k).plan = .ok (.ask "DEL" key (.delete [key]) someCounted) := by
  simp only [plan, hk, bind, Except.bind]

theorem plan_deleteKeys {keys : Value} {vs : List Value} {ks : List String}
    (hvs : keys.elements = .ok vs) (hks : requireKeys vs = .ok ks) :
    (deleteKeys keys).plan =
      .ok (match ks with
        | [] => .answer (.int 0)
        | k :: _ => .ask "DEL" k (.delete ks) asCount) := by
  simp only [plan, hvs, hks, bare, bind, Except.bind]
  cases ks <;> rfl

end Checked

theorem program_eq (op : Operation) :
    op.program = (Program.ofExcept op.plan).andThen Plan.program := by
  -- The checks in front of a question are passed one by one; behind the last of
  -- them stands what is asked.
  cases op with
  | ping => exact answering_ask .bool (fun v => .ok (flag v)) fun _ => rfl
  | setValue key value limit =>
      refine checked_eq _ _ _ fun k => checked_eq _ _ _ fun seconds => ?_
      exact ask_eq fun _ => .ok value
  | getValue key type | hashGet key field type =>
      refine checked_eq _ _ _ fun k => checked_eq _ _ _ fun _ => ?_
      exact ask_eq fun v => coerce v type
  | hashPut key field value =>
      exact checked_eq _ _ _ fun k => ask_eq fun _ => .ok value
  | hashPutAll key mapping limit =>
      refine checked_eq _ _ _ fun k => checked_eq _ _ _ fun seconds => ?_
      split
      · rfl
      · cases seconds with
        | none =>
            rw [Program.ofConverted_eq]
            exact checked_eq _ _ _ fun entries => ask_eq fun _ => .ok mapping
        | some n => rfl
  | hashMultiGet key fields =>
      refine answering_checked _ _ _ _ fun k => ?_
      rw [Program.ofConverted_eq]
      refine answering_checked _ _ _ _ fun fs => answering_about _ _ _ ?_
      refine answering_ask .list _ fun v => ?_
      split
      · rfl
      · exact Program.ofConverted_eq _
  | hashGetAll key | setGetAll key | listGet key first last | listGetAll key =>
      refine answering_checked _ _ _ _ fun k => ?_
      exact answering_ask _ _ fun v => collected_eq v _
  | scoredAdd key scores =>
      refine answering_checked _ _ _ _ fun k => ?_
      split
      · rfl
      · rw [Program.ofConverted_eq]
        exact answering_checked _ _ _ _ fun entries => answering_count
  | setAdd key members | setDelete key members | scoredDelete key members =>
      exact answering_withElements ..
  | hashDeleteKey key value | listPush key value =>
      exact answering_checked _ _ _ _ fun _ => answering_count
  | hashDeleteKeys key values | listPushAll key values =>
      refine answering_checked _ _ _ _ fun k => ?_
      rw [Program.ofConverted_eq]
      exact answering_checked _ _ _ _ fun vs => answering_about _ _ _ answering_count
  | hasKey key field =>
      refine answering_checked _ _ _ _ fun k => ?_
      split
      · exact answering_someCounted
      · exact answering_ask .bool (fun v => .ok (flag v)) fun _ => rfl
  | delete key => exact answering_checked _ _ _ _ fun _ => answering_someCounted
  | deleteKeys keys =>
      rw [program, Store.deleteKeys, Program.ofConverted_eq]
      refine answering_checked _ _ _ _ fun vs => answering_checked _ _ _ _ fun ks => ?_
      cases ks with
      | nil => rfl
      | cons k rest => exact answering_count
  | expire key seconds =>
      refine answering_checked _ _ _ _ fun k => answering_checked _ _ _ _ fun n => ?_
      exact answering_ask .bool (fun v => .ok (flag v)) fun _ => rfl
  | ttl key =>
      refine answering_checked _ _ _ _ fun k => ?_
      refine answering_ask .int _ fun v => ?_
      split
      · rfl
      · exact Program.ofConverted_eq _

end Operation

end Store

end FileStash
