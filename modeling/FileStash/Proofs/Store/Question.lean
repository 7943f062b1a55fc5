import FileStash.Proofs.Server.Timing
import FileStash.Proofs.Server.Writing
import FileStash.Proofs.Store.Asking
import FileStash.Proofs.Store.Plan

namespace FileStash

theorem Except.of_bind_ok {ε α β : Type} {x : Except ε α} {f : α → Except ε β} {b : β}
    (h : (x >>= f) = .ok b) : ∃ a, x = .ok a ∧ f a = .ok b := by
  cases x with
  | error e => cases h
  | ok a => exact ⟨a, rfl, h⟩

theorem Except.of_bind_error {ε α β : Type} {x : Except ε α} {f : α → Except ε β} {e : ε}
    (h : (x >>= f) = .error e) : x = .error e ∨ ∃ a, x = .ok a ∧ f a = .error e := by
  cases x with
  | error d => exact .inl (congrArg Except.error (Except.error.inj h))
  | ok a => exact .inr ⟨a, rfl, h⟩

theorem Except.of_map_ok {ε α β : Type} {x : Except ε α} {f : α → β} {b : β}
    (h : x.map f = .ok b) : ∃ a, x = .ok a ∧ f a = b := by
  cases x with
  | error e => cases h
  | ok a => exact ⟨a, rfl, Except.ok.inj h⟩

theorem Except.of_map_error {ε α β : Type} {x : Except ε α} {f : α → β} {e : ε}
    (h : x.map f = .error e) : x = .error e := by
  cases x with
  | error d => exact congrArg Except.error (Except.error.inj h)
  | ok a => cases h

namespace Store

def Operation.Direct : Operation → Prop
  | .setValue .. | .hashPut .. | .hashPutAll _ _ .null | .setAdd .. | .setDelete .. | .scoredAdd ..
  | .scoredDelete .. | .listPush .. | .listPushAll .. => True
  | _ => False

theorem Plan.of_about {elements : List Value} {idle : Value} {p : Plan} {operation key : String}
    {c : Command} {conclude : Value → Checked Value}
    (h : (.ok (Plan.about elements idle p) : Checked Plan) = .ok (.ask operation key c conclude)) :
    elements ≠ [] ∧ p = .ask operation key c conclude := by
  unfold Plan.about at h
  split at h
  · cases h
  · rename_i hne
    exact ⟨by simpa using hne, Except.ok.inj h⟩

theorem ne_nil_of_addPairs {vs : List Value} {index : Nat} {d es : Dict Value Value}
    (hd : d ≠ [] ∨ vs ≠ []) (h : Value.addPairs index d vs = .ok es) : es ≠ [] := by
  induction vs generalizing index d with
  | nil =>
      cases h
      simpa using hd
  | cons v vs ih =>
      unfold Value.addPairs at h
      split at h
      · cases h
      · rename_i k x _
        split at h
        · refine ih (.inl ?_) h
          have hinsert := Server.isEmpty_insert d k x
          intro hnil
          rw [hnil] at hinsert
          cases hinsert
        · cases h
      · cases h

theorem ne_nil_of_toMap {v : Value} {es : Dict Value Value} (htruth : v.truth = true)
    (h : v.toMap = .ok es) : es ≠ [] := by
  have hpairs : ∀ vs, vs ≠ [] → Value.addPairs 0 [] vs = .ok es → es ≠ [] := fun vs hvs h =>
    ne_nil_of_addPairs (.inr hvs) h
  cases v with
  | map entries =>
      cases h
      simpa [Value.truth] using htruth
  | text s =>
      refine hpairs _ ?_ h
      simpa [Value.truth] using htruth
  | bytes b | list xs | set ms =>
      refine hpairs _ ?_ h
      simpa [Value.truth] using htruth
  | _ => cases h

theorem null_of_optionalDuration {v : Value} (h : optionalDuration v = .ok none) :
    v = .null := by
  unfold optionalDuration at h
  split at h
  · rfl
  · cases hduration : requireDuration v <;> simp [hduration, Except.map] at h

theorem rejects_of_mismatch {operation key : String} {f : Failure} {fault : MismatchFault}
    (h : errorOf operation key f = .typeMismatch fault) : f.Rejects := by
  unfold errorOf at h
  split at h
  · rename_i raised
    split at h
    · rename_i hfamily
      exact ⟨raised, rfl, hfamily⟩
    all_goals cases h
  · cases h

/-- The looks at a key whose answer depends on no clock. -/
def Operation.Sees : Operation → Prop
  | .getValue .. | .hashGet .. | .hashMultiGet .. | .hashGetAll _ | .setGetAll _ | .listGet ..
  | .listGetAll _ | .hasKey .. => True
  | _ => False

/-- An operation that gives its key a time limit. -/
def Operation.Limits : Operation → Prop
  | .setValue _ _ limit | .hashPutAll _ _ limit => limit ≠ .null
  | .expire .. => True
  | _ => False

/-- A write without a time limit that has something to put there. -/
def Operation.Puts : Operation → Prop
  | .setValue _ _ limit => limit = .null
  | .hashPut .. | .listPush .. => True
  | .hashPutAll _ mapping limit => limit = .null ∧ mapping.truth = true
  | .setAdd _ members => members ≠ []
  | .scoredAdd _ scores => scores.truth = true
  | .listPushAll _ values => ∀ vs, values.elements = .ok vs → vs ≠ []
  | _ => False

structure Question (op : Operation) (key : String) (c : Command)
    (conclude : Value → Checked Value) : Prop where
  own : c.keys = [key] ∧ op.keys = [.text key] ∨ c = .ping ∨ ∃ keys, c = .delete keys
  direct : c.Direct ↔ op.Direct
  loaded : c.fresh ≠ none → c.changes ≠ []
  answers : op.Direct → ∀ v n, v.toInt = .ok n → ∃ a, conclude v = .ok a
  limits : c.Limits → op.Limits
  sees : op.Sees → c.Sees
  puts : op.Puts → c.Puts

namespace Question

variable {op : Operation} {key : Value} {k : String} {c : Command}
  {conclude : Value → Checked Value}

theorem own_of_key (hkey : requireKey key = .ok k) (hkeys : c.keys = [k])
    (hnames : op.keys = [key]) :
    c.keys = [k] ∧ op.keys = [.text k] ∨ c = .ping ∨ ∃ keys, c = .delete keys := by
  refine .inl ⟨hkeys, ?_⟩
  rw [hnames, ((requireKey_eq_ok_iff key k).mp hkey).1]

/-- A question that is no direct write. The kinds of the operation and of the command tell
all but what it is about. -/
structure Indirect (op : Operation) (k : String) (c : Command) : Prop where
  own : c.keys = [k] ∧ op.keys = [.text k] ∨ c = .ping ∨ ∃ keys, c = .delete keys
  command : ¬c.Direct := by exact id
  operation : ¬op.Direct := by exact id
  fresh : c.fresh = none := by rfl
  limits : c.Limits → op.Limits := by exact id
  sees : op.Sees → c.Sees := by exact id
  puts : ¬op.Puts := by exact id

theorem Indirect.question (h : Indirect op k c) : Question op k c conclude where
  own := h.own
  direct := iff_of_false h.command h.operation
  loaded hfresh := (hfresh h.fresh).elim
  answers hdirect := (h.operation hdirect).elim
  limits := h.limits
  sees := h.sees
  puts hputs := (h.puts hputs).elim

/-- A direct write to the key of the operation. What it writes and how its reply is counted
is left to show. -/
structure Written (op : Operation) (key : Value) (k : String) (c : Command)
    (conclude : Value → Checked Value) : Prop where
  named : requireKey key = .ok k
  loaded : c.fresh ≠ none → c.changes ≠ []
  answers (v : Value) (n : Int) : v.toInt = .ok n → ∃ a, conclude v = .ok a
  commandKeys : c.keys = [k] := by rfl
  operationKeys : op.keys = [key] := by rfl
  command : c.Direct := by exact trivial
  operation : op.Direct := by exact trivial
  limits : c.Limits → op.Limits := by exact id
  blind : ¬op.Sees := by exact id
  puts : op.Puts → c.Puts := by exact fun _ => trivial

theorem Written.question (h : Written op key k c conclude) : Question op k c conclude where
  own := own_of_key h.named h.commandKeys h.operationKeys
  direct := iff_of_true h.command h.operation
  loaded := h.loaded
  answers _ := h.answers
  limits := h.limits
  sees hsees := (h.blind hsees).elim
  puts := h.puts

/-- A question that is neither a ping nor about many keys is about the key of the
operation. -/
theorem own_of {P : Command → Prop} (h : Question op k c conclude) (hping : ¬P .ping)
    (hdelete : ∀ keys, ¬P (.delete keys)) (hc : P c) : c.keys = [k] ∧ op.keys = [.text k] := by
  rcases h.own with hown | rfl | ⟨keys, rfl⟩
  · exact hown
  · exact (hping hc).elim
  · exact (hdelete keys hc).elim

theorem own_of_direct (h : Question op k c conclude) (hdirect : op.Direct) :
    c.keys = [k] ∧ op.keys = [.text k] :=
  h.own_of (P := Command.Direct) id (fun _ => id) (h.direct.mpr hdirect)

theorem own_of_sees (h : Question op k c conclude) (hsees : op.Sees) :
    c.keys = [k] ∧ op.keys = [.text k] :=
  h.own_of (P := Command.Sees) id (fun _ => id) (h.sees hsees)

theorem own_of_puts (h : Question op k c conclude) (hputs : op.Puts) :
    c.keys = [k] ∧ op.keys = [.text k] :=
  h.own_of (P := Command.Puts) id (fun _ => id) (h.puts hputs)

end Question

theorem asCount_of_toInt {v : Value} {n : Int} (h : v.toInt = .ok n) :
    ∃ a, asCount v = .ok a := by
  unfold asCount counted
  split
  · exact ⟨_, rfl⟩
  · rw [h]
    exact ⟨_, rfl⟩

theorem Operation.question {op : Operation} {operation key : String} {c : Command}
    {conclude : Value → Checked Value} (h : op.plan = .ok (.ask operation key c conclude)) :
    Question op key c conclude := by
  cases op with
  | ping =>
      cases h
      exact Question.Indirect.question { own := .inr (.inl rfl) }
  | setValue key' value limit =>
      obtain ⟨k, hk, h⟩ := Except.of_bind_ok h
      obtain ⟨seconds, hseconds, h⟩ := Except.of_bind_ok h
      cases h
      have hlimits : (Command.set key value seconds).Limits → limit ≠ .null := by
        rintro hlimits rfl
        cases hseconds
        exact hlimits
      have hputs : limit = .null → (Command.set key value seconds).Puts := by
        rintro rfl
        cases hseconds
        trivial
      exact Question.Written.question {
        named := hk
        loaded := fun h => (h rfl).elim
        answers := fun _ _ _ => ⟨_, rfl⟩
        limits := hlimits
        puts := hputs }
  | getValue key' type | hashGet key' field type =>
      obtain ⟨k, hk, h⟩ := Except.of_bind_ok h
      obtain ⟨_, -, h⟩ := Except.of_bind_ok h
      cases h
      exact Question.Indirect.question { own := Question.own_of_key hk rfl rfl }
  | hashPut key' field value =>
      obtain ⟨k, hk, h⟩ := Except.of_bind_ok h
      cases h
      exact Question.Written.question {
        named := hk
        loaded := by
          by_cases hnames : namesField field <;> simp [Command.fresh, Command.changes, hnames]
        answers := fun _ _ _ => ⟨_, rfl⟩ }
  | hashPutAll key' mapping limit =>
      obtain ⟨k, hk, h⟩ := Except.of_bind_ok h
      obtain ⟨seconds, hseconds, h⟩ := Except.of_bind_ok h
      split at h
      · cases h
      · split at h
        · obtain ⟨entries, -, h⟩ := Except.of_bind_ok h
          cases h
          cases null_of_optionalDuration hseconds
          exact Question.Written.question {
            named := hk
            loaded := fun hfresh => by simpa [Command.fresh, Command.changes] using hfresh
            answers := fun _ _ _ => ⟨_, rfl⟩
            limits := False.elim }
        · cases h
  | hashMultiGet key' fields | hashDeleteKeys key' fields =>
      obtain ⟨k, hk, h⟩ := Except.of_bind_ok h
      obtain ⟨fs, -, h⟩ := Except.of_bind_ok h
      obtain ⟨-, h⟩ := Plan.of_about h
      cases h
      exact Question.Indirect.question { own := Question.own_of_key hk rfl rfl }
  | hashGetAll key' | hashDeleteKey key' field | setGetAll key' | listGet key' first last
  | listGetAll key' | delete key' | ttl key' =>
      obtain ⟨k, hk, h⟩ := Except.of_bind_ok h
      cases h
      exact Question.Indirect.question { own := Question.own_of_key hk rfl rfl }
  | setAdd key' members =>
      obtain ⟨k, hk, h⟩ := Except.of_bind_ok h
      obtain ⟨hne, h⟩ := Plan.of_about h
      cases h
      exact Question.Written.question {
        named := hk
        loaded := fun _ => by simpa [Command.changes] using hne
        answers := fun _ _ => asCount_of_toInt }
  | setDelete key' members | scoredDelete key' members =>
      obtain ⟨k, hk, h⟩ := Except.of_bind_ok h
      obtain ⟨-, h⟩ := Plan.of_about h
      cases h
      exact Question.Written.question {
        named := hk
        loaded := fun h => (h rfl).elim
        answers := fun _ _ => asCount_of_toInt
        puts := False.elim }
  | scoredAdd key' scores =>
      obtain ⟨k, hk, h⟩ := Except.of_bind_ok h
      split at h
      · cases h
      · rename_i htruth
        obtain ⟨entries, hentries, h⟩ := Except.of_bind_ok h
        cases h
        cases hmap : scores.toMap with
        | error f => simp [bare, hmap] at hentries
        | ok es =>
            simp only [bare, hmap, Except.ok.injEq] at hentries
            subst hentries
            have hne := ne_nil_of_toMap (by simpa using htruth) hmap
            exact Question.Written.question {
              named := hk
              loaded := fun _ => by simpa [Command.changes] using hne
              answers := fun _ _ => asCount_of_toInt }
  | listPush key' value =>
      obtain ⟨k, hk, h⟩ := Except.of_bind_ok h
      cases h
      exact Question.Written.question {
        named := hk
        loaded := fun _ => by simp [Command.changes]
        answers := fun _ _ => asCount_of_toInt }
  | listPushAll key' values =>
      obtain ⟨k, hk, h⟩ := Except.of_bind_ok h
      obtain ⟨vs, -, h⟩ := Except.of_bind_ok h
      obtain ⟨hne, h⟩ := Plan.of_about h
      cases h
      exact Question.Written.question {
        named := hk
        loaded := fun _ => by simpa [Command.changes] using hne
        answers := fun _ _ => asCount_of_toInt }
  | hasKey key' field =>
      obtain ⟨k, hk, h⟩ := Except.of_bind_ok h
      split at h <;> cases h <;>
        exact Question.Indirect.question { own := Question.own_of_key hk rfl rfl }
  | deleteKeys keys =>
      obtain ⟨vs, -, h⟩ := Except.of_bind_ok h
      obtain ⟨ks, -, h⟩ := Except.of_bind_ok h
      split at h <;> cases h
      exact Question.Indirect.question { own := .inr (.inr ⟨_, rfl⟩) }
  | expire key' seconds =>
      obtain ⟨k, hk, h⟩ := Except.of_bind_ok h
      obtain ⟨n, -, h⟩ := Except.of_bind_ok h
      cases h
      exact Question.Indirect.question { own := Question.own_of_key hk rfl rfl }

namespace Operation

/-- What a direct write leaves of its key where it fails. -/
def halted (op : Operation) (held : Option Entry) : Option Entry :=
  match op.plan with
  | .ok (.ask _ _ c _) => c.halted held
  | _ => held

variable {op : Operation}

theorem halted_of_plan {operation key : String} {c : Command} {conclude : Value → Checked Value}
    (h : op.plan = .ok (.ask operation key c conclude)) (held : Option Entry) :
    op.halted held = c.halted held := by
  simp only [halted, h]

theorem halted_of_refused {e : StoreError} (h : op.plan = .error e) (held : Option Entry) :
    op.halted held = held := by
  simp only [halted, h]

theorem of_plan_transact {key : String} {mapping : Value} {n : Int}
    (h : op.plan = .ok (.transact key mapping n)) :
    ∃ limit, op = .hashPutAll (.text key) mapping limit ∧ requireKey (.text key) = .ok key ∧
      optionalDuration limit = .ok (some n) ∧ mapping.truth = true := by
  have hnever : ∀ {elements idle operation k c conclude},
      (.ok (Plan.about elements idle (.ask operation k c conclude)) : Checked Plan) ≠
        .ok (.transact key mapping n) := by
    intro elements idle operation k c conclude h
    unfold Plan.about at h
    split at h <;> cases h
  cases op with
  | hashPutAll key' mapping' limit =>
      obtain ⟨k, hk, h⟩ := Except.of_bind_ok h
      obtain ⟨seconds, hseconds, h⟩ := Except.of_bind_ok h
      split at h
      · cases h
      · rename_i htruth
        split at h
        · obtain ⟨entries, -, h⟩ := Except.of_bind_ok h
          cases h
        · cases h
          obtain ⟨rfl, -⟩ := (requireKey_eq_ok_iff key' key).mp hk
          exact ⟨limit, rfl, hk, hseconds, by simpa using htruth⟩
  | ping => cases h
  | setValue | getValue | hashGet | expire =>
      obtain ⟨k, -, h⟩ := Except.of_bind_ok h
      obtain ⟨_, -, h⟩ := Except.of_bind_ok h
      cases h
  | hashPut | hashGetAll | hashDeleteKey | setGetAll | listPush | listGet | listGetAll | delete
  | ttl =>
      obtain ⟨k, -, h⟩ := Except.of_bind_ok h
      cases h
  | hashMultiGet | hashDeleteKeys | listPushAll =>
      obtain ⟨k, -, h⟩ := Except.of_bind_ok h
      obtain ⟨vs, -, h⟩ := Except.of_bind_ok h
      exact (hnever h).elim
  | setAdd | setDelete | scoredDelete =>
      obtain ⟨k, -, h⟩ := Except.of_bind_ok h
      exact (hnever h).elim
  | scoredAdd key' scores =>
      obtain ⟨k, -, h⟩ := Except.of_bind_ok h
      split at h
      · cases h
      · obtain ⟨entries, -, h⟩ := Except.of_bind_ok h
        cases h
  | hasKey key' field =>
      obtain ⟨k, -, h⟩ := Except.of_bind_ok h
      split at h <;> cases h
  | deleteKeys keys =>
      obtain ⟨vs, -, h⟩ := Except.of_bind_ok h
      obtain ⟨ks, -, h⟩ := Except.of_bind_ok h
      split at h <;> cases h

section Refused

variable {fault : MismatchFault}

theorem bare_ne_mismatch {α : Type} {x : Except Failure α} :
    bare x ≠ .error (.typeMismatch fault) := by
  cases x <;> simp [bare]

/-- Checks one after the other look at no value that is there where none of them does. -/
theorem bind_ne_mismatch {α β : Type} {x : Checked α} {f : α → Checked β}
    (hx : x ≠ .error (.typeMismatch fault)) (hf : ∀ a, f a ≠ .error (.typeMismatch fault)) :
    (x >>= f) ≠ .error (.typeMismatch fault) := by
  cases x with
  | error e =>
      rintro ⟨⟩
      exact hx rfl
  | ok a => exact hf a

theorem requireKey_ne_mismatch {v : Value} : requireKey v ≠ .error (.typeMismatch fault) := by
  unfold requireKey
  split
  · split <;> simp
  · simp

theorem requireDuration_ne_mismatch {v : Value} :
    requireDuration v ≠ .error (.typeMismatch fault) := by
  have hshown : ∀ {x : Except Failure String} {g : String → ArgumentFault},
      (do let shown ← bare x; .error (.invalidArgument (g shown)) : Checked Int) ≠
        .error (.typeMismatch fault) := fun {x g} =>
    bind_ne_mismatch bare_ne_mismatch fun shown => by simp
  unfold requireDuration
  split
  · split
    · exact hshown
    · simp
  · split
    · simp
    · exact hshown

theorem optionalDuration_ne_mismatch {v : Value} :
    optionalDuration v ≠ .error (.typeMismatch fault) := by
  unfold optionalDuration
  split
  · simp
  · cases hduration : requireDuration v with
    | ok n => simp [Except.map]
    | error e =>
        rintro ⟨⟩
        exact requireDuration_ne_mismatch hduration

theorem plan_ne_mismatch (hdirect : op.Direct) : op.plan ≠ .error (.typeMismatch fault) := by
  cases op with
  | setValue key value limit =>
      refine bind_ne_mismatch requireKey_ne_mismatch fun k => ?_
      refine bind_ne_mismatch optionalDuration_ne_mismatch fun seconds h => ?_
      cases h
  | hashPut | setAdd | setDelete | scoredDelete | listPush =>
      refine bind_ne_mismatch requireKey_ne_mismatch fun k h => ?_
      cases h
  | hashPutAll key mapping limit =>
      refine bind_ne_mismatch requireKey_ne_mismatch fun k => ?_
      refine bind_ne_mismatch optionalDuration_ne_mismatch fun seconds h => ?_
      split at h
      · cases h
      · split at h
        · refine bind_ne_mismatch bare_ne_mismatch (fun entries h => ?_) h
          cases h
        · cases h
  | scoredAdd key scores =>
      refine bind_ne_mismatch requireKey_ne_mismatch fun k h => ?_
      split at h
      · cases h
      · refine bind_ne_mismatch bare_ne_mismatch (fun entries h => ?_) h
        cases h
  | listPushAll key values =>
      refine bind_ne_mismatch requireKey_ne_mismatch fun k => ?_
      refine bind_ne_mismatch bare_ne_mismatch fun vs h => ?_
      cases h
  | _ => exact hdirect.elim

end Refused

theorem not_puts_of_idle {v : Value} (h : op.plan = .ok (.answer v)) : ¬op.Puts := by
  cases op with
  | setValue key value limit =>
      obtain ⟨k, -, h⟩ := Except.of_bind_ok h
      obtain ⟨seconds, -, h⟩ := Except.of_bind_ok h
      cases h
  | hashPut | listPush =>
      obtain ⟨k, -, h⟩ := Except.of_bind_ok h
      cases h
  | hashPutAll key mapping limit =>
      rintro ⟨-, htruth⟩
      obtain ⟨k, -, h⟩ := Except.of_bind_ok h
      obtain ⟨seconds, -, h⟩ := Except.of_bind_ok h
      simp only [htruth, Bool.not_true, Bool.false_eq_true, if_false] at h
      split at h
      · obtain ⟨entries, -, h⟩ := Except.of_bind_ok h
        cases h
      · cases h
  | setAdd key members =>
      intro hne
      obtain ⟨k, -, h⟩ := Except.of_bind_ok h
      have hmembers : members.isEmpty = false := by simpa [Puts] using hne
      simp only [Plan.about, hmembers] at h
      cases h
  | scoredAdd key scores =>
      intro htruth
      obtain ⟨k, -, h⟩ := Except.of_bind_ok h
      have hscores : scores.truth = true := htruth
      simp only [hscores, Bool.not_true, Bool.false_eq_true, if_false] at h
      obtain ⟨entries, -, h⟩ := Except.of_bind_ok h
      cases h
  | listPushAll key values =>
      intro hne
      obtain ⟨k, -, h⟩ := Except.of_bind_ok h
      obtain ⟨vs, hvs, h⟩ := Except.of_bind_ok h
      cases helements : values.elements with
      | error f => simp [bare, helements] at hvs
      | ok xs =>
          simp only [bare, helements, Except.ok.injEq] at hvs
          have hxs : vs.isEmpty = false := by
            simpa [← hvs] using hne xs helements
          simp only [Plan.about, hxs] at h
          cases h
  | _ => exact id

theorem not_puts_of_transact {key : String} {mapping : Value} {n : Int}
    (h : op.plan = .ok (.transact key mapping n)) : ¬op.Puts := by
  obtain ⟨limit, rfl, -, hlimit, -⟩ := of_plan_transact h
  rintro ⟨rfl, -⟩
  cases hlimit

theorem not_direct_of_transact {key : String} {mapping : Value} {n : Int}
    (h : op.plan = .ok (.transact key mapping n)) : ¬op.Direct := by
  obtain ⟨limit, rfl, -, hlimit, -⟩ := of_plan_transact h
  cases limit with
  | null => cases hlimit
  | _ => exact id

end Operation

end Store

end FileStash
