import FileStash.Proofs.Server.InTurn
import FileStash.Proofs.Store.OwnErrors
import FileStash.Proofs.Store.Question

namespace FileStash

theorem Except.bind_of_ok {ε α β : Type} {x : Except ε α} {a : α} {f : α → Except ε β}
    (h : x = .ok a) : (x >>= f) = f a := by
  rw [h]
  rfl

namespace Store

namespace Operation

/-- What an operation answers that finds nothing: absence in the form in which each
operation has it. -/
def vacant : Operation → Value
  | .ping | .hasKey .. | .delete _ | .expire .. => .bool false
  | .getValue .. | .hashGet .. => .null
  | .hashMultiGet _ fields =>
      .list (List.replicate (fields.elements.toOption.getD []).length .null)
  | .hashGetAll _ => .map []
  | .setGetAll _ => .set []
  | .listGet .. | .listGetAll _ => .list []
  | .hashDeleteKey .. | .hashDeleteKeys .. | .setAdd .. | .setDelete .. | .scoredAdd ..
  | .scoredDelete .. | .listPush .. | .listPushAll .. | .deleteKeys _ => .int 0
  | .ttl _ => .int (-2)
  | .setValue _ value _ | .hashPut _ _ value | .hashPutAll _ value _ => value

/-- A key that is a text with something other than blanks in it. -/
def Keyed (key : Value) : Prop :=
  ∃ k, requireKey key = .ok k

/-- The arguments that an operation can be given: keys with something in them, types
that are supported, fields that can name one, members that can be sent, indices
that are numbers, and positive durations. A write that answers with what it was
given is left out. -/
def Valid : Operation → Prop
  | .ping => True
  | .getValue key type => Keyed key ∧ requireType type = .ok ()
  | .hashGet key field type => Keyed key ∧ requireType type = .ok () ∧ field.isKey
  | .hashMultiGet key fields =>
      Keyed key ∧ ∃ fs, fields.elements = .ok fs ∧ ∀ f ∈ fs, f.isKey
  | .hashGetAll key | .setGetAll key | .listGetAll key | .delete key | .ttl key
  | .hashDeleteKey key _ | .setAdd key _ | .listPush key _ => Keyed key
  | .hashDeleteKeys key fields => Keyed key ∧ ∃ fs, fields.elements = .ok fs
  | .setDelete key members | .scoredDelete key members =>
      Keyed key ∧ ∀ m ∈ members, ∃ x, Server.encode m = .ok x
  | .scoredAdd key scores => Keyed key ∧ ∃ entries, scores.toMap = .ok entries
  | .listPushAll key values => Keyed key ∧ ∃ vs, values.elements = .ok vs
  | .listGet key first last =>
      Keyed key ∧ (Server.index? first).isSome ∧ (Server.index? last).isSome
  | .hasKey key field => Keyed key ∧ field.isKey
  | .deleteKeys keys => ∃ vs, keys.elements = .ok vs ∧ ∀ v ∈ vs, Keyed v
  | .expire key seconds => Keyed key ∧ ∃ n, requireDuration seconds = .ok n
  | .setValue .. | .hashPut .. | .hashPutAll .. => False

/-- An operation that adds elements, or that only asks whether the server is
there. -/
def AddsOrPings : Operation → Prop
  | .ping | .setAdd .. | .scoredAdd .. | .listPush .. | .listPushAll .. => True
  | _ => False

end Operation

namespace Absent

open Server (effect)

/-! What the server answers about a key that is not there. -/

theorem answer_one {s : Server} {c : Command} {key : String} (hkeys : c.keys = [key])
    (h : s.live? key = none) : (s.run c).1 = (effect s.now c none).1 := by
  rw [(Server.actsOn_run s hkeys).answer, h]

theorem field?_empty {f : Value} (h : f.isKey) : Server.field? [] f = .ok none := by
  cases f with
  | list | map | set => cases h
  | _ => rfl

theorem fieldAll_empty {fs : List Value} (h : ∀ f ∈ fs, f.isKey) :
    Server.fieldAll [] fs = .ok (List.replicate fs.length .null) := by
  induction fs with
  | nil => rfl
  | cons f fs ih =>
      have hf := field?_empty (h f (List.mem_cons_self ..))
      have hfs := ih fun g hg => h g (List.mem_cons_of_mem f hg)
      simp only [Server.fieldAll, hf, hfs]
      rfl

theorem shrink_empty {α : Type} {view : Content → Option α} {empty : α}
    {wrap : α → Content} {remove : α → Except Failure Nat × α}
    (h : remove empty = (.ok 0, empty)) :
    (Server.shrinkEffect view empty wrap remove none).1 = .ok (.int 0) := by
  simp only [Server.shrinkEffect, h]
  rfl

theorem lrange_empty {now : Int} (key : String) {first last : Value}
    (hfirst : (Server.index? first).isSome) (hlast : (Server.index? last).isSome) :
    (effect now (.lrange key first last) none).1 = .ok (.list []) := by
  obtain ⟨i, hi⟩ := Option.isSome_iff_exists.mp hfirst
  obtain ⟨j, hj⟩ := Option.isSome_iff_exists.mp hlast
  have hstart : Server.windowStart first = some i := by
    cases first with
    | null => cases hi
    | _ => exact hi
  obtain ⟨end', hend⟩ : ∃ end', Server.windowEnd 0 last = some end' := by
    unfold Server.windowEnd
    split
    · exact ⟨_, rfl⟩
    · exact ⟨j + 1, by rw [hj]; rfl⟩
  simp [effect, Server.readEffect, hstart, hend, Server.slice]

theorem runDelete_absent {s : Server} {keys : List String} (removed : Nat)
    (h : ∀ k ∈ keys, s.live? k = none) :
    (s.runDelete removed keys).1 = .ok (Server.count removed) := by
  induction keys generalizing s with
  | nil => rfl
  | cons k keys ih =>
      have hk := h k (List.mem_cons_self ..)
      rw [Server.runDelete_cons, hk]
      refine ih fun k' hk' => ?_
      by_cases hsame : k' = k
      · rw [hsame]
        exact Server.live?_drop_self _ k
      · rw [Server.live?_drop_of_ne _ hsame, Server.live?_purge]
        exact h k' (List.mem_cons_of_mem k hk')

end Absent

namespace Operation

/-- How an operation comes to its vacant answer: without a question, or by a question
that an indefinite reply answers with it, and so does the server where none of the
named keys is there. -/
inductive Settles (op : Operation) : Prop
  | idle (h : op.plan = .ok (.answer op.vacant))
  | asked {operation key : String} {c : Command} {conclude : Value → Checked Value}
      (h : op.plan = .ok (.ask operation key c conclude))
      (hnull : conclude .null = .ok op.vacant)
      (habsent : op.AddsOrPings ∨ ∀ s : Server, (∀ k, op.Names k → s.live? k = none) →
        ∃ v, (s.run c).1 = .ok v ∧ conclude v = .ok op.vacant)

section Settles

variable {op : Operation} {key : Value} {k operation : String} {c : Command}
  {conclude : Value → Checked Value}

theorem Settles.of_key (hk : requireKey key = .ok k) (hop : op.keys = [key])
    (h : op.plan = .ok (.ask operation k c conclude)) (hnull : conclude .null = .ok op.vacant)
    (hc : c.keys = [k])
    (hanswer : ∀ now, ∃ v, (Server.effect now c none).1 = .ok v ∧
      conclude v = .ok op.vacant) : op.Settles := by
  refine .asked h hnull (.inr fun s hs => ?_)
  have hnames : op.Names k := by
    simp [Names, hop, ((requireKey_eq_ok_iff key k).mp hk).1]
  rw [Absent.answer_one hc (hs k hnames)]
  exact hanswer s.now

theorem Settles.of_about {elements : List Value} {idle : Value}
    (h : op.plan = .ok (Plan.about elements idle (.ask operation k c conclude)))
    (hidle : elements = [] → idle = op.vacant)
    (hasked : op.plan = .ok (.ask operation k c conclude) → op.Settles) : op.Settles := by
  by_cases hempty : elements = []
  · refine .idle ?_
    rw [h, ← hidle hempty, hempty]
    rfl
  · refine hasked ?_
    have hne : elements.isEmpty = false := by simpa using hempty
    rw [h]
    simp only [Plan.about, hne, Bool.false_eq_true, if_false]

theorem bind_bare_of_ok {α β : Type} {x : Except Failure α} {a : α} {f : α → Checked β}
    (h : x = .ok a) : (bare x >>= f) = f a := by
  rw [h]
  rfl

theorem requireKeys_of_keyed {vs : List Value} (h : ∀ v ∈ vs, Keyed v) :
    ∃ ks, requireKeys vs = .ok ks := by
  induction vs with
  | nil => exact ⟨[], rfl⟩
  | cons v vs ih =>
      obtain ⟨k, hk⟩ := h v (List.mem_cons_self ..)
      obtain ⟨ks, hks⟩ := ih fun w hw => h w (List.mem_cons_of_mem v hw)
      exact ⟨k :: ks, by simp only [requireKeys, hk, hks]; rfl⟩

end Settles

theorem settles_of_valid {op : Operation} (h : op.Valid) : op.Settles := by
  -- What is asked is read off the plan, check by check. Then there is only the
  -- answer of the server about nothing, and what the operation makes of it.
  cases op with
  | ping => exact .asked rfl rfl (.inl trivial)
  | hashGetAll key | hashDeleteKey key field | setGetAll key | delete key | ttl key =>
      obtain ⟨k, hk⟩ := h
      exact .of_key hk rfl (Except.bind_of_ok hk) rfl rfl fun _ => ⟨_, rfl, rfl⟩
  | getValue key type =>
      obtain ⟨⟨k, hk⟩, htype⟩ := h
      have hnull := coerce_null type htype
      exact .of_key hk rfl ((Except.bind_of_ok hk).trans (Except.bind_of_ok htype)) hnull rfl
        fun _ => ⟨.null, rfl, hnull⟩
  | hashGet key field type =>
      obtain ⟨⟨k, hk⟩, htype, hfield⟩ := h
      have hnull := coerce_null type htype
      refine .of_key hk rfl ((Except.bind_of_ok hk).trans (Except.bind_of_ok htype)) hnull rfl
        fun _ => ⟨.null, ?_, hnull⟩
      simp only [Server.effect, Server.readEffect, Absent.field?_empty hfield]
      rfl
  | hashMultiGet key fields =>
      obtain ⟨⟨k, hk⟩, fs, hfs, hfields⟩ := h
      have hvacant : (hashMultiGet key fields).vacant =
          .list (List.replicate fs.length .null) := by
        simp only [vacant, hfs]
        rfl
      refine .of_about ((Except.bind_of_ok hk).trans (bind_bare_of_ok hfs)) (fun hnil => ?_)
        fun hplan => ?_
      · rw [hvacant, hnil]
        rfl
      · refine .of_key hk rfl hplan (by rw [hvacant]; rfl) rfl fun _ =>
          ⟨.list (List.replicate fs.length .null), ?_, by rw [hvacant]; rfl⟩
        simp only [Server.effect, Server.readEffect, Absent.fieldAll_empty hfields]
        rfl
  | hashDeleteKeys key fields =>
      obtain ⟨⟨k, hk⟩, fs, hfs⟩ := h
      refine .of_about ((Except.bind_of_ok hk).trans (bind_bare_of_ok hfs)) (fun _ => rfl)
        fun hplan => ?_
      exact .of_key hk rfl hplan rfl rfl fun _ =>
        ⟨.int 0, Absent.shrink_empty (Server.removeFields_nil 0 fs), rfl⟩
  | setDelete key members =>
      obtain ⟨⟨k, hk⟩, hmembers⟩ := h
      refine .of_about (Except.bind_of_ok hk) (fun _ => rfl) fun hplan => ?_
      exact .of_key hk rfl hplan rfl rfl fun _ =>
        ⟨.int 0, Absent.shrink_empty (Server.removeAll_empty (fun _ => rfl) hmembers), rfl⟩
  | scoredDelete key members =>
      obtain ⟨⟨k, hk⟩, hmembers⟩ := h
      refine .of_about (Except.bind_of_ok hk) (fun _ => rfl) fun hplan => ?_
      exact .of_key hk rfl hplan rfl rfl fun _ =>
        ⟨.int 0, Absent.shrink_empty (Server.removeAll_empty (fun _ => rfl) hmembers), rfl⟩
  | setAdd key members =>
      obtain ⟨k, hk⟩ := h
      exact .of_about (Except.bind_of_ok hk) (fun _ => rfl) fun hplan =>
        .asked hplan rfl (.inl trivial)
  | scoredAdd key scores =>
      obtain ⟨⟨k, hk⟩, entries, hentries⟩ := h
      cases htruth : scores.truth with
      | false =>
          refine .idle ?_
          simp only [plan, hk, htruth]
          rfl
      | true =>
          have hplan : (scoredAdd key scores).plan =
              .ok (.ask "ZADD" k (.zadd k entries) asCount) := by
            simp only [plan, hk, htruth, hentries]
            rfl
          exact .asked hplan rfl (.inl trivial)
  | listPush key value =>
      obtain ⟨k, hk⟩ := h
      exact .asked (Except.bind_of_ok hk) rfl (.inl trivial)
  | listPushAll key values =>
      obtain ⟨⟨k, hk⟩, vs, hvs⟩ := h
      exact .of_about ((Except.bind_of_ok hk).trans (bind_bare_of_ok hvs)) (fun _ => rfl)
        fun hplan => .asked hplan rfl (.inl trivial)
  | listGet key first last =>
      obtain ⟨⟨k, hk⟩, hfirst, hlast⟩ := h
      exact .of_key hk rfl (Except.bind_of_ok hk) rfl rfl fun _ =>
        ⟨.list [], Absent.lrange_empty k hfirst hlast, rfl⟩
  | listGetAll key =>
      obtain ⟨k, hk⟩ := h
      exact .of_key hk rfl (Except.bind_of_ok hk) rfl rfl fun _ =>
        ⟨.list [], Absent.lrange_empty k rfl rfl, rfl⟩
  | hasKey key field =>
      obtain ⟨⟨k, hk⟩, hfield⟩ := h
      cases hnull : field.isNull with
      | true =>
          have hplan : (hasKey key field).plan =
              .ok (.ask "EXISTS" k (.exists k) someCounted) := by
            simp only [plan, hk, hnull]
            rfl
          exact .of_key hk rfl hplan rfl rfl fun _ => ⟨.int 0, rfl, rfl⟩
      | false =>
          have hplan : (hasKey key field).plan =
              .ok (.ask "HEXISTS" k (.hexists k field) fun v => .ok (.bool (flag v))) := by
            simp only [plan, hk, hnull]
            rfl
          refine .of_key hk rfl hplan rfl rfl fun _ => ⟨.bool false, ?_, rfl⟩
          simp only [Server.effect, Server.readEffect, Absent.field?_empty hfield]
          rfl
  | deleteKeys keys =>
      obtain ⟨vs, hvs, hkeyed⟩ := h
      obtain ⟨ks, hks⟩ := requireKeys_of_keyed hkeyed
      cases ks with
      | nil => exact .idle ((bind_bare_of_ok hvs).trans (Except.bind_of_ok hks))
      | cons k rest =>
          refine .asked ((bind_bare_of_ok hvs).trans (Except.bind_of_ok hks)) rfl
            (.inr fun s hs => ⟨.int 0, ?_, rfl⟩)
          refine Absent.runDelete_absent 0 fun k' hk' => hs k' ?_
          simpa [Names, Operation.keys, hvs, Except.toOption] using mem_of_requireKeys hks k' hk'
  | expire key seconds =>
      obtain ⟨⟨k, hk⟩, n, hn⟩ := h
      exact .of_key hk rfl ((Except.bind_of_ok hk).trans (Except.bind_of_ok hn)) rfl rfl
        fun _ => ⟨.bool false, rfl, rfl⟩
  | setValue | hashPut | hashPutAll => exact h.elim

theorem result_of_answer {σ : Type} {client : Client σ} {op : Operation} {operation key : String}
    {c : Command} {conclude : Value → Checked Value} {v a : Value} {s : σ}
    (h : op.plan = .ok (.ask operation key c conclude))
    (hanswer : (client s (.run c)).1 = .ok (.value v)) (hconclude : conclude v = .ok a)
    (t : FileTree) : (op.program.run client s t).result = .ok a := by
  have hask : ((ask operation key c).run client s t).result = .ok v := by
    simp only [ask, Program.bind_eq_andThen]
    rw [Program.run_andThen_ok (result_calling_ok hanswer t)]
    rfl
  rw [op.program_eq, h, Program.ofExcept_ok, Program.andThen_done]
  simp only [Plan.program, Program.bind_eq_andThen]
  rw [Program.run_andThen_ok hask, hconclude]
  rfl

/-- Where the client replies with nothing to every command, each valid operation
answers as one that finds nothing, and none fails. A look, a removal and a time limit
come to the same on a server that has none of the named keys. -/
theorem indefinite_reply_means_absence {σ : Type} (client : Client σ)
    (hnull : ∀ s c, (client s (.run c)).1 = .ok (.value .null)) (op : Operation)
    (hvalid : op.Valid) (s : σ) (t : FileTree) :
    (op.program.run client s t).result = .ok op.vacant ∧
      (¬op.AddsOrPings → ∀ (server : Server) (t' : FileTree),
        (∀ key, op.Names key → server.live? key = none) →
          (op.program.run Server.client server t').result =
            (op.program.run client s t).result) := by
  cases settles_of_valid hvalid with
  | idle hplan =>
      have hidle : ∀ {τ : Type} (client' : Client τ) s' t',
          (op.program.run client' s' t').result = .ok op.vacant := by
        intro τ client' s' t'
        rw [op.program_eq, hplan]
        rfl
      exact ⟨hidle client s t, fun _ server t' _ => by rw [hidle, hidle]⟩
  | asked hplan hnothing habsent =>
      have hresult : (op.program.run client s t).result = .ok op.vacant :=
        result_of_answer hplan (hnull s _) hnothing t
      refine ⟨hresult, fun hadds server t' hserver => ?_⟩
      rcases habsent with hadds' | habsent
      · exact (hadds hadds').elim
      · obtain ⟨v, hrun, hconclude⟩ := habsent server hserver
        rw [hresult]
        refine result_of_answer hplan ?_ hconclude t'
        rw [Server.client_run, hrun]
        rfl

/-- Three fields, one of them twice, of a hash whose time is over; and an element for
a set. -/
theorem fields_of_expired_hash_are_absent :
    let client : Client Unit := fun s _ => (.ok (.value .null), s)
    let server : Server := { entries := [("h", ⟨.hash [("a", "1")], some 1000⟩)], now := 2000 }
    let look := hashMultiGet (.text "h") (.list [.text "a", .text "b", .text "a"])
    let add := setAdd (.text "s") [.text "m"]
    (look.program.run client () {}).result = .ok (.list [.null, .null, .null]) ∧
      (look.program.run Server.client server {}).result = .ok (.list [.null, .null, .null]) ∧
      (add.program.run client () {}).result = .ok (.int 0) := by
  intro client server look add
  have hnull : ∀ s c, (client s (.run c)).1 = .ok (.value .null) := fun _ _ => rfl
  have hlook : look.Valid := ⟨⟨"h", rfl⟩, _, rfl, by simp [Value.isKey]⟩
  obtain ⟨hfields, habsent⟩ := indefinite_reply_means_absence client hnull look hlook () {}
  have hgone : ∀ key, look.Names key → server.live? key = none := by
    intro key hkey
    obtain rfl : key = "h" := by simpa [Names, look, Operation.keys] using hkey
    rfl
  have hadd := (indefinite_reply_means_absence client hnull add ⟨"s", rfl⟩ () {}).1
  exact ⟨hfields, (habsent id server {} hgone).trans hfields, hadd⟩

end Operation

end Store

end FileStash
