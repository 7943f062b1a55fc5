import FileStash.Proofs.Server.Filled
import FileStash.Proofs.Session.Operating
import FileStash.Proofs.Store.Question

namespace FileStash

namespace World

open Store (Operation failed_of_conclusion)

/-- A step that leaves no empty collection, where it is a direct write that
fails. -/
def Spares (w : World) : Step → Prop
  | .request (.operate op) =>
      op.Direct → (∃ e, w.answer (.operate op) = .error e) →
        ∀ k, op.Names k → Server.Whole (op.halted (w.server.server.live? k))
  | _ => True

/-- A session of operations and waiting in which no failing write leaves an empty
collection. -/
def Sparing (w : World) : List Step → Prop
  | [] => True
  | st :: steps => w.Spares st ∧ (w.step st).Sparing steps

section Failing

variable {w : World} {op : Operation} {e : StoreError}

structure Halts (w w' : World) (op : Operation) : Prop where
  plain : w'.Plain
  now : w'.server.server.now = w.server.server.now
  tree : w'.tree = w.tree
  elsewhere : ∀ k, ¬op.Names k → w'.server.server.live? k = w.server.server.live? k
  here : ∀ k, op.Names k → w'.server.server.live? k = op.halted (w.server.server.live? k)

theorem halts (hplain : w.Plain) (hdirect : op.Direct)
    (herror : w.answer (.operate op) = .error e) :
    Halts w (w.step (.request (.operate op))) op := by
  have hop := operated hplain op
  rw [herror] at hop
  generalize hr : Except.error e = r at hop
  generalize w.step (.request (.operate op)) = w' at hop ⊢
  cases hop with
  | refused hplan =>
      exact ⟨hplain, rfl, rfl, fun _ _ => rfl, fun k _ => (Operation.halted_of_refused hplan _).symm⟩
  | idle hplan => cases hr
  | undone hplan _ => exact (Operation.not_direct_of_transact hplan hdirect).elim
  | committed hplan _ _ => cases hr
  | @asked operation key c conclude hplan =>
      have hquestion := Operation.question hplan
      obtain ⟨hkeys, hnames⟩ := hquestion.own_of_direct hdirect
      have hact := Server.actsOn_run w.server.server hkeys
      obtain ⟨f, hf, -⟩ := failed_of_conclusion hplan hdirect hr.symm
      have hleft := (Server.shape_effect (hquestion.direct.mpr hdirect) w.server.server.now).left hf
      refine ⟨hplain, hact.now, rfl, fun k hk => ?_, fun k hk => ?_⟩
      · have hne : k ≠ key := by
          rintro rfl
          exact hk (by simp [Operation.Names, hnames])
        exact Server.live?_congr hact.now (hact.elsewhere k hne)
      · obtain rfl : k = key := by simpa [Operation.Names, hnames] using hk
        rw [Operation.halted_of_plan hplan]
        show (w.server.server.run c).2.live? k = _
        rw [hact.here, hleft, Server.alive_halted]

/-- The server says that the key holds another kind of value only where nothing was
changed. -/
theorem halted_of_mismatch (hplain : w.Plain) (hdirect : op.Direct) {fault : MismatchFault}
    (herror : w.answer (.operate op) = .error (.typeMismatch fault)) {k : String}
    (hk : op.Names k) :
    op.halted (w.server.server.live? k) = w.server.server.live? k := by
  have hop := operated hplain op
  rw [herror] at hop
  generalize hr : Except.error (StoreError.typeMismatch fault) = r at hop
  generalize w.step (.request (.operate op)) = w' at hop
  cases hop with
  | refused hplan => exact Operation.halted_of_refused hplan _
  | idle hplan => cases hr
  | undone hplan _ => exact (Operation.not_direct_of_transact hplan hdirect).elim
  | committed hplan _ _ => cases hr
  | @asked operation key c conclude hplan =>
      have hquestion := Operation.question hplan
      obtain ⟨hkeys, hnames⟩ := hquestion.own_of_direct hdirect
      obtain rfl : k = key := by simpa [Operation.Names, hnames] using hk
      obtain ⟨f, hf, hmeaning⟩ := failed_of_conclusion hplan hdirect hr.symm
      rw [Operation.halted_of_plan hplan]
      exact (Server.shape_effect (hquestion.direct.mpr hdirect) _).of_rejection hf
        (Store.rejects_of_mismatch hmeaning.symm)

theorem Halts.agrees {w' : World} (h : Halts w w' op) (hplain : w.Plain)
    (hsame : ∀ k, op.Names k → op.halted (w.server.server.live? k) = w.server.server.live? k) :
    Agrees w' w where
  server := ⟨Eq.trans h.plain (Eq.symm hplain), h.now, fun k => by
    by_cases hk : op.Names k
    · rw [h.here k hk, hsame k hk]
    · exact h.elsewhere k hk⟩
  tree := h.tree

end Failing

/-- A value that cannot be sent leaves what a single value was to take the place
of. -/
theorem halted_setValue (key value limit : Value) (held : Option Entry) :
    (Operation.setValue key value limit).halted held = held := by
  unfold Operation.halted
  split
  · rename_i operation k c conclude hplan
    obtain ⟨k', -, hplan⟩ := Except.of_bind_ok hplan
    obtain ⟨seconds, -, hplan⟩ := Except.of_bind_ok hplan
    cases hplan
    exact Server.halted_of_idle rfl rfl held
  · rfl

section Filled

variable {w : World}

theorem filled_step (hplain : w.Plain) {st : Step} (hoperates : st.Operates)
    (hspares : w.Spares st) (h : w.server.server.Filled) : (w.step st).server.server.Filled := by
  cases st with
  | wait milliseconds => exact h.advance milliseconds
  | files t => exact hoperates.elim
  | request r =>
      cases r with
      | operate op =>
          have hop := operated hplain op
          simp only [Spares] at hspares
          generalize w.answer (.operate op) = r at hop hspares
          generalize w.step (.request (.operate op)) = w' at hop ⊢
          cases hop with
          | refused _ | idle _ => exact h
          | undone _ hagrees => exact h.of_agrees hagrees.server.server
          | @asked operation key c conclude hplan =>
              have hquestion := Operation.question hplan
              refine h.run hquestion.loaded ?_
              rintro hdirect k hk ⟨f, hf⟩
              have hop := hquestion.direct.mp hdirect
              obtain ⟨hkeys, hnames⟩ := hquestion.own_of_direct hop
              obtain rfl : k = key := by simpa [hkeys] using hk
              have hfailed : (w.server.server.run c).1 = .error f := by
                rw [(Server.actsOn_run w.server.server hkeys).answer, hf]
              have hwhole := hspares hop ⟨_, Store.error_conclusion hfailed⟩ k
                (by simp [Operation.Names, hnames])
              rwa [Operation.halted_of_plan hplan] at hwhole
          | @committed key mapping n items v hplan hitems hwritten =>
              obtain ⟨hne, -⟩ := Server.of_run_hsetAll_ok hwritten
              refine (h.run (c := .hsetAll key items) (fun _ => ?_) ?_).run
                (c := .expire key n) (fun hfresh => (hfresh rfl).elim) fun hdirect => hdirect.elim
              · simpa [Command.changes] using hne
              · rintro - k hk ⟨f, hf⟩
                obtain rfl : k = key := by simpa [Command.keys] using hk
                have hact := Server.actsOn_run w.server.server (c := .hsetAll k items) rfl
                rw [hact.answer, hf] at hwritten
                cases hwritten
      | _ => exact hoperates.elim

theorem filled_after {steps : List Step} (hplain : w.Plain)
    (hoperates : ∀ st ∈ steps, st.Operates) (hsparing : w.Sparing steps)
    (h : w.server.server.Filled) :
    (w.after steps).Plain ∧ (w.after steps).server.server.Filled := by
  induction steps generalizing w with
  | nil => exact ⟨hplain, h⟩
  | cons st steps ih =>
      have hst := hoperates st (List.mem_cons_self ..)
      exact ih (hplain.step hst) (fun st' hst' => hoperates st' (List.mem_cons_of_mem st hst'))
        hsparing.2 (filled_step hplain hst hsparing.1 h)

end Filled

/-- A direct write that fails changes nothing but its own key, and leaves there the
changes that come before its failure, in a new collection where there was none. It
leaves the key as it was where the server says that it holds another kind of value,
and where a single value was to be set; and whenever the key is as it was, every
later session is answered as if the write had not been tried. Where no collection is
empty, and as long as no failing write leaves an empty one behind, a key is there just
when it holds a text or a collection with something in it. -/
theorem failed_write_leaves_changes_before_failure (w : World) (hplain : w.Plain) :
    (∀ (op : Operation) (e : StoreError), op.Direct → w.answer (.operate op) = .error e →
      let w' := w.step (.request (.operate op))
      Halts w w' op ∧
      ((∃ fault, e = .typeMismatch fault) ∨ (∃ key value limit, op = .setValue key value limit) →
        ∀ k, op.Names k → op.halted (w.server.server.live? k) = w.server.server.live? k) ∧
      ((∀ k, op.Names k → op.halted (w.server.server.live? k) = w.server.server.live? k) →
        ∀ later, w'.answers later = w.answers later)) ∧
    (w.server.server.Filled → ∀ (steps : List Step) (key : String),
      (∀ st ∈ steps, st.Operates) → w.Sparing steps → Text.allBlank key = false →
      ((w.after steps).answer (.operate (.hasKey (.text key) .null)) = .ok (.bool true) ↔
        ∃ e, (w.after steps).server.server.live? key = some e ∧
          e.content.isEmpty = false)) := by
  constructor
  · intro op e hdirect herror w'
    have hhalts : Halts w w' op := halts hplain hdirect herror
    refine ⟨hhalts, ?_, fun hsame => (hhalts.agrees hplain hsame).answers⟩
    rintro (⟨fault, rfl⟩ | ⟨key, value, limit, rfl⟩) k hk
    · exact halted_of_mismatch hplain hdirect herror hk
    · exact halted_setValue ..
  · intro hstart steps key hoperates hsparing hblank
    obtain ⟨hplain', hfilled⟩ := filled_after hplain hoperates hsparing hstart
    rw [answer_hasKey hplain' hblank]
    constructor
    · intro htrue
      cases hlive : (w.after steps).server.server.live? key with
      | none => simp [hlive] at htrue
      | some e => exact ⟨e, rfl, hfilled key e hlive⟩
    · rintro ⟨e, he, -⟩
      rw [he]
      rfl

/-- A field that cannot be sent leaves an empty hash behind, which is a key that is
there; a member that cannot be sent leaves the members before it. -/
theorem failed_writes_leave_empty_hash_and_first_member :
    let put := Operation.hashPut (.text "h") (.text "f") .null
    let add := Operation.setAdd (.text "s") [.text "a", .null]
    let start : World := { server := { server := { entries := [], now := 0 } } }
    let steps := [Step.request (.operate add), .wait 1000]
    start.Plain ∧ ((∃ e, start.answer (.operate put) = .error e) ∧
      let w := start.step (.request (.operate put))
      w.server.server.live? "h" = some ⟨.hash [], none⟩ ∧
        w.answer (.operate (.hasKey (.text "h") .null)) = .ok (.bool true)) ∧
    (start.server.server.Filled ∧ start.Sparing steps ∧
      (start.after steps).answer (.operate (.hasKey (.text "s") .null)) = .ok (.bool true) ∧
      (start.after steps).answer (.operate (.setGetAll (.text "s"))) =
        .ok (.set [.text "a"])) := by
  intro put add start steps
  have hplain : start.Plain := rfl
  obtain ⟨hleft, hthere⟩ := failed_write_leaves_changes_before_failure start hplain
  have herror : start.answer (.operate put) =
      .error (.invalidArgument (.refusedInput "HSET" "h"
        (.badInput "Invalid input of type: 'NoneType'"))) := rfl
  obtain ⟨hhalts, -⟩ := hleft put _ trivial herror
  have hsparing : start.Sparing steps := by
    refine ⟨fun _ _ k hk => ?_, trivial, trivial⟩
    obtain rfl : k = "s" := by simpa [add, Operation.Names, Operation.keys] using hk
    rintro e ⟨⟩
    rfl
  have hfilled : start.server.server.Filled := Server.Filled.empty 0
  refine ⟨hplain, ⟨⟨_, herror⟩, hhalts.here "h" (.head _), rfl⟩, hfilled, hsparing, ?_, rfl⟩
  refine (hthere hfilled steps "s" ?_ hsparing rfl).mpr ⟨⟨.set ["a"], none⟩, rfl, rfl⟩
  intro st hst
  rcases List.mem_cons.mp hst with rfl | hst
  · trivial
  · rw [List.mem_singleton.mp hst]
    trivial

end World

end FileStash
