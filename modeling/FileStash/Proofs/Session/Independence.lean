import FileStash.Proofs.Server.SameUnder
import FileStash.Proofs.Session.Fileless
import FileStash.Proofs.Session.Operating

namespace FileStash

open Store (Operation Plan answering)

namespace Program.SameRun

variable {σ τ α : Type} {R : σ → τ → Prop}

theorem answering {client : Client σ} {client' : Client τ} {p : Program α} {s : σ} {s' : τ}
    {t t' : FileTree} (h : SameRun R (p.run client s t) (p.run client' s' t'))
    (show? : α → Value) :
    SameRun R ((Store.answering show? p).run client s t)
      ((Store.answering show? p).run client' s' t') := by
  rw [Store.run_answering, Store.run_answering]
  exact ⟨congrArg (Except.map show?) h.result, h.state, h.tree, h.calls, h.records⟩

end Program.SameRun

theorem Store.state_plan_ask {σ : Type} (client : Client σ) (s : σ) (t : FileTree)
    (operation key : String) (c : Command) (conclude : Value → Checked Value) :
    ((Plan.ask operation key c conclude).program.run client s t).state =
      (client s (.run c)).2 := by
  simp only [Plan.program, checked, Program.bind_eq_andThen]
  rw [Program.state_andThen (Q := fun _ => True) fun _ => Program.within_ofExcept _, state_asking]

def Request.Only (key : String) (r : Request) : Prop :=
  ∀ k, r.Names k → k = key

def Request.Saves : Request → Prop
  | .restore .. => True
  | _ => False

namespace Request

variable {key : String}

theorem only_or_deleteKeys {r : Request} (h : r.Names key) :
    r.Only key ∨ ∃ keys, r = .operate (.deleteKeys keys) := by
  cases r with
  | store c file limit =>
      left
      rintro k ⟨p, hp, hk⟩
      obtain ⟨p', hp', hkey⟩ := h
      cases hp.symm.trans hp'
      exact Except.ok.inj (hk.symm.trans hkey)
  | restore c name | restoreBytes c name | contains c name =>
      left
      rintro k ⟨n, rfl, hk⟩
      obtain ⟨n', hn', hkey⟩ := h
      cases hn'
      exact Except.ok.inj (hk.symm.trans hkey)
  | operate op =>
      have hkey : .text key ∈ op.keys := h
      cases op with
      | ping => cases hkey
      | deleteKeys keys => exact .inr ⟨keys, rfl⟩
      | _ =>
          left
          intro k hk
          have hmem : Value.text k ∈ Operation.keys _ := hk
          rw [Operation.keys, List.mem_singleton] at hkey hmem
          exact Value.text.inj (hmem.trans hkey.symm)

end Request

namespace World

open ScriptedServer (Keeps)

/-- The same files, and servers that hold the same under a key. -/
structure SameUnder (key : String) (w w' : World) : Prop where
  server : w.server.SameUnder key w'.server
  tree : w.tree = w'.tree

theorem tree_step {w : World} {r : Request} (h : ¬r.Saves) :
    (w.step (.request r)).tree = w.tree := by
  cases r with
  | store c file limit => rw [step_store]
  | restore c name => exact (h trivial).elim
  | restoreBytes c name =>
      have hasks : (Request.restoreBytes c name).program.Asks fun _ => True :=
        Store.within_answering (FileCache.within_restoreBytes fun _ _ _ _ => trivial)
      exact hasks.tree_run w.server w.tree
  | contains c name =>
      have hasks : (Request.contains c name).program.Asks fun _ => True :=
        Store.within_answering (FileCache.within_exists fun _ _ _ _ => trivial)
      exact hasks.tree_run w.server w.tree
  | operate op => exact op.asks_program.tree_run w.server w.tree

namespace SameUnder

variable {key : String} {w w' : World}

theorem of_within (h : SameUnder key w w') {α : Type} {p : Program α} {Q : FileTree → Prop}
    (hp : p.Within (fun c => ∀ k ∈ c.keys, k = key) Q) :
    Program.SameRun (ScriptedServer.SameUnder key) (p.run ScriptedServer.call w.server w.tree)
      (p.run ScriptedServer.call w'.server w'.tree) := by
  rw [h.tree]
  exact hp.run_sameRun (fun _ _ _ hc hsame => hsame.call hc) _ h.server

theorem perform (h : SameUnder key w w') {r : Request} (hr : r.Only key) :
    Program.SameRun (ScriptedServer.SameUnder key) (w.perform r) (w'.perform r) := by
  cases r with
  | store c file limit =>
      refine Program.SameRun.answering ?_ .text
      rw [FileCache.run_store, FileCache.run_store, h.tree]
      cases hpack : c.pack file limit w'.tree with
      | error e => exact ⟨rfl, h.server, rfl, rfl, rfl⟩
      | ok p =>
          obtain ⟨hread, hkey, -⟩ := FileCache.of_pack hpack
          obtain ⟨path, hpath, hname⟩ := FileSource.path?_of_readIn hread
          have hsame : p.key = key := hr p.key ⟨path, hpath, by rw [hname, hkey]⟩
          have hsend := h.of_within (Q := fun _ => True)
            (p.within_send fun c hc k hk => (hc k hk).trans hsame)
          rwa [h.tree] at hsend
  | restore c name =>
      refine h.of_within (Store.within_answering (FileCache.within_restore ?_))
      rintro n k rfl hk _ hmem
      exact hr _ ⟨n, rfl, by rw [hk, List.mem_singleton.mp hmem]⟩
  | restoreBytes c name =>
      refine h.of_within (Q := fun _ => True)
        (Store.within_answering (FileCache.within_restoreBytes ?_))
      rintro n k rfl hk _ hmem
      exact hr _ ⟨n, rfl, by rw [hk, List.mem_singleton.mp hmem]⟩
  | contains c name =>
      refine h.of_within (Q := fun _ => True)
        (Store.within_answering (FileCache.within_exists ?_))
      rintro n k rfl hk _ hmem
      exact hr _ ⟨n, rfl, by rw [hk, List.mem_singleton.mp hmem]⟩
  | operate op =>
      refine h.of_within (Q := fun _ => False) ?_
      exact op.asks_program.mono fun c hc k hk => hr k (hc.own k hk)

theorem step_deleteKeys (h : SameUnder key w w') (keys : Value) :
    SameUnder key (w.step (.request (.operate (.deleteKeys keys))))
      (w'.step (.request (.operate (.deleteKeys keys)))) := by
  refine ⟨?_, by rw [tree_step id, tree_step id, h.tree]⟩
  show ScriptedServer.SameUnder key (w.perform _).state (w'.perform _).state
  rw [perform_operate, perform_operate]
  cases hplan : (Operation.deleteKeys keys).plan with
  | error e => exact h.server
  | ok plan =>
      obtain ⟨vs, -, hplan⟩ := Except.of_bind_ok hplan
      obtain ⟨ks, -, hplan⟩ := Except.of_bind_ok hplan
      simp only [Program.ofExcept, Program.andThen_done]
      cases ks with
      | nil =>
          cases hplan
          exact h.server
      | cons k ks =>
          cases hplan
          rw [Store.state_plan_ask, Store.state_plan_ask]
          exact h.server.answer (.delete (k :: ks))

/-- A step leaves two worlds that hold the same under a key so, unless it saves a file
from under another. -/
theorem step (h : SameUnder key w w') {st : Step}
    (hst : ∀ r, st = .request r → r.Saves → r.Names key) :
    SameUnder key (w.step st) (w'.step st) := by
  cases st with
  | wait milliseconds =>
      exact ⟨⟨h.server.script, h.server.server.advance milliseconds⟩, h.tree⟩
  | files t => exact ⟨h.server, rfl⟩
  | request r =>
      by_cases hnames : r.Names key
      · rcases Request.only_or_deleteKeys hnames with honly | ⟨keys, rfl⟩
        · have hsame := h.perform honly
          exact ⟨hsame.state, hsame.tree⟩
        · exact h.step_deleteKeys keys
      · have hsaves : ¬r.Saves := fun hsaves => hnames (hst r rfl hsaves)
        refine ⟨?_, by rw [tree_step hsaves, tree_step hsaves, h.tree]⟩
        exact h.server.of_keeps (Request.keeps_run hnames w.server w.tree)
          (Request.keeps_run hnames w'.server w'.tree)

theorem after (h : SameUnder key w w') {steps : List Step}
    (hsteps : ∀ r, .request r ∈ steps → r.Saves → r.Names key) :
    SameUnder key (w.after steps) (w'.after steps) := by
  induction steps generalizing w w' with
  | nil => exact h
  | cons st steps ih =>
      refine ih (h.step ?_) fun r hr => hsteps r (List.mem_cons_of_mem st hr)
      rintro r rfl
      exact hsteps r (List.mem_cons_self ..)

end SameUnder

/-! Where no files are needed, the servers alone decide. -/

section Servers

variable {key : String} {w w' : World} (h : w.server.SameUnder key w'.server)
include h

theorem answer_fileless {r : Request} (hr : r.Only key) (hfiles : r.Fileless) :
    w.answer r = w'.answer r := by
  have hsame : SameUnder key w { w' with tree := w.tree } := ⟨h, rfl⟩
  have hresult := (hsame.perform hr).result
  rw [w'.perform_fileless w.tree hfiles] at hresult
  exact hresult

theorem server_step {st : Step} (hst : ∀ r, st = .request r → r.Names key → r.Fileless) :
    (w.step st).server.SameUnder key (w'.step st).server := by
  cases st with
  | wait milliseconds => exact ⟨h.script, h.server.advance milliseconds⟩
  | files t => exact h
  | request r =>
      by_cases hnames : r.Names key
      · have hsame : SameUnder key w { w' with tree := w.tree } := ⟨h, rfl⟩
        have hserver : (({ w' with tree := w.tree } : World).step (.request r)).server =
            (w'.step (.request r)).server := by
          simp only [World.step, w'.perform_fileless w.tree (hst r rfl hnames)]
        have hnext : SameUnder key (w.step (.request r)) _ :=
          hsame.step fun _ heq _ => Step.request.inj heq ▸ hnames
        exact hserver ▸ hnext.server
      · exact h.of_keeps (Request.keeps_run hnames w.server w.tree)
          (Request.keeps_run hnames w'.server w'.tree)

theorem server_after {steps : List Step}
    (hsteps : ∀ r, .request r ∈ steps → r.Names key → r.Fileless) :
    (w.after steps).server.SameUnder key (w'.after steps).server := by
  induction steps generalizing w w' with
  | nil => exact h
  | cons st steps ih =>
      refine ih (server_step h ?_) fun r hr => hsteps r (List.mem_cons_of_mem st hr)
      rintro r rfl
      exact hsteps r (List.mem_cons_self ..)

end Servers

/-- A request leaves what lies under every key that it does not name as it is, with its
deadline, and the clock and the script with it; only a restored file changes the files.
Whatever is asked later about such a key alone is answered as if the request had not been
made: after any waiting and any other requests, as far as the key is only asked about
without files; and with the files as they then are also where files are stored from and
restored under the key, unless some are restored from under another. -/
theorem keys_are_independent (w : World) {r : Request} {key : String} (h : ¬r.Names key) :
    let w' := w.step (.request r)
    let unasked : World := { w with tree := w'.tree }
    (Dict.get? w'.server.server.entries key = Dict.get? w.server.server.entries key ∧
        w'.server.server.now = w.server.server.now ∧ w'.server.script = w.server.script) ∧
      (¬r.Saves → w'.tree = w.tree) ∧
      (∀ (later : List Step) (look : Request),
        (∀ r', .request r' ∈ later → r'.Names key → r'.Fileless) → look.Only key →
          look.Fileless → (w'.after later).answer look = (w.after later).answer look) ∧
      ∀ (later : List Step) (look : Request),
        (∀ r', .request r' ∈ later → r'.Saves → r'.Names key) → look.Only key →
          (w'.after later).answer look = (unasked.after later).answer look := by
  intro w' unasked
  have hkeep := Request.keeps_run h w.server w.tree
  have hserver : w'.server.SameUnder key w.server := ⟨hkeep.script, hkeep.now, hkeep.live?⟩
  refine ⟨⟨hkeep.entry, hkeep.now, hkeep.script⟩, fun hsaves => tree_step hsaves, ?_, ?_⟩
  · intro later look hlater hlook hfiles
    exact answer_fileless (server_after hserver hlater) hlook hfiles
  · intro later look hlater hlook
    have hsame : SameUnder key w' unasked := ⟨hserver, rfl⟩
    exact ((hsame.after hlater).perform hlook).result

/-- A write with a time limit that breaks off before its second command, beside a
sequence with a deadline of its own. -/
theorem undone_write_leaves_the_other_key :
    let w : World := ⟨⟨{ entries := [("q", ⟨.sequence ["a"], some 5000⟩)] },
      [("expire", .error .wrongKind)]⟩, {}⟩
    let write : Request :=
      .operate (.hashPutAll (.text "n") (.map [(.text "f", .text "v")]) (.int 60))
    let w' := w.step (.request write)
    (∃ e, w.answer write = .error e) ∧
      Dict.get? w'.server.server.entries "q" = some ⟨.sequence ["a"], some 5000⟩ ∧
      ∀ look : Request, look.Only "q" →
        (w'.after [.wait 4999]).answer look = (w.after [.wait 4999]).answer look := by
  intro w write w'
  have hother : ¬write.Names "q" := by
    simp [write, Request.Names, Operation.Names, Operation.keys]
  obtain ⟨⟨hentry, -, -⟩, htree, -, hlater⟩ := keys_are_independent w hother
  refine ⟨⟨_, rfl⟩, hentry, ?_⟩
  intro look hlook
  have hsame := hlater [.wait 4999] look (by simp) hlook
  rwa [htree id] at hsame

end World

end FileStash
