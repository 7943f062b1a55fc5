import FileStash.Logging.Run
import FileStash.Proofs.Logging.Surfacing
import FileStash.Proofs.Program.Writing

namespace FileStash

/-- What is noted in a run with a journal, in this order. -/
def Program.noted {σ α : Type} (client : Client σ) (stamp : Stamp) :
    Program α → σ → Journal → List Record
  | .done _, _, _ => []
  | .fail _, _, _ => []
  | .call c next, s, j =>
      let reply := client s c
      (next reply.1).noted client stamp reply.2 j
  | .look next, s, j => (next j.tree).noted client stamp s j
  | .save t next, s, j => next.noted client stamp s { j with tree := t }
  | .log r next, s, j => r :: next.noted client stamp s (j.emit stamp r.notice)

/-- All that the program notes satisfies `P`, whatever it is answered and finds. -/
def Program.Notes {α : Type} (P : Record → Prop) : Program α → Prop
  | .done _ => True
  | .fail _ => True
  | .call _ next => ∀ reply, (next reply).Notes P
  | .look next => ∀ t, (next t).Notes P
  | .save _ next => next.Notes P
  | .log r next => P r ∧ next.Notes P

namespace Program

variable {α β : Type} {P : Record → Prop}

theorem Notes.andThen {p : Program α} {f : α → Program β} (hp : p.Notes P)
    (hf : ∀ a, (f a).Notes P) : (p.andThen f).Notes P := by
  induction p with
  | done a => exact hf a
  | fail e => trivial
  | call c next ih => exact fun reply => ih reply (hp reply)
  | look next ih => exact fun t => ih t (hp t)
  | save t next ih => exact ih hp
  | log r next ih => exact ⟨hp.1, ih hp.2⟩

theorem Notes.mono {P' : Record → Prop} {p : Program α} (hp : p.Notes P) (h : ∀ r, P r → P' r) :
    p.Notes P' := by
  induction p with
  | done a => trivial
  | fail e => trivial
  | call c next ih => exact fun reply => ih reply (hp reply)
  | look next ih => exact fun t => ih t (hp t)
  | save t next ih => exact ih hp
  | log r next ih => exact ⟨h r hp.1, ih hp.2⟩

theorem Notes.records_written {σ : Type} {client : Client σ} {write : Record → FileTree → FileTree}
    {p : Program α} (hp : p.Notes P) (s : σ) (t : FileTree) :
    ∀ r ∈ (p.written client write s t).records, P r := by
  induction p generalizing s t with
  | done a => exact nofun
  | fail e => exact nofun
  | call c next ih => exact ih _ (hp _) _ t
  | look next ih => exact ih t (hp t) s t
  | save t' next ih => exact ih hp s t'
  | log r next ih =>
      intro r' hr'
      rcases List.mem_cons.mp hr' with rfl | hr'
      · exact hp.1
      · exact ih hp.2 s _ r' hr'

theorem notes_currentTree_bind {f : FileTree → Program α} (hf : ∀ t, (f t).Notes P) :
    (currentTree >>= f).Notes P :=
  hf

theorem notes_ofConverted (x : Except Failure α) : (ofConverted x).Notes P := by
  cases x <;> trivial

end Program

def Record.line (stamp : Stamp) (r : Record) : List UInt8 :=
  r.notice.line stamp

namespace Journal

variable {σ α : Type} {files : List (Path × Location)} {level : Int}

/-- A record that is shown wherever the package's are. -/
def Shows (level : Int) (r : Record) : Prop :=
  Loggers.Member r.logger ∧ level ≤ r.severity.level

theorem journaled_eq_written (client : Client σ) (stamp : Stamp) (hlevel : 0 < level)
    (p : Program α) (s : σ) (j : Journal) (hprovided : j.loggers.Provided [] files)
    (hshowing : j.Showing level) (hp : p.Notes (Shows level)) :
    let r := p.written client (fun c t => t.appendAll (files.map (·.2)) (c.line stamp)) s j.tree
    let run := p.journaled client stamp s j
    p.noted client stamp s j = r.records ∧ run.1 = r.result ∧ run.2.1 = r.state ∧
      run.2.2.tree = r.tree ∧
      run.2.2.console = j.console ++ r.records.map (·.notice.consoleText stamp) := by
  intro r run
  induction p generalizing s j with
  | done a => exact ⟨rfl, rfl, rfl, rfl, (List.append_nil _).symm⟩
  | fail e => exact ⟨rfl, rfl, rfl, rfl, (List.append_nil _).symm⟩
  | call c next ih => exact ih _ _ j hprovided hshowing (hp _)
  | look next ih => exact ih _ s j hprovided hshowing (hp _)
  | save t next ih =>
      exact ih s { j with tree := t } hprovided ⟨hshowing.logger, hshowing.handlers⟩ hp
  | log c next ih =>
      obtain ⟨⟨hmember, hn⟩, hnext⟩ := hp
      obtain ⟨hconsole, htree⟩ :=
        hshowing.emit_of_clear hprovided hlevel (n := c.notice) hmember hn nofun stamp
      have hloggers : (j.emit stamp c.notice).loggers.Provided [] files := by
        rw [loggers_emit]
        exact hprovided.ensure _
      have hrest := ih s (j.emit stamp c.notice) hloggers (hshowing.emit stamp c.notice) hnext
      rw [htree] at hrest
      obtain ⟨hnoted, hresult, hstate, hend, hshown⟩ := hrest
      refine ⟨congrArg (c :: ·) hnoted, hresult, hstate, hend, ?_⟩
      have hmore : (Program.journaled client stamp (.log c next) s j).2.2.console = _ := hshown
      rw [hmore, hconsole, List.append_assoc]
      rfl

end Journal

end FileStash
