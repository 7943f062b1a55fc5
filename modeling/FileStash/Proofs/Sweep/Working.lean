import FileStash.Proofs.Logging.Noting
import FileStash.Proofs.Sweep.Report
import FileStash.Proofs.Sweep.Sparing

namespace FileStash.Sweep

variable {σ : Type} {client : Client σ} {s : σ} {t u : FileTree} {dir p : Path}
  {place : Location} {c : Context} {a : Arguments} {r : Record}

def Own (r : Record) : Prop :=
  r.logger = logger ∧ Severity.info.level ≤ r.severity.level

theorem own_noted (message : String) : Own (noted message) :=
  ⟨rfl, Int.le_refl _⟩

theorem notes_note (message : String) : (note message).Notes Own :=
  ⟨own_noted message, trivial⟩

theorem own_complaint (p : Path) (f : Failure) : Own (complaint p f) :=
  ⟨rfl, by show Severity.info.level ≤ Severity.warning.level; decide⟩

theorem notes_troubled (p : Path) (f : Failure) : (troubled p f).Notes Own := by
  unfold troubled
  split
  · exact ⟨own_complaint p f, trivial⟩
  · trivial

theorem notes_removeSelected (o : Order) (p : Path) : (removeSelected o p).Notes Own := by
  unfold removeSelected
  split
  · trivial
  · refine Program.notes_currentTree_bind fun t => ?_
    split
    · trivial
    · exact notes_troubled p _

theorem notes_visit (o : Order) (tally : Tally) (p : Path) : (visit o tally p).Notes Own := by
  refine Program.notes_currentTree_bind fun t => ?_
  split
  · exact (notes_troubled p _).andThen fun _ => trivial
  · trivial
  · exact (notes_removeSelected o p).andThen fun _ => trivial

theorem notes_visitAll (o : Order) (dir : Path) (tally : Tally) (names : List String) :
    (visitAll o dir tally names).Notes Own := by
  induction names generalizing tally with
  | nil => trivial
  | cons name names ih => exact (notes_visit o tally _).andThen ih

theorem notes_reportTally (o : Order) (tally : Tally) : (reportTally o tally).Notes Own := by
  unfold reportTally
  generalize readableSize (.int tally.octets) = size
  refine (notes_note _).andThen fun _ => ?_
  refine (Program.notes_ofConverted _).andThen fun shown => ?_
  refine (notes_note _).andThen fun _ => ?_
  split
  · exact notes_note _
  · trivial

theorem notes_sweepAndReport (o : Order) (dir : Path) : (sweepAndReport o dir).Notes Own := by
  have hsweep : (sweep o dir).Notes Own := Program.notes_currentTree_bind fun t =>
    (Program.notes_ofConverted _).andThen (notes_visitAll o dir {})
  rw [sweepAndReport_eq]
  exact ⟨own_noted _, hsweep.andThen (notes_reportTally o)⟩

theorem notes_work (c : Context) (a : Arguments) : (work c a).Notes Own := by
  rw [work_eq]
  refine fun t => (Program.notes_ofConverted _).andThen fun real =>
    (Program.notes_ofConverted _).andThen fun sweepable => ?_
  unfold workAt
  split
  · exact (notes_note _).andThen fun _ => trivial
  · split
    · exact ⟨⟨rfl, by decide⟩, trivial⟩
    · exact (notes_sweepAndReport _ _).andThen fun _ => trivial

theorem Own.shows (h : Own r) (a : Arguments) : Journal.Shows (levelOf a) r := by
  have hlevel : levelOf a ≤ Severity.info.level := by
    unfold levelOf
    split <;> decide
  exact ⟨h.1 ▸ .part (by decide), Int.le_trans hlevel h.2⟩

structure Swept (c : Context) (a : Arguments) (t : FileTree) (dir : Path) (place : Location) :
    Prop where
  leads : (meant c a).bind t.resolve = .ok dir
  root : dir ≠ Path.ofText "/"
  directory : t.stat dir = .ok (place, .directory)

theorem Swept.unique {dir' : Path} {place' : Location} (h : Swept c a t dir place)
    (h' : Swept c a t dir' place') : dir' = dir ∧ place' = place := by
  obtain rfl : dir' = dir := Except.ok.inj (h'.leads.symm.trans h.leads)
  have hplace : (place', Node.directory) = (place, .directory) :=
    Except.ok.inj (h'.directory.symm.trans h.directory)
  exact ⟨rfl, congrArg Prod.fst hplace⟩

theorem isSweepable_iff :
    isSweepable t p = .ok true ↔ ∃ place, t.stat p = .ok (place, .directory) := by
  unfold isSweepable FileTree.exists? FileTree.isDirectory FileTree.asks
  cases hstat : t.stat p with
  | ok found =>
      obtain ⟨place, n⟩ := found
      simp [bind, Except.bind]
  | error f => cases hf : FileTree.isAbsence f <;> simp [bind, Except.bind, hf]

theorem eq_true_iff_of_isSweepable {sweepable : Bool} (h : isSweepable t p = .ok sweepable) :
    sweepable = true ↔ ∃ place, t.stat p = .ok (place, .directory) := by
  rw [← isSweepable_iff, h, Except.ok.injEq]

theorem of_written_work {write : Record → FileTree → FileTree} {code : Nat}
    (hresult : ((work c a).written client write s u).result = .ok code) :
    let r := (work c a).written client write s u
    (∃ record, Own record ∧ r.records = [record] ∧ r.tree = write record u ∧
      ∀ dir place, ¬Swept c a u dir place) ∨
    ∃ dir place, Swept c a u dir place ∧
      let swept := (sweepAndReport (orderOf c a) dir).written client write s u
      swept.result = .ok () ∧ r.records = swept.records ∧ r.tree = swept.tree := by
  have hwork : (work c a).written client write s u =
      ((Program.ofConverted ((meant c a).bind u.resolve)).andThen fun real =>
        (Program.ofConverted (isSweepable u real)).andThen (workAt c a real)).written
          client write s u := rfl
  rw [hwork] at hresult ⊢
  cases hleads : (meant c a).bind u.resolve with
  | error f =>
      rw [hleads] at hresult
      cases hresult
  | ok dir =>
      rw [hleads] at hresult
      cases hsweepable : isSweepable u dir with
      | error f =>
          simp only [Program.ofConverted, Program.andThen, hsweepable] at hresult
          cases hresult
      | ok sweepable =>
          have hdirectory := eq_true_iff_of_isSweepable hsweepable
          simp only [Program.ofConverted, Program.andThen, hsweepable, workAt] at hresult ⊢
          cases sweepable with
          | false =>
              refine .inl ⟨_, own_noted _, rfl, rfl, fun dir' place h => ?_⟩
              obtain rfl := Except.ok.inj (hleads.symm.trans h.leads)
              exact absurd (hdirectory.mpr ⟨place, h.directory⟩) Bool.false_ne_true
          | true =>
              obtain ⟨place, hplace⟩ := hdirectory.mp rfl
              by_cases hroot : dir = Path.ofText "/"
              · simp only [hroot, if_true] at hresult ⊢
                refine .inl ⟨⟨.error, logger, "Refusing to operate on root directory."⟩,
                  ⟨rfl, by decide⟩, rfl, rfl, fun dir' place h => ?_⟩
                exact h.root ((Except.ok.inj (hleads.symm.trans h.leads)).symm.trans hroot)
              · simp only [hroot, if_false, Bool.not_true, Bool.false_eq_true] at hresult ⊢
                refine .inr ⟨dir, place, ⟨hleads, hroot, hplace⟩, ?_⟩
                have hswept : ((sweepAndReport (orderOf c a) dir).written client write s u).result =
                    .ok () := by
                  cases hreport : ((sweepAndReport (orderOf c a) dir).written client write s
                      u).result with
                  | ok _ => rfl
                  | error e =>
                      rw [Program.written_andThen_error hreport] at hresult
                      cases hresult
                rw [Program.written_andThen_ok hswept]
                exact ⟨hswept, List.append_nil _, rfl⟩

theorem of_perform {code : Nat} (h : (perform c a { tree := t }).1 = .exit code) :
    (({ tree := t } : Journal).enable (.int (levelOf a)) (recordFile a)).1 = .ok () ∧
      let run := (work c a).journaled noClient c.stamp () (ready a t)
      run.1 = .ok code ∧ (perform c a { tree := t }).2 = run.2.2 := by
  rw [perform_eq] at h ⊢
  split at h
  · cases h
  · rename_i henabled
    rw [henabled]
    refine ⟨rfl, ?_, rfl⟩
    dsimp only at h ⊢
    split at h
    · rename_i hworked
      cases h
      exact hworked
    · cases h

end FileStash.Sweep
