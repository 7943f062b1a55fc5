import FileStash.Sweep.Command
import FileStash.Proofs.FileTree.Removing

namespace FileStash

namespace Program

variable {σ α β : Type}

/-- The journal behind a run has a property. -/
def Leaves (client : Client σ) (stamp : Stamp) (I : Journal → Prop) (p : Program α) (s : σ)
    (j : Journal) : Prop :=
  I (p.journaled client stamp s j).2.2

theorem Leaves.andThen {client : Client σ} {stamp : Stamp} {I : Journal → Prop}
    {p : Program α} {f : α → Program β} {s : σ} {j : Journal}
    (hp : p.Leaves client stamp I s j)
    (hf : ∀ a s' j', I j' → (f a).Leaves client stamp I s' j') :
    (p.andThen f).Leaves client stamp I s j := by
  unfold Leaves at hp ⊢
  rw [journaled_andThen]
  rcases hrun : p.journaled client stamp s j with ⟨e | a, s', j'⟩
  · rw [hrun] at hp
    exact hp
  · rw [hrun] at hp
    exact hf a s' j' hp

theorem leaves_currentTree_bind {client : Client σ} {stamp : Stamp} {I : Journal → Prop} {s : σ}
    {j : Journal} {f : FileTree → Program α} (hf : (f j.tree).Leaves client stamp I s j) :
    (currentTree >>= f).Leaves client stamp I s j :=
  hf

theorem leaves_ofConverted {client : Client σ} {stamp : Stamp} {I : Journal → Prop} {s : σ}
    {j : Journal} (hj : I j) (x : Except Failure α) :
    (ofConverted x).Leaves client stamp I s j := by
  cases x with
  | error f => exact hj
  | ok a => exact hj

end Program

namespace Sweep

open FileTree (PlainName)

variable {σ : Type} {client : Client σ} {stamp : Stamp} {I : Journal → Prop} {o : Order}
  {p dir : Path} {t t' : FileTree} {s : σ} {j : Journal} {f : Failure} {size : Nat}
  {names : List String} {name : String}

theorem of_isPlainFile (h : isPlainFile o.obstacles t p = .ok true) :
    t.isFile p = .ok true ∧ t.isLink p = .ok false := by
  unfold isPlainFile unlessObstacle at h
  cases hkind : o.obstacles.kind p.name with
  | some code => simp [hkind, bind, Except.bind] at h
  | none =>
      cases hfile : t.isFile p with
      | error f => simp [hkind, hfile, bind, Except.bind] at h
      | ok file =>
          cases hlink : t.isLink p with
          | error f => cases file <;> simp [hkind, hfile, hlink, bind, Except.bind] at h
          | ok link =>
              cases file <;> cases link <;>
                simp [hkind, hfile, hlink, bind, Except.bind] at h ⊢

theorem isLink_of_selected (h : selected? o t p = .ok (some size)) : t.isLink p = .ok false := by
  cases hplain : isPlainFile o.obstacles t p with
  | error f => simp [selected?, hplain, bind, Except.bind] at h
  | ok plain =>
      cases plain with
      | false => simp [selected?, hplain, bind, Except.bind] at h
      | true => exact (of_isPlainFile hplain).2

theorem of_removal (h : removal o t p = .ok t') : t' = t ∨ t.unlink p = .ok t' := by
  unfold removal unlessObstacle at h
  split at h
  · rename_i hnone
    exact .inl (Except.ok.inj h).symm
  · cases hobstacle : o.obstacles.removal p.name with
    | some code => simp [hobstacle] at h
    | none =>
        simp only [hobstacle] at h
        exact .inr h

theorem isSome_of_listing (h : t.listing p = .ok names) (hname : name ∈ names) :
    ∃ dir, (t.get? (dir ++ [name])).isSome := by
  unfold FileTree.listing at h
  cases hstat : t.stat p with
  | error f => simp [hstat, bind, Except.bind] at h
  | ok found =>
      obtain ⟨dir, n⟩ := found
      cases n with
      | file | link => simp [hstat, bind, Except.bind, FileTree.failing] at h
      | directory =>
          simp only [hstat, bind, Except.bind, Except.ok.injEq] at h
          subst h
          exact ⟨dir, FileTree.mem_names_iff.mp hname⟩

section Kept

variable (hnote : ∀ (j : Journal) (r : Record), r.logger = logger → I j → I (j.emit stamp r.notice))
include hnote

theorem leaves_note (hj : I j) (severity : Severity) (message : String) :
    (Program.note severity logger message).Leaves client stamp I s j :=
  hnote j ⟨severity, logger, message⟩ rfl hj

theorem leaves_troubled (hj : I j) : (troubled p f).Leaves client stamp I s j := by
  unfold troubled
  split
  · exact leaves_note hnote hj _ _
  · exact hj

theorem leaves_removeSelected (hj : I j)
    (hremove : o.dryRun = false → ∀ t, removal o j.tree p = .ok t → I { j with tree := t }) :
    (removeSelected o p).Leaves client stamp I s j := by
  unfold removeSelected
  split
  · exact hj
  · rename_i hforced
    refine Program.leaves_currentTree_bind ?_
    cases hremoval : removal o j.tree p with
    | error f => exact leaves_troubled hnote hj
    | ok t => exact hremove (by simpa using hforced) t hremoval

theorem leaves_visit (hj : I j) (tally : Tally)
    (hremove : j.tree.isLink p = .ok false → o.dryRun = false → ∀ t, removal o j.tree p = .ok t →
      I { j with tree := t }) :
    (visit o tally p).Leaves client stamp I s j := by
  unfold visit
  refine Program.leaves_currentTree_bind ?_
  cases hselected : selected? o j.tree p with
  | error f => exact Program.Leaves.andThen (leaves_troubled hnote hj) fun _ _ _ hj' => hj'
  | ok size =>
      cases size with
      | none => exact hj
      | some size =>
          refine Program.Leaves.andThen (leaves_removeSelected hnote hj ?_) fun _ _ _ hj' => hj'
          exact hremove (isLink_of_selected hselected)

/-- The names are only known to have been there when the sweep began; what is under
them is looked at when it is their turn. -/
theorem leaves_visitAll
    (hremove : ∀ j : Journal, I j → ∀ name ∈ names, j.tree.isLink (dir.child name) = .ok false →
      o.dryRun = false → ∀ t, removal o j.tree (dir.child name) = .ok t → I { j with tree := t })
    (hj : I j) (tally : Tally) : (visitAll o dir tally names).Leaves client stamp I s j := by
  induction names generalizing s j tally with
  | nil => exact hj
  | cons name names ih =>
      have hfirst : (visit o tally (dir.child name)).Leaves client stamp I s j :=
        leaves_visit hnote hj tally (hremove j hj name (List.mem_cons_self ..))
      refine hfirst.andThen fun tally' s' j' hj' => ih ?_ hj' tally'
      exact fun j hj name hname => hremove j hj name (List.mem_cons_of_mem _ hname)

theorem leaves_sweep
    (hplain : ∀ dir name, (j.tree.get? (dir ++ [name])).isSome → PlainName name)
    (hremove : ∀ j : Journal, I j → ∀ name, PlainName name →
      j.tree.isLink (dir.child name) = .ok false → o.dryRun = false →
        ∀ t, removal o j.tree (dir.child name) = .ok t → I { j with tree := t })
    (hj : I j) : (sweep o dir).Leaves client stamp I s j := by
  unfold sweep
  refine Program.leaves_currentTree_bind ?_
  cases hlisting : j.tree.listing dir with
  | error f => exact hj
  | ok names =>
      refine leaves_visitAll hnote (fun j' hj' name hname => hremove j' hj' name ?_) hj {}
      obtain ⟨dir', hthere⟩ := isSome_of_listing hlisting hname
      exact hplain dir' name hthere

theorem leaves_sweepAndReport
    (hplain : ∀ j : Journal, I j → ∀ dir name, (j.tree.get? (dir ++ [name])).isSome →
      PlainName name)
    (hremove : ∀ j : Journal, I j → ∀ name, PlainName name →
      j.tree.isLink (dir.child name) = .ok false → o.dryRun = false →
        ∀ t, removal o j.tree (dir.child name) = .ok t → I { j with tree := t })
    (hj : I j) : (sweepAndReport o dir).Leaves client stamp I s j := by
  refine Program.Leaves.andThen (leaves_note hnote hj _ _) fun _ _ j₁ hj₁ => ?_
  refine Program.Leaves.andThen (leaves_sweep hnote (hplain j₁ hj₁) hremove hj₁)
    fun tally _ j₂ hj₂ => ?_
  refine Program.Leaves.andThen (leaves_note hnote hj₂ _ _) fun _ _ j₃ hj₃ => ?_
  refine Program.Leaves.andThen (Program.leaves_ofConverted hj₃ _) fun shown _ j₄ hj₄ => ?_
  refine Program.Leaves.andThen (leaves_note hnote hj₄ _ _) fun _ _ j₅ hj₅ => ?_
  by_cases hdry : o.dryRun
  · simp only [hdry, if_true]
    exact leaves_note hnote hj₅ _ _
  · simp only [hdry]
    exact hj₅

end Kept

end Sweep

end FileStash
