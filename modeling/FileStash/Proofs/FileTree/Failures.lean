import FileStash.Proofs.FileTree.LoopFree

namespace FileStash.FileTree

variable {t : FileTree} {p : Path} {f : Failure}

theorem isSystem_of_resolving {follow : Bool} (hnul : p.hasNul = false)
    (h : t.resolving follow p = .error f) : f.isSystem = true := by
  simp only [resolving, hnul, Bool.false_eq_true, if_false] at h
  cases hlook : t.lookUp follow p with
  | ok place => simp [hlook, mapError_ok] at h
  | error code =>
      simp only [hlook, mapError_error, Except.error.injEq] at h
      rw [← h]
      rfl

theorem isSystem_of_stat (hnul : p.hasNul = false) (h : t.stat p = .error f) :
    f.isSystem = true := by
  unfold stat at h
  cases hplace : t.resolving true p with
  | error f' =>
      simp only [hplace, bind, Except.bind, Except.error.injEq] at h
      rw [← h]
      exact isSystem_of_resolving hnul hplace
  | ok place =>
      cases place with
      | found loc n => simp [hplace, bind, Except.bind] at h
      | vacant loc =>
          simp only [hplace, bind, Except.bind, failing, Except.error.injEq] at h
          rw [← h]
          rfl

theorem resolving_nul {follow : Bool} (hnul : p.hasNul = true) :
    t.resolving follow p = .error (.illFormed .embeddedNul) := by
  simp [resolving, hnul]

theorem read_nul (hnul : p.hasNul = true) :
    t.read p = .error (.illFormed .embeddedNul) := by
  simp [read, stat, resolving_nul hnul, bind, Except.bind]

theorem isSystem_of_read (hnul : p.hasNul = false) (h : t.read p = .error f) :
    f.isSystem = true := by
  unfold read at h
  cases hstat : t.stat p with
  | error f' =>
      simp only [hstat, bind, Except.bind, Except.error.injEq] at h
      rw [← h]
      exact isSystem_of_stat hnul hstat
  | ok r =>
      obtain ⟨loc, n⟩ := r
      cases n with
      | file content modified => simp [hstat, bind, Except.bind] at h
      | directory =>
          simp only [hstat, bind, Except.bind, failing, Except.error.injEq] at h
          rw [← h]
          rfl
      | link target =>
          simp only [hstat, bind, Except.bind, failing, Except.error.injEq] at h
          rw [← h]
          rfl

theorem isSystem_of_write {content : List UInt8} (hnul : p.hasNul = false)
    (h : t.write p content = .error f) : f.isSystem = true := by
  unfold write openPlace at h
  cases hplace : t.resolving true p with
  | error f' =>
      simp only [hplace, bind, Except.bind, Except.error.injEq] at h
      rw [← h]
      exact isSystem_of_resolving hnul hplace
  | ok place =>
      cases place with
      | vacant loc => simp [hplace, bind, Except.bind] at h
      | found loc n =>
          cases n with
          | file old modified => simp [hplace, bind, Except.bind] at h
          | directory =>
              simp only [hplace, bind, Except.bind, failing, Except.error.injEq] at h
              rw [← h]
              rfl
          | link target =>
              simp only [hplace, bind, Except.bind, failing, Except.error.injEq] at h
              rw [← h]
              rfl

theorem isSystem_of_makeDirectory (hnul : p.hasNul = false)
    (h : t.makeDirectory p = .error f) : f.isSystem = true := by
  unfold makeDirectory at h
  cases hplace : t.resolving false p with
  | error f' =>
      simp only [hplace, bind, Except.bind, Except.error.injEq] at h
      rw [← h]
      exact isSystem_of_resolving hnul hplace
  | ok place =>
      cases place with
      | vacant loc => simp [hplace, bind, Except.bind] at h
      | found loc n =>
          simp only [hplace, bind, Except.bind, failing, Except.error.injEq] at h
          rw [← h]
          rfl

theorem isSystem_of_asks {question : Node → Bool} (hnul : p.hasNul = false)
    (h : t.asks p question = .error f) : f.isSystem = true := by
  unfold asks at h
  cases hstat : t.stat p with
  | ok r => simp [hstat] at h
  | error f' =>
      simp only [hstat] at h
      split at h
      · cases h
      · cases h
        exact isSystem_of_stat hnul hstat

theorem isSystem_of_isLink (hnul : p.hasNul = false)
    (h : t.isLink p = .error f) : f.isSystem = true := by
  unfold isLink at h
  split at h
  · cases h
  · cases h
  · rename_i f' hplace
    split at h
    · cases h
    · cases h
      exact isSystem_of_resolving hnul hplace

theorem isSystem_of_isDirectory (hnul : p.hasNul = false)
    (h : t.isDirectory p = .error f) : f.isSystem = true :=
  isSystem_of_asks hnul h

theorem isSystem_of_ensureDirectory (hnul : p.hasNul = false)
    {above : Failure → Change}
    (habove : ∀ f f', f.isSystem = true → (above f).1 = .error f' → f'.isSystem = true)
    (h : (t.ensureDirectory p above).1 = .error f) : f.isSystem = true := by
  unfold ensureDirectory at h
  cases hmake : t.makeDirectory p with
  | ok t' => simp [hmake] at h
  | error f' =>
      have hsystem := isSystem_of_makeDirectory hnul hmake
      simp only [hmake] at h
      split at h
      · exact habove _ _ hsystem h
      · simp only [unlessDirectory, hsystem, if_true] at h
        split at h
        · cases h
        · cases h
          exact hsystem
        · rename_i hask
          cases h
          exact isSystem_of_isDirectory hnul hask

theorem hasNul_parent (hnul : p.hasNul = false) : p.parent.hasNul = false := by
  simp only [Path.hasNul, List.any_eq_false] at hnul ⊢
  exact fun c hc => hnul c ((List.dropLast_prefix _).subset hc)

theorem isSystem_of_makeDirectoriesUpTo {n : Nat} (hnul : p.hasNul = false)
    (h : (t.makeDirectoriesUpTo p n).1 = .error f) : f.isSystem = true := by
  induction n generalizing p f with
  | zero =>
      refine isSystem_of_ensureDirectory hnul (fun f' f'' hsystem h => ?_) h
      cases h
      exact hsystem
  | succ n ih =>
      refine isSystem_of_ensureDirectory hnul (fun f' f'' _ h => ?_) h
      rcases hmake : t.makeDirectoriesUpTo p.parent n with ⟨g | u, t'⟩
      · simp only [hmake] at h
        cases h
        exact ih (hasNul_parent hnul) (by rw [hmake])
      · simp only [hmake] at h
        refine isSystem_of_ensureDirectory hnul (fun g g' hsystem hg => ?_) h
        cases hg
        exact hsystem

/-! Real paths. -/

theorem of_trace_error {expand : Spot → String → Seen → Access Progress}
    (hexpand : ∀ dir target seen f, expand dir target seen = .error f →
      f = .illFormed .embeddedNul)
    {spot : Spot} {seen : Seen} {cs : List String}
    (h : trace t expand spot seen cs = .error f) : f = .illFormed .embeddedNul := by
  induction cs generalizing spot seen with
  | nil => cases h
  | cons c cs ih =>
      unfold trace at h
      split at h
      · exact ih h
      · split at h
        · exact ih h
        · split at h
          · cases h
            rfl
          · dsimp only at h
            split at h
            · exact ih h
            · split at h
              · exact ih h
              · cases h
              · split at h
                · rename_i f' hf
                  cases h
                  exact hexpand _ _ _ _ hf
                · cases h
                · exact ih h

theorem of_expandLink_error (depth : Nat) (dir : Spot) (target : String) (seen : Seen)
    (f : Failure) (h : expandLink t depth dir target seen = .error f) :
    f = .illFormed .embeddedNul := by
  induction depth generalizing dir target seen f with
  | zero => cases h
  | succ depth ih => exact of_trace_error ih h

theorem of_follow_error (h : t.follow p = .error f) : f = .illFormed .embeddedNul := by
  unfold follow at h
  cases htrace : trace t (expandLink t t.maxDepth)
      (if p.isAbsolute then ⟨false, []⟩ else ⟨true, t.home⟩) [] p.parts with
  | error f' =>
      simp only [htrace, bind, Except.bind, Except.error.injEq] at h
      rw [← h]
      exact of_trace_error (of_expandLink_error _) htrace
  | ok progress => cases progress <;> simp [htrace, bind, Except.bind] at h

theorem of_resolve_error (h : t.resolve p = .error f) :
    f = .illFormed .embeddedNul ∨ ∃ path, f = .linkLoop path := by
  unfold resolve at h
  cases hfollow : t.follow p with
  | error f' =>
      simp only [hfollow, bind, Except.bind, Except.error.injEq] at h
      rw [← h]
      exact .inl (of_follow_error hfollow)
  | ok real =>
      simp only [hfollow, bind, Except.bind] at h
      split at h
      · cases h
        exact .inr ⟨_, rfl⟩
      · cases h
        exact .inl rfl
      · cases h

theorem hasNul_of_resolve {q : Path} (h : t.resolve p = .ok q) : q.hasNul = false := by
  unfold resolve at h
  cases hfollow : t.follow p with
  | error f => simp [hfollow, bind, Except.bind] at h
  | ok real =>
      cases hnul : real.hasNul with
      | true =>
          have hstat : t.stat real = .error (.illFormed .embeddedNul) := by
            simp [stat, resolving_nul hnul, bind, Except.bind]
          simp [hfollow, hstat, bind, Except.bind] at h
      | false =>
          simp only [hfollow, bind, Except.bind] at h
          split at h
          · cases h
          · cases h
          · rw [← Except.ok.inj h]
            exact hnul

theorem of_safePath_error {base : Path} {name : String}
    (h : t.safePath base (.text name) = .error f) :
    f.isIllFormed = true ∨ ∃ q path, f = .linkLoop path ∧ t.resolve q = .error f := by
  have hresolve : ∀ {q f}, t.resolve q = .error f →
      f.isIllFormed = true ∨ ∃ q path, f = .linkLoop path ∧ t.resolve q = .error f := by
    intro q f hq
    rcases of_resolve_error hq with rfl | ⟨path, rfl⟩
    · exact .inl rfl
    · exact .inr ⟨q, path, rfl, hq⟩
  have hshown : (Value.text name).shown = .ok (Text.quote name) := by
    simp [Value.shown, Value.shown?_text]
  have hplain : (Value.text name).plain = .ok name := rfl
  simp only [safePath, Value.toPath, hshown, hplain, bind, Except.bind] at h
  cases hroot : t.resolve base with
  | error f' =>
      simp only [hroot, Except.error.injEq] at h
      exact h ▸ hresolve hroot
  | ok root =>
      cases hfull : t.resolve (root.join (Path.ofText name)) with
      | error f' =>
          simp only [hroot, hfull, Except.error.injEq] at h
          exact h ▸ hresolve hfull
      | ok full =>
          simp only [hroot, hfull] at h
          split at h
          · cases h
            exact .inl rfl
          · split at h
            · cases h
              exact .inl rfl
            · cases h

theorem Lawful.resolve_ne_linkLoop (h : t.Lawful) (hloops : t.LoopFree) (p : Path)
    (path : String) : t.resolve p ≠ .error (.linkLoop path) := by
  cases hnul : p.hasNul with
  | true => simp [resolve, h.tidy.follow_nul hloops hnul, bind, Except.bind]
  | false =>
      obtain ⟨loc, hloc⟩ := hloops.resolves hnul
      have hstat := stat_of_straight (isAbsolute_pathOf loc) (h.tidy.straight_of_resolves hloc)
      simp only [resolve, follow_of_resolves h.tidy.nulFree_pieces hloc, bind, Except.bind]
      split
      · rename_i path' hloop
        exact absurd hloop (hstat path')
      · simp
      · simp

theorem Lawful.safePath_ne_linkLoop (h : t.Lawful) (hloops : t.LoopFree) (base : Path)
    (name path : String) : t.safePath base (.text name) ≠ .error (.linkLoop path) := by
  intro hloop
  rcases of_safePath_error hloop with hill | ⟨q, path', hsame, hq⟩
  · cases hill
  · rw [hsame] at hq
    exact h.resolve_ne_linkLoop hloops q path' hq

end FileStash.FileTree
