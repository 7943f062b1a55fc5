import FileStash.Proofs.FileTree.Descent

namespace FileStash.FileTree

variable {t : FileTree} {p : Path}

/-- What tracing has come to has no slash in its names. -/
def Progress.Unslashed : Progress → Prop
  | .reached spot seen => (pathOf spot.loc).Unslashed ∧
      ∀ link done, Dict.get? seen link = some (some done) → (pathOf done.loc).Unslashed
  | .stuck path => path.Unslashed

theorem unslashed_pieces (cs : List Char) : ∀ c ∈ Path.pieces cs, '/' ∉ c.toList := by
  intro c hc
  obtain ⟨part, hpart, rfl⟩ := List.mem_map.mp hc
  rw [String.toList_ofList]
  exact Text.not_mem_of_splitOn hpart

theorem unslashed_joinRest {path : Path} (h : path.Unslashed) (rest : List String) :
    (joinRest path rest).Unslashed :=
  h.join (Path.unslashed_ofText _)

theorem Progress.Unslashed.note {spot : Spot} {seen : Seen}
    (h : (Progress.reached spot seen).Unslashed) (link : Spot) {known : Option Spot}
    (hknown : ∀ done ∈ known, (pathOf done.loc).Unslashed) :
    (Progress.reached spot (Dict.insert seen link known)).Unslashed := by
  refine ⟨h.1, fun other done hother => ?_⟩
  rw [Dict.get?_insert] at hother
  split at hother
  · exact hknown done (Option.some.inj hother)
  · exact h.2 other done hother

theorem unslashed_of_trace {expand : Spot → String → Seen → Access Progress}
    (hexpand : ∀ spot target seen r, (Progress.reached spot seen).Unslashed →
      expand spot target seen = .ok r → r.Unslashed)
    {spot : Spot} {seen : Seen} {cs : List String} {r : Progress}
    (hcs : ∀ c ∈ cs, '/' ∉ c.toList) (hspot : (Progress.reached spot seen).Unslashed)
    (h : trace t expand spot seen cs = .ok r) : r.Unslashed := by
  induction cs generalizing spot seen with
  | nil =>
      cases h
      exact hspot
  | cons c cs ih =>
      obtain ⟨hloc, hseen⟩ := hspot
      have hrest : ∀ c ∈ cs, '/' ∉ c.toList := fun d hd => hcs d (List.mem_cons_of_mem c hd)
      unfold trace at h
      by_cases hdot : c = "" ∨ c = "."
      · rw [if_pos hdot] at h
        exact ih hrest ⟨hloc, hseen⟩ h
      · rw [if_neg hdot] at h
        by_cases hup : c = ".."
        · rw [if_pos hup] at h
          have habove : (pathOf spot.up.loc).Unslashed :=
            fun d hd => hloc d (List.dropLast_subset spot.loc hd)
          exact ih hrest ⟨habove, hseen⟩ h
        · rw [if_neg hup] at h
          have hdown : (pathOf (spot.down c).loc).Unslashed := by
            intro d hd
            rcases List.mem_append.mp hd with hd | hd
            · exact hloc d hd
            · exact List.mem_singleton.mp hd ▸ hcs c (List.mem_cons_self ..)
          by_cases hnul : hasNul c
          · simp [hnul] at h
          · simp only [hnul, Bool.false_eq_true, if_false] at h
            cases hlink : t.link? (spot.down c).loc with
            | none =>
                simp only [hlink] at h
                exact ih hrest ⟨hdown, hseen⟩ h
            | some target =>
                simp only [hlink] at h
                cases hknown : Dict.get? seen (spot.down c) with
                | some known =>
                    cases known with
                    | some done =>
                        simp only [hknown] at h
                        exact ih hrest ⟨hseen _ done hknown, hseen⟩ h
                    | none =>
                        simp only [hknown, Except.ok.injEq] at h
                        exact h ▸ unslashed_joinRest hdown cs
                | none =>
                    simp only [hknown] at h
                    cases hlead : expand spot target (Dict.insert seen (spot.down c) none) with
                    | error f => simp [hlead] at h
                    | ok progress =>
                        have hprogress := hexpand _ _ _ _
                          (Progress.Unslashed.note ⟨hloc, hseen⟩ (spot.down c) (by simp)) hlead
                        cases progress with
                        | stuck path =>
                            simp only [hlead, Except.ok.injEq] at h
                            exact h ▸ unslashed_joinRest hprogress cs
                        | reached done seen' =>
                            simp only [hlead] at h
                            refine ih hrest (hprogress.note (spot.down c) fun other hother => ?_) h
                            exact Option.some.inj hother ▸ hprogress.1

theorem unslashed_of_expandLink {depth : Nat} {dir : Spot} {target : String} {seen : Seen}
    {r : Progress} (hdir : (Progress.reached dir seen).Unslashed)
    (h : expandLink t depth dir target seen = .ok r) : r.Unslashed := by
  induction depth generalizing dir target seen r with
  | zero =>
      cases h
      exact unslashed_joinRest hdir.1 _
  | succ depth ih =>
      refine unslashed_of_trace (fun _ _ _ _ hspot => ih hspot) (unslashed_pieces _) ?_ h
      unfold spotOf
      split
      · exact ⟨nofun, hdir.2⟩
      · exact hdir

theorem unslashed_normalise {p : Path} (h : p.Unslashed) : (normalise p).Unslashed := by
  have hdone : ∀ (parts done : List String), (∀ c ∈ parts, '/' ∉ c.toList) →
      (∀ c ∈ done, '/' ∉ c.toList) →
      ∀ c ∈ parts.foldl (fun done c => if c = ".." then done.dropLast else done ++ [c]) done,
        '/' ∉ c.toList := by
    intro parts
    induction parts with
    | nil => exact fun done _ hdone => hdone
    | cons c parts ih =>
        intro done hparts hdone
        refine ih _ (fun d hd => hparts d (List.mem_cons_of_mem c hd)) ?_
        dsimp only
        split
        · exact fun d hd => hdone d (List.dropLast_subset done hd)
        · intro d hd
          rcases List.mem_append.mp hd with hd | hd
          · exact hdone d hd
          · exact List.mem_singleton.mp hd ▸ hparts c (List.mem_cons_self ..)
  exact hdone p.parts [] h nofun

theorem Lawful.unslashed_of_resolve (h : t.Lawful) (hslash : p.Unslashed) {q : Path}
    (hq : t.resolve p = .ok q) : q.Unslashed := by
  have hfollow : t.follow p = .ok q := by
    unfold resolve at hq
    cases hfollow : t.follow p with
    | error f => simp [hfollow, bind, Except.bind] at hq
    | ok real =>
        simp only [hfollow, bind, Except.bind] at hq
        split at hq
        · cases hq
        · cases hq
        · exact hq
  unfold follow at hfollow
  have hroot : (pathOf (⟨false, []⟩ : Spot).loc).Unslashed := nofun
  have hhome : (pathOf (⟨true, t.home⟩ : Spot).loc).Unslashed :=
    fun c hc => (h.names _ _ h.home c hc).noSlash
  have hstart : ∃ start : Spot, (pathOf start.loc).Unslashed ∧
      (if p.isAbsolute then (⟨false, []⟩ : Spot) else ⟨true, t.home⟩) = start := by
    split
    · exact ⟨_, hroot, rfl⟩
    · exact ⟨_, hhome, rfl⟩
  obtain ⟨start, hstart, heq⟩ := hstart
  rw [heq] at hfollow
  cases htrace : trace t (expandLink t t.maxDepth) start [] p.parts with
  | error f => simp [htrace, bind, Except.bind] at hfollow
  | ok progress =>
      have hprogress := unslashed_of_trace
        (fun _ _ _ _ hspot hlead => unslashed_of_expandLink hspot hlead) hslash
        ⟨hstart, by simp [Dict.get?]⟩ htrace
      cases progress with
      | reached spot seen =>
          simp only [htrace, bind, Except.bind, Except.ok.injEq] at hfollow
          exact hfollow ▸ hprogress.1
      | stuck path =>
          simp only [htrace, bind, Except.bind, Except.ok.injEq] at hfollow
          exact hfollow ▸ unslashed_normalise hprogress

end FileStash.FileTree
