import FileStash.Proofs.FileTree.Straight

namespace FileStash.FileTree

variable {t : FileTree}

/-- Every link leads somewhere, though nothing need be there. -/
def LoopFree (t : FileTree) : Prop :=
  ∀ loc target, t.link? loc = some target → ∃ n loc', leads t n loc = some loc'

theorem LinkFree.loopFree (h : t.LinkFree) : t.LoopFree := by
  intro loc target hlink
  rw [h loc] at hlink
  cases hlink

theorem LoopFree.congr {t' : FileTree} (hlinks : ∀ loc, t.link? loc = t'.link? loc)
    (h : t.LoopFree) : t'.LoopFree := by
  intro loc target hlink
  obtain ⟨n, loc', hn⟩ := h loc target ((hlinks loc).trans hlink)
  exact ⟨n, loc', (leads_congr hlinks n loc).symm.trans hn⟩

theorem loopFree_of_nodes (n : Nat)
    (h : ∀ e ∈ t.nodes, (t.link? e.1).isSome → (leads t n e.1).isSome) : t.LoopFree := by
  intro loc target hlink
  obtain ⟨e, he, rfl⟩ := List.mem_map.mp (mem_keys_of_link? hlink)
  obtain ⟨loc', hloc'⟩ := Option.isSome_iff_exists.mp (h e he (by simp [hlink]))
  exact ⟨n, loc', hloc'⟩

theorem LoopFree.reaches (h : t.LoopFree) (loc : Location) (cs : List String) :
    ∃ loc', Reaches t loc cs loc' := by
  induction cs generalizing loc with
  | nil => exact ⟨loc, 0, rfl⟩
  | cons c cs ih =>
      by_cases hdot : c = "" ∨ c = "."
      · obtain ⟨loc', n, hn⟩ := ih loc
        exact ⟨loc', n, by rw [pass, if_pos hdot, hn]⟩
      · by_cases hup : c = ".."
        · obtain ⟨loc', n, hn⟩ := ih loc.dropLast
          exact ⟨loc', n, by rw [pass, if_neg hdot, if_pos hup, hn]⟩
        · cases hlink : t.link? (loc ++ [c]) with
          | none =>
              obtain ⟨loc', n, hn⟩ := ih (loc ++ [c])
              exact ⟨loc', n, by simp only [pass, hdot, hup, hlink, if_false, hn]⟩
          | some target =>
              obtain ⟨m, middle, hm⟩ := h _ _ hlink
              obtain ⟨loc', n, hn⟩ := ih middle
              refine ⟨loc', max m n, ?_⟩
              simp only [pass, hdot, hup, hlink, if_false,
                leads_mono (Nat.le_max_left m n) hm]
              exact pass_leads_mono (Nat.le_max_right m n) hn

theorem LoopFree.resolves (h : t.LoopFree) {p : Path} (hnul : p.hasNul = false) :
    ∃ loc, t.Resolves p loc := by
  obtain ⟨loc, hloc⟩ := h.reaches (t.startOfPath p) p.parts
  exact ⟨loc, hnul, hloc⟩

theorem trace_append {expand : Spot → String → Seen → Access Progress}
    {spot spot' : Spot} {seen seen' : Seen} {cs : List String} (ds : List String)
    (h : trace t expand spot seen cs = .ok (.reached spot' seen')) :
    trace t expand spot seen (cs ++ ds) = trace t expand spot' seen' ds := by
  induction cs generalizing spot seen with
  | nil =>
      cases h
      rfl
  | cons c cs ih =>
      rw [List.cons_append]
      unfold trace at h
      conv => lhs; unfold trace
      by_cases hdot : c = "" ∨ c = "."
      · rw [if_pos hdot] at h ⊢
        exact ih h
      · rw [if_neg hdot] at h ⊢
        by_cases hup : c = ".."
        · rw [if_pos hup] at h ⊢
          exact ih h
        · rw [if_neg hup] at h ⊢
          by_cases hc : hasNul c
          · simp [hc] at h
          · simp only [hc, Bool.false_eq_true, if_false] at h ⊢
            cases hlink : t.link? (spot.down c).loc with
            | none =>
                simp only [hlink] at h ⊢
                exact ih h
            | some target =>
                simp only [hlink] at h ⊢
                cases hseen : Dict.get? seen (spot.down c) with
                | some known =>
                    cases known with
                    | some done =>
                        simp only [hseen] at h ⊢
                        exact ih h
                    | none => simp [hseen] at h
                | none =>
                    simp only [hseen] at h ⊢
                    cases hexpand : expand spot target (Dict.insert seen (spot.down c) none) with
                    | error f => simp [hexpand] at h
                    | ok progress =>
                        cases progress with
                        | stuck path => simp [hexpand] at h
                        | reached done seen'' =>
                            simp only [hexpand] at h ⊢
                            exact ih h

theorem trace_nul {expand : Spot → String → Seen → Access Progress} {c : String}
    (h : hasNul c = true) (spot : Spot) (seen : Seen) (cs : List String) :
    trace t expand spot seen (c :: cs) = .error (.illFormed .embeddedNul) := by
  have hdot : ¬(c = "" ∨ c = ".") := by
    rintro (rfl | rfl) <;> cases h
  have hup : c ≠ ".." := by
    rintro rfl
    cases h
  rw [trace, if_neg hdot, if_neg hup, if_pos h]

/-- What stands before a NUL is gone through to its end, where it leads somewhere. -/
theorem Tidy.follow_nul_behind (h : t.Tidy) {p : Path} {before after : List String} {c : String}
    {loc : Location} (hparts : p.parts = before ++ c :: after) (hfree : NulFree before)
    (hreaches : Reaches t (t.startOfPath p) before loc) (hc : hasNul c = true) :
    t.follow p = .error (.illFormed .embeddedNul) := by
  obtain ⟨n, hn⟩ := hreaches
  let start : Spot := if p.isAbsolute then ⟨false, []⟩ else ⟨true, t.home⟩
  have hstart : start.loc = t.startOfPath p := by
    simp only [start, startOfPath]
    split <;> rfl
  rw [← hstart] at hn
  have hfollowing : Following t n t.maxDepth [] :=
    ⟨by simp, by simp, by simp, Nat.le_refl _⟩
  have hsound : Sound t [] [] := ⟨by simp [Dict.get?], by simp [Dict.get?]⟩
  obtain ⟨spot, seen, htrace, -, -⟩ :=
    trace_of_pass h.nulFree_pieces n hfollowing hsound hfree hn
  have hwhole : trace t (expandLink t t.maxDepth) start [] p.parts =
      .error (.illFormed .embeddedNul) := by
    rw [hparts, trace_append _ htrace, trace_nul hc]
  simp only [start] at hwhole
  simp only [follow, hwhole, bind, Except.bind]

section Tidy

variable (h : t.Tidy) (hloops : t.LoopFree)
include h hloops

theorem Tidy.follow_nul {p : Path} (hnul : p.hasNul = true) :
    t.follow p = .error (.illFormed .embeddedNul) := by
  obtain ⟨c, hfind⟩ : ∃ c, p.parts.find? hasNul = some c := by
    obtain ⟨c, hc, hcn⟩ := List.any_eq_true.mp hnul
    exact Option.isSome_iff_exists.mp (List.find?_isSome.mpr ⟨c, hc, hcn⟩)
  obtain ⟨hc, before, after, hparts, hbefore⟩ := List.find?_eq_some_iff_append.mp hfind
  have hfree : NulFree before := fun d hd => by simpa using hbefore d hd
  obtain ⟨loc, hreaches⟩ := hloops.reaches (t.startOfPath p) before
  exact h.follow_nul_behind hparts hfree hreaches hc

theorem Tidy.resolves_of_resolve {p q : Path} (hq : t.resolve p = .ok q) :
    ∃ loc, t.Resolves p loc := by
  cases hnul : p.hasNul with
  | false => exact hloops.resolves hnul
  | true => simp [resolve, h.follow_nul hloops hnul, bind, Except.bind] at hq

theorem Tidy.straight_of_safePath {base p : Path} {name : Value}
    (hp : t.safePath base name = .ok p) :
    p.isAbsolute = true ∧ t.Straight p.parts := by
  obtain ⟨root, below, -, -, hfull, -⟩ := of_safePath hp
  obtain ⟨loc, hloc⟩ := h.resolves_of_resolve hloops hfull
  rw [h.eq_of_resolve hloc hfull]
  exact ⟨isAbsolute_pathOf loc, h.straight_of_resolves hloc⟩

end Tidy

end FileStash.FileTree
