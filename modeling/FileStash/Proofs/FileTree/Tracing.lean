import FileStash.Proofs.FileTree.Destination

namespace FileStash.FileTree

variable {t : FileTree}

theorem get?_of_link? {loc : Location} {target : String}
    (h : t.link? loc = some target) :
    t.get? loc = some (.link target) := by
  unfold link? at h
  split at h
  · rename_i target' hget
    cases h
    exact hget
  · cases h

theorem mem_keys_of_link? {loc : Location} {target : String}
    (h : t.link? loc = some target) :
    loc ∈ Dict.keys t.nodes := by
  have hget := get?_of_link? h
  have hne : loc ≠ [] := by
    rintro rfl
    cases hget
  simp only [get?, hne, if_false] at hget
  exact List.mem_map.mpr ⟨_, Dict.mem_of_get? hget, rfl⟩

/-- What is known about links holds, and what is not known yet is being found
out. -/
structure Sound (t : FileTree) (seen : Seen) (active : List Spot) : Prop where
  known : ∀ spot done, Dict.get? seen spot = some (some done) →
    ∃ n, leads t n spot.loc = some done.loc
  open_ : ∀ spot, Dict.get? seen spot = some none → spot ∈ active

/-- The links that are being followed, where those that are still to be met
reach less than `n` deep and at most `depth` more of them can be followed. -/
structure Following (t : FileTree) (n depth : Nat) (active : List Spot) :
    Prop where
  deeper : ∀ spot ∈ active, leads t n spot.loc = none
  distinct : (active.map Spot.loc).Nodup
  links : ∀ spot ∈ active, spot.loc ∈ Dict.keys t.nodes
  room : t.maxDepth ≤ depth + active.length

theorem Following.depth_pos {n depth : Nat} {active : List Spot}
    (h : Following t n depth active) :
    0 < depth := by
  have hlength : (active.map Spot.loc).length ≤ (Dict.keys t.nodes).length := by
    refine List.Nodup.length_le_of_subset h.distinct fun loc hloc => ?_
    obtain ⟨spot, hspot, rfl⟩ := List.mem_map.mp hloc
    exact h.links spot hspot
  have hroom := h.room
  simp only [Dict.keys, List.length_map, maxDepth] at hlength hroom
  omega

def NulFree (cs : List String) : Prop :=
  ∀ c ∈ cs, hasNul c = false

theorem exists_least_leads {n : Nat} {link loc : Location}
    (h : leads t n link = some loc) :
    ∃ m, m < n ∧ leads t m link = none ∧ leads t (m + 1) link = some loc := by
  induction n with
  | zero => cases h
  | succ n ih =>
      cases hn : leads t n link with
      | none => exact ⟨n, Nat.lt_succ_self n, hn, h⟩
      | some loc' =>
          have hsame := leads_succ hn
          rw [h] at hsame
          cases hsame
          obtain ⟨m, hm, hnone, hsome⟩ := ih hn
          exact ⟨m, Nat.lt_succ_of_lt hm, hnone, hsome⟩

theorem leads_unique {n m : Nat} {link a b : Location}
    (ha : leads t n link = some a) (hb : leads t m link = some b) : a = b := by
  have ha' := leads_mono (Nat.le_max_left n m) ha
  have hb' := leads_mono (Nat.le_max_right n m) hb
  exact Option.some.inj (ha'.symm.trans hb')

theorem leads_none_of_le {n m : Nat} (hmn : m ≤ n) {link : Location}
    (h : leads t n link = none) :
    leads t m link = none := by
  cases hm : leads t m link with
  | none => rfl
  | some loc => cases h.symm.trans (leads_mono hmn hm)

theorem loc_spotOf (target : String) (dir : Spot) :
    (spotOf target dir).loc = startOf target dir.loc := by
  unfold spotOf startOf
  split <;> rfl

/-- A link that is met next reaches less deep than all that are being
followed. -/
theorem Following.cons {n m depth : Nat} {active : List Spot}
    (h : Following t n (depth + 1) active) (hm : m < n) {next : Spot}
    {loc : Location} (hnext : leads t n next.loc = some loc)
    (hnone : leads t m next.loc = none) (hkeys : next.loc ∈ Dict.keys t.nodes) :
    Following t m depth (next :: active) where
  deeper spot hspot := by
    rcases List.mem_cons.mp hspot with rfl | hspot
    · exact hnone
    · exact leads_none_of_le (Nat.le_of_lt hm) (h.deeper spot hspot)
  distinct := by
    rw [List.map_cons, List.nodup_cons]
    refine ⟨fun hmem => ?_, h.distinct⟩
    obtain ⟨spot, hspot, hsame⟩ := List.mem_map.mp hmem
    have hopen := h.deeper spot hspot
    rw [hsame, hnext] at hopen
    cases hopen
  links spot hspot := by
    rcases List.mem_cons.mp hspot with rfl | hspot
    · exact hkeys
    · exact h.links spot hspot
  room := by
    have hroom := h.room
    simp only [List.length_cons]
    omega

theorem Sound.start {seen : Seen} {active : List Spot} (h : Sound t seen active)
    (next : Spot) :
    Sound t (Dict.insert seen next none) (next :: active) where
  known spot done hdone := by
    rw [Dict.get?_insert] at hdone
    split at hdone
    · cases hdone
    · exact h.known spot done hdone
  open_ spot hopen := by
    rw [Dict.get?_insert] at hopen
    split at hopen
    · rename_i hsame
      rw [hsame]
      exact List.mem_cons_self ..
    · exact List.mem_cons_of_mem next (h.open_ spot hopen)

theorem Sound.finish {seen : Seen} {active : List Spot} {next done : Spot}
    (h : Sound t seen (next :: active)) {n : Nat}
    (hlead : leads t n next.loc = some done.loc) :
    Sound t (Dict.insert seen next (some done)) active where
  known spot done' hdone := by
    rw [Dict.get?_insert] at hdone
    split at hdone
    · rename_i hsame
      cases hdone
      exact ⟨n, by rw [hsame, hlead]⟩
    · exact h.known spot done' hdone
  open_ spot hopen := by
    rw [Dict.get?_insert] at hopen
    split at hopen
    · cases hopen
    · rename_i hne
      rcases List.mem_cons.mp (h.open_ spot hopen) with rfl | hmem
      · exact absurd rfl hne
      · exact hmem

/-- Components that lead somewhere through links less than `n` deep are resolved
to there. -/
def Traced (t : FileTree) (n : Nat) : Prop :=
  ∀ {depth : Nat} {active : List Spot} {spot : Spot} {seen : Seen}
    {cs : List String} {loc : Location}, Following t n depth active →
    Sound t seen active → NulFree cs → pass t (leads t n) spot.loc cs = some loc →
    ∃ spot' seen', trace t (expandLink t depth) spot seen cs =
      .ok (.reached spot' seen') ∧ spot'.loc = loc ∧ Sound t seen' active

section Link

variable {n depth : Nat} {active : List Spot} {spot : Spot} {seen : Seen} {c : String}
  {target : String} {m : Location}

theorem Sound.answer_eq (h : Sound t seen active) {done : Spot}
    (hseen : Dict.get? seen spot = some (some done))
    (hlead : leads t n spot.loc = some m) : done.loc = m := by
  obtain ⟨k, hk⟩ := h.known spot done hseen
  exact leads_unique hk hlead

theorem Following.not_open (h : Following t n depth active)
    (hsound : Sound t seen active) (hlead : leads t n spot.loc = some m) :
    Dict.get? seen spot ≠ some none := by
  intro hopen
  rw [h.deeper spot (hsound.open_ spot hopen)] at hlead
  cases hlead

/-- A link that is met for the first time is gone through, as its target leads
through links less deep. -/
theorem expandLink_of_leads
    (hnul : ∀ loc target, t.link? loc = some target →
      NulFree (Path.pieces target.toList))
    (ih : ∀ k < n, Traced t k) (hfollowing : Following t n depth active)
    (hsound : Sound t seen active) (hlink : t.link? (spot.down c).loc = some target)
    (hlead : leads t n (spot.down c).loc = some m) :
    ∃ done seen', expandLink t depth spot target
        (Dict.insert seen (spot.down c) none) = .ok (.reached done seen') ∧
      done.loc = m ∧
      Sound t (Dict.insert seen' (spot.down c) (some done)) active := by
  obtain ⟨depth, rfl⟩ :=
    Nat.exists_eq_succ_of_ne_zero (Nat.ne_of_gt hfollowing.depth_pos)
  obtain ⟨k, hkn, hknone, hksome⟩ := exists_least_leads hlead
  have hfollowing' : Following t k depth (spot.down c :: active) :=
    hfollowing.cons hkn hlead hknone (mem_keys_of_link? hlink)
  have hparent : (spot.down c).loc.dropLast = spot.loc := List.dropLast_concat
  have htarget : pass t (leads t k) (spotOf target spot).loc
      (Path.pieces target.toList) = some m := by
    simpa [leads, hlink, hparent, loc_spotOf] using hksome
  obtain ⟨done, seen', hexpand, hdone, hsound'⟩ :=
    ih k hkn hfollowing' (hsound.start (spot.down c)) (hnul _ _ hlink) htarget
  have hdone' : leads t n (spot.down c).loc = some done.loc := by
    rw [hlead, hdone]
  exact ⟨done, seen', hexpand, hdone, hsound'.finish hdone'⟩

end Link

theorem trace_of_pass
    (hnul : ∀ loc target, t.link? loc = some target →
      NulFree (Path.pieces target.toList)) (n : Nat) : Traced t n := by
  -- On how deep the links reach, and within that on the components.
  induction n using Nat.strongRecOn with
  | ind n ih =>
      intro depth active spot seen cs loc hfollowing hsound hcs h
      induction cs generalizing spot seen with
      | nil => exact ⟨spot, seen, rfl, Option.some.inj h, hsound⟩
      | cons c cs ihcs =>
          have hrest : NulFree cs := fun c' hc' => hcs c' (List.mem_cons_of_mem c hc')
          have hc : hasNul c = false := hcs c (List.mem_cons_self ..)
          unfold pass at h
          unfold trace
          by_cases hdot : c = "" ∨ c = "."
          · rw [if_pos hdot] at h ⊢
            exact ihcs hsound hrest h
          · rw [if_neg hdot] at h ⊢
            by_cases hup : c = ".."
            · rw [if_pos hup] at h ⊢
              have hstep : pass t (leads t n) spot.up.loc cs = some loc := h
              exact ihcs hsound hrest hstep
            · rw [if_neg hup] at h ⊢
              have hnext : spot.loc ++ [c] = (spot.down c).loc := rfl
              simp only [hc, Bool.false_eq_true, if_false]
              rw [hnext] at h
              cases hlink : t.link? (spot.down c).loc with
              | none =>
                  simp only [hlink] at h ⊢
                  exact ihcs hsound hrest h
              | some target =>
                  simp only [hlink] at h ⊢
                  cases hlead : leads t n (spot.down c).loc with
                  | none => simp [hlead] at h
                  | some m =>
                      simp only [hlead] at h
                      cases hseen : Dict.get? seen (spot.down c) with
                      | some known =>
                          cases known with
                          | some done =>
                              have hdone := hsound.answer_eq hseen hlead
                              exact ihcs hsound hrest (hdone ▸ h)
                          | none =>
                              exact absurd hseen (hfollowing.not_open hsound hlead)
                      | none =>
                          obtain ⟨done, seen', hexpand, hdone, hsound'⟩ :=
                            expandLink_of_leads hnul ih hfollowing hsound hlink hlead
                          simp only [hexpand]
                          exact ihcs hsound' hrest (hdone ▸ h)

theorem nulFree_parts {p : Path} (h : p.hasNul = false) : NulFree p.parts := by
  intro c hc
  have hall := List.any_eq_false.mp h c hc
  simpa [hasNul] using hall

theorem follow_of_resolves
    (hnul : ∀ loc target, t.link? loc = some target →
      NulFree (Path.pieces target.toList))
    {p : Path} {loc : Location} (h : t.Resolves p loc) :
    t.follow p = .ok (pathOf loc) := by
  obtain ⟨hp, n, hn⟩ := h
  have hfollowing : Following t n t.maxDepth [] :=
    ⟨by simp, by simp, by simp, Nat.le_refl _⟩
  have hsound : Sound t [] [] := ⟨by simp [Dict.get?], by simp [Dict.get?]⟩
  let start : Spot := if p.isAbsolute then ⟨false, []⟩ else ⟨true, t.home⟩
  have hstart : start.loc = t.startOfPath p := by
    simp only [start, startOfPath]
    split <;> rfl
  rw [← hstart] at hn
  obtain ⟨spot, seen, htrace, rfl, -⟩ :=
    trace_of_pass hnul n hfollowing hsound (nulFree_parts hp) hn
  simp only [follow, start] at htrace ⊢
  simp only [htrace, bind, Except.bind]

end FileStash.FileTree
