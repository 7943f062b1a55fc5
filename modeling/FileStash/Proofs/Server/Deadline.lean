import FileStash.Proofs.Server.TextHash

namespace FileStash.Server

theorem wholeSeconds_nonneg (milliseconds : Int) :
    0 ≤ wholeSeconds milliseconds := by
  unfold wholeSeconds
  exact Int.natCast_nonneg _

theorem wholeSeconds_thousands (n : Nat) : wholeSeconds (1000 * n) = n := by
  have hnum : ((1000 * n : Int)).toNat = n * 1000 := by omega
  simp [wholeSeconds, hnum, roundDiv]

theorem remaining_eq_neg_one_iff (now : Int) (e : Entry) :
    remaining now (some e) = -1 ↔ e.deadline = none := by
  cases hd : e.deadline with
  | none => simp [remaining, hd]
  | some d =>
      have hpos := wholeSeconds_nonneg (d - now)
      simp only [remaining, hd, reduceCtorEq, iff_false]
      omega

theorem alive_some (now : Int) (e : Entry) :
    alive now (some e) = if ∀ d, e.deadline = some d → now < d then some e else none := by
  cases hd : e.deadline with
  | none => simp [alive, Entry.expired, hd]
  | some d =>
      by_cases h : d ≤ now
      · simp [alive, Entry.expired, hd, h, Int.not_lt.mpr h]
      · simp [alive, Entry.expired, hd, h, Int.not_le.mp h]

theorem alive_of_limit {now seconds : Int} (h : 0 < seconds) {c : Content} :
    alive now (some ⟨c, some (now + 1000 * seconds)⟩) =
      some ⟨c, some (now + 1000 * seconds)⟩ := by
  rw [alive_some, if_pos]
  rintro d ⟨⟩
  omega

/-- What is left of a limited entry is answered in whole seconds, and an entry
without time left is not there. -/
theorem remaining_of_limit (deadline now : Int) (c : Content) :
    remaining now (alive now (some ⟨c, some deadline⟩)) =
      if now < deadline then wholeSeconds (deadline - now) else -2 := by
  rw [alive_some]
  by_cases h : now < deadline <;> simp [h, remaining]

section Limit

variable {s : Server} {key : String}

theorem run_expire {e : Entry} (h : s.live? key = some e) {seconds : Int}
    (hpos : 0 < seconds) :
    (s.run (.expire key seconds)).1 = .ok (.bool true) ∧
      (s.run (.expire key seconds)).2.live? key =
        some { e with deadline := some (s.now + 1000 * seconds) } := by
  have hact := actsOn_run s (c := .expire key seconds) rfl
  have heffect : effect s.now (.expire key seconds) (s.live? key) =
      (.ok (.bool true), some { e with deadline := some (s.now + 1000 * seconds) }) := by
    rw [h]
    rfl
  refine ⟨by rw [hact.answer, heffect], ?_⟩
  rw [hact.here, heffect]
  exact alive_of_limit hpos

theorem run_hsetAll_expire {items : List (Value × Value)} (hne : items ≠ [])
    {fields : Dict String String} {entries : List (String × String)}
    (h : hashUnder (s.live? key) = some fields)
    (hsent : items.mapM encodeItem = .ok entries) {seconds : Int} (hpos : 0 < seconds) :
    let limited := (s.run (.hsetAll key items)).2.run (.expire key seconds)
    limited.1 = .ok (.bool true) ∧ limited.2.now = s.now ∧
      limited.2.live? key =
        some ⟨.hash (Dict.insertAll fields entries), some (s.now + 1000 * seconds)⟩ ∧
      ∀ k, k ≠ key → limited.2.live? k = s.live? k := by
  intro limited
  have hwrite := actsOn_run s (c := .hsetAll key items) rfl
  have hlimit := actsOn_run (s.run (.hsetAll key items)).2 (c := .expire key seconds) rfl
  obtain ⟨-, hwritten⟩ := run_hsetAll hne h hsent
  obtain ⟨hanswer, hlive⟩ := run_expire hwritten hpos
  refine ⟨hanswer, hlimit.now.trans hwrite.now, ?_, fun k hk => ?_⟩
  · rw [hlive, hwrite.now]
  · rw [live?_congr hlimit.now (hlimit.elsewhere k hk),
      live?_congr hwrite.now (hwrite.elsewhere k hk)]

end Limit

end FileStash.Server
