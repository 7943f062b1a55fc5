namespace FileStash.Text

/-- The parts between separators: one more than there are separators. -/
def splitOn (sep : Char) : List Char → List (List Char)
  | [] => [[]]
  | c :: cs =>
      match splitOn sep cs with
      | [] => [[c]]
      | part :: parts => if c = sep then [] :: part :: parts else (c :: part) :: parts

theorem splitOn_ne_nil (sep : Char) (cs : List Char) : splitOn sep cs ≠ [] := by
  cases cs with
  | nil => simp [splitOn]
  | cons c cs =>
      unfold splitOn
      split
      · simp
      · split <;> simp

/-- What stands before the first place where `pattern` occurs, and what stands
behind it. -/
def cutAt (pattern : List Char) : List Char → Option (List Char × List Char)
  | [] => if pattern.isEmpty then some ([], []) else none
  | c :: cs =>
      if pattern.isPrefixOf (c :: cs) then some ([], (c :: cs).drop pattern.length)
      else (cutAt pattern cs).map fun r => (c :: r.1, r.2)

def afterLast (sep : Char) (cs : List Char) : Option (List Char) :=
  if cs.contains sep then some (cs.reverse.takeWhile (· ≠ sep)).reverse else none

theorem cutAt_eq_none_iff {pattern cs : List Char} :
    cutAt pattern cs = none ↔ ¬pattern <:+: cs := by
  induction cs with
  | nil => cases pattern <;> simp [cutAt]
  | cons c cs ih =>
      rw [List.infix_cons_iff, ← List.isPrefixOf_iff_prefix]
      by_cases h : pattern.isPrefixOf (c :: cs) = true <;> simp [cutAt, h, ih]

/-- The pattern, what stands before it and what stands behind it make up the text. -/
theorem eq_append_of_cutAt {pattern cs before after : List Char}
    (h : cutAt pattern cs = some (before, after)) : cs = before ++ (pattern ++ after) := by
  induction cs generalizing before with
  | nil =>
      cases pattern with
      | nil =>
          cases h
          rfl
      | cons p ps => cases h
  | cons c cs ih =>
      unfold cutAt at h
      split at h
      · rename_i hstarts
        obtain ⟨rest, hrest⟩ := List.isPrefixOf_iff_prefix.mp hstarts
        rw [← hrest, List.drop_left] at h
        cases h
        exact hrest.symm
      · obtain ⟨⟨b, a⟩, hcut, he⟩ := Option.map_eq_some_iff.mp h
        cases he
        rw [ih hcut]
        rfl

theorem not_infix_of_cutAt {pattern cs before after : List Char} (hne : pattern ≠ [])
    (h : cutAt pattern cs = some (before, after)) : ¬pattern <:+: before := by
  induction cs generalizing before with
  | nil =>
      rw [cutAt, if_neg (by simpa using hne)] at h
      cases h
  | cons c cs ih =>
      unfold cutAt at h
      split at h
      · cases h
        simpa using hne
      · rename_i hstarts
        obtain ⟨⟨b, a⟩, hcut, he⟩ := Option.map_eq_some_iff.mp h
        cases he
        rw [List.infix_cons_iff]
        rintro (hfirst | hlater)
        · apply hstarts
          rw [List.isPrefixOf_iff_prefix, eq_append_of_cutAt hcut]
          exact hfirst.trans ⟨pattern ++ a, rfl⟩
        · exact ih hcut hlater

/-- Where the first letter of a pattern does not come again in it, a text without the
pattern is all that stands before the pattern behind it. -/
theorem cutAt_append {p : Char} {ps cs : List Char} (hp : p ∉ ps) (h : ¬p :: ps <:+: cs)
    (rest : List Char) : cutAt (p :: ps) (cs ++ (p :: ps ++ rest)) = some (cs, rest) := by
  induction cs with
  | nil => simp [cutAt]
  | cons c cs ih =>
      rw [List.infix_cons_iff, not_or] at h
      have hrest := ih h.2
      have hlater : ¬(p :: ps).isPrefixOf (c :: (cs ++ (p :: ps ++ rest))) = true := by
        rw [List.isPrefixOf_iff_prefix, List.cons_prefix_cons]
        rintro ⟨rfl, hps⟩
        -- the rest of the pattern would have to end within the text or to reach its first letter
        rcases List.prefix_or_prefix_of_prefix hps (List.prefix_append cs _) with hin | ⟨spare, rfl⟩
        · exact h.1 (List.cons_prefix_cons.mpr ⟨rfl, hin⟩)
        · cases spare with
          | nil => exact h.1 (by simp)
          | cons d spare =>
              have hspare := (List.prefix_append_right_inj cs).mp hps
              obtain ⟨rfl, -⟩ := List.cons_prefix_cons.mp hspare
              exact hp (by simp)
      rw [List.cons_append, cutAt, if_neg hlater, hrest]
      rfl

theorem afterLast_append {sep : Char} {last : List Char} (h : sep ∉ last) (cs : List Char) :
    afterLast sep (cs ++ sep :: last) = some last := by
  have hlast : ∀ c ∈ last.reverse, decide (c ≠ sep) = true := by
    intro c hc
    apply decide_eq_true
    rintro rfl
    exact h (List.mem_reverse.mp hc)
  have htaken : ((cs ++ sep :: last).reverse.takeWhile (· ≠ sep)).reverse = last := by
    rw [List.reverse_append, List.reverse_cons, List.append_assoc,
      List.takeWhile_append_of_pos hlast]
    simp
  rw [afterLast, if_pos (by simp), htaken]

theorem afterLast_of_not_mem {sep : Char} {cs : List Char} (h : sep ∉ cs) :
    afterLast sep cs = none := by
  rw [afterLast, if_neg (by simpa using h)]

theorem exists_last_of_mem {sep : Char} {cs : List Char} (h : sep ∈ cs) :
    ∃ before last, cs = before ++ sep :: last ∧ sep ∉ last := by
  obtain ⟨last, before, hsplit, hlast⟩ := List.eq_append_cons_of_mem (List.mem_reverse.mpr h)
  refine ⟨before.reverse, last.reverse, ?_, by simpa using hlast⟩
  rw [← List.reverse_reverse cs, hsplit]
  simp

end FileStash.Text
