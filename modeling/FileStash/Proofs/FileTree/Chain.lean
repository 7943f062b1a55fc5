import FileStash.Proofs.FileTree.Directories

namespace FileStash.FileTree

variable {d : String} {n : Nat}

/-- Directories of one name, each in the one before. -/
def chain (d : String) : Nat → FileTree
  | 0 => {}
  | n + 1 => (chain d n).put (List.replicate (n + 1) d) .directory

theorem of_get?_chain {loc : Location} {node : Node}
    (h : (chain d n).get? loc = some node) :
    node = .directory ∧ ∃ k ≤ n, loc = List.replicate k d := by
  induction n with
  | zero =>
      by_cases hloc : loc = []
      · subst hloc
        cases h
        exact ⟨rfl, 0, Nat.le_refl _, rfl⟩
      · simp [chain, get?, hloc, Dict.get?_nil] at h
  | succ n ih =>
      by_cases hloc : loc = List.replicate (n + 1) d
      · rw [hloc, chain, get?_put_self _ _ (by simp)] at h
        cases h
        exact ⟨rfl, n + 1, Nat.le_refl _, hloc⟩
      · rw [chain, get?_put_of_ne _ _ hloc] at h
        obtain ⟨hnode, k, hk, hloc'⟩ := ih h
        exact ⟨hnode, k, Nat.le_succ_of_le hk, hloc'⟩

theorem get?_chain {k : Nat} (h : k ≤ n) :
    (chain d n).get? (List.replicate k d) = some .directory := by
  induction n with
  | zero =>
      rw [Nat.le_zero.mp h]
      rfl
  | succ n ih =>
      by_cases hk : k = n + 1
      · rw [hk, chain, get?_put_self _ _ (by simp)]
      · have hne : List.replicate k d ≠ List.replicate (n + 1) d := by
          intro heq
          exact hk (by simpa using congrArg List.length heq)
        rw [chain, get?_put_of_ne _ _ hne]
        exact ih (by omega)

theorem link?_chain (d : String) (n : Nat) (loc : Location) :
    (chain d n).link? loc = none := by
  cases hlink : (chain d n).link? loc with
  | none => rfl
  | some target => cases (of_get?_chain (get?_of_link? hlink)).1

theorem home_chain (d : String) (n : Nat) : (chain d n).home = [] := by
  induction n with
  | zero => rfl
  | succ n ih => exact ih

theorem lawful_chain (hd : LegalName d) (n : Nat) : (chain d n).Lawful where
  wellFormed loc node h := by
    obtain ⟨-, k, hk, rfl⟩ := of_get?_chain h
    rw [List.dropLast_replicate]
    exact get?_chain (by omega)
  home := by
    rw [home_chain]
    rfl
  names loc node h c hc := by
    obtain ⟨-, k, -, rfl⟩ := of_get?_chain h
    rw [List.eq_of_mem_replicate hc]
    exact hd
  targets loc target h := by
    rw [link?_chain] at h
    cases h

theorem size_chain (d : String) (n : Nat) :
    Text.Utf8.size (pathOf (List.replicate (n + 1) d)).text =
      (n + 1) * (1 + Text.Utf8.size d) := by
  induction n with
  | zero =>
      have hsize := size_child (p := pathOf []) rfl d
      have hroot : Text.Utf8.size (pathOf []).text = 1 := rfl
      rw [hroot] at hsize
      simpa [pathOf, Path.child] using hsize
  | succ n ih =>
      have hsize := size_child (p := pathOf (List.replicate (n + 1) d)) rfl d
      have hparts : (pathOf (List.replicate (n + 1) d)).parts ≠ [] := by simp [pathOf]
      rw [ih, if_neg hparts] at hsize
      rw [List.replicate_succ', Nat.succ_mul]
      exact hsize.trans (by omega)

/-- The innermost directory is there for the system, as long as its path is not
too long. -/
theorem stat_chain (hd : LegalName d)
    (h : Text.Utf8.size (pathOf (List.replicate n d)).text ≤ maxPath) :
    (chain d n).stat (pathOf (List.replicate n d)) =
      .ok (List.replicate n d, .directory) := by
  have htakes : Takes (pathOf (List.replicate n d)) := by
    refine ⟨isAbsolute_pathOf _, fun c hc => ?_, h⟩
    rw [List.eq_of_mem_replicate hc]
    exact hd
  have hdirs : ∀ above, above <+: (pathOf (List.replicate n d)).parts.dropLast →
      (chain d n).get? above = some .directory := by
    intro above habove
    obtain ⟨hlength, hsame⟩ :=
      List.prefix_replicate_iff.mp (habove.trans (List.dropLast_prefix _))
    rw [hsame]
    exact get?_chain hlength
  have hresolving := htakes.resolving_inside true hdirs (link?_chain d n _)
  have hend : (chain d n).get? (pathOf (List.replicate n d)).parts = some .directory :=
    get?_chain (Nat.le_refl n)
  rw [hend] at hresolving
  rw [stat, hresolving]
  rfl

def longName (c : Char) : String :=
  String.ofList (List.replicate maxName c)

theorem size_longName {c : Char} (h : (Text.Utf8.encodeChar c).length = 1) :
    Text.Utf8.size (longName c) = maxName := by
  simp [Text.Utf8.size, Text.Utf8.encode, Text.Utf8.encodeChars, longName,
    List.flatMap_replicate, h]

theorem legal_longName {c : Char} (h : (Text.Utf8.encodeChar c).length = 1)
    (hslash : c ≠ '/') (hnul : c ≠ '\x00') : LegalName (longName c) where
  plain := by
    have hlength : (longName c).toList.length = maxName := by simp [longName]
    refine ⟨?_, ?_, ?_⟩
    all_goals
      intro hname
      rw [hname] at hlength
      cases hlength
  noSlash := by
    rw [longName, String.toList_ofList, List.mem_replicate]
    exact fun hmem => hslash hmem.2.symm
  noNul := by
    rw [hasNul, longName, String.toList_ofList, List.contains_eq_mem,
      decide_eq_false_iff_not, List.mem_replicate]
    exact fun hmem => hnul hmem.2.symm
  short := Nat.le_of_eq (size_longName h)

end FileStash.FileTree
