import FileStash.Proofs.FileTree.Children

namespace FileStash

/-- An entry with more behind what it holds, where it is a file. -/
def Node.lengthened (more : List UInt8) : Node → Node
  | .file content modified => .file (content ++ more) modified
  | n => n

theorem Node.lengthened_nil (n : Node) : n.lengthened [] = n := by
  cases n <;> simp [lengthened]

theorem Node.lengthened_append (more later : List UInt8) (n : Node) :
    (n.lengthened more).lengthened later = n.lengthened (more ++ later) := by
  cases n <;> simp [lengthened]

theorem Node.lengthened_eq_iff {more : List UInt8} {n m : Node}
    (h : ∀ content modified, m ≠ .file content modified) : n.lengthened more = m ↔ n = m := by
  cases n with
  | file content modified =>
      exact ⟨fun heq => absurd heq.symm (h _ _), fun heq => absurd heq.symm (h _ _)⟩
  | directory | link => rfl

namespace FileTree

variable {t t' t'' : FileTree} {log : Option Location} {more later : List UInt8}
  {gone gone' : List Location} {loc : Location}

/-- A file that is written to has the time of the clock already. -/
def Fresh (log : Option Location) (t : FileTree) : Prop :=
  ∀ loc ∈ log, ∀ content modified, t.get? loc = some (.file content modified) →
    modified = t.clock

/-- Files have gone, and the one that is written to has got longer. -/
structure Remains (log : Option Location) (more : List UInt8) (gone : List Location)
    (t t' : FileTree) : Prop where
  home : t'.home = t.home
  clock : t'.clock = t.clock
  files : ∀ loc ∈ gone, t.FileAt loc
  absent : ∀ loc ∈ gone, t'.get? loc = none
  kept : ∀ loc ∉ gone, t'.get? loc =
    if log = some loc then (t.get? loc).map (·.lengthened more) else t.get? loc

theorem fresh_none (t : FileTree) : Fresh none t :=
  nofun

namespace Remains

theorem refl (log : Option Location) (t : FileTree) : Remains log [] [] t t := by
  refine ⟨rfl, rfl, by simp, by simp, fun loc _ => ?_⟩
  split <;> simp [Node.lengthened_nil]

theorem get?_of_ne (h : Remains log more gone t t') (hloc : loc ∉ gone) (hlog : log ≠ some loc) :
    t'.get? loc = t.get? loc := by
  rw [h.kept loc hloc, if_neg hlog]

theorem file (h : Remains log more gone t t') (hloc : loc ∉ gone) {content : List UInt8}
    {modified : Int} (hget : t.get? loc = some (.file content modified)) :
    ∃ content', t'.get? loc = some (.file content' modified) := by
  rw [h.kept loc hloc, hget]
  split
  · exact ⟨_, rfl⟩
  · exact ⟨_, rfl⟩

theorem file_before (h : Remains log more gone t t') {content : List UInt8} {modified : Int}
    (hget : t'.get? loc = some (.file content modified)) :
    loc ∉ gone ∧ ∃ content', t.get? loc = some (.file content' modified) := by
  have hloc : loc ∉ gone := by
    intro hgone
    rw [h.absent loc hgone] at hget
    cases hget
  refine ⟨hloc, ?_⟩
  rw [h.kept loc hloc] at hget
  split at hget
  · cases hbefore : t.get? loc with
    | none => simp [hbefore] at hget
    | some n =>
        rw [hbefore] at hget
        cases n with
        | file content' modified' =>
            cases hget
            exact ⟨content', rfl⟩
        | directory | link => cases hget
  · exact ⟨content, hget⟩

theorem fileAt_before (h : Remains log more gone t t') (hfile : t'.FileAt loc) : t.FileAt loc := by
  obtain ⟨content, modified, hget⟩ := hfile
  obtain ⟨-, content', hbefore⟩ := h.file_before hget
  exact ⟨content', modified, hbefore⟩

theorem get?_of_not_file (h : Remains log more gone t t') {n : Node}
    (hn : ∀ content modified, n ≠ .file content modified) (hget : t.get? loc = some n) :
    t'.get? loc = some n := by
  have hloc : loc ∉ gone := by
    intro hgone
    obtain ⟨content, modified, hfile⟩ := h.files loc hgone
    exact hn content modified (Option.some.inj (hget.symm.trans hfile))
  rw [h.kept loc hloc, hget]
  split
  · exact congrArg some ((Node.lengthened_eq_iff hn).mpr rfl)
  · rfl

theorem link? (h : Remains log more gone t t') (loc : Location) : t.link? loc = t'.link? loc := by
  refine Option.ext fun target => ⟨fun hlink => ?_, fun hlink => ?_⟩
  · exact link?_of_get? (h.get?_of_not_file (by simp) (get?_of_link? hlink))
  · have hget := get?_of_link? hlink
    have hloc : loc ∉ gone := by
      intro hgone
      rw [h.absent loc hgone] at hget
      cases hget
    rw [h.kept loc hloc] at hget
    split at hget
    · obtain ⟨n, hn, hlength⟩ := Option.map_eq_some_iff.mp hget
      rw [(Node.lengthened_eq_iff (by simp)).mp hlength] at hn
      exact link?_of_get? hn
    · exact link?_of_get? hget

theorem mem_names (h : Remains log more gone t t') {dir : Location} {name : String}
    (hplace : dir ++ [name] ∉ gone) (hname : name ∈ t.names dir) : name ∈ t'.names dir := by
  rw [mem_names_iff] at hname ⊢
  rw [h.kept _ hplace]
  split
  · simpa using hname
  · exact hname

theorem mem_names_before (h : Remains log more gone t t') {dir : Location} {name : String}
    (hname : name ∈ t'.names dir) : name ∈ t.names dir := by
  rw [mem_names_iff] at hname ⊢
  have hplace : dir ++ [name] ∉ gone := by
    intro hgone
    rw [h.absent _ hgone] at hname
    cases hname
  rw [h.kept _ hplace] at hname
  split at hname
  · simpa using hname
  · exact hname

theorem fresh (h : Remains log more gone t t') (hfresh : Fresh log t) : Fresh log t' := by
  intro loc hlog content modified hget
  obtain ⟨-, content', hbefore⟩ := h.file_before hget
  rw [hfresh loc hlog content' modified hbefore, h.clock]

theorem stat (h : Remains log more gone t t') {p : Path} {dir : Location}
    (hstat : t.stat p = .ok (dir, .directory)) : t'.stat p = .ok (dir, .directory) :=
  stat_kept (fun _ _ hn hget => h.get?_of_not_file hn hget) h.home hstat

theorem trans (h : Remains log more gone t t') (h' : Remains log later gone' t' t'') :
    Remains log (more ++ later) (gone ++ gone') t t'' where
  home := h'.home.trans h.home
  clock := h'.clock.trans h.clock
  files loc hloc := by
    rcases List.mem_append.mp hloc with hloc | hloc
    · exact h.files loc hloc
    · exact h.fileAt_before (h'.files loc hloc)
  absent loc hloc := by
    by_cases hlater : loc ∈ gone'
    · exact h'.absent loc hlater
    · have hfirst : loc ∈ gone := by simpa [hlater] using hloc
      rw [h'.kept loc hlater, h.absent loc hfirst]
      split <;> rfl
  kept loc hloc := by
    simp only [List.mem_append, not_or] at hloc
    rw [h'.kept loc hloc.2, h.kept loc hloc.1]
    split
    · rw [Option.map_map]
      exact congrArg (Option.map · (t.get? loc)) (funext (Node.lengthened_append more later))
    · rfl

theorem remove (log : Option Location) (hfile : t.FileAt loc) :
    Remains log [] [loc] t (t.remove loc) := by
  have hne : loc ≠ [] := by
    obtain ⟨content, modified, hget⟩ := hfile
    exact ne_nil_of_file hget
  refine ⟨rfl, rfl, ?_, ?_, fun other hother => ?_⟩
  · simpa using hfile
  · simpa using get?_remove_self t hne
  · rw [get?_remove_of_ne t (by simpa using hother)]
    split <;> simp [Node.lengthened_nil]

theorem append (hfresh : Fresh log t) (more : List UInt8) :
    Remains log more [] t (t.appendAll log.toList more) := by
  cases log with
  | none => exact ⟨rfl, rfl, by simp, by simp, by simp [appendAll]⟩
  | some file =>
      have hextends := extends_append t file more
      have happend : t.appendAll (some file).toList more = t.append file more := rfl
      rw [happend]
      refine ⟨hextends.home, hextends.clock, by simp, by simp, fun loc _ => ?_⟩
      split
      · rename_i hlog
        cases hlog
        by_cases hfile : t.FileAt file
        · obtain ⟨content, modified, hget⟩ := hfile
          obtain rfl := hfresh file rfl content modified hget
          rw [append_of_file hget, get?_put_self t _ (ne_nil_of_file hget), hget]
          rfl
        · rw [append_of_not_file fun content modified hget => hfile ⟨content, modified, hget⟩]
          cases hget : t.get? file with
          | none => rfl
          | some n =>
              cases n with
              | file content modified => exact absurd ⟨content, modified, hget⟩ hfile
              | directory | link => rfl
      · rename_i hlog
        rcases hextends.kept loc with hsame | ⟨rfl, -⟩
        · exact hsame
        · exact absurd rfl hlog

end Remains

end FileTree

end FileStash
