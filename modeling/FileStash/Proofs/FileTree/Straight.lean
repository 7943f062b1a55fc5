import FileStash.Containment
import FileStash.Proofs.FileTree.Tracing

/-!
Places without links above them. Where a path leads is always such a place, and
to the operating system the path of such a place means that very place, whatever
is there.
-/

namespace FileStash.FileTree

variable {t : FileTree}

/-- A name that names something in its directory. -/
abbrev PlainName (c : String) : Prop :=
  c ≠ "" ∧ c ≠ "." ∧ c ≠ ".."

structure LegalName (c : String) : Prop where
  plain : PlainName c
  noSlash : '/' ∉ c.toList
  noNul : hasNul c = false
  short : Text.Utf8.size c ≤ maxName

/-- Trees that an operating system can hold, seen from a directory of theirs. -/
structure Lawful (t : FileTree) : Prop where
  wellFormed : t.WellFormed
  home : t.get? t.home = some .directory
  names : ∀ loc n, t.get? loc = some n → ∀ c ∈ loc, LegalName c
  targets : ∀ loc target, t.link? loc = some target → hasNul target = false

instance (c : String) : Decidable (LegalName c) :=
  decidable_of_iff (PlainName c ∧ '/' ∉ c.toList ∧ hasNul c = false ∧
    Text.Utf8.size c ≤ maxName)
    ⟨fun h => ⟨h.1, h.2.1, h.2.2.1, h.2.2.2⟩,
      fun h => ⟨h.plain, h.noSlash, h.noNul, h.short⟩⟩

def targetOf : Node → String
  | .link target => target
  | _ => ""

theorem lawful_of_nodes (hhome : t.get? t.home = some .directory)
    (hnodes : ∀ e ∈ t.nodes, t.get? e.1.dropLast = some .directory ∧
      (∀ c ∈ e.1, LegalName c) ∧ hasNul (targetOf e.2) = false)
    : t.Lawful := by
  have hentry : ∀ loc n, t.get? loc = some n →
      (loc = [] ∧ n = .directory) ∨ (loc, n) ∈ t.nodes := by
    intro loc n h
    by_cases hloc : loc = []
    · subst hloc
      cases h
      exact .inl ⟨rfl, rfl⟩
    · simp only [get?, hloc, if_false] at h
      exact .inr (Dict.mem_of_get? h)
  constructor
  · intro loc n h
    rcases hentry loc n h with ⟨rfl, rfl⟩ | hmem
    · rfl
    · exact (hnodes _ hmem).1
  · exact hhome
  · intro loc n h c hc
    rcases hentry loc n h with ⟨rfl, rfl⟩ | hmem
    · cases hc
    · exact (hnodes _ hmem).2.1 c hc
  · intro loc target h
    have hget : t.get? loc = some (.link target) := get?_of_link? h
    rcases hentry loc _ hget with ⟨-, hlink⟩ | hmem
    · cases hlink
    · exact (hnodes _ hmem).2.2

theorem mem_splitOn {sep c : Char} {cs part : List Char}
    (hpart : part ∈ Text.splitOn sep cs) (hc : c ∈ part) : c ∈ cs := by
  induction cs generalizing part with
  | nil =>
      simp only [Text.splitOn, List.mem_singleton] at hpart
      simp [hpart] at hc
  | cons d cs ih =>
      unfold Text.splitOn at hpart
      split at hpart
      · rename_i hnil
        exact absurd hnil (Text.splitOn_ne_nil sep cs)
      · rename_i first parts hsplit
        have hfirst : first ∈ Text.splitOn sep cs := by simp [hsplit]
        split at hpart
        · rcases List.mem_cons.mp hpart with rfl | hmem
          · cases hc
          · exact List.mem_cons_of_mem d (ih (by rw [hsplit]; exact hmem) hc)
        · rcases List.mem_cons.mp hpart with rfl | hmem
          · rcases List.mem_cons.mp hc with rfl | hc
            · exact List.mem_cons_self ..
            · exact List.mem_cons_of_mem d (ih hfirst hc)
          · have hlater : part ∈ Text.splitOn sep cs := by
              rw [hsplit]
              exact List.mem_cons_of_mem first hmem
            exact List.mem_cons_of_mem d (ih hlater hc)

theorem WellFormed.directory_above (h : t.WellFormed) {loc rest : Location}
    {n : Node} (hget : t.get? (loc ++ rest) = some n) (hne : rest ≠ []) :
    t.get? loc = some .directory := by
  induction rest generalizing loc with
  | nil => exact absurd rfl hne
  | cons c rest ih =>
      have hmiddle : ∃ m, t.get? (loc ++ [c]) = some m := by
        cases rest with
        | nil => exact ⟨n, hget⟩
        | cons d rest =>
            have hbelow : t.get? (loc ++ [c] ++ d :: rest) = some n := by
              simpa using hget
            exact ⟨.directory, ih hbelow (by simp)⟩
      obtain ⟨m, hm⟩ := hmiddle
      simpa using h (loc ++ [c]) m hm

theorem WellFormed.directory_of_prefix (h : t.WellFormed) {loc above : Location}
    (hget : t.get? loc = some .directory) (habove : above <+: loc) :
    t.get? above = some .directory := by
  obtain ⟨rest, rfl⟩ := habove
  by_cases hne : rest = []
  · simpa [hne] using hget
  · exact h.directory_above hget hne

structure Straight (t : FileTree) (loc : Location) : Prop where
  plain : ∀ c ∈ loc, PlainName c
  clear : ∀ above, above <+: loc → t.link? above = none

namespace Straight

theorem nil (t : FileTree) : t.Straight [] where
  plain := by simp
  clear above h := by
    rw [List.prefix_nil.mp h]
    rfl

theorem of_prefix {loc above : Location} (h : t.Straight loc)
    (habove : above <+: loc) :
    t.Straight above where
  plain c hc := h.plain c (habove.subset hc)
  clear above' h' := h.clear above' (h'.trans habove)

theorem dropLast {loc : Location} (h : t.Straight loc) :
    t.Straight loc.dropLast :=
  h.of_prefix (List.dropLast_prefix loc)

theorem concat {loc : Location} {c : String} (h : t.Straight loc)
    (hc : PlainName c) (hlink : t.link? (loc ++ [c]) = none) :
    t.Straight (loc ++ [c]) where
  plain d hd := by
    rcases List.mem_append.mp hd with hd | hd
    · exact h.plain d hd
    · rw [List.mem_singleton.mp hd]
      exact hc
  clear above habove := by
    rcases List.prefix_concat_iff.mp habove with rfl | habove
    · exact hlink
    · exact h.clear above habove

theorem congr {t' : FileTree} {loc : Location}
    (hlinks : ∀ loc, t.link? loc = t'.link? loc) (h : t.Straight loc) :
    t'.Straight loc :=
  ⟨h.plain, fun above habove => by rw [← hlinks]; exact h.clear above habove⟩

end Straight

theorem Lawful.straight_of_directory (h : t.Lawful) {loc : Location}
    (hget : t.get? loc = some .directory) : t.Straight loc where
  plain c hc := (h.names loc _ hget c hc).plain
  clear above habove := by
    have habove' := h.wellFormed.directory_of_prefix hget habove
    exact link?_eq_none_of_get? (by simp [habove'])

/-- What of a lawful tree is decided by its links and its home alone. -/
structure Tidy (t : FileTree) : Prop where
  home : t.Straight t.home
  targets : ∀ loc target, t.link? loc = some target → hasNul target = false

theorem Lawful.tidy (h : t.Lawful) : t.Tidy :=
  ⟨h.straight_of_directory h.home, h.targets⟩

theorem Tidy.congr {t' : FileTree} (hlinks : ∀ loc, t.link? loc = t'.link? loc)
    (hhome : t'.home = t.home) (h : t.Tidy) : t'.Tidy where
  home := by
    rw [hhome]
    exact h.home.congr hlinks
  targets loc target hlink := h.targets loc target ((hlinks loc).trans hlink)

theorem Tidy.nulFree_pieces (h : t.Tidy) (loc : Location) (target : String)
    (hlink : t.link? loc = some target) :
    NulFree (Path.pieces target.toList) := by
  intro c hc
  obtain ⟨part, hpart, rfl⟩ := List.mem_map.mp hc
  have htarget := h.targets loc target hlink
  simp only [hasNul, List.contains_eq_mem, decide_eq_false_iff_not] at htarget ⊢
  rw [String.toList_ofList]
  exact fun hmem => htarget (mem_splitOn hpart hmem)

theorem straight_of_pass {lead : Location → Option Location}
    (hlead : ∀ loc c loc', t.Straight loc → lead (loc ++ [c]) = some loc' →
    t.Straight loc')
    {loc loc' : Location} {cs : List String} (hloc : t.Straight loc)
    (h : pass t lead loc cs = some loc') : t.Straight loc' := by
  induction cs generalizing loc with
  | nil =>
      cases h
      exact hloc
  | cons c cs ih =>
      unfold pass at h
      split at h
      · exact ih hloc h
      · split at h
        · exact ih hloc.dropLast h
        · rename_i hdot hup
          rw [not_or] at hdot
          cases hlink : t.link? (loc ++ [c]) with
          | none =>
              simp only [hlink] at h
              exact ih (hloc.concat ⟨hdot.1, hdot.2, hup⟩ hlink) h
          | some target =>
              simp only [hlink] at h
              cases hm : lead (loc ++ [c]) with
              | none => simp [hm] at h
              | some m =>
                  simp only [hm] at h
                  exact ih (hlead loc c m hloc hm) h

theorem straight_of_leads {n : Nat} {loc loc' : Location} {c : String}
    (hloc : t.Straight loc) (h : leads t n (loc ++ [c]) = some loc') :
    t.Straight loc' := by
  induction n generalizing loc loc' c with
  | zero => cases h
  | succ n ih =>
      unfold leads at h
      cases hlink : t.link? (loc ++ [c]) with
      | none => simp [hlink] at h
      | some target =>
          simp only [hlink, List.dropLast_concat] at h
          refine straight_of_pass (fun _ _ _ h h' => ih h h') ?_ h
          unfold startOf
          split
          · exact .nil t
          · exact hloc

theorem Tidy.straight_of_resolves (h : t.Tidy) {p : Path} {loc : Location}
    (hp : t.Resolves p loc) : t.Straight loc := by
  obtain ⟨-, n, hn⟩ := hp
  refine straight_of_pass (fun _ _ _ h h' => straight_of_leads h h') ?_ hn
  unfold startOfPath
  split
  · exact .nil t
  · exact h.home

theorem pass_of_straight (lead : Location → Option Location)
    {loc rest : Location} (h : t.Straight (loc ++ rest)) :
    pass t lead loc rest = some (loc ++ rest) := by
  induction rest generalizing loc with
  | nil => simp [pass]
  | cons c rest ih =>
      have hsplit : loc ++ c :: rest = (loc ++ [c]) ++ rest := by simp
      obtain ⟨hempty, hdot, hup⟩ := h.plain c (by simp)
      have hlink : t.link? (loc ++ [c]) = none := h.clear _ ⟨rest, by simp⟩
      unfold pass
      rw [if_neg (by simp [hempty, hdot]), if_neg hup]
      simp only [hlink]
      rw [hsplit] at h ⊢
      exact ih h

theorem descend_of_straight (follow : Bool)
    (expand : Location → List String → LookUp) {loc rest : Location}
    (h : t.Straight (loc ++ rest)) :
    (∀ place, descend t follow expand loc rest = .ok place →
      place.loc = loc ++ rest ∧ place.Holds t) ∧
    descend t follow expand loc rest ≠ .error .linkLoop := by
  induction rest generalizing loc with
  | nil =>
      unfold descend
      cases hget : t.get? loc with
      | none => simp
      | some n =>
          refine ⟨fun place hplace => ?_, by simp⟩
          cases hplace
          exact ⟨by simp [Place.loc], hget⟩
  | cons c rest ih =>
      have hsplit : loc ++ c :: rest = (loc ++ [c]) ++ rest := by simp
      obtain ⟨hempty, hdot, hup⟩ := h.plain c (by simp)
      have hlink : t.link? (loc ++ [c]) = none := h.clear _ ⟨rest, by simp⟩
      unfold descend
      rw [if_neg (c := c = "" ∨ c = ".") (by simp [hempty, hdot]), if_neg hup]
      split
      · simp
      · split
        · simp
        · cases hget : t.get? (loc ++ [c]) with
          | none =>
              by_cases hlast : rest = []
              · subst hlast
                refine ⟨fun place hplace => ?_, by simp⟩
                simp only [if_true, Except.ok.injEq] at hplace
                subst hplace
                exact ⟨rfl, hget⟩
              · simp [hlast]
          | some n =>
              rw [hsplit] at h ⊢
              cases n with
              | link target => simp [link?, hget] at hlink
              | file content modified => exact ih h
              | directory => exact ih h

theorem resolving_of_straight (follow : Bool) {p : Path}
    (habs : p.isAbsolute = true) (h : t.Straight p.parts) :
    (∀ place, t.resolving follow p = .ok place → place.loc = p.parts ∧ place.Holds t) ∧
      ∀ path, t.resolving follow p ≠ .error (.system .linkLoop path) := by
  have hwalk : ∀ links, (∀ place, walk t follow links [] p.parts = .ok place →
        place.loc = p.parts ∧ place.Holds t) ∧
      walk t follow links [] p.parts ≠ .error .linkLoop := by
    have hroot : t.Straight ([] ++ p.parts) := h
    intro links
    cases links <;> exact descend_of_straight follow _ hroot
  obtain ⟨hok, hloop⟩ := hwalk maxLinks
  simp only [resolving, lookUp, habs, if_true]
  split
  · simp
  · split
    · simp [mapError_error]
    · cases hplace : walk t follow maxLinks [] p.parts with
      | error code =>
          rw [hplace] at hloop
          simpa [mapError_error] using hloop
      | ok place =>
          refine ⟨fun place' hplace' => ?_, by simp [mapError_ok]⟩
          simp only [mapError_ok, Except.ok.injEq] at hplace'
          subst hplace'
          exact hok place hplace

theorem stat_of_straight {p : Path} (habs : p.isAbsolute = true)
    (h : t.Straight p.parts) (path : String) :
    t.stat p ≠ .error (.system .linkLoop path) := by
  obtain ⟨-, hloop⟩ := resolving_of_straight true habs h
  unfold stat
  cases hplace : t.resolving true p with
  | error f =>
      have hf := hloop path
      rw [hplace] at hf
      simpa [bind, Except.bind] using hf
  | ok place => cases place <;> simp [bind, Except.bind, failing]

theorem isAbsolute_pathOf (loc : Location) :
    (pathOf loc).isAbsolute = true := by
  simp [pathOf, Path.isAbsolute]

theorem Tidy.resolve_of_resolves (h : t.Tidy) {p : Path} {loc : Location}
    (hp : t.Resolves p loc) (hnul : (pathOf loc).hasNul = false) :
    t.resolve p = .ok (pathOf loc) := by
  have hstraight := h.straight_of_resolves hp
  have hloop := stat_of_straight (isAbsolute_pathOf loc) hstraight
  simp only [resolve, follow_of_resolves h.nulFree_pieces hp, bind, Except.bind]
  split
  · rename_i path hstat
    exact absurd hstat (hloop path)
  · rename_i hstat
    unfold stat resolving at hstat
    rw [hnul] at hstat
    simp only [Bool.false_eq_true, if_false] at hstat
    cases hlook : t.lookUp true (pathOf loc) with
    | error code => simp [hlook, mapError_error, bind, Except.bind] at hstat
    | ok place =>
        cases place <;> simp [hlook, mapError_ok, bind, Except.bind, failing] at hstat
  · rfl

theorem Tidy.eq_of_resolve (h : t.Tidy) {p q : Path} {loc : Location}
    (hp : t.Resolves p loc) (hq : t.resolve p = .ok q) : q = pathOf loc := by
  simp only [resolve, follow_of_resolves h.nulFree_pieces hp, bind, Except.bind] at hq
  split at hq
  · cases hq
  · cases hq
  · exact (Except.ok.inj hq).symm

theorem of_safePath {base p : Path} {name : Value}
    (h : t.safePath base name = .ok p) :
    ∃ root below, t.resolve base = .ok root ∧ name.toPath = .ok below ∧
      t.resolve (root.join below) = .ok p ∧
      root.parts <+: p.parts ∧ root.parts ≠ p.parts := by
  unfold safePath at h
  cases hroot : t.resolve base with
  | error f => simp [hroot, bind, Except.bind] at h
  | ok root =>
      cases hbelow : name.toPath with
      | error f => simp [hroot, hbelow, bind, Except.bind] at h
      | ok below =>
          cases hfull : t.resolve (root.join below) with
          | error f => simp [hroot, hbelow, hfull, bind, Except.bind] at h
          | ok full =>
              simp only [hroot, hbelow, hfull, bind, Except.bind] at h
              split at h
              · cases hplain : name.plain <;> simp [hplain] at h
              · rename_i hinside
                split at h
                · cases hshown : name.shown <;> simp [hshown] at h
                · rename_i hne
                  cases h
                  simp only [Path.isBelowOrAt, Bool.not_eq_true', Bool.not_eq_false,
                    Bool.and_eq_true, decide_eq_true_eq, List.isPrefixOf_iff_prefix] at hinside
                  refine ⟨root, below, rfl, rfl, hfull, hinside.2, fun hparts => hne ?_⟩
                  obtain ⟨kind, parts⟩ := p
                  obtain ⟨kind', parts'⟩ := root
                  obtain rfl : kind = kind' := hinside.1
                  obtain rfl : parts' = parts := hparts
                  rfl

end FileStash.FileTree
