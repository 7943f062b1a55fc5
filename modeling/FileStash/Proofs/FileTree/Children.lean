import FileStash.Proofs.FileTree.LastName
import FileStash.Proofs.FileTree.Removing
import Mathlib.Data.List.Nodup

namespace FileStash.FileTree

variable {t t' : FileTree} {p : Path} {name : String} {dir loc : Location} {follow : Bool}
  {place : Place}

def FileAt (t : FileTree) (loc : Location) : Prop :=
  ∃ content modified, t.get? loc = some (.file content modified)

theorem WellFormed.directory_of_file (h : t.WellFormed) (hfile : t.FileAt (dir ++ [name])) :
    t.get? dir = some .directory := by
  obtain ⟨content, modified, hget⟩ := hfile
  exact h.directory_above hget (List.cons_ne_nil _ _)

theorem FileAt.mem_names (h : t.FileAt (dir ++ [name])) : name ∈ t.names dir := by
  obtain ⟨content, modified, hget⟩ := h
  exact mem_names_iff.mpr (by rw [hget]; rfl)

/-- What a look-up that ends at a place finds. -/
def placeAt (t : FileTree) (loc : Location) : Place :=
  match t.get? loc with
  | none => .vacant loc
  | some n => .found loc n

theorem placeAt_of_get? {n : Node} (h : t.get? loc = some n) : t.placeAt loc = .found loc n := by
  simp only [placeAt, h]

theorem descend_entry (hname : LegalName name) (hdir : t.get? dir = some .directory)
    (hstays : follow = false ∨ t.link? (dir ++ [name]) = none)
    (expand : Location → List String → LookUp) :
    descend t follow expand dir [name] = .ok (t.placeAt (dir ++ [name])) := by
  cases hlink : t.link? (dir ++ [name]) with
  | none => exact descend_child follow expand hname hdir hlink
  | some target =>
      obtain rfl : follow = false := by simpa [hlink] using hstays
      have hthere := get?_of_link? hlink
      obtain ⟨hempty, hdot, hup⟩ := hname.plain
      exact FirstStep.descend hdir (.unfollowed (by simp [hempty, hdot]) hup hname.short hthere
        (by simp) (placeAt_of_get? hthere))

/-- A look-up that comes to a directory goes on from there with one more name. -/
theorem descend_snoc {expand expand' : Location → List String → LookUp}
    (hlast : descend t follow expand' dir [name] = .ok place)
    (hexpand : ∀ loc cs, expand loc cs = .ok (.found dir .directory) →
      expand' loc (cs ++ [name]) = .ok place)
    {cs : List String} (h : descend t true expand loc cs = .ok (.found dir .directory)) :
    descend t follow expand' loc (cs ++ [name]) = .ok place := by
  induction cs generalizing loc with
  | nil =>
      obtain ⟨n, -, hplace⟩ := of_descend_nil h
      cases hplace
      exact hlast
  | cons c cs ih =>
      obtain ⟨hdir, hstep⟩ := first_step h
      refine FirstStep.descend hdir ?_
      cases hstep with
      | stay dot rest => exact .stay dot (ih rest)
      | up named up rest => exact .up named up (ih rest)
      | missing _ _ _ _ _ ends | unfollowed _ _ _ _ _ ends => cases ends
      | followed named down short there _ rest =>
          have hrest := hexpand _ _ rest
          rw [List.append_assoc] at hrest
          exact .followed named down short there (by simp) hrest
      | down named down short there noLink rest =>
          exact .down named down short there noLink (ih rest)

theorem walk_snoc (hlast : ∀ expand, descend t follow expand dir [name] = .ok place)
    {links : Nat} {cs : List String}
    (h : walk t true links loc cs = .ok (.found dir .directory)) :
    walk t follow links loc (cs ++ [name]) = .ok place := by
  induction links generalizing loc cs with
  | zero => exact descend_snoc (hlast _) (fun _ _ hexpand => by cases hexpand) h
  | succ links ih => exact descend_snoc (hlast _) (fun _ _ hexpand => ih hexpand) h

theorem stat_of_resolving {n : Node} (h : t.resolving true p = .ok (.found loc n)) :
    t.stat p = .ok (loc, n) := by
  simp [stat, h, bind, Except.bind]

theorem resolving_of_walk (hnul : p.hasNul = false) (hshort : Text.Utf8.size p.text ≤ maxPath)
    (h : walk t follow maxLinks (t.startOfPath p) p.parts = .ok place) :
    t.resolving follow p = .ok place := by
  rw [startOfPath] at h
  rw [resolving, hnul, if_neg Bool.false_ne_true, lookUp, if_neg (Nat.not_lt.mpr hshort), h]
  rfl

theorem short_of_resolving (h : t.resolving follow p = .ok place) :
    Text.Utf8.size p.text ≤ maxPath := by
  apply Nat.not_lt.mp
  intro hlong
  obtain ⟨hnul, -⟩ := walk_of_resolving h
  rw [resolving, hnul, if_neg Bool.false_ne_true, lookUp, if_pos hlong] at h
  cases h

theorem short_of_isFile {b : Bool} (hnul : p.hasNul = false) (h : t.isFile p = .ok b) :
    Text.Utf8.size p.text ≤ maxPath := by
  apply Nat.not_lt.mp
  intro hlong
  have hstat : t.stat p = .error (.system .nameTooLong p.text) := by
    rw [stat, resolving, hnul, if_neg Bool.false_ne_true, lookUp, if_pos hlong]
    rfl
  simp [isFile, asks, hstat, isAbsence] at h

section Entry

variable (hdir : t.stat p = .ok (dir, .directory)) (hname : LegalName name)
include hdir hname

theorem resolving_child (hshort : Text.Utf8.size (p.child name).text ≤ maxPath)
    (hstays : follow = false ∨ t.link? (dir ++ [name]) = none) :
    t.resolving follow (p.child name) = .ok (t.placeAt (dir ++ [name])) := by
  obtain ⟨hnul, hwalk⟩ := walk_of_resolving (resolving_of_stat hdir)
  have hthere := (resolves_of_stat hdir).2
  exact resolving_of_walk (hasNul_child hnul hname.noNul) hshort
    (walk_snoc (descend_entry hname hthere hstays) hwalk)

/-- An entry that is a file after links have been followed, and is no link itself, is a
file. -/
theorem fileAt_of_isFile (hfile : t.isFile (p.child name) = .ok true)
    (hlink : t.isLink (p.child name) = .ok false) : t.FileAt (dir ++ [name]) := by
  obtain ⟨hnul, -⟩ := walk_of_resolving (resolving_of_stat hdir)
  have hshort := short_of_isFile (hasNul_child hnul hname.noNul) hfile
  have hplace := resolving_child hdir hname hshort (.inl rfl)
  have hfollow (hnone : t.link? (dir ++ [name]) = none) :
      t.resolving true (p.child name) = .ok (t.placeAt (dir ++ [name])) :=
    resolving_child hdir hname hshort (.inr hnone)
  cases hget : t.get? (dir ++ [name]) with
  | none =>
      have hnone : t.link? (dir ++ [name]) = none := link?_eq_none_of_get? (by simp [hget])
      simp [isFile, asks, stat, hfollow hnone, placeAt, hget, bind, Except.bind, failing,
        isAbsence] at hfile
  | some n =>
      cases n with
      | file content modified => exact ⟨content, modified, hget⟩
      | link target => simp [isLink, hplace, placeAt_of_get? hget] at hlink
      | directory =>
          have hnone : t.link? (dir ++ [name]) = none := link?_eq_none_of_get? (by simp [hget])
          have hstat := stat_of_resolving ((hfollow hnone).trans
            (congrArg _ (placeAt_of_get? hget)))
          simp [isFile, asks, hstat] at hfile

section File

variable {content : List UInt8} {modified : Int}
  (hfile : t.get? (dir ++ [name]) = some (.file content modified))
  (hshort : Text.Utf8.size (p.child name).text ≤ maxPath)
include hfile hshort

theorem resolving_child_file :
    t.resolving follow (p.child name) = .ok (.found (dir ++ [name]) (.file content modified)) := by
  have hlink : t.link? (dir ++ [name]) = none := link?_eq_none_of_get? (by simp [hfile])
  exact (resolving_child hdir hname hshort (.inr hlink)).trans
    (congrArg _ (placeAt_of_get? hfile))

theorem stat_child_file :
    t.stat (p.child name) = .ok (dir ++ [name], .file content modified) :=
  stat_of_resolving (resolving_child_file hdir hname hfile hshort)

theorem isFile_child_file : t.isFile (p.child name) = .ok true := by
  simp only [isFile, asks, stat_child_file hdir hname hfile hshort]

theorem isLink_child_file : t.isLink (p.child name) = .ok false := by
  simp only [isLink, resolving_child_file hdir hname hfile hshort]

theorem unlink_child_file : t.unlink (p.child name) = .ok (t.remove (dir ++ [name])) := by
  simp [unlink, resolving_child_file hdir hname hfile hshort, bind, Except.bind]

end File

end Entry

/-! A directory is found again in another tree that keeps directories and links. -/

section Kept

variable (hkept : ∀ loc n, (∀ content modified, n ≠ .file content modified) →
  t.get? loc = some n → t'.get? loc = some n)
include hkept

theorem descend_kept {expand expand' : Location → List String → LookUp}
    (hexpand : ∀ loc cs, expand loc cs = .ok (.found dir .directory) →
      expand' loc cs = .ok (.found dir .directory))
    {cs : List String} (h : descend t true expand loc cs = .ok (.found dir .directory)) :
    descend t' true expand' loc cs = .ok (.found dir .directory) := by
  induction cs generalizing loc with
  | nil =>
      obtain ⟨n, hget, hplace⟩ := of_descend_nil h
      cases hplace
      exact descend_nil t' true expand' (hkept _ _ nofun hget)
  | cons c cs ih =>
      obtain ⟨hdir, hstep⟩ := first_step h
      refine FirstStep.descend (hkept _ _ nofun hdir) ?_
      cases hstep with
      | stay dot rest => exact .stay dot (ih rest)
      | up named up rest => exact .up named up (ih rest)
      | missing _ _ _ _ _ ends | unfollowed _ _ _ _ _ ends => cases ends
      | followed named down short there follows rest =>
          have hlink := hkept _ _ (fun _ _ hfile => Node.noConfusion hfile) there
          exact .followed named down short hlink follows (hexpand _ _ rest)
      | @down n named down short there noLink rest =>
          -- No file stands here: it would be the end, or in the way of the names that follow.
          have hnext : t.get? (loc ++ [c]) = some .directory := by
            cases cs with
            | nil =>
                rw [descend_nil t true expand there] at rest
                cases rest
                exact there
            | cons c' cs => exact (first_step rest).1
          have hnext' : t'.get? (loc ++ [c]) = some .directory := hkept _ _ nofun hnext
          exact .down named down short hnext' nofun (ih rest)

theorem walk_kept {links : Nat} {cs : List String}
    (h : walk t true links loc cs = .ok (.found dir .directory)) :
    walk t' true links loc cs = .ok (.found dir .directory) := by
  induction links generalizing loc cs with
  | zero => exact descend_kept hkept (fun _ _ hexpand => by cases hexpand) h
  | succ links ih => exact descend_kept hkept (fun _ _ hexpand => ih hexpand) h

theorem stat_kept (hhome : t'.home = t.home) (h : t.stat p = .ok (dir, .directory)) :
    t'.stat p = .ok (dir, .directory) := by
  have hplace := resolving_of_stat h
  obtain ⟨hnul, hwalk⟩ := walk_of_resolving hplace
  have hstart : t'.startOfPath p = t.startOfPath p := by simp only [startOfPath, hhome]
  rw [← hstart] at hwalk
  exact stat_of_resolving
    (resolving_of_walk hnul (short_of_resolving hplace) (walk_kept hkept hwalk))

end Kept

theorem stat_remove (hfile : t.FileAt loc) (h : t.stat p = .ok (dir, .directory)) :
    (t.remove loc).stat p = .ok (dir, .directory) := by
  obtain ⟨content, modified, hfile⟩ := hfile
  have hkept : ∀ other n, (∀ content modified, n ≠ .file content modified) →
      t.get? other = some n → (t.remove loc).get? other = some n := by
    intro other n hn hget
    have hne : other ≠ loc := by
      rintro rfl
      exact hn content modified (Option.some.inj (hget.symm.trans hfile))
    rw [get?_remove_of_ne t hne, hget]
  exact stat_kept hkept rfl h

def removeAll (t : FileTree) (locs : List Location) : FileTree :=
  locs.foldl remove t

theorem removeAll_cons (t : FileTree) (loc : Location) (locs : List Location) :
    t.removeAll (loc :: locs) = (t.remove loc).removeAll locs := rfl

theorem get?_removeAll {locs : List Location} (hne : ∀ loc ∈ locs, loc ≠ []) (t : FileTree)
    (loc : Location) : (t.removeAll locs).get? loc = if loc ∈ locs then none else t.get? loc := by
  induction locs generalizing t with
  | nil => rfl
  | cons first locs ih =>
      rw [removeAll_cons, ih (fun loc hloc => hne loc (List.mem_cons_of_mem _ hloc))]
      by_cases hfirst : loc = first
      · subst hfirst
        simp [get?_remove_self t (hne loc (List.mem_cons_self ..))]
      · rw [get?_remove_of_ne t hfirst]
        simp [hfirst]

theorem home_removeAll (t : FileTree) (locs : List Location) :
    (t.removeAll locs).home = t.home := by
  induction locs generalizing t with
  | nil => rfl
  | cons loc locs ih => exact ih (t.remove loc)

theorem clock_removeAll (t : FileTree) (locs : List Location) :
    (t.removeAll locs).clock = t.clock := by
  induction locs generalizing t with
  | nil => rfl
  | cons loc locs ih => exact ih (t.remove loc)

/-- Files that stand at different places are taken away one after the other, and what is
kept by taking one away is kept. -/
theorem removeAll_induction {P : FileTree → Prop} {locs : List Location} (hnodup : locs.Nodup)
    (hfiles : ∀ loc ∈ locs, t.FileAt loc)
    (hstep : ∀ u loc, u.FileAt loc → P u → P (u.remove loc)) (h : P t) :
    P (t.removeAll locs) := by
  induction locs generalizing t with
  | nil => exact h
  | cons loc locs ih =>
      obtain ⟨hloc, hrest⟩ := List.nodup_cons.mp hnodup
      refine ih hrest (fun other hother => ?_)
        (hstep t loc (hfiles loc (List.mem_cons_self ..)) h)
      have hne : other ≠ loc := by
        rintro rfl
        exact hloc hother
      obtain ⟨content, modified, hget⟩ := hfiles other (List.mem_cons_of_mem _ hother)
      exact ⟨content, modified, by rw [get?_remove_of_ne t hne, hget]⟩

/-! The names that a directory lists. -/

theorem nodup_names (h : (Dict.keys t.nodes).Nodup) (dir : Location) : (t.names dir).Nodup := by
  rw [names_eq]
  refine h.filterMap fun loc loc' name hname hname' => ?_
  rw [nameIn_eq_some_iff.mp hname, nameIn_eq_some_iff.mp hname']

theorem nodup_keys_remove (h : (Dict.keys t.nodes).Nodup) (loc : Location) :
    (Dict.keys (t.remove loc).nodes).Nodup := by
  have hkept : (Dict.keys (t.remove loc).nodes).Sublist (Dict.keys t.nodes) :=
    List.filter_sublist.map _
  exact hkept.nodup h

theorem mem_names_of_remove (hne : loc ≠ []) (h : name ∈ (t.remove loc).names dir) :
    name ∈ t.names dir := by
  rw [mem_names_iff] at h ⊢
  by_cases hloc : dir ++ [name] = loc
  · rw [hloc, get?_remove_self t hne] at h
    cases h
  · rwa [get?_remove_of_ne t hloc] at h

end FileStash.FileTree
