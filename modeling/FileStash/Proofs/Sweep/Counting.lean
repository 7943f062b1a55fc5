import FileStash.Proofs.FileTree.Remaining
import FileStash.Proofs.Sweep.Visiting

namespace FileStash

theorem Path.name_child (p : Path) (name : String) : (p.child name).name = name := by
  simp [Path.name, Path.child]

namespace Sweep

open FileTree (LegalName maxPath Remains)

/-- What an age can be compared with, or no threshold at all. -/
inductive Threshold : Value → Prop
  | none : Threshold .null
  | bool (b : Bool) : Threshold (.bool b)
  | int (n : Int) : Threshold (.int n)
  | float (x : Binary64) : Threshold (.float x)

/-- Whether a regular file goes: always where there is no threshold, and else unless its
age in hours is less. -/
def Order.takes (o : Order) (modified : Int) : Bool :=
  match o.older with
  | .null => true
  | older => !Binary64.numLt (hours (o.now - modified)).extended? older.extended?

/-- The size of what lies at a place, where that is a regular file that goes. -/
def Order.oldSize? (o : Order) (t : FileTree) (loc : Location) : Option Nat :=
  match t.get? loc with
  | some (.file content modified) => if o.takes modified then some content.length else none
  | _ => none

/-- The system answers what it is asked about an entry. -/
def Order.answered (o : Order) (dir : Path) (name : String) : Bool :=
  (o.obstacles.kind name).isNone && (o.obstacles.status name).isNone &&
    decide (Text.Utf8.size (dir.child name).text ≤ maxPath)

/-- The size of an entry that is counted: a regular file that is old enough, as far as the
system says so. -/
def Order.counted? (o : Order) (t : FileTree) (dir : Path) (place : Location) (name : String) :
    Option Nat :=
  if o.answered dir name then o.oldSize? t (place ++ [name]) else none

def Order.removes (o : Order) (t : FileTree) (dir : Path) (place : Location) (name : String) :
    Bool :=
  (o.counted? t dir place name).isSome && !o.dryRun && (o.obstacles.removal name).isNone

/-- The places of the entries that are taken away. -/
def Order.gone (o : Order) (t : FileTree) (dir : Path) (place : Location)
    (names : List String) : List Location :=
  (names.filter (o.removes t dir place)).map (place ++ [·])

/-- The threshold can be compared with the age of an entry, if that comes into question. -/
def Order.Judges (o : Order) (t : FileTree) (dir : Path) (place : Location) (name : String) :
    Prop :=
  Threshold o.older ∨ o.counted? t dir place name = none

/-- What a sweep of a directory can rely on, whatever trouble there is with the entries. -/
structure Sweepable (t : FileTree) (dir : Path) (place : Location) : Prop where
  directory : t.stat dir = .ok (place, .directory)
  legal : ∀ name ∈ t.names place, LegalName name

variable {o : Order} {t t' : FileTree} {dir p : Path} {place loc : Location} {name : String}
  {names : List String} {f : Failure} {size : Nat} {log : Option Location} {more : List UInt8}
  {gone : List Location}

section Size

theorem isYoung_eq (h : Threshold o.older) (modified : Int) :
    isYoung o.older (hours (o.now - modified)) = .ok (!o.takes modified) := by
  unfold isYoung Order.takes
  generalize o.older = older at h
  cases h with
  | none => rfl
  | bool | int | float => exact congrArg Except.ok (Bool.not_not _).symm

theorem isYoung_of_not_threshold (h : ¬Threshold o.older) (age : Binary64) :
    isYoung o.older age = .error .wrongType ∧ ∀ modified, o.takes modified = true := by
  unfold isYoung Order.takes
  generalize o.older = older at h
  cases older with
  | null => exact absurd .none h
  | bool b => exact absurd (.bool b) h
  | int n => exact absurd (.int n) h
  | float x => exact absurd (.float x) h
  | _ => exact ⟨rfl, fun _ => by simp [Value.extended?, Binary64.numLt]⟩

theorem oldSize?_of_file {content : List UInt8} {modified : Int}
    (h : t.get? loc = some (.file content modified)) :
    o.oldSize? t loc = if o.takes modified then some content.length else none := by
  simp only [Order.oldSize?, h]

theorem fileAt_of_oldSize? (h : (o.oldSize? t loc).isSome) : t.FileAt loc := by
  unfold Order.oldSize? at h
  split at h
  · rename_i content modified hget
    exact ⟨content, modified, hget⟩
  · cases h

theorem oldSize?_of_not_file (h : ¬t.FileAt loc) : o.oldSize? t loc = none := by
  cases hsize : o.oldSize? t loc with
  | none => rfl
  | some size => exact absurd (fileAt_of_oldSize? (by rw [hsize]; rfl)) h

theorem oldSize?_congr {u : FileTree} (h : u.get? loc = t.get? loc) :
    o.oldSize? u loc = o.oldSize? t loc := by
  simp only [Order.oldSize?, h]

theorem isSome_oldSize?_of_remains (h : Remains log more gone t t') (hloc : loc ∉ gone) :
    (o.oldSize? t' loc).isSome = (o.oldSize? t loc).isSome := by
  by_cases hfile : t.FileAt loc
  · obtain ⟨content, modified, hget⟩ := hfile
    obtain ⟨content', hget'⟩ := h.file hloc hget
    rw [oldSize?_of_file hget, oldSize?_of_file hget']
    split <;> rfl
  · have hfile' : ¬t'.FileAt loc := fun hfile' => hfile (h.fileAt_before hfile')
    rw [oldSize?_of_not_file hfile, oldSize?_of_not_file hfile']

theorem counted?_eq_some_iff :
    o.counted? t dir place name = some size ↔
      o.answered dir name = true ∧ o.oldSize? t (place ++ [name]) = some size := by
  unfold Order.counted?
  split <;> simp [*]

theorem answered_iff :
    o.answered dir name = true ↔ o.obstacles.kind name = none ∧ o.obstacles.status name = none ∧
      Text.Utf8.size (dir.child name).text ≤ maxPath := by
  simp [Order.answered, and_assoc]

theorem of_counted (h : (o.counted? t dir place name).isSome) :
    o.answered dir name = true ∧ ∃ content modified,
      t.get? (place ++ [name]) = some (.file content modified) ∧ o.takes modified = true := by
  obtain ⟨size, hsize⟩ := Option.isSome_iff_exists.mp h
  obtain ⟨hanswered, hold⟩ := counted?_eq_some_iff.mp hsize
  obtain ⟨content, modified, hget⟩ := fileAt_of_oldSize? (by rw [hold]; rfl)
  refine ⟨hanswered, content, modified, hget, ?_⟩
  rw [oldSize?_of_file hget] at hold
  split at hold
  · assumption
  · cases hold

theorem mem_names_of_counted (h : (o.counted? t dir place name).isSome) :
    name ∈ t.names place := by
  obtain ⟨-, content, modified, hget, -⟩ := of_counted h
  exact FileTree.FileAt.mem_names ⟨content, modified, hget⟩

theorem threshold_of_judges (hjudges : o.Judges t dir place name)
    (hanswered : o.answered dir name = true) (hfile : t.FileAt (place ++ [name])) :
    Threshold o.older := by
  by_contra hthreshold
  obtain ⟨content, modified, hget⟩ := hfile
  have htakes := (isYoung_of_not_threshold hthreshold default).2 modified
  rcases hjudges with hthreshold' | hnone
  · exact hthreshold hthreshold'
  · simp [Order.counted?, hanswered, oldSize?_of_file hget, htakes] at hnone

theorem isSome_counted?_of_remains (h : Remains log more gone t t')
    (hname : place ++ [name] ∉ gone) :
    (o.counted? t' dir place name).isSome = (o.counted? t dir place name).isSome := by
  unfold Order.counted?
  split
  · exact isSome_oldSize?_of_remains h hname
  · rfl

theorem counted?_of_remains (h : Remains log more gone t t') (hname : place ++ [name] ∉ gone)
    (hlog : log ≠ some (place ++ [name])) :
    o.counted? t' dir place name = o.counted? t dir place name := by
  unfold Order.counted?
  rw [oldSize?_congr (h.get?_of_ne hname hlog)]

theorem judges_of_remains (h : Remains log more gone t t') (hname : place ++ [name] ∉ gone) :
    o.Judges t' dir place name ↔ o.Judges t dir place name := by
  have hsome : (o.counted? t' dir place name).isSome = (o.counted? t dir place name).isSome :=
    isSome_counted?_of_remains h hname
  unfold Order.Judges
  rw [← Option.not_isSome_iff_eq_none, ← Option.not_isSome_iff_eq_none, hsome]

theorem removes_of_remains (h : Remains log more gone t t') (hname : place ++ [name] ∉ gone) :
    o.removes t' dir place name = o.removes t dir place name := by
  unfold Order.removes
  rw [isSome_counted?_of_remains h hname]

theorem mem_gone_iff :
    loc ∈ o.gone t dir place names ↔
      ∃ name ∈ names, o.removes t dir place name = true ∧ loc = place ++ [name] := by
  simp only [Order.gone, List.mem_map, List.mem_filter, and_assoc, eq_comm (b := loc)]

theorem not_mem_gone (h : name ∉ names) : place ++ [name] ∉ o.gone t dir place names := by
  rw [mem_gone_iff]
  rintro ⟨other, hother, -, heq⟩
  rw [List.append_cancel_left_eq, List.singleton_inj] at heq
  exact h (heq ▸ hother)

end Size

theorem Sweepable.of_lawful (ht : t.Lawful) (hdir : t.stat dir = .ok (place, .directory)) :
    Sweepable t dir place := by
  refine ⟨hdir, fun name hname => ?_⟩
  obtain ⟨n, hn⟩ := Option.isSome_iff_exists.mp (FileTree.mem_names_iff.mp hname)
  exact ht.names _ n hn name (by simp)

theorem Sweepable.remains (h : Sweepable t dir place) (hrest : Remains log more gone t t') :
    Sweepable t' dir place where
  directory := hrest.stat h.directory
  legal name hname := h.legal name (hrest.mem_names_before hname)

/-- What is taken for a regular file, that is one, and the system has said so. -/
theorem of_isPlainFile_child (h : Sweepable t dir place) (hname : name ∈ t.names place)
    (hplain : isPlainFile o.obstacles t (dir.child name) = .ok true) :
    t.FileAt (place ++ [name]) ∧ o.obstacles.kind name = none ∧
      Text.Utf8.size (dir.child name).text ≤ maxPath := by
  have hlegal := h.legal name hname
  have hnul := FileTree.hasNul_child (FileTree.resolves_of_stat h.directory).1.1 hlegal.noNul
  obtain ⟨hasked, hlink⟩ := of_isPlainFile hplain
  refine ⟨FileTree.fileAt_of_isFile h.directory hlegal hasked hlink, ?_,
    FileTree.short_of_isFile hnul hasked⟩
  cases hkind : o.obstacles.kind name with
  | none => rfl
  | some code =>
      simp [isPlainFile, unlessObstacle, Path.name_child, hkind, bind, Except.bind] at hplain

theorem isSystem_of_isPlainFile (hnul : p.hasNul = false)
    (h : isPlainFile o.obstacles t p = .error f) : f.isSystem = true := by
  unfold isPlainFile unlessObstacle at h
  cases hkind : o.obstacles.kind p.name with
  | some code =>
      simp only [hkind, bind, Except.bind, Except.error.injEq] at h
      rw [← h]
      rfl
  | none =>
      cases hfile : t.isFile p with
      | error f' =>
          simp only [hkind, hfile, bind, Except.bind, Except.error.injEq] at h
          exact h ▸ FileTree.isSystem_of_asks hnul hfile
      | ok file =>
          cases hlink : t.isLink p with
          | error f' =>
              cases file <;> simp [hkind, hfile, hlink, bind, Except.bind] at h
              exact h ▸ FileTree.isSystem_of_isLink hnul hlink
          | ok link => cases file <;> simp [hkind, hfile, hlink, bind, Except.bind] at h

section File

variable {content : List UInt8} {modified : Int} (h : Sweepable t dir place)
  (hname : name ∈ t.names place) (hget : t.get? (place ++ [name]) = some (.file content modified))
  (hshort : Text.Utf8.size (dir.child name).text ≤ maxPath)
include h hname hget hshort

theorem isPlainFile_child (hkind : o.obstacles.kind name = none) :
    isPlainFile o.obstacles t (dir.child name) = .ok true := by
  have hlegal := h.legal name hname
  simp [isPlainFile, unlessObstacle, Path.name_child, hkind, bind, Except.bind,
    FileTree.isFile_child_file h.directory hlegal hget hshort,
    FileTree.isLink_child_file h.directory hlegal hget hshort]

theorem measure_child :
    measure o t (dir.child name) =
      match o.obstacles.status name with
      | some code => .error (.system code (dir.child name).text)
      | none => .ok (content.length, o.now - modified) := by
  unfold measure unlessObstacle
  rw [Path.name_child]
  cases o.obstacles.status name with
  | some code => rfl
  | none =>
      simp [bind, Except.bind,
        FileTree.stat_child_file h.directory (h.legal name hname) hget hshort]

theorem selected?_child_answered (hanswered : o.answered dir name = true) :
    selected? o t (dir.child name) =
      (isYoung o.older (hours (o.now - modified))).map fun young =>
        if young then none else some content.length := by
  obtain ⟨hkind, hstatus, -⟩ := answered_iff.mp hanswered
  simp only [selected?, isPlainFile_child h hname hget hshort hkind,
    measure_child h hname hget hshort, hstatus, bind, Except.bind]
  cases isYoung o.older (hours (o.now - modified)) with
  | error f => rfl
  | ok young => cases young <;> rfl

end File

section Entry

variable (h : Sweepable t dir place) (hname : name ∈ t.names place)
include h hname

theorem isPlainFile_of_counted (hsize : (o.counted? t dir place name).isSome) :
    isPlainFile o.obstacles t (dir.child name) = .ok true := by
  obtain ⟨hanswered, content, modified, hget, -⟩ := of_counted hsize
  obtain ⟨hkind, -, hshort⟩ := answered_iff.mp hanswered
  exact isPlainFile_child h hname hget hshort hkind

/-- An entry that is counted is selected with its size and nothing else is; whatever trouble
there is comes from the system. -/
theorem selected?_child (hjudges : o.Judges t dir place name) :
    selected? o t (dir.child name) = .ok (o.counted? t dir place name) ∨
      o.counted? t dir place name = none ∧
        ∃ f, selected? o t (dir.child name) = .error f ∧ f.isSystem = true := by
  have hnone (hplain : isPlainFile o.obstacles t (dir.child name) ≠ .ok true) :
      o.counted? t dir place name = none := by
    cases hsize : o.counted? t dir place name with
    | none => rfl
    | some size => exact absurd (isPlainFile_of_counted h hname (by rw [hsize]; rfl)) hplain
  cases hplain : isPlainFile o.obstacles t (dir.child name) with
  | error f =>
      have hnul := FileTree.hasNul_child (FileTree.resolves_of_stat h.directory).1.1
        (h.legal name hname).noNul
      exact .inr ⟨hnone (by simp [hplain]), f, by simp [selected?, hplain, bind, Except.bind],
        isSystem_of_isPlainFile hnul hplain⟩
  | ok plain =>
      cases plain with
      | false =>
          exact .inl (by simp [selected?, hplain, hnone (by simp [hplain]), bind, Except.bind])
      | true =>
          obtain ⟨⟨content, modified, hget⟩, hkind, hshort⟩ := of_isPlainFile_child h hname hplain
          cases hstatus : o.obstacles.status name with
          | none =>
              have hanswered : o.answered dir name = true :=
                answered_iff.mpr ⟨hkind, hstatus, hshort⟩
              have hthreshold := threshold_of_judges hjudges hanswered ⟨content, modified, hget⟩
              rw [selected?_child_answered h hname hget hshort hanswered, isYoung_eq hthreshold,
                Order.counted?, if_pos hanswered, oldSize?_of_file hget]
              cases o.takes modified <;> exact .inl rfl
          | some code =>
              have hanswered : o.answered dir name = false := by simp [Order.answered, hstatus]
              refine .inr ⟨by simp [Order.counted?, hanswered],
                .system code (dir.child name).text, ?_, rfl⟩
              simp [selected?, hplain, measure_child h hname hget hshort, hstatus, bind,
                Except.bind]

/-- Where the age cannot be compared, an entry for which that comes into question ends the
sweep. -/
theorem selected?_of_not_threshold (hthreshold : ¬Threshold o.older)
    (hsize : (o.counted? t dir place name).isSome) :
    selected? o t (dir.child name) = .error .wrongType := by
  obtain ⟨hanswered, content, modified, hget, -⟩ := of_counted hsize
  rw [selected?_child_answered h hname hget (answered_iff.mp hanswered).2.2 hanswered,
    (isYoung_of_not_threshold hthreshold _).1]
  rfl

theorem removal_child (hsize : (o.counted? t dir place name).isSome) :
    removal o t (dir.child name) =
      match o.obstacles.removal name with
      | none => .ok (t.remove (place ++ [name]))
      | some .noEntry => .ok t
      | some code => .error (.system code (dir.child name).text) := by
  obtain ⟨hanswered, content, modified, hget, -⟩ := of_counted hsize
  have hshort := (answered_iff.mp hanswered).2.2
  unfold removal unlessObstacle
  rw [Path.name_child,
    FileTree.unlink_child_file h.directory (h.legal name hname) hget hshort]
  cases o.obstacles.removal name with
  | none => rfl
  | some code => cases code <;> rfl

end Entry

end Sweep

end FileStash
