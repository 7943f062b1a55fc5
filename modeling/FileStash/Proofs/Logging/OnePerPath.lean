import FileStash.Proofs.FileTree.Children
import FileStash.Proofs.Logging.Surfacing
import Mathlib.Data.List.Perm.Subperm

namespace FileStash

open FileTree (pathOf)

/-- What comes to a journal: a call that shows the package's records from a level on, with a
file or without, and a record of any logger. -/
inductive Incoming
  | enable (level : Int) (file : Value)
  | emit (s : Stamp) (n : Notice)

namespace Incoming

def apply (j : Journal) : Incoming → Journal
  | .enable level file => (j.enable (.int level) file).2
  | .emit s n => j.emit s n

/-- A call for a file has returned, so that the file is open under its real path. -/
def Opens (j : Journal) : Incoming → Path → Prop
  | .enable level file, p =>
      file.isNull = false ∧ (j.enable (.int level) file).1 = .ok () ∧ j.tree.RealPath file p
  | .emit .., _ => False

end Incoming

namespace Journal

variable {t : FileTree} {owners : List String} {files files' : List (Path × Location)}
  {level : Int} {j : Journal}

/-- The journal behind all that has come to it. -/
def through (j : Journal) (course : List Incoming) : Journal :=
  course.foldl Incoming.apply j

/-- The real paths under which files have been opened on the way. -/
def Opened (j : Journal) : List Incoming → Path → Prop
  | [], _ => False
  | e :: course, p => e.Opens j p ∨ (e.apply j).Opened course p

/-- The paths of the files are those from before, and that of the file that was opened. -/
theorem Opening.paths_iff {file : Value} {result : Except Failure Unit}
    (h : Opening t file files result files') (p : Path) :
    p ∈ files'.map (·.1) ↔
      p ∈ files.map (·.1) ∨ file.isNull = false ∧ result = .ok () ∧ t.RealPath file p := by
  cases h with
  | failed f => simp
  | none null => simp [null]
  | @again q loc given real there =>
      refine ⟨.inl, ?_⟩
      rintro (hold | ⟨-, -, hreal⟩)
      · exact hold
      · obtain rfl := Except.ok.inj (real.symm.trans hreal)
        exact List.mem_map.mpr ⟨_, there, rfl⟩
  | @opened q loc given real fresh =>
      rw [List.map_append, List.mem_append]
      refine or_congr Iff.rfl ⟨?_, ?_⟩
      · intro hsame
        obtain rfl : p = q := by simpa using hsame
        exact ⟨given, rfl, real⟩
      · rintro ⟨-, -, hreal⟩
        obtain rfl := Except.ok.inj (real.symm.trans hreal)
        exact List.mem_singleton_self _

theorem Arranged.apply (h : Arranged t owners files j) (e : Incoming) :
    ∃ files', Arranged t owners files' (e.apply j) ∧
      ∀ p, p ∈ files'.map (·.1) ↔ p ∈ files.map (·.1) ∨ e.Opens j p := by
  cases e with
  | enable level file =>
      obtain ⟨files', harranged, -, hopening⟩ := h.enable_opening level file
      exact ⟨files', harranged, hopening.paths_iff⟩
  | emit s n => exact ⟨files, h.emit s n, fun p => (or_iff_left id).symm⟩

theorem Arranged.through (h : Arranged t owners files j) (course : List Incoming) :
    ∃ files', Arranged t owners files' (j.through course) ∧
      ∀ p, p ∈ files'.map (·.1) ↔ p ∈ files.map (·.1) ∨ j.Opened course p := by
  induction course generalizing files j with
  | nil => exact ⟨files, h, fun p => (or_iff_left id).symm⟩
  | cons e course ih =>
      obtain ⟨middle, harranged, hfirst⟩ := h.apply e
      obtain ⟨files', hend, hrest⟩ := ih harranged
      exact ⟨files', hend, fun p => by rw [hrest, hfirst, or_assoc]; rfl⟩

theorem Showing.logger_eq (hshowing : Showing level j) (h : j.loggers.Provided owners files)
    (hlevel : 0 < level) :
    j.loggers.get packageLogger =
      { level := .number level
        propagate := false
        handlers := (none :: files.map some).map fun file => ⟨.number level, file⟩ } := by
  have hequipped := hshowing.equipped h hlevel
  have hhandlers : (j.loggers.get packageLogger).handlers =
      (none :: files.map some).map fun file => ⟨.number level, file⟩ := by
    calc
      _ = (j.loggers.get packageLogger).handlers.map id := (List.map_id _).symm
      _ = (j.loggers.get packageLogger).handlers.map fun g => ⟨.number level, g.file⟩ :=
        List.map_congr_left fun g hg => by rw [id, ← hshowing.handlers g hg]
      _ = (none :: files.map some).map fun file => ⟨.number level, file⟩ := by
        rw [← hequipped.handlers, List.map_map]
        rfl
  rcases hg : j.loggers.get packageLogger with ⟨lv, propagate, handlers⟩
  rw [hg] at hhandlers hequipped
  have hlogger := hshowing.logger
  rw [hg] at hlogger
  obtain rfl : lv = .number level := hlogger
  obtain rfl : propagate = false := hequipped.closed
  obtain rfl := hhandlers
  rfl

end Journal

theorem count_place_eq_one_iff {files : List (Path × Location)}
    (hdistinct : (files.map (·.1)).Nodup) {f : Path × Location} (hf : f ∈ files) :
    (files.map (·.2)).count f.2 = 1 ↔ ∀ g ∈ files, g.2 = f.2 → g = f := by
  have hcount : (files.map (·.2)).count f.2 = (files.filter (·.2 == f.2)).length := by
    rw [List.count_eq_countP, List.countP_map, List.countP_eq_length_filter]
    rfl
  have hself : f ∈ files.filter (·.2 == f.2) := List.mem_filter.mpr ⟨hf, beq_self_eq_true _⟩
  rw [hcount]
  constructor
  · intro hone g hg hplace
    obtain ⟨only, honly⟩ := List.length_eq_one_iff.mp hone
    have hg' : g ∈ files.filter (·.2 == f.2) := List.mem_filter.mpr ⟨hg, beq_iff_eq.mpr hplace⟩
    rw [honly, List.mem_singleton] at hself hg'
    rw [hself, hg']
  · intro hunique
    have hnodup : (files.filter (·.2 == f.2)).Nodup := (List.Nodup.of_map _ hdistinct).filter _
    have hsubset : files.filter (·.2 == f.2) ⊆ [f] := by
      intro g hg
      obtain ⟨hg, hplace⟩ := List.mem_filter.mp hg
      exact List.mem_singleton.mpr (hunique g hg (beq_iff_eq.mp hplace))
    have hle := (List.subperm_of_subset hnodup hsubset).length_le
    have hpos := List.length_pos_of_mem hself
    rw [List.length_singleton] at hle
    omega

end FileStash
