import Mathlib.Data.List.Nodup
import FileStash.Proofs.Logging.Setup
import FileStash.Proofs.Program.Effects

/-!
Where the package's records come out. Once they are shown, a record of the level or
above is written once to the console and to the files, whatever was set up before,
unless a logger on its way was given handlers of its own: then none of it reaches a
file.
-/

namespace FileStash

open FileTree (pathOf)

def Journal.emitAll (j : Journal) (emitted : List (Stamp × Notice)) : Journal :=
  emitted.foldl (fun j e => j.emit e.1 e.2) j

theorem FileTree.Serves.count_place {start t : FileTree} {files : List (Path × Location)}
    (h : start.Serves files t) (htidy : start.Tidy) (hloops : start.LoopFree) {p : Path}
    {loc : Location} (hmem : (p, loc) ∈ files) : (files.map (·.2)).count loc = 1 := by
  have hpaths : files.map (·.1) = (files.map (·.2)).map pathOf := by
    rw [List.map_map]
    exact List.map_congr_left fun f hf => h.straight htidy hloops f hf
  have hdistinct : (files.map (·.2)).Nodup := by
    have hmapped := h.distinct
    rw [hpaths] at hmapped
    exact List.Nodup.of_map pathOf hmapped
  exact List.count_eq_one_of_mem hdistinct (List.mem_map.mpr ⟨_, hmem, rfl⟩)

namespace Journal

variable {t : FileTree} {owners : List String} {files : List (Path × Location)}
  {level : Int} {j : Journal} {s : Stamp} {n : Notice}

theorem Arranged.emitAll (h : Arranged t owners files j) (emitted : List (Stamp × Notice)) :
    Arranged t owners files (j.emitAll emitted) := by
  induction emitted generalizing j with
  | nil => exact h
  | cons e emitted ih => exact ih (h.emit e.1 e.2)

theorem Showing.emitAll (h : Showing level j) (emitted : List (Stamp × Notice)) :
    Showing level (j.emitAll emitted) := by
  induction emitted generalizing j with
  | nil => exact h
  | cons e emitted ih => exact ih (h.emit e.1 e.2)

/-- Where no logger on its way was given handlers, a record comes on the console and in
the package's files. -/
theorem Showing.emit_of_clear (hshowing : Showing level j) (h : j.loggers.Provided owners files)
    (hlevel : 0 < level) (hmember : Loggers.Member n.logger) (hn : level ≤ n.level.value)
    (hclear : ∀ m ∈ owners, m ≠ n.logger ∧ ¬Loggers.StandsAbove m n.logger) (s : Stamp) :
    (j.emit s n).console = j.console ++ [n.consoleText s] ∧
      (j.emit s n).tree = j.tree.appendAll (files.map (·.2)) (n.line s) := by
  have hequipped := hshowing.equipped h hlevel
  obtain ⟨hhandlers, heffective⟩ := hshowing.handlers_of_clear h hlevel hmember hclear
  have htakes : (j.loggers.ensure n.logger).takes n.logger n.level.value = true := by
    rw [Loggers.takes, heffective]
    simp only [Bool.and_eq_true, decide_eq_true_eq]
    omega
  have hall : n.heard (j.loggers.get packageLogger).handlers =
      (j.loggers.get packageLogger).handlers := by
    refine List.filter_eq_self.mpr fun g hg => ?_
    rw [hshowing.handlers g hg]
    simp only [Bool.not_eq_true', decide_eq_false_iff_not, Int.not_lt]
    exact hn
  rw [emit_of_takes htakes hhandlers hequipped.handlers_ne_nil, hall,
    Handler.places_of_files hequipped.handlers, Handler.consoles_of_files hequipped.handlers]
  exact ⟨rfl, rfl⟩

/-- Records of a logger that was given handlers, and of those below it, stay out of the
package's files. -/
theorem Arranged.emit_of_owner (h : Arranged t owners files j) {owner : String}
    (howner : owner ∈ owners) (hpackaged : Loggers.Packaged owner) (hne : owner ≠ packageLogger)
    (hname : n.logger = owner ∨
      ∃ rest, rest.toList.head? ≠ some '.' ∧ n.logger = owner ++ "." ++ rest) (s : Stamp) :
    (j.emit s n).tree = j.tree := by
  refine tree_emit_of_console s fun g hg => ?_
  have hclosed : ((j.loggers.ensure n.logger).get owner).propagate = false := by
    rw [Loggers.get_ensure]
    exact h.provided.owner owner howner hpackaged
  obtain ⟨m, hm, hne', hg⟩ := Loggers.mem_handlers_of_owner hpackaged hne hclosed hname hg
  rw [Loggers.get_ensure] at hg
  exact h.provided.console m hm hne' g hg

end Journal

namespace Setup

theorem ne_package_of_mem_owners {calls : List Setup} {name : String}
    (h : name ∈ owners calls) : name ≠ packageLogger := by
  obtain ⟨c, -, hc⟩ := List.mem_filterMap.mp h
  cases c with
  | own other level =>
      dsimp only at hc
      split at hc
      · cases hc
      · rename_i hne
        rwa [Option.some.inj hc] at hne
  | enable level file => cases hc

end Setup

end FileStash
