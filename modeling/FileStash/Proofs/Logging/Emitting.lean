import FileStash.Logging.Journal
import FileStash.Proofs.FileTree.Opening
import FileStash.Proofs.Logging.Hierarchy

namespace FileStash

def Notice.line (n : Notice) (s : Stamp) : List UInt8 :=
  Text.Utf8.encode (n.fileText s ++ "\n")

def Notice.heard (n : Notice) (hs : List Handler) : List Handler :=
  hs.filter fun h => !decide (n.level.value < h.level.value)

def Handler.places (hs : List Handler) : List Location :=
  hs.filterMap fun h => h.file.map (·.2)

/-- How many of the handlers write to the console. -/
def Handler.consoles (hs : List Handler) : Nat :=
  hs.countP (·.file.isNone)

namespace Journal

variable {s : Stamp} {n : Notice} {j : Journal}

theorem foldl_handle (s : Stamp) (n : Notice) (j : Journal) (hs : List Handler) :
    hs.foldl (handle s n) j =
      { j with
        tree := j.tree.appendAll (Handler.places (n.heard hs)) (n.line s)
        console := j.console ++ List.replicate (Handler.consoles (n.heard hs)) (n.consoleText s) } := by
  induction hs generalizing j with
  | nil => simp [Notice.heard, Handler.places, Handler.consoles, FileTree.appendAll]
  | cons h hs ih =>
      rw [List.foldl_cons, ih]
      by_cases hlow : n.level.value < h.level.value
      · simp [handle, hlow, Notice.heard]
      · cases hfile : h.file with
        | none =>
            simp [handle, hlow, hfile, Notice.heard, Handler.places, Handler.consoles,
              List.replicate_succ]
        | some file =>
            simp [handle, hlow, hfile, Notice.heard, Handler.places, Handler.consoles,
              FileTree.appendAll, Notice.line]

theorem loggers_emit (s : Stamp) (j : Journal) (n : Notice) :
    (j.emit s n).loggers = j.loggers.ensure n.logger := by
  unfold emit
  dsimp only
  split
  · split
    · unfold handleLast
      split <;> rfl
    · rw [foldl_handle]
  · rfl

theorem emit_of_takes {hs : List Handler}
    (htakes : (j.loggers.ensure n.logger).takes n.logger n.level.value = true)
    (hhandlers : (j.loggers.ensure n.logger).handlers n.logger = hs) (hne : hs ≠ []) :
    j.emit s n =
      { loggers := j.loggers.ensure n.logger
        tree := j.tree.appendAll (Handler.places (n.heard hs)) (n.line s)
        console := j.console ++ List.replicate (Handler.consoles (n.heard hs)) (n.consoleText s) } := by
  unfold emit
  simp only [htakes, if_true, hhandlers]
  cases hs with
  | nil => exact absurd rfl hne
  | cons h hs => exact foldl_handle s n _ (h :: hs)

theorem mem_places_of_heard {hs : List Handler} {loc : Location}
    (h : loc ∈ Handler.places (n.heard hs)) : loc ∈ Handler.places hs := by
  obtain ⟨g, hg, hloc⟩ := List.mem_filterMap.mp h
  exact List.mem_filterMap.mpr ⟨g, (List.mem_filter.mp hg).1, hloc⟩

/-- Whatever becomes of a record, it is written to places only that handlers of its
logger, or of one above it, write to. -/
theorem tree_emit (s : Stamp) (j : Journal) (n : Notice) :
    ∃ locs, (∀ loc ∈ locs,
        loc ∈ Handler.places ((j.loggers.ensure n.logger).handlers n.logger)) ∧
      (j.emit s n).tree = j.tree.appendAll locs (n.line s) := by
  unfold emit
  dsimp only
  split
  · split
    · refine ⟨[], by simp, ?_⟩
      unfold handleLast
      split <;> rfl
    · rw [foldl_handle]
      exact ⟨_, fun _ => mem_places_of_heard, rfl⟩
  · exact ⟨[], by simp, rfl⟩

theorem extends_emit (s : Stamp) (j : Journal) (n : Notice) :
    FileTree.Extends j.tree (j.emit s n).tree
      (· ∈ Handler.places ((j.loggers.ensure n.logger).handlers n.logger)) := by
  obtain ⟨locs, hlocs, htree⟩ := tree_emit s j n
  rw [htree]
  exact (FileTree.extends_appendAll _ _ _).mono hlocs

theorem tree_emit_of_console (s : Stamp)
    (h : ∀ g ∈ (j.loggers.ensure n.logger).handlers n.logger, g.file = none) :
    (j.emit s n).tree = j.tree := by
  obtain ⟨locs, hlocs, htree⟩ := tree_emit s j n
  have hnone : locs = [] := by
    refine List.eq_nil_iff_forall_not_mem.mpr fun loc hloc => ?_
    obtain ⟨g, hg, hplace⟩ := List.mem_filterMap.mp (hlocs loc hloc)
    rw [h g hg] at hplace
    cases hplace
  rw [htree, hnone]
  rfl

end Journal

end FileStash
