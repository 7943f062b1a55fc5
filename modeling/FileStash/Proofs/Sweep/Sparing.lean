import FileStash.Proofs.Logging.Setup
import FileStash.Proofs.Program.Effects
import FileStash.Proofs.Sweep.Visiting

namespace FileStash

open FileTree (PlainName Gains Trims)

namespace Sweep

variable {c : Context} {a : Arguments} {t t' : FileTree} {files : List (Path × Location)}
  {j : Journal}

/-- The level from which on a command shows its records. -/
def levelOf (a : Arguments) : Int :=
  if a.verbose then Severity.debug.level else Severity.info.level

theorem levelOf_pos (a : Arguments) : 0 < levelOf a := by
  unfold levelOf
  split <;> decide

/-- The value that names the file for records. -/
def recordFile (a : Arguments) : Value :=
  a.logFile.toValue .text

def ready (a : Arguments) (t : FileTree) : Journal :=
  (({ tree := t } : Journal).enable (.int (levelOf a)) (recordFile a)).2

/-- The tree at that point, which is the one that the path is resolved in. -/
def prepared (a : Arguments) (t : FileTree) : FileTree :=
  (ready a t).tree

/-- The places that a command may clear: those directly in the directory that the
resolved path leads to, under `--force`, unless the resolved path is that of the root. -/
structure Clearable (c : Context) (a : Arguments) (t : FileTree) (loc : Location) : Prop where
  forced : a.force = true
  inside : ∃ given real dir name, meant c a = .ok given ∧ t.resolve given = .ok real ∧
    real ≠ Path.ofText "/" ∧ t.Resolves real dir ∧ t.get? dir = some .directory ∧
    PlainName name ∧ loc = dir ++ [name]

/-- All through the work of a command: its records go where they went at the start, and
of the tree that it started with only what may be cleared has gone. -/
structure Sweeping (c : Context) (a : Arguments) (t : FileTree) (files : List (Path × Location))
    (j : Journal) : Prop where
  provided : j.loggers.Provided [] files
  showing : j.Showing (levelOf a)
  trims : Trims t j.tree (Clearable c a t) (· ∈ files.map (·.2))

theorem Sweeping.emit (h : Sweeping c a t files j) (s : Stamp) {r : Record}
    (hr : r.logger = logger) : Sweeping c a t files (j.emit s r.notice) where
  provided := by
    rw [Journal.loggers_emit]
    exact h.provided.ensure _
  showing := h.showing.emit s r.notice
  trims := by
    have hlogger : r.notice.logger = logger := hr
    have hmember : Loggers.Member logger := .part (by decide)
    obtain ⟨hhandlers, -⟩ := h.showing.handlers_of_clear h.provided (levelOf_pos a) hmember
      (by simp)
    have hequipped := h.showing.equipped h.provided (levelOf_pos a)
    have hextends := Journal.extends_emit s j r.notice
    rw [hlogger, hhandlers, Handler.places_of_files hequipped.handlers] at hextends
    exact h.trims.trans (.of_extends hextends)

theorem Sweeping.remove (h : Sweeping c a t files j) {given real : Path} {name : String}
    (hgiven : meant c a = .ok given) (hreal : t.resolve given = .ok real)
    (hroot : real ≠ Path.ofText "/") (hname : PlainName name)
    (hlink : j.tree.isLink (real.child name) = .ok false) (hforced : (orderOf c a).dryRun = false)
    (hremoval : removal (orderOf c a) j.tree (real.child name) = .ok t') :
    Sweeping c a t files { j with tree := t' } := by
  refine ⟨h.provided, ⟨h.showing.logger, h.showing.handlers⟩, ?_⟩
  rcases of_removal hremoval with rfl | hunlink
  · exact h.trims
  · obtain ⟨dir, hdir, hthere, hfile, rfl⟩ := FileTree.of_unlink_child hname hlink hunlink
    refine h.trims.trans (.of_remove ⟨by simpa [orderOf] using hforced, ?_⟩ hfile)
    exact ⟨given, real, dir, name, hgiven, hreal, hroot, h.trims.resolves_before hdir,
      h.trims.directory_before hthere, hname, rfl⟩

/-- What is left to do once the resolved path is known, and whether it can be swept. -/
def workAt (c : Context) (a : Arguments) (real : Path) (sweepable : Bool) : Program Nat :=
  if !sweepable then
    (note ("Nothing to clean: " ++ real.text ++
      " does not exist or is not a directory.")).andThen fun _ => .done 0
  else if real = Path.ofText "/" then
    (Program.note .error logger "Refusing to operate on root directory.").andThen
      fun _ => .done refusalCode
  else (sweepAndReport (orderOf c a) real).andThen fun _ => .done 0

theorem work_eq (c : Context) (a : Arguments) :
    work c a = Program.currentTree.andThen fun t =>
      (Program.ofConverted ((meant c a).bind t.resolve)).andThen fun real =>
        (Program.ofConverted (isSweepable t real)).andThen (workAt c a real) := rfl

theorem Sweeping.workAt (h : Sweeping c a t files j) {given real : Path}
    (hgiven : meant c a = .ok given) (hreal : t.resolve given = .ok real)
    (hplain : ∀ dir name, (t.get? (dir ++ [name])).isSome → PlainName name) (sweepable : Bool) :
    (workAt c a real sweepable).Leaves noClient c.stamp (Sweeping c a t files) () j := by
  have hnote : ∀ (j : Journal) (r : Record), r.logger = logger → Sweeping c a t files j →
      Sweeping c a t files (j.emit c.stamp r.notice) := fun j r hr hj => hj.emit c.stamp hr
  unfold Sweep.workAt
  split
  · exact Program.Leaves.andThen (leaves_note hnote h _ _) fun _ _ _ hj => hj
  · split
    · exact Program.Leaves.andThen (leaves_note hnote h _ _) fun _ _ _ hj => hj
    · rename_i hroot
      refine Program.Leaves.andThen (leaves_sweepAndReport hnote ?_ ?_ h) fun _ _ _ hj => hj
      · exact fun j' hj' dir name hthere => hplain dir name (hj'.trims.isSome_before hthere)
      · exact fun j' hj' name hname hlink hforced t' ht' =>
          hj'.remove hgiven hreal hroot hname hlink hforced ht'

theorem Sweeping.work (h : Sweeping c a t files j) (htree : j.tree = t)
    (hplain : ∀ dir name, (t.get? (dir ++ [name])).isSome → PlainName name) :
    (work c a).Leaves noClient c.stamp (Sweeping c a t files) () j := by
  rw [work_eq]
  refine Program.leaves_currentTree_bind ?_
  rw [htree]
  cases hgiven : meant c a with
  | error f => exact h
  | ok given =>
      cases hreal : t.resolve given with
      | error f =>
          simp only [Except.bind, hreal]
          exact h
      | ok real =>
          simp only [Except.bind, hreal]
          change ((Program.ofConverted (isSweepable t real)).andThen _).Leaves _ _ _ _ _
          exact Program.Leaves.andThen (Program.leaves_ofConverted h (isSweepable t real))
            fun sweepable _ _ hj => hj.workAt hgiven hreal hplain sweepable

/-- Where the given path can be followed, what is cleared lies directly in the directory
that it leads to, and that is not the root. -/
theorem Clearable.led {loc : Location} (h : Clearable c a t loc) (htidy : t.Tidy) {given : Path}
    {place : Location} (hgiven : meant c a = .ok given) (hplace : t.Resolves given place) :
    place ≠ [] ∧ ∃ name, loc = place ++ [name] := by
  obtain ⟨given', real, dir, name, hgiven', hreal, hroot, hdir, -, -, rfl⟩ := h.inside
  obtain rfl : given = given' := Except.ok.inj (hgiven.symm.trans hgiven')
  obtain ⟨rfl, hpath⟩ := htidy.of_resolve hplace hreal hdir
  refine ⟨?_, name, rfl⟩
  rintro rfl
  have hslash : Path.ofText "/" = FileTree.pathOf [] := by decide
  exact hroot (hpath.trans hslash.symm)

/-- What can become of the entry at a place under a command: it is kept, it is a directory
that is made above the file for records, it is that file and grows, or it is a file that may
be cleared and is removed. -/
inductive Fate (c : Context) (a : Arguments) (t t' : FileTree) (loc : Location) : Prop
  | kept (same : t'.get? loc = t.get? loc)
  | above (way : t.AbovePlaceOf (recordFile a) loc) (before : t.get? loc = none)
      (after : t'.get? loc = some .directory)
  | recorded {content more : List UInt8} {later : Int} (place : t.PlaceOf (recordFile a) loc)
      (before : t.get? loc = none ∧ content = [] ∨
        ∃ modified, t.get? loc = some (.file content modified))
      (after : t'.get? loc = some (.file (content ++ more) later))
  | removed (clearable : Clearable c a (prepared a t) loc)
      (led : ∀ given place, meant c a = .ok given → t.Resolves given place →
        place ≠ [] ∧ ∃ name, loc = place ++ [name])
      (before : ∃ content modified, t.get? loc = some (.file content modified))
      (after : t'.get? loc = none)

section Prepared

variable (ht : t.Lawful)
  (hgains : Gains t (prepared a t) (t.AbovePlaceOf (recordFile a)) (t.PlaceOf (recordFile a)))
include ht hgains

/-- Names that are made are those of a resolved path, so they are no dots either. -/
theorem plain_of_prepared {dir : Location} {name : String}
    (hthere : ((prepared a t).get? (dir ++ [name])).isSome) : PlainName name := by
  obtain ⟨n, hn⟩ := Option.isSome_iff_exists.mp hthere
  have hlast : name ∈ dir ++ [name] := by simp
  rcases hgains.kept (dir ++ [name]) with hsame | ⟨-, ⟨⟨p, -, k, hway⟩, -⟩ | ⟨⟨p, -, hplace⟩, -⟩⟩
  · rw [hsame] at hn
    exact (ht.names _ n hn name hlast).plain
  · exact (ht.tidy.straight_of_resolves hway).plain name hlast
  · exact (ht.tidy.straight_of_resolves hplace).plain name hlast

theorem fate_of_trims (hfiles : ∀ f ∈ files, t.PlaceOf (recordFile a) f.2)
    (htrims : Trims (prepared a t) t' (Clearable c a (prepared a t)) (· ∈ files.map (·.2)))
    (loc : Location) : Fate c a t t' loc := by
  have htidy : (prepared a t).Tidy := ht.tidy.congr hgains.link? hgains.home
  have hplace : loc ∈ files.map (·.2) → t.PlaceOf (recordFile a) loc := by
    intro hloc
    obtain ⟨f, hf, rfl⟩ := List.mem_map.mp hloc
    exact hfiles f hf
  rcases hgains.kept loc with hsame | ⟨hnone, ⟨hway, hdir⟩ | ⟨hnew, hempty⟩⟩
  · rcases htrims.kept loc with hsame' | ⟨hloc, content, modified, more, later, hold, hafter⟩ |
      ⟨hclearable, hold, hafter⟩
    · exact .kept (hsame'.trans hsame)
    · rw [hsame] at hold
      exact .recorded (hplace hloc) (.inr ⟨modified, hold⟩) hafter
    · rw [hsame] at hold
      exact .removed hclearable
        (fun given place hgiven hp => hclearable.led htidy hgiven (hgains.resolves hp)) hold hafter
  · rcases htrims.kept loc with hsame' | ⟨-, _, _, _, _, hold, -⟩ | ⟨-, ⟨_, _, hold⟩, -⟩
    · exact .above hway hnone (hsame'.trans hdir)
    · rw [hdir] at hold
      cases hold
    · rw [hdir] at hold
      cases hold
  · rcases htrims.kept loc with hsame' | ⟨-, content, modified, more, later, hold, hafter⟩ |
      ⟨-, -, hafter⟩
    · have hafter : t'.get? loc = some (.file ([] ++ []) t.clock) := hsame'.trans hempty
      exact .recorded hnew (.inl ⟨hnone, rfl⟩) hafter
    · rw [hempty] at hold
      cases hold
      exact .recorded hnew (.inl ⟨hnone, rfl⟩) hafter
    · exact .kept (hafter.trans hnone.symm)

end Prepared

theorem perform_eq (c : Context) (a : Arguments) (t : FileTree) :
    perform c a { tree := t } =
      match (({ tree := t } : Journal).enable (.int (levelOf a)) (recordFile a)).1 with
      | .error f => (.failed (.bare f), ready a t)
      | .ok () =>
          let run := (work c a).journaled noClient c.stamp () (ready a t)
          (match run.1 with
            | .ok code => .exit code
            | .error e => .failed e, run.2.2) := by
  have hready : ready a t = (({ tree := t } : Journal).enable (logLevel a)
    (a.logFile.toValue .text)).2 := rfl
  have hresult : (({ tree := t } : Journal).enable (.int (levelOf a)) (recordFile a)).1 =
    (({ tree := t } : Journal).enable (logLevel a) (a.logFile.toValue .text)).1 := rfl
  unfold perform
  rw [hready, hresult]
  rcases ({ tree := t } : Journal).enable (logLevel a) (a.logFile.toValue .text) with ⟨f | u, j⟩
  · rfl
  · dsimp only
    rcases (work c a).journaled noClient c.stamp () j with ⟨e | code, s, j'⟩ <;> rfl

theorem fate_of_perform (ht : t.Lawful) (c : Context) (a : Arguments) (loc : Location) :
    Fate c a t (perform c a { tree := t }).2.tree loc := by
  have hgains : Gains t (prepared a t) (t.AbovePlaceOf (recordFile a)) (t.PlaceOf (recordFile a)) :=
    Journal.gains_enable { tree := t } (levelOf a) (recordFile a)
  obtain ⟨files, harranged, hshowing, horigin, -⟩ :=
    (Journal.Arranged.start t).enable (levelOf a) (recordFile a)
  have hfiles : ∀ f ∈ files, t.PlaceOf (recordFile a) f.2 := by
    intro f hf
    rcases horigin f hf with hnone | hreal
    · cases hnone
    · exact ⟨f.1, hreal, hgains.resolves_before (harranged.serves.opened f hf).1⟩
  refine fate_of_trims ht hgains hfiles ?_ loc
  have hready : Sweeping c a (prepared a t) files (ready a t) :=
    ⟨harranged.provided, hshowing, .refl _ _ _⟩
  rw [perform_eq]
  split
  · exact hready.trims
  · exact (hready.work rfl fun _ _ hthere => plain_of_prepared ht hgains hthere).trims

end Sweep

end FileStash
