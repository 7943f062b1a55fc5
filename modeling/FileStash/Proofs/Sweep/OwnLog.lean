import FileStash.Proofs.FileTree.Regular
import FileStash.Proofs.FileTree.Unslashed
import FileStash.Proofs.Sweep.Working

namespace FileStash

open FileTree (Regular Remains Fresh)

namespace Journal

theorem regular_openFile {j : Journal} (h : j.tree.Regular) (lv : Level) (file : String) :
    (j.openFile lv (.text file)).2.tree.Regular := by
  unfold openFile
  cases hreal : (Value.text file).toPath.bind j.tree.resolve with
  | error f => exact h
  | ok p =>
      have hslash : p.Unslashed :=
        h.lawful.unslashed_of_resolve (Path.unslashed_ofText file) hreal
      dsimp only
      split
      · exact h
      · have hdirs := h.makeDirectories hslash.parent
        rcases hmake : j.tree.makeDirectories p.parent with ⟨f | u, tree⟩
        · rw [hmake] at hdirs
          exact hdirs
        · rw [hmake] at hdirs
          dsimp only
          cases hopen : tree.openAppend p with
          | error f => exact hdirs
          | ok opened =>
              obtain ⟨loc, tree'⟩ := opened
              exact hdirs.openAppend hslash hopen

theorem console_openFile (j : Journal) (lv : Level) (file : Value) :
    (j.openFile lv file).2.console = j.console := by
  unfold openFile
  cases file.toPath.bind j.tree.resolve with
  | error f => rfl
  | ok p =>
      dsimp only
      split
      · rfl
      · rcases j.tree.makeDirectories p.parent with ⟨f | u, tree⟩
        · rfl
        · dsimp only
          cases tree.openAppend p <;> rfl

theorem console_enable (j : Journal) (level : Int) (file : Value) :
    (j.enable (.int level) file).2.console = j.console := by
  have hget : (j.getLogger (.text packageLogger) (Setup.levelValue (some level))).2.console =
      j.console := by rw [getLogger_text]
  rw [enable_int, ← hget]
  dsimp only
  split
  · rfl
  · exact console_openFile _ _ _

theorem regular_enable {j : Journal} (h : j.tree.Regular) (level : Int) (file : String) :
    (j.enable (.int level) (.text file)).2.tree.Regular := by
  have htree : (j.getLogger (.text packageLogger) (Setup.levelValue (some level))).2.tree =
      j.tree := by rw [getLogger_text]
  rw [enable_int]
  exact regular_openFile (j := setLevel _ (.number level)) (htree ▸ h) (.number level) file

end Journal

namespace Sweep

variable {σ : Type} {client : Client σ} {s : σ} {o : Order} {t u : FileTree} {dir p : Path}
  {place loc : Location} {name : String} {line : Record → List UInt8} {c : Context}
  {a : Arguments} {content : List UInt8} {r : Record}

/-- Records are written behind what the file at a place holds. -/
abbrev writing (loc : Location) (line : Record → List UInt8) (c : Record) (t : FileTree) :
    FileTree :=
  t.appendAll [loc] (line c)

/-- What has become of a tree when a file was opened for records: apart from it only
directories have come. -/
structure Opened (t u : FileTree) (loc : Location) (content : List UInt8) : Prop where
  clock : u.clock = t.clock
  holds : ∃ modified, u.get? loc = some (.file content modified)
  others : ∀ other, other ≠ loc →
    u.get? other = t.get? other ∨ t.get? other = none ∧ u.get? other = some .directory

/-- A file of the directory that is as old as the clock is old enough, and the system answers
what it is asked about it. -/
structure Order.Finds (o : Order) (clock : Int) (dir : Path) (place loc : Location)
    (name : String) : Prop where
  lies : loc = place ++ [name]
  answered : o.answered dir name = true
  old : o.takes clock = true

/-- How many entries of a directory are counted, apart from one. -/
def Order.others (o : Order) (t : FileTree) (dir : Path) (place loc : Location) : Nat :=
  (t.names place).countP fun name =>
    place ++ [name] ≠ loc && (o.counted? t dir place name).isSome

theorem opened_ready {file : String} (hfile : a.logFile = .value file)
    (hok : (({ tree := t } : Journal).enable (.int (levelOf a)) (recordFile a)).1 = .ok ()) :
    ∃ p loc content, t.RealPath (.text file) p ∧ t.Resolves p loc ∧
      (ready a t).loggers.Provided [] [(p, loc)] ∧ (ready a t).Showing (levelOf a) ∧
      Opened t (prepared a t) loc content ∧
      ((∃ modified, t.get? loc = some (.file content modified)) ∨
        t.get? loc = none ∧ content = []) := by
  have hgains := Journal.gains_enable { tree := t } (levelOf a) (recordFile a)
  obtain ⟨files, harranged, hshowing, hopening⟩ :=
    (Journal.Arranged.start t).enable_opening (levelOf a) (recordFile a)
  have hrecord : recordFile a = .text file := by rw [recordFile, hfile]; rfl
  rw [hok] at hopening
  cases hopening with
  | none null =>
      rw [hrecord] at null
      cases null
  | again _ _ there => cases there
  | @opened p loc given real fresh =>
      obtain ⟨hleads, content, modified, hget⟩ :=
        harranged.serves.opened (p, loc) (List.mem_singleton_self _)
      have hplace : t.Resolves p loc := hgains.resolves_before hleads
      refine ⟨p, loc, content, hrecord ▸ real, hplace, harranged.provided, hshowing,
        ⟨hgains.clock, ⟨modified, hget⟩, fun other hother => ?_⟩, ?_⟩
      · rcases hgains.kept other with hsame | ⟨hnone, ⟨-, hdir⟩ | ⟨⟨q, hq, hother'⟩, -⟩⟩
        · exact .inl hsame
        · exact .inr ⟨hnone, hdir⟩
        · obtain rfl : q = p := Except.ok.inj (Eq.trans hq.symm real)
          exact absurd (hother'.unique hplace) hother
      · rcases hgains.kept loc with hsame | ⟨hnone, ⟨-, hdir⟩ | ⟨-, hempty⟩⟩
        · exact .inl ⟨modified, hsame ▸ hget⟩
        · cases hget.symm.trans hdir
        · cases hget.symm.trans hempty
          exact .inr ⟨hnone, rfl⟩

theorem remains_foldl (hfresh : Fresh (some loc) u) (line : Record → List UInt8)
    (records : List Record) :
    Remains (some loc) (records.flatMap line) [] u
      (records.foldl (fun t c => writing loc line c t) u) := by
  induction records generalizing u with
  | nil => exact .refl _ u
  | cons c records ih =>
      have hfirst : Remains (some loc) (line c) [] u (writing loc line c u) := .append hfresh _
      exact hfirst.trans (ih (hfirst.fresh hfresh))

theorem get?_of_remains {more : List UInt8} {gone : List Location}
    (h : Remains (some loc) more gone t u) {modified : Int}
    (hget : t.get? loc = some (.file content modified)) :
    (loc ∈ gone → u.get? loc = none) ∧
      (loc ∉ gone → u.get? loc = some (.file (content ++ more) modified)) := by
  refine ⟨h.absent loc, fun hkept => ?_⟩
  rw [h.kept loc hkept, if_pos rfl, hget]
  rfl

/-- The tree behind the first record: the file has the time of the clock. -/
structure Begun (t u : FileTree) (loc : Location) (content : List UInt8) : Prop where
  regular : u.Regular
  fresh : Fresh (some loc) u
  opened : Opened t u loc content

theorem Opened.begun (h : Opened t u loc content) (hu : u.Regular)
    (line : Record → List UInt8) (first : Record) :
    Begun t (writing loc line first u) loc (content ++ line first) := by
  obtain ⟨modified, hget⟩ := h.holds
  have hwriting : writing loc line first u = u.put loc (.file (content ++ line first) u.clock) :=
    FileTree.append_of_file hget
  have hself := FileTree.get?_put_self u (.file (content ++ line first) u.clock)
    (FileTree.ne_nil_of_file hget)
  rw [hwriting]
  refine ⟨hu.put (hu.lawful.open_of_file hget) rfl, ?_, h.clock, ⟨_, hself⟩, fun other hne => ?_⟩
  · rintro loc' ⟨⟩ content' modified' hget'
    cases hself.symm.trans hget'
    rfl
  · rw [FileTree.get?_put_of_ne u _ hne]
    exact h.others other hne

section Begun

variable (h : Begun t u loc content)
include h

/-- The file counts as one that has the time of the clock, and the other entries count as they
did before. -/
theorem isSome_counted?_of_begun :
    (o.counted? u dir place name).isSome = true ↔
      (place ++ [name] ≠ loc ∧ (o.counted? t dir place name).isSome = true) ∨
        o.Finds t.clock dir place loc name := by
  by_cases hloc : place ++ [name] = loc
  · obtain ⟨modified, hget⟩ := h.opened.holds
    obtain rfl := h.fresh loc rfl content modified hget
    rw [← hloc] at hget
    have hcounted : (o.counted? u dir place name).isSome = true ↔
        o.answered dir name = true ∧ o.takes u.clock = true := by
      rw [Order.counted?, oldSize?_of_file hget]
      cases o.answered dir name <;> cases o.takes u.clock <;> simp
    rw [hcounted, h.opened.clock]
    constructor
    · rintro ⟨hanswered, hold⟩
      exact .inr ⟨hloc.symm, hanswered, hold⟩
    · rintro (⟨hne, -⟩ | hfinds)
      · exact absurd hloc hne
      · exact ⟨hfinds.answered, hfinds.old⟩
  · have hsame : o.counted? u dir place name = o.counted? t dir place name := by
      rw [Order.counted?, Order.counted?]
      rcases h.opened.others _ hloc with hsame | ⟨hnone, hdir⟩
      · rw [oldSize?_congr hsame]
      · simp only [Order.oldSize?, hnone, hdir]
    rw [hsame]
    constructor
    · exact fun hsome => .inl ⟨hloc, hsome⟩
    · rintro (⟨-, hsome⟩ | hfinds)
      · exact hsome
      · exact absurd hfinds.lies.symm hloc

theorem countP_of_begun (ht : t.Regular) (o : Order) (dir : Path) (place : Location) :
    let files := (u.names place).countP fun name => (o.counted? u dir place name).isSome
    ((∃ name, o.Finds t.clock dir place loc name) → files = o.others t dir place loc + 1) ∧
      ((¬∃ name, o.Finds t.clock dir place loc name) → files = o.others t dir place loc) := by
  intro files
  have hnodup : ((u.names place).filter fun name => (o.counted? u dir place name).isSome).Nodup :=
    (FileTree.nodup_names h.regular.distinct place).filter _
  have hnodup' : ((t.names place).filter fun name =>
      place ++ [name] ≠ loc && (o.counted? t dir place name).isSome).Nodup :=
    (FileTree.nodup_names ht.distinct place).filter _
  have hmem : ∀ name, (name ∈ (u.names place).filter fun name =>
      (o.counted? u dir place name).isSome) ↔
        name ∈ ((t.names place).filter fun name =>
          place ++ [name] ≠ loc && (o.counted? t dir place name).isSome) ∨
        o.Finds t.clock dir place loc name := by
    intro name
    rw [List.mem_filter, List.mem_filter, and_iff_right_of_imp mem_names_of_counted,
      isSome_counted?_of_begun h, Bool.and_eq_true, decide_eq_true_iff,
      and_iff_right_of_imp fun hcounts => mem_names_of_counted hcounts.2]
  simp only [files, Order.others, List.countP_eq_length_filter]
  constructor
  · rintro ⟨name, hfinds⟩
    have hone : ∀ other, o.Finds t.clock dir place loc other ↔ other = name := by
      refine fun other => ⟨fun hother => ?_, fun hsame => hsame ▸ hfinds⟩
      have hlies := hother.lies.symm.trans hfinds.lies
      rwa [List.append_cancel_left_eq, List.singleton_inj] at hlies
    have hperm := (List.perm_ext_iff_of_nodup hnodup (List.nodup_cons.mpr ⟨?_, hnodup'⟩)).mpr
      fun other => by rw [hmem, hone, List.mem_cons, or_comm]
    · exact hperm.length_eq
    · simp [hfinds.lies]
  · intro hnone
    refine ((List.perm_ext_iff_of_nodup hnodup hnodup').mpr fun other => ?_).length_eq
    rw [hmem, or_iff_left fun hfinds => hnone ⟨other, hfinds⟩]

theorem mem_gone_of_begun :
    loc ∈ o.gone u dir place (u.names place) ↔
      ∃ name, o.Finds t.clock dir place loc name ∧ o.dryRun = false ∧
        o.obstacles.removal name = none := by
  have hcounted : ∀ name, loc = place ++ [name] →
      ((o.counted? u dir place name).isSome = true ↔ o.Finds t.clock dir place loc name) :=
    fun name hlies => (isSome_counted?_of_begun h).trans
      (or_iff_right fun hne => hne.1 hlies.symm)
  rw [mem_gone_iff]
  constructor
  · rintro ⟨name, -, hremoves, hlies⟩
    simp only [Order.removes, Bool.and_eq_true, Bool.not_eq_true', Option.isNone_iff_eq_none]
      at hremoves
    exact ⟨name, (hcounted name hlies).mp hremoves.1.1, hremoves.1.2, hremoves.2⟩
  · rintro ⟨name, hfinds, hforced, hobstacle⟩
    have hsome := (hcounted name hfinds.lies).mpr hfinds
    exact ⟨name, mem_names_of_counted hsome, by simp [Order.removes, hsome, hforced, hobstacle],
      hfinds.lies⟩

end Begun

theorem tallies_begun (h : Begun t u loc content) (hdir : u.stat dir = .ok (place, .directory))
    {tally : Tally}
    (hresult : ((sweep o dir).written client (writing loc line) s u).result = .ok tally) :
    o.Tallies u dir place (some loc) line {} (u.names place)
      ((sweep o dir).written client (writing loc line) s u) := by
  have hsweepable : Sweepable u dir place := .of_lawful h.regular.lawful hdir
  have hwrite : WritesTo (writing loc line) (some loc) line := fun _ _ _ _ => rfl
  have hnodup := FileTree.nodup_names h.regular.distinct place
  rw [written_sweep client s o hdir] at hresult ⊢
  exact tallies_visitAll hsweepable hwrite h.fresh hnodup (fun _ => id)
    (judges_of_result hsweepable hwrite h.fresh hnodup (fun _ => id) hresult) client s {}

theorem stat_appendAll (locs : List Location) (more : List UInt8)
    (hdir : u.stat dir = .ok (place, .directory)) :
    (u.appendAll locs more).stat dir = .ok (place, .directory) := by
  have hextends := FileTree.extends_appendAll u locs more
  refine FileTree.stat_kept (fun other n hn hget => ?_) hextends.home hdir
  rcases hextends.kept other with hsame | ⟨-, content', modified, _, _, hold, -⟩
  · rw [hsame, hget]
  · exact absurd (Option.some.inj (hget.symm.trans hold)) (hn content' modified)

/-- What comes of the file, and of the report, when its directory is swept or another one. -/
structure Reported (o : Order) (t : FileTree) (dir : Path) (place loc : Location)
    (line : Record → List UInt8) (content : List UInt8) (r : Run σ Unit) : Prop where
  removed : (∃ name, o.Finds t.clock dir place loc name ∧ o.dryRun = false ∧
    o.obstacles.removal name = none) → r.tree.get? loc = none
  kept : (¬∃ name, o.Finds t.clock dir place loc name ∧ o.dryRun = false ∧
    o.obstacles.removal name = none) → ∃ modified,
      r.tree.get? loc = some (.file (content ++ r.records.flatMap line) modified)
  told : ∃ warnings tally shown, r.records = opening o dir :: warnings ++ closing o tally shown ∧
    (∀ c ∈ warnings, c.severity = .warning) ∧
    ((∃ name, o.Finds t.clock dir place loc name) → tally.files = o.others t dir place loc + 1) ∧
    ((¬∃ name, o.Finds t.clock dir place loc name) → tally.files = o.others t dir place loc)

theorem reported (ht : t.Regular) (hu : u.Regular) (hopened : Opened t u loc content)
    (hdir : u.stat dir = .ok (place, .directory))
    (hresult : ((sweepAndReport o dir).written client (writing loc line) s u).result = .ok ()) :
    Reported o t dir place loc line content
      ((sweepAndReport o dir).written client (writing loc line) s u) := by
  obtain ⟨tally, shown, hswept, hshown⟩ := of_written_sweepAndReport hresult
  obtain ⟨-, hrecords, htree⟩ := written_sweepAndReport hswept hshown
  have hbegun := hopened.begun hu line (opening o dir)
  have htallies := tallies_begun hbegun (stat_appendAll [loc] _ hdir) hswept
  obtain ⟨octets, htally, -⟩ := htallies.result
  have hfiles := congrArg Tally.files (Except.ok.inj (hswept.symm.trans htally))
  obtain ⟨hfound, hmissed⟩ := countP_of_begun hbegun ht o dir place
  -- The lines behind the first one are those of the sweep and of its report.
  have hremains := htallies.remains.trans
    (remains_foldl (htallies.remains.fresh hbegun.fresh) line (closing o tally shown))
  obtain ⟨modified, hget⟩ := hbegun.opened.holds
  obtain ⟨hgone, hkept⟩ := get?_of_remains hremains hget
  rw [List.append_nil, mem_gone_of_begun hbegun] at hgone hkept
  rw [Nat.zero_add] at hfiles
  refine ⟨fun hremoved => ?_, fun hnot => ⟨modified, ?_⟩, _, tally, shown, hrecords,
    fun c hc => (htallies.warnings c hc).1, ?_⟩
  · rw [htree]
    exact hgone hremoved
  · rw [htree, hkept hnot, hrecords]
    simp [List.flatMap_cons, List.append_assoc]
  · rw [hfiles]
    exact ⟨hfound, hmissed⟩

theorem regular_prepared (ht : t.Regular) {file : String} (hfile : a.logFile = .value file) :
    (prepared a t).Regular := by
  have hrecord : recordFile a = .text file := by rw [recordFile, hfile]; rfl
  show (({ tree := t } : Journal).enable (.int (levelOf a)) (recordFile a)).2.tree.Regular
  rw [hrecord]
  exact Journal.regular_enable (j := { tree := t }) ht (levelOf a) file

/-- A command that comes to its end has opened the file, and all that its work notes is written
behind what the file held. -/
theorem written_perform {file : String} (hfile : a.logFile = .value file) {code : Nat}
    (hcode : (perform c a { tree := t }).1 = .exit code) :
    ∃ p loc content, t.RealPath (.text file) p ∧ t.Resolves p loc ∧
      Opened t (prepared a t) loc content ∧
      ((∃ modified, t.get? loc = some (.file content modified)) ∨
        t.get? loc = none ∧ content = []) ∧
      let r := (work c a).written noClient (writing loc (Record.line c.stamp)) () (prepared a t)
      let j := (perform c a { tree := t }).2
      r.result = .ok code ∧ (work c a).noted noClient c.stamp () (ready a t) = r.records ∧
        j.tree = r.tree ∧ j.console = r.records.map (·.notice.consoleText c.stamp) := by
  obtain ⟨henabled, hworked, hend⟩ := of_perform hcode
  obtain ⟨p, loc, content, hreal, hplace, hprovided, hshowing, hopened, hbefore⟩ :=
    opened_ready hfile henabled
  obtain ⟨hnoted, hresult, -, htree, hconsole⟩ := Journal.journaled_eq_written noClient c.stamp
    (levelOf_pos a) (work c a) () (ready a t) hprovided hshowing
    ((notes_work c a).mono fun r hr => hr.shows a)
  have hempty : (ready a t).console = [] := Journal.console_enable _ _ _
  rw [hempty, List.nil_append] at hconsole
  refine ⟨p, loc, content, hreal, hplace, hopened, hbefore, hresult.symm.trans hworked, hnoted, ?_⟩
  rw [hend]
  exact ⟨htree, hconsole⟩

/-- The file that a command writes its records to is opened before the directory is looked at,
and treated as any other file there. All records of a command that comes to its end come on the
console and stand behind what the file held, in order and each once, unless the file lies
directly in the directory that is swept, is old enough by the clock, and goes: then it is there
no more. Whether it goes or not, where it is old enough it is counted with the others. -/
theorem log_lasts_unless_swept (t : FileTree) (ht : t.Regular) (c : Context)
    (arguments : List String) (a : Arguments) (file : String) (code : Nat)
    (harguments : readArguments arguments = .ok (.sweep a)) (hfile : a.logFile = .value file)
    (hcode : (command c arguments { tree := t }).1 = .exit code) :
    let o := orderOf c a
    let u := prepared a t
    let notes := (work c a).noted noClient c.stamp () (ready a t)
    let j := (command c arguments { tree := t }).2
    ∃ p loc content,
      t.RealPath (.text file) p ∧ t.Resolves p loc ∧
      ((∃ modified, t.get? loc = some (.file content modified)) ∨
        t.get? loc = none ∧ content = []) ∧
      (∀ r ∈ notes, r.logger = logger ∧ levelOf a ≤ r.severity.level) ∧
      j.console = notes.map (·.notice.consoleText c.stamp) ∧
      let removed := ∃ dir place name, Swept c a u dir place ∧
        o.Finds t.clock dir place loc name ∧ a.force = true ∧ c.obstacles.removal name = none
      (removed → j.tree.get? loc = none) ∧
      (¬removed → ∃ modified, j.tree.get? loc =
        some (.file (content ++ notes.flatMap (·.line c.stamp)) modified)) ∧
      ∀ dir place, Swept c a u dir place →
        let found := ∃ name, o.Finds t.clock dir place loc name
        ∃ warnings tally shown, notes = opening o dir :: warnings ++ closing o tally shown ∧
          (∀ r ∈ warnings, r.severity = .warning) ∧
          (found → tally.files = o.others t dir place loc + 1) ∧
          (¬found → tally.files = o.others t dir place loc) := by
  intro o u notes j
  have hperform : command c arguments { tree := t } = perform c a { tree := t } := by
    simp only [command, harguments]
  rw [hperform] at hcode
  obtain ⟨p, loc, content, hreal, hplace, hopened, hbefore, hresult, hrecords, htree, hconsole⟩ :=
    written_perform hfile hcode
  have hj : j = (perform c a { tree := t }).2 := congrArg Prod.snd hperform
  have hu : u.Regular := regular_prepared ht hfile
  have hnotes : notes = _ := hrecords
  rw [← hj] at htree hconsole
  rw [← hrecords] at hconsole
  refine ⟨p, loc, content, hreal, hplace, hbefore, fun r hr => ?_, hconsole, ?_⟩
  · rw [hnotes] at hr
    have hown : Own r := (notes_work c a).records_written () u r hr
    exact ⟨hown.1, (hown.shows a).2⟩
  · intro removed
    rw [htree, hnotes]
    rcases of_written_work hresult with ⟨record, -, hone, hwritten, hnot⟩ |
      ⟨dir, place, hswept, hreport, hsame, hend⟩
    · refine ⟨?_, fun _ => ?_, fun dir place h => absurd h (hnot dir place)⟩
      · rintro ⟨dir, place, -, hswept, -⟩
        exact absurd hswept (hnot dir place)
      · have hbegun := hopened.begun hu (Record.line c.stamp) record
        obtain ⟨modified, hget⟩ := hbegun.opened.holds
        refine ⟨modified, ?_⟩
        rw [hone, List.flatMap_singleton, hwritten, hget]
    · obtain ⟨hremoved, hkept, htold⟩ := reported ht hu hopened hswept.directory hreport
      have hhere : removed ↔ ∃ name, o.Finds t.clock dir place loc name ∧ o.dryRun = false ∧
          o.obstacles.removal name = none := by
        constructor
        · rintro ⟨dir', place', name, hswept', hfinds, hforced, hobstacle⟩
          obtain ⟨rfl, rfl⟩ := hswept.unique hswept'
          exact ⟨name, hfinds, by simp [o, orderOf, hforced], hobstacle⟩
        · rintro ⟨name, hfinds, hforced, hobstacle⟩
          exact ⟨dir, place, name, hswept, hfinds, by simpa [o, orderOf] using hforced, hobstacle⟩
      rw [hend, hsame, hhere]
      refine ⟨hremoved, hkept, fun dir' place' hswept' => ?_⟩
      obtain ⟨rfl, rfl⟩ := hswept.unique hswept'
      exact htold

/-- A directory with one file in it, which is swept with `--force` while the records go to
another file there: that one goes too, and two are reported to have been removed. -/
theorem log_in_swept_directory_goes :
    let t : FileTree := { nodes := [(["s"], .directory), (["s", "a.txt"], .file [1] 0)] }
    let c : Context :=
      { temporary := Path.ofText "/tmp", now := 0, stamp := ⟨"12:00:00", "cleanup:30"⟩ }
    let a : Arguments := { path := .value "s", force := true, logFile := .value "s/x.log" }
    let r := command c ["--path", "s", "--force", "--log-file", "s/x.log"] { tree := t }
    t.Regular ∧
      readArguments ["--path", "s", "--force", "--log-file", "s/x.log"] = .ok (.sweep a) ∧
      a.logFile = .value "s/x.log" ∧ r.1 = .exit 0 ∧ r.2.tree.get? ["s", "x.log"] = none ∧
      ∃ warnings tally shown, tally.files = 2 ∧
        r.2.console = (opening (orderOf c a) (Path.ofText "/s") :: warnings ++
          closing (orderOf c a) tally shown).map (·.notice.consoleText c.stamp) := by
  intro t c a r
  have hregular : t.Regular :=
    ⟨FileTree.lawful_of_nodes rfl (by decide +kernel), by decide +kernel⟩
  have harguments : readArguments ["--path", "s", "--force", "--log-file", "s/x.log"] =
      .ok (.sweep a) := by decide +kernel
  have hcode : r.1 = .exit 0 := by decide +kernel
  obtain ⟨p, loc, content, hreal, hplace, -, -, hconsole, hremoved, -, htold⟩ :=
    log_lasts_unless_swept t hregular c _ a "s/x.log" 0 harguments rfl hcode
  have hr : command c ["--path", "s", "--force", "--log-file", "s/x.log"] { tree := t } = r := rfl
  rw [hr] at hconsole hremoved
  clear_value r
  have hpath : t.RealPath (.text "s/x.log") (FileTree.pathOf ["s", "x.log"]) := by
    unfold FileTree.RealPath
    decide +kernel
  have hleads : t.Resolves (FileTree.pathOf ["s", "x.log"]) ["s", "x.log"] :=
    ⟨by decide +kernel, 0, by decide +kernel⟩
  obtain rfl := Except.ok.inj (hreal.symm.trans hpath)
  obtain rfl := hplace.unique hleads
  have hswept : Swept c a (prepared a t) (Path.ofText "/s") ["s"] :=
    ⟨by decide +kernel, by decide +kernel, by decide +kernel⟩
  have hfinds : (orderOf c a).Finds t.clock (Path.ofText "/s") ["s"] ["s", "x.log"] "x.log" :=
    ⟨rfl, by decide +kernel, rfl⟩
  have hothers : (orderOf c a).others t (Path.ofText "/s") ["s"] ["s", "x.log"] = 1 := by
    decide +kernel
  obtain ⟨warnings, tally, shown, hnotes, -, hfiles, -⟩ := htold _ _ hswept
  rw [hnotes] at hconsole
  have hgone := hremoved ⟨_, _, _, hswept, hfinds, rfl, rfl⟩
  have htwo : tally.files = 2 := by rw [hfiles ⟨_, hfinds⟩, hothers]
  exact ⟨hregular, harguments, rfl, hcode, hgone, warnings, tally, shown, htwo, hconsole⟩

end Sweep

end FileStash
