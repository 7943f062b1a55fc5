import FileStash.Proofs.Sweep.Tallying
import FileStash.Sweep.Command

namespace FileStash

def FileTree.sizeAt (t : FileTree) (loc : Location) : Nat :=
  match t.get? loc with
  | some (.file content _) => content.length
  | _ => 0

namespace Sweep

def noted (message : String) : Record :=
  ⟨.info, logger, message⟩

variable {σ : Type} {client : Client σ} {s : σ} {o : Order} {t : FileTree} {dir : Path}
  {place : Location} {name : String} {names : List String} {size : Nat}

theorem sizeAt_of_counted (h : o.counted? t dir place name = some size) :
    t.sizeAt (place ++ [name]) = size := by
  have hold := (counted?_eq_some_iff.mp h).2
  obtain ⟨content, modified, hget⟩ := fileAt_of_oldSize? (by rw [hold]; rfl)
  rw [oldSize?_of_file hget] at hold
  split at hold
  · simpa only [FileTree.sizeAt, hget, Option.some.injEq] using hold
  · cases hold

theorem filterMap_counted? (o : Order) (t : FileTree) (dir : Path) (place : Location)
    (names : List String) :
    names.filterMap (o.counted? t dir place) =
      (names.filter fun name => (o.counted? t dir place name).isSome).map
        fun name => t.sizeAt (place ++ [name]) := by
  induction names with
  | nil => rfl
  | cons name names ih =>
      cases hsize : o.counted? t dir place name with
      | none => simp [hsize, ih]
      | some size => simp [hsize, ih, sizeAt_of_counted hsize]

def opening (o : Order) (dir : Path) : Record :=
  noted ((if o.dryRun then "Cleaning (dry-run) " else "Cleaning ") ++ dir.text)

def closing (o : Order) (tally : Tally) (shown : String) : List Record :=
  noted ("Files " ++ (if o.dryRun then "to remove" else "removed") ++ ": " ++
      toString tally.files) ::
    noted ("Space " ++ (if o.dryRun then "to free" else "freed") ++ ": " ++ shown) ::
      if o.dryRun then [noted "Run again with --force to apply changes."] else []

section Report

variable {write : Record → FileTree → FileTree} {tally : Tally} {shown : String}

def reportTally (o : Order) (tally : Tally) : Program Unit :=
  (note ("Files " ++ (if o.dryRun then "to remove" else "removed") ++ ": " ++
      toString tally.files)).andThen fun _ =>
    (Program.ofConverted (readableSize (.int tally.octets))).andThen fun size =>
      (note ("Space " ++ (if o.dryRun then "to free" else "freed") ++ ": " ++ size)).andThen
        fun _ => if o.dryRun then note "Run again with --force to apply changes." else .done ()

theorem sweepAndReport_eq (o : Order) (dir : Path) :
    sweepAndReport o dir =
      .log (opening o dir) ((sweep o dir).andThen (reportTally o)) := rfl

theorem written_reportTally (hshown : readableSize (.int tally.octets) = .ok shown) :
    (reportTally o tally).written client write s t =
      { result := .ok (), state := s
        tree := (closing o tally shown).foldl (fun t c => write c t) t
        records := closing o tally shown } := by
  unfold reportTally
  rw [hshown]
  cases hdry : o.dryRun <;> simp only [closing, hdry] <;> rfl

theorem written_sweepAndReport
    (hswept : ((sweep o dir).written client write s (write (opening o dir) t)).result = .ok tally)
    (hshown : readableSize (.int tally.octets) = .ok shown) :
    let swept := (sweep o dir).written client write s (write (opening o dir) t)
    let r := (sweepAndReport o dir).written client write s t
    r.result = .ok () ∧ r.records = opening o dir :: swept.records ++ closing o tally shown ∧
      r.tree = (closing o tally shown).foldl (fun t c => write c t) swept.tree := by
  rw [sweepAndReport_eq]
  simp only [Program.written, Program.written_andThen_ok hswept, written_reportTally hshown]
  exact ⟨trivial, rfl, trivial⟩

theorem of_written_sweepAndReport
    (hresult : ((sweepAndReport o dir).written client write s t).result = .ok ()) :
    ∃ tally shown,
      ((sweep o dir).written client write s (write (opening o dir) t)).result = .ok tally ∧
        readableSize (.int tally.octets) = .ok shown := by
  rw [sweepAndReport_eq] at hresult
  simp only [Program.written] at hresult
  cases hswept : ((sweep o dir).written client write s (write (opening o dir) t)).result with
  | error e =>
      rw [Program.written_andThen_error hswept] at hresult
      cases hresult
  | ok tally =>
      rw [Program.written_andThen_ok hswept] at hresult
      cases hshown : readableSize (.int tally.octets) with
      | error f =>
          simp only [reportTally, hshown] at hresult
          cases hresult
      | ok shown => exact ⟨tally, shown, rfl, hshown⟩

end Report

section Counted

variable {r : Run σ Tally} {line : Record → List UInt8}
  (h : o.Tallies t dir place none line {} names r) (hforced : o.dryRun = false)
include h hforced

theorem get?_tallied_eq_none_iff (hname : name ∈ names)
    (hthere : (t.get? (place ++ [name])).isSome) :
    (r.tree.get? (place ++ [name])).isNone = true ↔
      (o.counted? t dir place name).isSome = true ∧ o.obstacles.removal name = none := by
  have hremoves : o.removes t dir place name = true ↔
      (o.counted? t dir place name).isSome = true ∧ o.obstacles.removal name = none := by
    simp [Order.removes, hforced]
  rw [← hremoves]
  constructor
  · intro hnone
    by_contra hkept
    have hnot : place ++ [name] ∉ o.gone t dir place names := by
      rw [mem_gone_iff]
      rintro ⟨other, -, hgone, heq⟩
      rw [List.append_cancel_left_eq, List.singleton_inj] at heq
      exact hkept (heq ▸ hgone)
    rw [h.remains.get?_of_ne hnot (by simp)] at hnone
    simp [Option.isNone_iff_eq_none.mp hnone] at hthere
  · intro hgone
    rw [h.remains.absent _ (mem_gone_iff.mpr ⟨name, hname, hgone, rfl⟩)]
    rfl

end Counted

theorem counted_perm (o : Order) (names : List String) (counts : String → Bool) :
    (names.filter (fun name => counts name && (o.obstacles.removal name).isNone) ++
      names.filter fun name => counts name && (o.obstacles.removal name).isSome).Perm
        (names.filter counts) := by
  have hsplit := List.filter_append_perm (fun name => (o.obstacles.removal name).isNone)
    (names.filter counts)
  simpa [List.filter_filter, Bool.and_comm] using hsplit

/-- Whatever trouble the system makes over single entries, and in whichever order these are
listed: a forced sweep goes on to the last entry and leaves nothing of what is counted and can
be removed, and of everything else all. Its tally, which is what the command reports, is that
of the files that have gone and of those that were counted and could not be removed; so it is
right just when there are none of these. Each of them is named in a warning, unless the system
claims that it is not there. -/
theorem refused_files_are_counted (t : FileTree) (ht : t.Lawful)
    (hdistinct : (Dict.keys t.nodes).Nodup) (o : Order) (hthreshold : Threshold o.older)
    (hforced : o.dryRun = false) (dir : Path) (place : Location)
    (hdir : t.stat dir = .ok (place, .directory)) (client : Client σ) (s : σ) :
    let counts (name : String) : Bool := (o.counted? t dir place name).isSome
    let refused := (t.names place).filter fun name =>
      counts name && (o.obstacles.removal name).isSome
    let size (names : List String) : Nat :=
      (names.map fun name => t.sizeAt (place ++ [name])).sum
    (∀ names : List String, names.Perm (t.names place) →
      let r := (visitAll o dir {} names).run client s t
      let gone := (t.names place).filter fun name => (r.tree.get? (place ++ [name])).isNone
      r.result = .ok ⟨gone.length + refused.length, size gone + size refused⟩ ∧
      (r.result = .ok ⟨gone.length, size gone⟩ ↔ refused = []) ∧
      (∀ name, name ∈ gone ↔ counts name = true ∧ o.obstacles.removal name = none) ∧
      (∀ loc, (∀ name ∈ gone, loc ≠ place ++ [name]) → r.tree.get? loc = t.get? loc) ∧
      (∀ name ∈ refused, ∀ code, o.obstacles.removal name = some code → code ≠ .noEntry →
        refusal dir name code ∈ r.records) ∧
      ∀ c ∈ r.records, c.severity = .warning ∧ c.logger = logger) ∧
    let r := (visitAll o dir {} (t.names place)).run client s t
    (sweep o dir).run client s t = r ∧
    ∀ tally shown, r.result = .ok tally → readableSize (.int tally.octets) = .ok shown →
      ((sweepAndReport o dir).run client s t).records =
        noted ("Cleaning " ++ dir.text) :: r.records ++
          [noted ("Files removed: " ++ toString tally.files),
            noted ("Space freed: " ++ shown)] := by
  intro counts refused size
  have hsweepable : Sweepable t dir place := .of_lawful ht hdir
  refine ⟨fun names hnames => ?_, ?_⟩
  · intro r gone
    have htallies : o.Tallies t dir place none (fun _ => []) {} names r :=
      tallies_run hsweepable hthreshold hdistinct hnames client s
    have hfiltered : gone = (t.names place).filter fun name =>
        counts name && (o.obstacles.removal name).isNone := by
      refine List.filter_congr fun name hname => ?_
      rw [Bool.eq_iff_iff, get?_tallied_eq_none_iff htallies hforced (hnames.mem_iff.mpr hname)
        (FileTree.mem_names_iff.mp hname), Bool.and_eq_true, Option.isNone_iff_eq_none]
    have hgone : ∀ name, name ∈ gone ↔ counts name = true ∧ o.obstacles.removal name = none := by
      intro name
      rw [hfiltered, List.mem_filter, Bool.and_eq_true, Option.isNone_iff_eq_none]
      exact and_iff_right_of_imp fun ⟨hcounts, _⟩ => mem_names_of_counted hcounts
    have hresult : r.result =
        .ok ⟨gone.length + refused.length, size gone + size refused⟩ := by
      have hperm := counted_perm o (t.names place) counts
      rw [← hfiltered] at hperm
      have hsizes := (hperm.map fun name => t.sizeAt (place ++ [name])).sum_nat
      have hlength := hperm.length_eq
      rw [List.map_append, List.sum_append] at hsizes
      rw [List.length_append] at hlength
      rw [htallies.result_of_perm hnames, filterMap_counted?, List.length_map]
      simp only [size]
      rw [hlength, hsizes]
    refine ⟨hresult, ?_, hgone, fun loc hloc => ?_, fun name hname code hcode hne => ?_,
      htallies.warnings⟩
    · rw [hresult]
      constructor
      · intro hsame
        have hlength : gone.length + refused.length = gone.length :=
          congrArg Tally.files (Except.ok.inj hsame)
        exact List.length_eq_zero_iff.mp (by omega)
      · intro hnone
        simp [hnone, size]
    · refine htallies.remains.get?_of_ne ?_ nofun
      rw [mem_gone_iff]
      rintro ⟨name, -, hremoves, heq⟩
      refine hloc name ((hgone name).mpr ?_) heq
      simpa [Order.removes, hforced] using hremoves
    · obtain ⟨hname, hcounts⟩ := List.mem_filter.mp hname
      exact htallies.refused name (hnames.mem_iff.mpr hname) (Bool.and_eq_true_iff.mp hcounts).1
        hforced code hcode hne
  · intro r
    refine ⟨run_sweep client s o hdir, fun tally shown hresult hshown => ?_⟩
    have hswept : (sweep o dir).written client (fun _ t => t) s t = r := by
      rw [← Program.run_eq_written, run_sweep client s o hdir]
    have hwritten : ((sweep o dir).written client (fun _ t => t) s t).result = .ok tally :=
      hswept ▸ hresult
    obtain ⟨-, hrecords, -⟩ := written_sweepAndReport hwritten hshown
    rw [Program.run_eq_written, hrecords, hswept]
    simp [opening, closing, hforced]

/-- An entry that the system says nothing about, one whose size it does not give, one that it
does not remove, one that goes, a younger one, a link and a directory: two files are counted
and one has gone. -/
theorem one_removed_two_counted :
    let t : FileTree :=
      { nodes := [(["d"], .directory), (["d", "hidden"], .file [1] 0),
          (["d", "locked"], .file [1] 0), (["d", "kept"], .file [1, 2, 3] 0),
          (["d", "old"], .file [1, 2] 0), (["d", "young"], .file [1] 7200),
          (["d", "alias"], .link "old"), (["d", "sub"], .directory)] }
    let denied (names : List String) (name : String) : Option SystemCode :=
      if names.contains name then some .accessDenied else none
    let o : Order :=
      { now := 7200, dryRun := false, older := .int 1,
        obstacles := ⟨denied ["hidden"], denied ["locked"], denied ["kept"]⟩ }
    let dir := Path.ofText "/d"
    let r := (visitAll o dir {} ["locked", "old", "alias", "hidden", "sub", "young", "kept"]).run
      noClient () t
    t.Lawful ∧ (Dict.keys t.nodes).Nodup ∧ Threshold o.older ∧ o.dryRun = false ∧
      t.stat dir = .ok (["d"], .directory) ∧
      r.result = .ok ⟨2, 5⟩ ∧ r.tree.get? ["d", "old"] = none ∧
      (∀ loc, loc ≠ ["d", "old"] → r.tree.get? loc = t.get? loc) ∧
      refusal dir "kept" .accessDenied ∈ r.records := by
  intro t denied o dir r
  have hlawful : t.Lawful := FileTree.lawful_of_nodes rfl (by decide +kernel)
  have hdistinct : (Dict.keys t.nodes).Nodup := by decide +kernel
  have hthreshold : Threshold o.older := .int 1
  have hdir : t.stat dir = .ok (["d"], .directory) := by decide +kernel
  obtain ⟨hsweep, -⟩ := refused_files_are_counted t hlawful hdistinct o hthreshold rfl dir ["d"]
    hdir noClient ()
  obtain ⟨hresult, -, -, hkept, hrefused, -⟩ :=
    hsweep ["locked", "old", "alias", "hidden", "sub", "young", "kept"] (by decide +kernel)
  have holds : ((t.names ["d"]).filter fun name => (r.tree.get? (["d"] ++ [name])).isNone) =
      ["old"] := by decide +kernel
  have hrefusedNames : ((t.names ["d"]).filter fun name =>
      (o.counted? t dir ["d"] name).isSome && (o.obstacles.removal name).isSome) = ["kept"] := by
    decide +kernel
  have hr : (visitAll o dir {} ["locked", "old", "alias", "hidden", "sub", "young", "kept"]).run
      noClient () t = r := rfl
  rw [hr] at hresult hkept hrefused
  clear_value r
  have hold : "old" ∈
      (t.names ["d"]).filter fun name => (r.tree.get? (["d"] ++ [name])).isNone := by
    rw [holds]
    exact List.mem_singleton_self _
  rw [holds] at hresult hkept
  rw [hrefusedNames] at hresult hrefused
  exact ⟨hlawful, hdistinct, hthreshold, rfl, hdir, hresult,
    Option.isNone_iff_eq_none.mp (List.mem_filter.mp hold).2,
    fun loc hloc => hkept loc (by simpa using hloc),
    hrefused "kept" (List.mem_singleton_self _) .accessDenied rfl (by decide)⟩

end Sweep

end FileStash
