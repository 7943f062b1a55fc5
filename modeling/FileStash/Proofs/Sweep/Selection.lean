import FileStash.Proofs.Sweep.Tallying

namespace FileStash.Sweep

open FileTree (LegalName maxPath)

/-- No operation on a file of the directory fails: the system does not refuse its path for
the length, says what kind of thing it is, gives its size and time, and removes it where it
goes. -/
structure Unhindered (o : Order) (t : FileTree) (dir : Path) (place : Location) : Prop where
  short : ∀ name, t.FileAt (place ++ [name]) → Text.Utf8.size (dir.child name).text ≤ maxPath
  kind : ∀ name, t.FileAt (place ++ [name]) → o.obstacles.kind name = none
  status : ∀ name, t.FileAt (place ++ [name]) → o.obstacles.status name = none
  removal : ∀ name, (o.oldSize? t (place ++ [name])).isSome → o.obstacles.removal name = none

variable {σ : Type} {o : Order} {t : FileTree} {dir : Path} {place loc : Location} {name : String}
  {names : List String}

theorem Unhindered.remove (h : Unhindered o t dir place) (hne : loc ≠ []) :
    Unhindered o (t.remove loc) dir place := by
  have hkept : ∀ other, (t.remove loc).FileAt other →
      (t.remove loc).get? other = t.get? other := by
    rintro other ⟨content, modified, hget⟩
    refine FileTree.get?_remove_of_ne t ?_
    rintro rfl
    rw [FileTree.get?_remove_self t hne] at hget
    cases hget
  have hfile : ∀ other, (t.remove loc).FileAt other → t.FileAt other := by
    intro other hother
    obtain ⟨content, modified, hget⟩ := hother
    exact ⟨content, modified, (hkept other ⟨content, modified, hget⟩).symm.trans hget⟩
  refine ⟨fun name hname => h.short name (hfile _ hname),
    fun name hname => h.kind name (hfile _ hname),
    fun name hname => h.status name (hfile _ hname), fun name hname => h.removal name ?_⟩
  rwa [← oldSize?_congr (hkept _ (fileAt_of_oldSize? hname))]

/-- What a sweep of a directory can rely on where no operation on a file fails. -/
structure Workable (o : Order) (t : FileTree) (dir : Path) (place : Location) : Prop where
  threshold : Threshold o.older
  directory : t.stat dir = .ok (place, .directory)
  legal : ∀ name ∈ t.names place, LegalName name
  distinct : (Dict.keys t.nodes).Nodup
  free : Unhindered o t dir place

namespace Workable

theorem of_dryRun (h : Workable o t dir place) (dryRun : Bool) :
    Workable { o with dryRun := dryRun } t dir place :=
  ⟨h.threshold, h.directory, h.legal, h.distinct,
    ⟨h.free.short, h.free.kind, h.free.status, h.free.removal⟩⟩

theorem remove (h : Workable o t dir place) (hfile : t.FileAt loc) :
    Workable o (t.remove loc) dir place := by
  have hne : loc ≠ [] := by
    obtain ⟨content, modified, hget⟩ := hfile
    exact FileTree.ne_nil_of_file hget
  exact ⟨h.threshold, FileTree.stat_remove hfile h.directory,
    fun name hname => h.legal name (FileTree.mem_names_of_remove hne hname),
    FileTree.nodup_keys_remove h.distinct loc, h.free.remove hne⟩

end Workable

/-- The places that a run over some names clears. -/
def Order.cleared (o : Order) (t : FileTree) (place : Location) (names : List String) :
    List Location :=
  (names.map (place ++ [·])).filter fun loc => (o.oldSize? t loc).isSome && !o.dryRun

theorem mem_cleared_iff :
    loc ∈ o.cleared t place names ↔
      (∃ name ∈ names, loc = place ++ [name]) ∧ (o.oldSize? t loc).isSome ∧ o.dryRun = false := by
  simp only [Order.cleared, List.mem_filter, List.mem_map, Bool.and_eq_true, Bool.not_eq_true',
    eq_comm (b := loc)]

theorem cleared_dry (h : o.dryRun = true) : o.cleared t place names = [] := by
  refine List.filter_eq_nil_iff.mpr fun loc _ => ?_
  simp [h]

theorem Workable.sweepable (h : Workable o t dir place) : Sweepable t dir place :=
  ⟨h.directory, h.legal⟩

theorem counted?_of_free (h : Unhindered o t dir place) (name : String) :
    o.counted? t dir place name = o.oldSize? t (place ++ [name]) := by
  by_cases hfile : t.FileAt (place ++ [name])
  · rw [Order.counted?, if_pos]
    exact answered_iff.mpr ⟨h.kind name hfile, h.status name hfile, h.short name hfile⟩
  · rw [Order.counted?, oldSize?_of_not_file hfile, ite_self]

theorem gone_of_free (h : Unhindered o t dir place) (names : List String) :
    o.gone t dir place names = o.cleared t place names := by
  rw [Order.gone, Order.cleared, List.filter_map]
  congr 1
  refine List.filter_congr fun name _ => ?_
  rw [Order.removes, counted?_of_free h, Function.comp_apply]
  cases hold : (o.oldSize? t (place ++ [name])).isSome with
  | false => rfl
  | true => simp [h.removal name hold]

theorem Workable.run (h : Workable o t dir place) (client : Client σ) (s : σ)
    (hnames : names.Perm (t.names place)) :
    let r := (visitAll o dir {} names).run client s t
    let sizes := (t.names place).filterMap fun name => o.oldSize? t (place ++ [name])
    r.result = .ok ⟨sizes.length, sizes.sum⟩ ∧ r.tree = t.removeAll (o.cleared t place names) := by
  intro r sizes
  have htallies := tallies_run h.sweepable h.threshold h.distinct hnames client s
  have hsizes : (t.names place).filterMap (o.counted? t dir place) = sizes :=
    List.filterMap_congr fun name _ => counted?_of_free h.free name
  have hresult := htallies.result_of_perm hnames
  rw [hsizes] at hresult
  exact ⟨hresult, (htallies.bare rfl).trans (congrArg t.removeAll (gone_of_free h.free names))⟩

theorem Workable.run_idle (h : Workable o t dir place) (client : Client σ) (s : σ)
    (hnone : ∀ name, o.oldSize? t (place ++ [name]) = none) (hnames : names.Perm (t.names place)) :
    ((visitAll o dir {} names).run client s t).result = .ok ⟨0, 0⟩ ∧
      ((visitAll o dir {} names).run client s t).tree = t := by
  obtain ⟨hresult, htree⟩ := h.run client s hnames
  have hcleared : o.cleared t place names = [] := by
    refine List.filter_eq_nil_iff.mpr fun loc hloc => ?_
    obtain ⟨name, -, rfl⟩ := List.mem_map.mp hloc
    simp [hnone name]
  rw [hcleared] at htree
  simp only [hnone, List.filterMap_none] at hresult
  exact ⟨hresult, htree⟩

section Swept

variable (hnames : names.Perm (t.names place))

theorem ne_nil_of_mem_cleared (h : loc ∈ o.cleared t place names) : loc ≠ [] := by
  obtain ⟨⟨name, -, rfl⟩, -⟩ := mem_cleared_iff.mp h
  simp

include hnames in
theorem get?_swept_of_old (hforced : o.dryRun = false)
    (hold : (o.oldSize? t (place ++ [name])).isSome) :
    (t.removeAll (o.cleared t place names)).get? (place ++ [name]) = none := by
  have hname : name ∈ names := hnames.mem_iff.mpr (fileAt_of_oldSize? hold).mem_names
  rw [FileTree.get?_removeAll (fun _ => ne_nil_of_mem_cleared),
    if_pos (mem_cleared_iff.mpr ⟨⟨name, hname, rfl⟩, hold, hforced⟩)]

theorem get?_swept_of_kept (hkept : ∀ name, loc = place ++ [name] → o.oldSize? t loc = none) :
    (t.removeAll (o.cleared t place names)).get? loc = t.get? loc := by
  rw [FileTree.get?_removeAll (fun _ => ne_nil_of_mem_cleared), if_neg]
  intro hmem
  obtain ⟨⟨name, -, hloc⟩, hold, -⟩ := mem_cleared_iff.mp hmem
  rw [hkept name hloc] at hold
  cases hold

include hnames in
theorem oldSize?_swept (hforced : o.dryRun = false) (name : String) :
    o.oldSize? (t.removeAll (o.cleared t place names)) (place ++ [name]) = none := by
  cases hsize : o.oldSize? t (place ++ [name]) with
  | none =>
      refine (oldSize?_congr (get?_swept_of_kept fun _ _ => ?_)).trans hsize
      exact hsize
  | some size =>
      have hgone := get?_swept_of_old hnames hforced (by rw [hsize]; rfl)
      simp only [Order.oldSize?, hgone]

include hnames in
theorem Workable.swept (h : Workable o t dir place) :
    Workable o (t.removeAll (o.cleared t place names)) dir place := by
  have hnodup : names.Nodup := hnames.nodup_iff.mpr (FileTree.nodup_names h.distinct place)
  have hplaces : (o.cleared t place names).Nodup := by
    refine (hnodup.map fun name other heq => ?_).filter _
    simpa using heq
  refine FileTree.removeAll_induction hplaces (fun loc hloc => ?_)
    (fun u loc hfile (hu : Workable o u dir place) => hu.remove hfile) h
  exact fileAt_of_oldSize? (mem_cleared_iff.mp hloc).2.1

end Swept

/-- Whatever lies in a directory and in whichever order it is listed, where no operation on
a file fails and the tree has every place once: dry and forced runs give the number and the
total size of the regular files that the threshold does not spare. A dry run changes nothing,
and a forced one takes away these files and nothing else, so that there is nothing to do for
a second one. -/
theorem dry_run_predicts_forced_run (t : FileTree) (ht : t.Lawful)
    (hdistinct : (Dict.keys t.nodes).Nodup) (o : Order) (hthreshold : Threshold o.older)
    (dir : Path) (place : Location) (hdir : t.stat dir = .ok (place, .directory))
    (hfree : Unhindered o t dir place) (client : Client σ) (s : σ) :
    let sizes := (t.names place).filterMap fun name => o.oldSize? t (place ++ [name])
    let order (dryRun : Bool) : Order := { o with dryRun := dryRun }
    let run (dryRun : Bool) (names : List String) (u : FileTree) : Run σ Tally :=
      (visitAll (order dryRun) dir {} names).run client s u
    (∀ dryRun, (sweep (order dryRun) dir).run client s t = run dryRun (t.names place) t) ∧
    ∀ names : List String, names.Perm (t.names place) →
      (run true names t).result = .ok ⟨sizes.length, sizes.sum⟩ ∧
      (run true names t).tree = t ∧
      (run false names t).result = .ok ⟨sizes.length, sizes.sum⟩ ∧
      let swept := (run false names t).tree
      swept.home = t.home ∧ swept.clock = t.clock ∧
      (∀ name, (o.oldSize? t (place ++ [name])).isSome → swept.get? (place ++ [name]) = none) ∧
      (∀ loc, (∀ name, loc = place ++ [name] → o.oldSize? t loc = none) →
        swept.get? loc = t.get? loc) ∧
      (sweep (order false) dir).run client s swept = run false (swept.names place) swept ∧
      ∀ names' : List String, names'.Perm (swept.names place) →
        (run false names' swept).result = .ok ⟨0, 0⟩ ∧ (run false names' swept).tree = swept := by
  intro sizes order run
  have hlegal : ∀ name ∈ t.names place, LegalName name := by
    intro name hname
    obtain ⟨n, hn⟩ := Option.isSome_iff_exists.mp (FileTree.mem_names_iff.mp hname)
    exact ht.names _ n hn name (by simp)
  have hwork : ∀ dryRun, Workable (order dryRun) t dir place :=
    Workable.of_dryRun ⟨hthreshold, hdir, hlegal, hdistinct, hfree⟩
  refine ⟨fun dryRun => run_sweep client s (order dryRun) hdir, fun names hnames => ?_⟩
  obtain ⟨hdry, hdryTree⟩ := (hwork true).run client s hnames
  obtain ⟨hforced, hforcedTree⟩ := (hwork false).run client s hnames
  rw [cleared_dry rfl] at hdryTree
  refine ⟨hdry, hdryTree, hforced, ?_⟩
  intro swept
  have hswept : swept = t.removeAll ((order false).cleared t place names) := hforcedTree
  have hagain : Workable (order false) swept dir place := hswept ▸ (hwork false).swept hnames
  refine ⟨?_, ?_, fun name hold => ?_, fun loc hkept => ?_,
    run_sweep client s (order false) hagain.directory, fun names' hnames' => ?_⟩
  · rw [hswept, FileTree.home_removeAll]
  · rw [hswept, FileTree.clock_removeAll]
  · rw [hswept]
    exact get?_swept_of_old (o := order false) hnames rfl hold
  · rw [hswept]
    exact get?_swept_of_kept (o := order false) hkept
  · refine hagain.run_idle client s (fun name => ?_) hnames'
    rw [hswept]
    exact oldSize?_swept hnames rfl name

/-- A directory behind a link, with a file that is just old enough, a link to that file that
is looked at when the file has gone, a link to nothing, a younger file and a file further
below. -/
theorem links_to_old_files_stay :
    let t : FileTree :=
      { nodes := [(["d"], .link "s"), (["s"], .directory), (["s", "young"], .file [3] 3601),
          (["s", "alias"], .link "old"), (["s", "nowhere"], .link "missing"),
          (["s", "old"], .file [1, 2] 3600), (["s", "sub"], .directory),
          (["s", "sub", "old"], .file [4] 0)] }
    let o : Order := { now := 7200, dryRun := true, older := .int 1 }
    let names := ["old", "alias", "nowhere", "sub", "young"]
    let run (dryRun : Bool) (u : FileTree) : Run Unit Tally :=
      (visitAll { o with dryRun := dryRun } (Path.ofText "/d") {} names).run noClient () u
    t.Lawful ∧ (Dict.keys t.nodes).Nodup ∧ Threshold o.older ∧
      t.stat (Path.ofText "/d") = .ok (["s"], .directory) ∧
      Unhindered o t (Path.ofText "/d") ["s"] ∧ names.Perm (t.names ["s"]) ∧
      (run true t).result = .ok ⟨1, 2⟩ ∧ (run true t).tree = t ∧
      (run false t).result = .ok ⟨1, 2⟩ ∧ (run false t).tree.get? ["s", "old"] = none ∧
      ∀ loc, loc ≠ ["s", "old"] → (run false t).tree.get? loc = t.get? loc := by
  intro t o names run
  have hlawful : t.Lawful := FileTree.lawful_of_nodes rfl (by decide +kernel)
  have hdistinct : (Dict.keys t.nodes).Nodup := by decide +kernel
  have hthreshold : Threshold o.older := .int 1
  have hdir : t.stat (Path.ofText "/d") = .ok (["s"], .directory) := by decide +kernel
  have hfree : Unhindered o t (Path.ofText "/d") ["s"] := by
    refine ⟨fun name hname => ?_, fun _ _ => rfl, fun _ _ => rfl, fun _ _ => rfl⟩
    obtain ⟨content, modified, hget⟩ := hname
    have hlisted : name ∈ t.names ["s"] := FileTree.mem_names_iff.mpr (by rw [hget]; rfl)
    have hshort : ∀ name ∈ t.names ["s"],
        Text.Utf8.size ((Path.ofText "/d").child name).text ≤ maxPath := by decide +kernel
    exact hshort name hlisted
  have hnames : names.Perm (t.names ["s"]) := by decide +kernel
  obtain ⟨-, hrun⟩ := dry_run_predicts_forced_run t hlawful hdistinct o hthreshold
    (Path.ofText "/d") ["s"] hdir hfree noClient ()
  obtain ⟨hdry, hdryTree, hforced, -, -, hgone, hkept, -⟩ := hrun names hnames
  have hsizes : ((t.names ["s"]).filterMap fun name => o.oldSize? t (["s"] ++ [name])) = [2] := by
    decide +kernel
  rw [hsizes] at hdry hforced
  refine ⟨hlawful, hdistinct, hthreshold, hdir, hfree, hnames, hdry, hdryTree, hforced,
    hgone "old" (by decide +kernel), fun loc hloc => hkept loc fun name hname => ?_⟩
  subst hname
  cases hsize : o.oldSize? t (["s"] ++ [name]) with
  | none => rfl
  | some size =>
      obtain ⟨content, modified, hget⟩ := fileAt_of_oldSize? (o := o) (by rw [hsize]; rfl)
      have hlisted : name ∈ t.names ["s"] := FileTree.mem_names_iff.mpr (by rw [hget]; rfl)
      have hold : ∀ name ∈ t.names ["s"], name ≠ "old" →
          o.oldSize? t (["s"] ++ [name]) = none := by decide +kernel
      rw [hold name hlisted fun heq => hloc (by rw [heq]; rfl)] at hsize
      cases hsize

end FileStash.Sweep
