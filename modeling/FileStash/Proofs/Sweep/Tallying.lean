import FileStash.Proofs.Program.Writing
import FileStash.Proofs.Sweep.Counting
import Mathlib.Algebra.GroupWithZero.Nat

/-!
What a sweep has to tell of a directory, wherever its own records are written. An entry is
counted when it has been found old enough, and only then removed, so that an entry that cannot
be removed is counted all the same and named in a warning. An entry makes no difference to
those that come after it.
-/

namespace FileStash.Sweep

open FileTree (Fresh Remains)

def complaint (p : Path) (f : Failure) : Record :=
  ⟨.warning, logger, "Failed to process " ++ p.text ++ ": " ++ f.message⟩

/-- The record of an entry that was counted and could not be removed. -/
def refusal (dir : Path) (name : String) (code : SystemCode) : Record :=
  complaint (dir.child name) (.system code (dir.child name).text)

/-- Writing one of the sweep's own records puts its line behind what a file holds, where
there is such a file. -/
def WritesTo (write : Record → FileTree → FileTree) (log : Option Location)
    (line : Record → List UInt8) : Prop :=
  ∀ r t, r.logger = logger → Severity.info.level ≤ r.severity.level →
    write r t = t.appendAll log.toList (line r)

variable {σ : Type} {client : Client σ} {s : σ} {o : Order} {t t' : FileTree} {dir p : Path}
  {place : Location} {name : String} {names : List String} {tally tally' : Tally} {f : Failure}
  {size : Nat} {write : Record → FileTree → FileTree} {log : Option Location}
  {line : Record → List UInt8}

/-- What comes of a stretch of a sweep over some of the entries: how many are counted, which
of them have gone, and what has been noted. Where records are written to a file of the
directory its size is another one than at the start. -/
structure Order.Tallies (o : Order) (t : FileTree) (dir : Path) (place : Location)
    (log : Option Location) (line : Record → List UInt8) (tally : Tally) (names : List String)
    (r : Run σ Tally) : Prop where
  result : ∃ octets, r.result = .ok
      ⟨tally.files + names.countP fun name => (o.counted? t dir place name).isSome, octets⟩ ∧
    ((∀ name ∈ names, log ≠ some (place ++ [name])) →
      octets = tally.octets + (names.filterMap (o.counted? t dir place)).sum)
  remains : Remains log (r.records.flatMap line) (o.gone t dir place names) t r.tree
  bare : log = none → r.tree = t.removeAll (o.gone t dir place names)
  warnings : ∀ c ∈ r.records, c.severity = .warning ∧ c.logger = logger
  refused : ∀ name ∈ names, (o.counted? t dir place name).isSome → o.dryRun = false →
    ∀ code, o.obstacles.removal name = some code → code ≠ .noEntry →
      refusal dir name code ∈ r.records

theorem written_visit (o : Order) (tally : Tally) (p : Path) (s : σ) (t : FileTree) :
    (visit o tally p).written client write s t = Program.written client write
      (match selected? o t p with
        | .error f => (troubled p f).andThen fun _ => .done tally
        | .ok none => .done tally
        | .ok (some size) =>
            (removeSelected o p).andThen fun _ => .done (tally.add size)) s t := rfl

theorem written_troubled (hf : f.isSystem = true) :
    (troubled p f).written client write s t =
      { result := .ok (), state := s, tree := write (complaint p f) t,
        records := [complaint p f] } := by
  simp only [troubled, hf, if_true]
  rfl

theorem written_removeSelected_dry (hdry : o.dryRun = true) :
    (removeSelected o p).written client write s t =
      { result := .ok (), state := s, tree := t } := by
  simp only [removeSelected, hdry, if_true]
  rfl

theorem written_removeSelected_ok (hforced : o.dryRun = false) (h : removal o t p = .ok t') :
    (removeSelected o p).written client write s t =
      { result := .ok (), state := s, tree := t' } := by
  simp only [removeSelected, hforced, Bool.false_eq_true, if_false, Program.currentTree, bind,
    Program.andThen, Program.written, h, Program.replaceTree]

theorem written_removeSelected_error (hforced : o.dryRun = false)
    (h : removal o t p = .error f) (hf : f.isSystem = true) :
    (removeSelected o p).written client write s t =
      { result := .ok (), state := s, tree := write (complaint p f) t,
        records := [complaint p f] } := by
  simp only [removeSelected, hforced, Bool.false_eq_true, if_false, Program.currentTree, bind,
    Program.andThen, Program.written, h]
  exact written_troubled hf

theorem written_visit_selected {records : List Record} (h : selected? o t p = .ok (some size))
    (hremove : (removeSelected o p).written client write s t =
      { result := .ok (), state := s, tree := t', records := records }) :
    (visit o tally p).written client write s t =
      { result := .ok (tally.add size), state := s, tree := t', records := records } := by
  rw [written_visit, h]
  dsimp only
  rw [Program.written_andThen_ok (by rw [hremove]), hremove]
  simp [Program.written]

section Visit

variable {r : Run σ Tally}

theorem result_of_elim (log : Option Location) (dir : Path)
    (h : r.result = .ok ((o.counted? t dir place name).elim tally tally.add)) :
    ∃ octets, r.result = .ok
        ⟨tally.files + [name].countP fun other => (o.counted? t dir place other).isSome, octets⟩ ∧
      ((∀ other ∈ [name], log ≠ some (place ++ [other])) →
        octets = tally.octets + ([name].filterMap (o.counted? t dir place)).sum) := by
  rw [h]
  cases hsize : o.counted? t dir place name with
  | none => exact ⟨tally.octets, by simp [hsize], fun _ => by simp [hsize]⟩
  | some size => exact ⟨tally.octets + size, by simp [hsize, Tally.add], fun _ => by simp [hsize]⟩

theorem gone_singleton (hremoves : o.removes t dir place name = false) :
    o.gone t dir place [name] = [] := by
  simp [Order.gone, hremoves]

theorem tallies_silent (h : r.result = .ok ((o.counted? t dir place name).elim tally tally.add))
    (htree : r.tree = t) (hrecords : r.records = [])
    (hremoves : o.removes t dir place name = false)
    (hobstacle : (o.counted? t dir place name).isSome → o.dryRun = false →
      ∀ code, o.obstacles.removal name = some code → code = .noEntry) :
    o.Tallies t dir place log line tally [name] r where
  result := result_of_elim log dir h
  remains := by
    rw [hrecords, htree, gone_singleton hremoves]
    exact .refl log t
  bare _ := by
    rw [htree, gone_singleton hremoves]
    rfl
  warnings := by simp [hrecords]
  refused other hother hsize hforced code hcode hne := by
    obtain rfl := List.mem_singleton.mp hother
    exact absurd (hobstacle hsize hforced code hcode) hne

theorem tallies_noted (hwrite : WritesTo write log line) (hfresh : Fresh log t)
    (h : r.result = .ok ((o.counted? t dir place name).elim tally tally.add))
    (htree : r.tree = write (complaint p f) t) (hrecords : r.records = [complaint p f])
    (hremoves : o.removes t dir place name = false)
    (hobstacle : (o.counted? t dir place name).isSome → o.dryRun = false →
      ∀ code, o.obstacles.removal name = some code → complaint p f = refusal dir name code) :
    o.Tallies t dir place log line tally [name] r := by
  have hline : r.tree = t.appendAll log.toList (line (complaint p f)) :=
    htree.trans (hwrite _ _ rfl (by show Severity.info.level ≤ Severity.warning.level; decide))
  constructor
  · exact result_of_elim log dir h
  · rw [hrecords, hline, gone_singleton hremoves, List.flatMap_singleton]
    exact .append hfresh _
  · rintro rfl
    rw [hline, gone_singleton hremoves]
    rfl
  · rw [hrecords]
    rintro c hc
    obtain rfl := List.mem_singleton.mp hc
    exact ⟨rfl, rfl⟩
  · intro other hother hsize hforced code hcode _
    obtain rfl := List.mem_singleton.mp hother
    rw [hrecords, hobstacle hsize hforced code hcode]
    exact List.mem_singleton_self _

theorem tallies_gone (h : r.result = .ok ((o.counted? t dir place name).elim tally tally.add))
    (htree : r.tree = t.remove (place ++ [name])) (hrecords : r.records = [])
    (hremoves : o.removes t dir place name = true) :
    o.Tallies t dir place log line tally [name] r := by
  have hgone : o.gone t dir place [name] = [place ++ [name]] := by simp [Order.gone, hremoves]
  simp only [Order.removes, Bool.and_eq_true, Option.isNone_iff_eq_none] at hremoves
  have hfile : t.FileAt (place ++ [name]) := by
    obtain ⟨size, hsize⟩ := Option.isSome_iff_exists.mp hremoves.1.1
    exact fileAt_of_oldSize? (by rw [(counted?_eq_some_iff.mp hsize).2]; rfl)
  constructor
  · exact result_of_elim log dir h
  · rw [hrecords, htree, hgone]
    exact .remove log hfile
  · intro _
    rw [htree, hgone]
    rfl
  · simp [hrecords]
  · intro other hother _ _ code hcode
    obtain rfl := List.mem_singleton.mp hother
    rw [hremoves.2] at hcode
    cases hcode

end Visit

/-- An entry that is counted: what is counted is not yet gone, and where it cannot be removed
it is counted and stays. -/
theorem tallies_counted (h : Sweepable t dir place) (hname : name ∈ t.names place)
    (hwrite : WritesTo write log line) (hfresh : Fresh log t)
    (hsize : o.counted? t dir place name = some size)
    (hselected : selected? o t (dir.child name) = .ok (some size)) (client : Client σ) (s : σ)
    (tally : Tally) :
    let r := (visit o tally (dir.child name)).written client write s t
    r.result = .ok (tally.add size) ∧ o.Tallies t dir place log line tally [name] r := by
  have hsome : (o.counted? t dir place name).isSome := by rw [hsize]; rfl
  have hremoval := removal_child h hname hsome
  have hadd : tally.add size = (o.counted? t dir place name).elim tally tally.add := by
    rw [hsize]
    rfl
  cases hdry : o.dryRun with
  | true =>
      rw [written_visit_selected hselected (written_removeSelected_dry hdry)]
      refine ⟨rfl, tallies_silent (by rw [hadd]) rfl rfl (by simp [Order.removes, hdry]) ?_⟩
      simp [hdry]
  | false =>
      cases hobstacle : o.obstacles.removal name with
      | none =>
          rw [hobstacle] at hremoval
          rw [written_visit_selected hselected (written_removeSelected_ok hdry hremoval)]
          exact ⟨rfl, tallies_gone (by rw [hadd]) rfl rfl
            (by simp [Order.removes, hsize, hdry, hobstacle])⟩
      | some code =>
          have hremoves : o.removes t dir place name = false := by
            simp [Order.removes, hobstacle]
          rw [hobstacle] at hremoval
          by_cases hcode : code = .noEntry
          · subst hcode
            rw [written_visit_selected hselected (written_removeSelected_ok hdry hremoval)]
            refine ⟨rfl, tallies_silent (by rw [hadd]) rfl rfl hremoves fun _ _ code' hcode' => ?_⟩
            exact (Option.some.inj (hobstacle.symm.trans hcode')).symm
          · have herror : removal o t (dir.child name) =
                .error (.system code (dir.child name).text) := by
              cases code <;> first | exact hremoval | exact absurd rfl hcode
            rw [written_visit_selected hselected (written_removeSelected_error hdry herror rfl)]
            refine ⟨rfl, tallies_noted hwrite hfresh (by rw [hadd]) rfl rfl hremoves ?_⟩
            rintro - - code' hcode'
            cases hobstacle.symm.trans hcode'
            rfl

theorem tallies_visit (h : Sweepable t dir place) (hname : name ∈ t.names place)
    (hjudges : o.Judges t dir place name) (hwrite : WritesTo write log line)
    (hfresh : Fresh log t) (client : Client σ) (s : σ) (tally : Tally) :
    let r := (visit o tally (dir.child name)).written client write s t
    (∃ tally', r.result = .ok tally') ∧ o.Tallies t dir place log line tally [name] r := by
  rcases selected?_child h hname hjudges with hselected | ⟨hnone, f, hselected, hf⟩
  · cases hsize : o.counted? t dir place name with
    | none =>
        rw [written_visit, hselected, hsize]
        refine ⟨⟨tally, rfl⟩,
          tallies_silent (by rw [hsize]; rfl) rfl rfl (by simp [Order.removes, hsize]) ?_⟩
        simp [hsize]
    | some size =>
        rw [hsize] at hselected
        obtain ⟨hresult, htallies⟩ :=
          tallies_counted h hname hwrite hfresh hsize hselected client s tally
        exact ⟨⟨_, hresult⟩, htallies⟩
  · have htroubled : (troubled (dir.child name) f).written client write s t =
        { result := .ok (), state := s, tree := write (complaint (dir.child name) f) t,
          records := [complaint (dir.child name) f] } := written_troubled hf
    rw [written_visit, hselected]
    dsimp only
    rw [Program.written_andThen_ok (by rw [htroubled]), htroubled]
    refine ⟨⟨tally, rfl⟩, tallies_noted hwrite hfresh (by rw [hnone]; rfl) rfl rfl
      (by simp [Order.removes, hnone]) ?_⟩
    simp [hnone]

theorem Order.Tallies.nil (o : Order) (t : FileTree) (dir : Path) (place : Location)
    (log : Option Location) (line : Record → List UInt8) (tally : Tally) (s : σ) :
    o.Tallies t dir place log line tally [] { result := .ok tally, state := s, tree := t } where
  result := ⟨tally.octets, rfl, fun _ => rfl⟩
  remains := .refl log t
  bare _ := rfl
  warnings := by simp
  refused := by simp

/-- One entry and then the others: what the first has left of the tree makes no difference to
them, apart from the size of the file that is written to. -/
theorem Order.Tallies.cons {first rest : Run σ Tally}
    (hfirst : o.Tallies t dir place log line tally [name] first)
    (hresult : first.result = .ok tally')
    (hrest : o.Tallies first.tree dir place log line tally' names rest) (hname : name ∉ names) :
    o.Tallies t dir place log line tally (name :: names)
      ⟨rest.result, rest.state, rest.tree, first.calls ++ rest.calls,
        first.records ++ rest.records⟩ := by
  have hplace : ∀ other ∈ names, place ++ [other] ∉ o.gone t dir place [name] :=
    fun other hother => not_mem_gone fun hsame => hname (List.mem_singleton.mp hsame ▸ hother)
  have hsome : ∀ other ∈ names, (o.counted? first.tree dir place other).isSome =
      (o.counted? t dir place other).isSome := fun other hother =>
    isSome_counted?_of_remains hfirst.remains (hplace other hother)
  have hgone : o.gone t dir place (name :: names) =
      o.gone t dir place [name] ++ o.gone first.tree dir place names := by
    have hsame : names.filter (o.removes first.tree dir place) =
        names.filter (o.removes t dir place) := List.filter_congr fun other hother =>
      removes_of_remains hfirst.remains (hplace other hother)
    rw [Order.gone, Order.gone, Order.gone, hsame, ← List.map_append, ← List.filter_append]
    rfl
  constructor
  · obtain ⟨octets, hfirstResult, hoctets⟩ := hfirst.result
    obtain ⟨octets', hrestResult, hoctets'⟩ := hrest.result
    obtain rfl := Except.ok.inj (hresult.symm.trans hfirstResult)
    refine ⟨octets', ?_, fun hlog => ?_⟩
    · have hcount : names.countP (fun other => (o.counted? first.tree dir place other).isSome) =
          names.countP fun other => (o.counted? t dir place other).isSome :=
        List.countP_congr fun other hother => by rw [hsome other hother]
      rw [hrestResult, hcount, Nat.add_assoc, ← List.countP_append]
      rfl
    · have hrestLog : ∀ other ∈ names, log ≠ some (place ++ [other]) :=
        fun other hother => hlog other (List.mem_cons_of_mem _ hother)
      have hsizes : names.filterMap (o.counted? first.tree dir place) =
          names.filterMap (o.counted? t dir place) := List.filterMap_congr fun other hother =>
        counted?_of_remains hfirst.remains (hplace other hother) (hrestLog other hother)
      have hfirstLog : ∀ other ∈ [name], log ≠ some (place ++ [other]) :=
        fun other hother => hlog other (List.mem_singleton.mp hother ▸ List.mem_cons_self ..)
      rw [hoctets' hrestLog, hsizes, hoctets hfirstLog, Nat.add_assoc, ← List.sum_append,
        ← List.filterMap_append]
      rfl
  · rw [hgone, List.flatMap_append]
    exact hfirst.remains.trans hrest.remains
  · intro hlog
    rw [hgone, hrest.bare hlog, hfirst.bare hlog]
    exact (List.foldl_append ..).symm
  · intro c hc
    rcases List.mem_append.mp hc with hc | hc
    · exact hfirst.warnings c hc
    · exact hrest.warnings c hc
  · intro other hother hsize hforced code hcode hne
    rcases List.mem_cons.mp hother with rfl | hother
    · exact List.mem_append_left _
        (hfirst.refused other (List.mem_singleton_self _) hsize hforced code hcode hne)
    · rw [← hsome other hother] at hsize
      exact List.mem_append_right _ (hrest.refused other hother hsize hforced code hcode hne)

section Stretch

variable (h : Sweepable t dir place) (hwrite : WritesTo write log line) (hfresh : Fresh log t)
  (hnodup : names.Nodup) (hnames : ∀ name ∈ names, name ∈ t.names place)
include h hwrite hfresh hnodup hnames

theorem tallies_visitAll (hjudges : ∀ name ∈ names, o.Judges t dir place name)
    (client : Client σ) (s : σ) (tally : Tally) :
    o.Tallies t dir place log line tally names
      ((visitAll o dir tally names).written client write s t) := by
  induction names generalizing s t tally with
  | nil => exact .nil o t dir place log line tally s
  | cons name names ih =>
      obtain ⟨hname, hrest⟩ := List.nodup_cons.mp hnodup
      obtain ⟨⟨tally', hresult⟩, hfirst⟩ := tallies_visit h (hnames name (List.mem_cons_self ..))
        (hjudges name (List.mem_cons_self ..)) hwrite hfresh client s tally
      have hrun : (visitAll o dir tally (name :: names)).written client write s t = _ :=
        Program.written_andThen_ok hresult
      rw [hrun]
      -- The first visit leaves the other entries where they are.
      have hplace : ∀ other ∈ names, place ++ [other] ∉ o.gone t dir place [name] :=
        fun other hother => not_mem_gone fun hsame => hname (List.mem_singleton.mp hsame ▸ hother)
      refine hfirst.cons hresult (ih (h.remains hfirst.remains) (hfirst.remains.fresh hfresh) hrest
        (fun other hother => ?_) (fun other hother => ?_) _ tally') hname
      · exact hfirst.remains.mem_names (hplace other hother)
          (hnames other (List.mem_cons_of_mem _ hother))
      · exact (judges_of_remains hfirst.remains (hplace other hother)).mpr
          (hjudges other (List.mem_cons_of_mem _ hother))

/-- A sweep that comes to its end has had no age to compare with what is no number. -/
theorem judges_of_result {client : Client σ} {s : σ} {tally tally' : Tally}
    (hresult : ((visitAll o dir tally names).written client write s t).result = .ok tally') :
    ∀ name ∈ names, o.Judges t dir place name := by
  by_cases hthreshold : Threshold o.older
  · exact fun _ _ => .inl hthreshold
  · induction names generalizing s t tally with
    | nil => exact nofun
    | cons name names ih =>
        obtain ⟨hname, hrest⟩ := List.nodup_cons.mp hnodup
        have hthere := hnames name (List.mem_cons_self ..)
        have hfirstJudges : o.Judges t dir place name := by
          refine .inr (Option.not_isSome_iff_eq_none.mp fun hsize => ?_)
          have hvisit : ((visit o tally (dir.child name)).written client write s t).result =
              .error (.bare .wrongType) := by
            rw [written_visit, selected?_of_not_threshold h hthere hthreshold hsize]
            rfl
          have hrun : (visitAll o dir tally (name :: names)).written client write s t = _ :=
            Program.written_andThen_error hvisit
          rw [hrun] at hresult
          cases hresult
        obtain ⟨⟨middle, hmiddle⟩, hfirst⟩ :=
          tallies_visit h hthere hfirstJudges hwrite hfresh client s tally
        have hrun : (visitAll o dir tally (name :: names)).written client write s t = _ :=
          Program.written_andThen_ok hmiddle
        rw [hrun] at hresult
        have hplace : ∀ other ∈ names, place ++ [other] ∉ o.gone t dir place [name] :=
          fun other hother =>
            not_mem_gone fun hsame => hname (List.mem_singleton.mp hsame ▸ hother)
        have hothers := ih (h.remains hfirst.remains) (hfirst.remains.fresh hfresh) hrest
          (fun other hother => hfirst.remains.mem_names (hplace other hother)
            (hnames other (List.mem_cons_of_mem _ hother))) hresult
        intro other hother
        rcases List.mem_cons.mp hother with rfl | hother
        · exact hfirstJudges
        · exact (judges_of_remains hfirst.remains (hplace other hother)).mp (hothers other hother)

end Stretch

theorem writesTo_none : WritesTo (fun _ t => t) none fun _ => [] :=
  fun _ _ _ _ => rfl

theorem tallies_run (h : Sweepable t dir place) (hthreshold : Threshold o.older)
    (hdistinct : (Dict.keys t.nodes).Nodup) (hnames : names.Perm (t.names place))
    (client : Client σ) (s : σ) :
    o.Tallies t dir place none (fun _ => []) {} names
      ((visitAll o dir {} names).run client s t) := by
  rw [Program.run_eq_written]
  exact tallies_visitAll h writesTo_none (FileTree.fresh_none t)
    (hnames.nodup_iff.mpr (FileTree.nodup_names hdistinct place))
    (fun name hname => hnames.mem_iff.mp hname) (fun _ _ => .inl hthreshold) client s {}

theorem written_sweep (client : Client σ) (s : σ) (o : Order)
    (hdir : t.stat dir = .ok (place, .directory)) :
    (sweep o dir).written client write s t =
      (visitAll o dir {} (t.names place)).written client write s t := by
  have hlisting : t.listing dir = .ok (t.names place) := by
    simp [FileTree.listing, hdir, bind, Except.bind]
  change Program.written client write ((Program.ofConverted (t.listing dir)).andThen fun names =>
    visitAll o dir {} names) s t = _
  rw [hlisting]
  rfl

theorem run_sweep (client : Client σ) (s : σ) (o : Order)
    (hdir : t.stat dir = .ok (place, .directory)) :
    (sweep o dir).run client s t = (visitAll o dir {} (t.names place)).run client s t := by
  rw [Program.run_eq_written, Program.run_eq_written, written_sweep client s o hdir]

theorem Order.Tallies.result_of_perm {r : Run σ Tally}
    (h : o.Tallies t dir place none line {} names r) (hnames : names.Perm (t.names place)) :
    let sizes := (t.names place).filterMap (o.counted? t dir place)
    r.result = .ok ⟨sizes.length, sizes.sum⟩ := by
  intro sizes
  obtain ⟨octets, hresult, hoctets⟩ := h.result
  have hsizes : (names.filterMap (o.counted? t dir place)).Perm sizes := hnames.filterMap _
  rw [hresult, hoctets nofun, hsizes.sum_nat, ← List.length_filterMap_eq_countP, hsizes.length_eq,
    Nat.zero_add, Nat.zero_add]

end FileStash.Sweep
