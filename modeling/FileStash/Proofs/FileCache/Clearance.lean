import FileStash.Proofs.FileCache.Stocked
import FileStash.Proofs.Sweep.Tallying

namespace FileStash

open FileTree (pathOf Housed Tended)

namespace Sweep

/-- An order by which a file goes whatever its age, unless the system refuses it. -/
structure Order.Clears (o : Order) (name : String) : Prop where
  forced : o.dryRun = false
  anyAge : o.older = .null
  kind : o.obstacles.kind name = none
  status : o.obstacles.status name = none
  removal : o.obstacles.removal name = none

/-- The system finds a directory under a path, and takes the path of one of its entries. -/
structure Accessible (t : FileTree) (p : Path) (dir : Location) (name : String) : Prop where
  directory : t.stat p = .ok (dir, .directory)
  short : Text.Utf8.size (p.child name).text ≤ FileTree.maxPath

/-- A file of a directory has gone, and no directory and no link has. -/
structure Clearing (dir : Location) (name : String) (t t' : FileTree) : Prop where
  regular : t'.Regular
  home : t'.home = t.home
  links : ∀ loc, t.link? loc = t'.link? loc
  directories : ∀ loc, t.get? loc = some .directory → t'.get? loc = some .directory
  gone : t'.get? (dir ++ [name]) = none

variable {o : Order} {t : FileTree} {p : Path} {dir : Location} {name : String}

theorem Order.Clears.removes (h : o.Clears name) (hfile : t.FileAt (dir ++ [name]))
    (haccess : Accessible t p dir name) : o.removes t p dir name = true := by
  obtain ⟨content, modified, hget⟩ := hfile
  have hanswered : o.answered p name = true := answered_iff.mpr ⟨h.kind, h.status, haccess.short⟩
  have htakes : o.takes modified = true := by simp [Order.takes, h.anyAge]
  have hsize : o.oldSize? t (dir ++ [name]) = some content.length := by
    rw [oldSize?_of_file hget, if_pos htakes]
  simp [Order.removes, counted?_eq_some_iff.mpr ⟨hanswered, hsize⟩, h.forced, h.removal]

theorem clearing_sweep {σ : Type} (ht : t.Regular) (hfile : t.FileAt (dir ++ [name]))
    (haccess : Accessible t p dir name) (ho : o.Clears name) (client : Client σ) (s : σ) :
    (∃ tally, ((sweep o p).run client s t).result = .ok tally) ∧
      Clearing dir name t ((sweep o p).run client s t).tree := by
  have hthreshold : Threshold o.older := ho.anyAge ▸ .none
  have htallies := tallies_run (o := o) (.of_lawful ht.lawful haccess.directory) hthreshold
    ht.distinct (List.Perm.refl (t.names dir)) client s
  rw [run_sweep client s o haccess.directory]
  obtain ⟨octets, hresult, -⟩ := htallies.result
  have hremains := htallies.remains
  have hregular : (t.removeAll (o.gone t p dir (t.names dir))).Regular := by
    have hnodup : (o.gone t p dir (t.names dir)).Nodup :=
      ((FileTree.nodup_names ht.distinct dir).filter _).map fun a b hsame => by simpa using hsame
    refine FileTree.removeAll_induction hnodup hremains.files (fun u loc hloc hu => ?_) ht
    obtain ⟨content, modified, hget⟩ := hloc
    exact hu.remove (by simp [hget])
  have hgone : dir ++ [name] ∈ o.gone t p dir (t.names dir) :=
    mem_gone_iff.mpr ⟨name, hfile.mem_names, ho.removes hfile haccess, rfl⟩
  exact ⟨⟨_, hresult⟩, htallies.bare rfl ▸ hregular, hremains.home, hremains.link?,
    fun loc => hremains.get?_of_not_file (by simp), hremains.absent _ hgone⟩

theorem run_sweep_error {σ : Type} {f : Failure} (client : Client σ) (s : σ) (o : Order)
    (h : t.stat p = .error f) :
    (sweep o p).run client s t = { result := .error (.bare f), state := s, tree := t } := by
  have hlisting : t.listing p = .error f := by simp [FileTree.listing, h, bind, Except.bind]
  change Program.run client ((Program.ofConverted (t.listing p)).andThen fun names =>
    visitAll o p {} names) s t = _
  rw [hlisting]
  rfl

end Sweep

namespace FileCache

open Sweep (Accessible Clearing)
open World (Lasts)

variable {c : FileCache} {first name : String} {t : FileTree} {dir : Location} {w w' : World}

/-- The path of the scratch directory leads there, where the system can follow it. -/
theorem stat_scratch (h : Housed t c.scratchDir dir) (hfile : t.FileAt (dir ++ [name])) :
    t.stat c.scratchDir = .ok (dir, .directory) ∨ ∃ f, t.stat c.scratchDir = .error f := by
  cases hstat : t.stat c.scratchDir with
  | error f => exact .inr ⟨f, rfl⟩
  | ok r =>
      obtain ⟨loc, n⟩ := r
      obtain ⟨hleads, hget⟩ := FileTree.resolves_of_stat hstat
      obtain rfl : loc = dir := hleads.unique h.leads
      have hdir := h.regular.lawful.wellFormed.directory_of_file hfile
      obtain rfl : n = .directory := Option.some.inj (hget.symm.trans hdir)
      exact .inl rfl

section File

variable (hfile : t.FileAt (dir ++ [name]))
  (hshort : Text.Utf8.size (pathOf (dir ++ [name])).text ≤ FileTree.maxPath)
include hfile hshort

theorem takes_of_file (ht : t.Regular) : FileTree.Takes (pathOf (dir ++ [name])) := by
  obtain ⟨content, modified, hget⟩ := hfile
  exact ⟨FileTree.isAbsolute_pathOf _, ht.lawful.names _ _ hget, hshort⟩

theorem accessible_real_path (ht : t.Regular) : Accessible t (pathOf dir) dir name := by
  have htakes : FileTree.Takes (pathOf dir) :=
    parent_place dir name ▸ (takes_of_file hfile hshort ht).parent
  have hdir := ht.lawful.wellFormed.directory_of_file hfile
  have hdirs : ∀ above, above <+: dir.dropLast → t.get? above = some .directory :=
    fun above habove => ht.lawful.wellFormed.directory_of_prefix hdir
      (habove.trans (List.dropLast_prefix dir))
  have hresolving := htakes.resolving_inside true hdirs
    (FileTree.link?_eq_none_of_get? (by simp [pathOf, hdir]))
  rw [show (pathOf dir).parts = dir from rfl, hdir] at hresolving
  exact ⟨FileTree.stat_of_resolving hresolving, hshort⟩

/-- Where a file has been swept away there is room for it, and still is after other files have
been restored. -/
theorem room_of_clearing {t' t'' : FileTree} (ht : t.Regular)
    (hclearing : Clearing dir name t t') (htended : Tended dir t' t'')
    (hhouse : Housed t'' c.scratchDir dir) : Room t'' dir name where
  wellFormed := hhouse.regular.lawful.wellFormed
  takes := takes_of_file hfile hshort ht
  straight := hhouse.place.straight
  way above habove := by
    have hdir := ht.lawful.wellFormed.directory_of_file hfile
    have hbefore := ht.lawful.wellFormed.directory_of_prefix hdir habove
    exact .inl (htended.directories above (hclearing.directories above hbefore))
  free := (htended.inside name).imp_left fun hsame => hsame.trans hclearing.gone

end File

/-- A record that nobody has changed is the one that it was, while it is alive. -/
theorem OnRecord.lasts {stored : String → List UInt8 → Prop} {content : List UInt8}
    {fields : Dict String String} (h : OnRecord first stored w name content fields)
    (hlasts : Lasts (first ++ name) w w')
    (halive : (w'.server.server.live? (first ++ name)).isSome) :
    OnRecord first stored w' name content fields := by
  obtain ⟨e, he⟩ := Option.isSome_iff_exists.mp halive
  obtain ⟨deadline, hlive⟩ := h.live
  cases hlive.symm.trans (hlasts.before he)
  exact { h with live := ⟨deadline, he⟩ }

end FileCache

end FileStash
