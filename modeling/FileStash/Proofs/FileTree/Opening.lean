import FileStash.Proofs.FileTree.Directories

namespace FileStash.FileTree

variable {t t' t'' : FileTree} {p : Path}

theorem Resolves.congr (hlinks : ∀ loc, t.link? loc = t'.link? loc) (hhome : t'.home = t.home)
    {loc : Location} (h : t.Resolves p loc) : t'.Resolves p loc := by
  obtain ⟨hnul, hreaches⟩ := h
  have hstart : t'.startOfPath p = t.startOfPath p := by
    simp only [startOfPath, hhome]
  refine ⟨hnul, ?_⟩
  rw [hstart]
  exact hreaches.congr hlinks

theorem Resolves.unique {a b : Location} (ha : t.Resolves p a) (hb : t.Resolves p b) :
    a = b := by
  obtain ⟨-, n, hn⟩ := ha
  obtain ⟨-, m, hm⟩ := hb
  have hn' := pass_leads_mono (Nat.le_max_left n m) hn
  have hm' := pass_leads_mono (Nat.le_max_right n m) hm
  exact Option.some.inj (hn'.symm.trans hm')

theorem Tidy.of_resolve (h : t.Tidy) {q : Path} {loc loc' : Location} (hp : t.Resolves p loc)
    (hreal : t.resolve p = .ok q) (hq : t.Resolves q loc') : loc' = loc ∧ q = pathOf loc := by
  have hpath := h.eq_of_resolve hp hreal
  have hself : pass t (leads t 0) [] (pathOf loc).parts = some loc :=
    pass_of_straight _ (h.straight_of_resolves hp)
  subst hpath
  have hend : t.Resolves (pathOf loc) loc :=
    ⟨hq.1, 0, by simpa only [startOfPath, isAbsolute_pathOf, if_true] using hself⟩
  exact ⟨hq.unique hend, rfl⟩

/-- A look-up that does not end at a link goes the same way where it would follow
one. -/
theorem descend_follow {expand expand' : Location → List String → LookUp} {place : Place}
    (hplace : ∀ loc target, place ≠ .found loc (.link target))
    (hexpand : ∀ loc cs, expand loc cs = .ok place → expand' loc cs = .ok place)
    {loc : Location} {cs : List String} (h : descend t false expand loc cs = .ok place) :
    descend t true expand' loc cs = .ok place := by
  induction cs generalizing loc with
  | nil => exact h
  | cons c cs ih =>
      obtain ⟨hdir, hstep⟩ := first_step h
      refine FirstStep.descend hdir ?_
      cases hstep with
      | stay dot rest => exact .stay dot (ih rest)
      | up named up rest => exact .up named up (ih rest)
      | missing named down short there last ends => exact .missing named down short there last ends
      | followed named down short there _ rest =>
          exact .followed named down short there (by simp) (hexpand _ _ rest)
      | unfollowed _ _ _ _ _ ends => exact absurd ends (hplace _ _)
      | down named down short there noLink rest =>
          exact .down named down short there noLink (ih rest)

theorem walk_follow {links : Nat} {place : Place}
    (hplace : ∀ loc target, place ≠ .found loc (.link target)) {loc : Location}
    {cs : List String} (h : walk t false links loc cs = .ok place) :
    walk t true links loc cs = .ok place := by
  induction links generalizing loc cs with
  | zero => exact descend_follow hplace (fun _ _ hexpand => by cases hexpand) h
  | succ links ih => exact descend_follow hplace (fun _ _ hexpand => ih hexpand) h

theorem resolving_follow {place : Place}
    (hplace : ∀ loc target, place ≠ .found loc (.link target))
    (h : t.resolving false p = .ok place) : t.resolving true p = .ok place := by
  unfold resolving at h ⊢
  split at h
  · cases h
  · rename_i hnul
    rw [if_neg hnul]
    cases hlook : t.lookUp false p with
    | error code => simp [hlook, mapError_error] at h
    | ok place' =>
        simp only [hlook, mapError_ok, Except.ok.injEq] at h
        subst h
        have hfollow : t.lookUp true p = .ok place' := by
          unfold lookUp at hlook ⊢
          split at hlook
          · cases hlook
          · rename_i hshort
            rw [if_neg hshort]
            exact walk_follow hplace hlook
        rw [hfollow]
        rfl

/-- What is made and opened on the way to a file: directories that satisfy `dirs` and
empty files that satisfy `files`, where nothing was. -/
structure Gains (t t' : FileTree) (dirs files : Location → Prop) : Prop where
  home : t'.home = t.home
  clock : t'.clock = t.clock
  kept : ∀ loc, t'.get? loc = t.get? loc ∨ (t.get? loc = none ∧
    (dirs loc ∧ t'.get? loc = some .directory ∨
      files loc ∧ t'.get? loc = some (.file [] t.clock)))

namespace Gains

variable {dirs files : Location → Prop}

theorem refl (t : FileTree) (dirs files : Location → Prop) : Gains t t dirs files :=
  ⟨rfl, rfl, fun _ => .inl rfl⟩

theorem trans (h : Gains t t' dirs files) (h' : Gains t' t'' dirs files) :
    Gains t t'' dirs files where
  home := h'.home.trans h.home
  clock := h'.clock.trans h.clock
  kept loc := by
    rcases h.kept loc with hsame | ⟨hnone, hnew⟩
    · rw [← hsame, ← h.clock]
      exact h'.kept loc
    · have hsome : t'.get? loc ≠ none := by
        rcases hnew with ⟨-, hdir⟩ | ⟨-, hfile⟩ <;> simp [*]
      rcases h'.kept loc with hsame' | ⟨hnone', -⟩
      · rw [hsame']
        exact .inr ⟨hnone, hnew⟩
      · exact absurd hnone' hsome

theorem mono {dirs' files' : Location → Prop} (hdirs : ∀ loc, dirs loc → dirs' loc)
    (hfiles : ∀ loc, files loc → files' loc) (h : Gains t t' dirs files) :
    Gains t t' dirs' files' where
  home := h.home
  clock := h.clock
  kept loc := by
    rcases h.kept loc with hsame | ⟨hnone, ⟨hway, hdir⟩ | ⟨hplace, hfile⟩⟩
    · exact .inl hsame
    · exact .inr ⟨hnone, .inl ⟨hdirs loc hway, hdir⟩⟩
    · exact .inr ⟨hnone, .inr ⟨hfiles loc hplace, hfile⟩⟩

theorem link? (h : Gains t t' dirs files) (loc : Location) : t.link? loc = t'.link? loc := by
  rcases h.kept loc with hsame | ⟨hnone, ⟨-, hdir⟩ | ⟨-, hfile⟩⟩
  · simp only [FileTree.link?, hsame]
  · simp only [FileTree.link?, hnone, hdir]
  · simp only [FileTree.link?, hnone, hfile]

theorem resolves (h : Gains t t' dirs files) {loc : Location} (hp : t.Resolves p loc) :
    t'.Resolves p loc :=
  hp.congr h.link? h.home

theorem resolves_before (h : Gains t t' dirs files) {loc : Location} (hp : t'.Resolves p loc) :
    t.Resolves p loc :=
  hp.congr (fun loc => (h.link? loc).symm) h.home.symm

theorem get?_of_some (h : Gains t t' dirs files) {loc : Location} {n : Node}
    (hget : t.get? loc = some n) : t'.get? loc = some n := by
  rcases h.kept loc with hsame | ⟨hnone, -⟩
  · rw [hsame, hget]
  · rw [hget] at hnone
    cases hnone

end Gains

/-- Where the paths above a path lead, and the path itself. -/
def OnWay (t : FileTree) (p : Path) (loc : Location) : Prop :=
  ∃ n, t.Resolves ⟨p.root, p.parts.take n⟩ loc

theorem OnWay.of_parent {loc : Location} (h : t.OnWay p.parent loc) : t.OnWay p loc := by
  obtain ⟨n, hn⟩ := h
  refine ⟨min n (p.parts.length - 1), ?_⟩
  simpa only [Path.parent, List.dropLast_eq_take, List.take_take] using hn

theorem OnWay.before {dirs files : Location → Prop} (hgains : Gains t t' dirs files)
    {loc : Location} (h : t'.OnWay p loc) : t.OnWay p loc := by
  obtain ⟨n, hn⟩ := h
  exact ⟨n, hgains.resolves_before hn⟩

abbrev Nowhere : Location → Prop := fun _ => False

theorem gains_put {loc : Location} {n : Node} {dirs files : Location → Prop}
    (hne : loc ≠ []) (hnone : t.get? loc = none)
    (hn : dirs loc ∧ n = .directory ∨ files loc ∧ n = .file [] t.clock) :
    Gains t (t.put loc n) dirs files where
  home := rfl
  clock := rfl
  kept loc' := by
    by_cases hloc : loc' = loc
    · subst hloc
      refine .inr ⟨hnone, ?_⟩
      rw [get?_put_self t n hne]
      rcases hn with ⟨hdir, rfl⟩ | ⟨hfile, rfl⟩
      · exact .inl ⟨hdir, rfl⟩
      · exact .inr ⟨hfile, rfl⟩
    · exact .inl (get?_put_of_ne t n hloc)

theorem gains_makeDirectory (h : t.makeDirectory p = .ok t') :
    Gains t t' (t.OnWay p) Nowhere := by
  unfold makeDirectory at h
  cases hplace : t.resolving false p with
  | error f => simp [hplace, bind, Except.bind] at h
  | ok place =>
      cases place with
      | found loc n => simp [hplace, bind, Except.bind, failing] at h
      | vacant loc =>
          simp only [hplace, bind, Except.bind, Except.ok.injEq] at h
          subst h
          obtain ⟨hresolves, hnone⟩ :=
            resolves_of_resolving (resolving_follow (fun _ _ h => by cases h) hplace)
          refine gains_put (ne_nil_of_get?_none hnone) hnone (.inl ⟨⟨p.parts.length, ?_⟩, rfl⟩)
          rw [List.take_length]
          exact hresolves

theorem gains_ensureDirectory {above : Failure → Change}
    (habove : ∀ f, Gains t (above f).2 (t.OnWay p) Nowhere) :
    Gains t (t.ensureDirectory p above).2 (t.OnWay p) Nowhere := by
  unfold ensureDirectory
  cases hmake : t.makeDirectory p with
  | ok t' => exact gains_makeDirectory hmake
  | error f =>
      dsimp only
      split
      · exact habove _
      · unfold unlessDirectory
        split
        · split <;> exact .refl t _ _
        · exact .refl t _ _

theorem gains_makeDirectoriesUpTo (n : Nat) :
    Gains t (t.makeDirectoriesUpTo p n).2 (t.OnWay p) Nowhere := by
  induction n generalizing p with
  | zero => exact gains_ensureDirectory fun f => .refl t _ _
  | succ n ih =>
      refine gains_ensureDirectory fun f => ?_
      have hparent : Gains t (t.makeDirectoriesUpTo p.parent n).2 (t.OnWay p) Nowhere :=
        ih.mono (fun _ => .of_parent) fun _ => id
      rcases hrun : t.makeDirectoriesUpTo p.parent n with ⟨f' | u, t'⟩
      · rw [hrun] at hparent
        exact hparent
      · rw [hrun] at hparent
        refine hparent.trans ?_
        have hlast : Gains t' (t'.ensureDirectory p fun f => (.error f, t')).2 (t'.OnWay p)
            Nowhere := gains_ensureDirectory fun f => .refl t' _ _
        exact hlast.mono (fun _ => .before hparent) fun _ => id

theorem gains_makeDirectories :
    Gains t (t.makeDirectories p).2 (t.OnWay p) Nowhere :=
  gains_makeDirectoriesUpTo _

/-- A file that has been opened lies where its path leads, and it is new or was a
file before. -/
theorem of_openAppend {loc : Location} (h : t.openAppend p = .ok (loc, t')) :
    t.Resolves p loc ∧ (∃ content modified, t'.get? loc = some (.file content modified)) ∧
      Gains t t' Nowhere (· = loc) := by
  unfold openAppend openPlace at h
  cases hplace : t.resolving true p with
  | error f => simp [hplace, bind, Except.bind] at h
  | ok place =>
      obtain ⟨hresolves, hholds⟩ := resolves_of_resolving hplace
      cases place with
      | found loc' n =>
          cases n with
          | file content modified =>
              have hget : t.get? loc' = some (.file content modified) := hholds
              simp only [hplace, bind, Except.bind, hget, Except.ok.injEq, Prod.mk.injEq] at h
              obtain ⟨rfl, rfl⟩ := h
              exact ⟨hresolves, ⟨content, modified, hget⟩, .refl t _ _⟩
          | directory | link => simp [hplace, bind, Except.bind, failing] at h
      | vacant loc' =>
          have hnone : t.get? loc' = none := hholds
          simp only [hplace, bind, Except.bind, hnone, Except.ok.injEq, Prod.mk.injEq] at h
          obtain ⟨rfl, rfl⟩ := h
          have hne := ne_nil_of_get?_none hnone
          exact ⟨hresolves, ⟨[], t.clock, get?_put_self t _ hne⟩,
            gains_put hne hnone (.inr ⟨rfl, rfl⟩)⟩

/-- Text has been put behind what files held at the `files`; nothing else has
changed. -/
structure Extends (t t' : FileTree) (files : Location → Prop) : Prop where
  home : t'.home = t.home
  clock : t'.clock = t.clock
  kept : ∀ loc, t'.get? loc = t.get? loc ∨ (files loc ∧ ∃ content modified more later,
    t.get? loc = some (.file content modified) ∧
      t'.get? loc = some (.file (content ++ more) later))

namespace Extends

variable {files : Location → Prop}

theorem refl (t : FileTree) (files : Location → Prop) : Extends t t files :=
  ⟨rfl, rfl, fun _ => .inl rfl⟩

theorem trans (h : Extends t t' files) (h' : Extends t' t'' files) : Extends t t'' files where
  home := h'.home.trans h.home
  clock := h'.clock.trans h.clock
  kept loc := by
    rcases h.kept loc with hsame | ⟨hfile, content, modified, first, _, hold, hmiddle⟩
    · rw [← hsame]
      exact h'.kept loc
    · rcases h'.kept loc with hsame | ⟨-, _, _, second, later, hmiddle', hnew⟩
      · exact .inr ⟨hfile, content, modified, first, _, hold, hsame.trans hmiddle⟩
      · rw [hmiddle] at hmiddle'
        cases hmiddle'
        refine .inr ⟨hfile, content, modified, first ++ second, later, hold, ?_⟩
        rw [hnew, List.append_assoc]

theorem mono {files' : Location → Prop} (hfiles : ∀ loc, files loc → files' loc)
    (h : Extends t t' files) : Extends t t' files' where
  home := h.home
  clock := h.clock
  kept loc := (h.kept loc).imp id fun ⟨hfile, hmore⟩ => ⟨hfiles loc hfile, hmore⟩

theorem link? (h : Extends t t' files) (loc : Location) : t.link? loc = t'.link? loc := by
  rcases h.kept loc with hsame | ⟨-, _, _, _, _, hold, hnew⟩
  · simp only [FileTree.link?, hsame]
  · simp only [FileTree.link?, hold, hnew]

theorem file (h : Extends t t' files) {loc : Location}
    (hget : ∃ content modified, t.get? loc = some (.file content modified)) :
    ∃ content modified, t'.get? loc = some (.file content modified) := by
  rcases h.kept loc with hsame | ⟨-, _, _, _, _, -, hnew⟩
  · rw [hsame]
    exact hget
  · exact ⟨_, _, hnew⟩

end Extends

section Append

variable {loc : Location} {content more : List UInt8} {modified : Int}

theorem append_of_file (h : t.get? loc = some (.file content modified)) :
    t.append loc more = t.put loc (.file (content ++ more) t.clock) := by
  simp only [append, h]

theorem append_of_not_file (h : ∀ content modified, t.get? loc ≠ some (.file content modified)) :
    t.append loc more = t := by
  unfold append
  split
  · rename_i content modified hfile
    exact absurd hfile (h content modified)
  · rfl

theorem ne_nil_of_file (h : t.get? loc = some (.file content modified)) : loc ≠ [] := by
  rintro rfl
  cases h

theorem extends_append (t : FileTree) (loc : Location) (more : List UInt8) :
    Extends t (t.append loc more) (· = loc) := by
  by_cases h : ∃ content modified, t.get? loc = some (.file content modified)
  · obtain ⟨content, modified, hfile⟩ := h
    rw [append_of_file hfile]
    refine ⟨rfl, rfl, fun other => ?_⟩
    by_cases hloc : other = loc
    · subst hloc
      exact .inr ⟨rfl, content, modified, more, t.clock, hfile,
        get?_put_self t _ (ne_nil_of_file hfile)⟩
    · exact .inl (get?_put_of_ne t _ hloc)
  · rw [append_of_not_file fun content modified hfile => h ⟨content, modified, hfile⟩]
    exact .refl t _

/-- The same text at the end of several files, one after the other. -/
def appendAll (t : FileTree) (locs : List Location) (more : List UInt8) : FileTree :=
  locs.foldl (fun t loc => t.append loc more) t

theorem extends_appendAll (t : FileTree) (locs : List Location) (more : List UInt8) :
    Extends t (t.appendAll locs more) (· ∈ locs) := by
  induction locs generalizing t with
  | nil => exact .refl t _
  | cons loc locs ih =>
      have hfirst : Extends t (t.append loc more) (· ∈ loc :: locs) :=
        (extends_append t loc more).mono fun _ hsame => List.mem_cons.mpr (.inl hsame)
      exact hfirst.trans ((ih (t.append loc more)).mono fun _ => List.mem_cons_of_mem loc)

theorem get?_appendAll (locs : List Location) (more : List UInt8)
    (h : t.get? loc = some (.file content modified)) :
    ∃ later, (t.appendAll locs more).get? loc =
      some (.file (content ++ (List.replicate (locs.count loc) more).flatten) later) := by
  induction locs generalizing t content modified with
  | nil => exact ⟨modified, by simpa [appendAll] using h⟩
  | cons other locs ih =>
      by_cases hloc : other = loc
      · subst hloc
        have hfirst : (t.append other more).get? other =
            some (.file (content ++ more) t.clock) := by
          rw [append_of_file h]
          exact get?_put_self t _ (ne_nil_of_file h)
        obtain ⟨later, hrest⟩ := ih hfirst
        refine ⟨later, ?_⟩
        rw [List.count_cons_self, List.replicate_succ, List.flatten_cons, ← List.append_assoc]
        exact hrest
      · have hfirst : (t.append other more).get? loc = some (.file content modified) := by
          rcases (extends_append t other more).kept loc with hsame | ⟨hsame, -⟩
          · rw [hsame, h]
          · exact absurd hsame.symm hloc
        rw [List.count_cons_of_ne hloc]
        exact ih hfirst

end Append

end FileStash.FileTree
