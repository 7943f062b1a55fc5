import FileStash.Proofs.FileTree.Straight

namespace FileStash.FileTree

variable {t t' t'' : FileTree} {p : Path}

/-- Directories have been made on a way, and nothing else has changed. -/
structure Grows (t t' : FileTree) (way : Location) : Prop where
  home : t'.home = t.home
  kept : ∀ loc, t'.get? loc = t.get? loc ∨
    (loc <+: way ∧ t.get? loc = none ∧ t'.get? loc = some .directory)

namespace Grows

variable {way : Location}

theorem refl (t : FileTree) (way : Location) : Grows t t way :=
  ⟨rfl, fun _ => .inl rfl⟩

theorem trans (h : Grows t t' way) (h' : Grows t' t'' way) :
    Grows t t'' way where
  home := h'.home.trans h.home
  kept loc := by
    rcases h.kept loc with hsame | ⟨hway, hnone, hdir⟩
    · rcases h'.kept loc with hsame' | ⟨hway, hnone, hdir⟩
      · exact .inl (hsame'.trans hsame)
      · exact .inr ⟨hway, hsame ▸ hnone, hdir⟩
    · rcases h'.kept loc with hsame' | ⟨-, hnone', -⟩
      · exact .inr ⟨hway, hnone, hsame'.trans hdir⟩
      · rw [hdir] at hnone'
        cases hnone'

theorem mono {way' : Location} (h : Grows t t' way) (hway : way <+: way') :
    Grows t t' way' where
  home := h.home
  kept loc := by
    rcases h.kept loc with hsame | ⟨hpre, hnone, hdir⟩
    · exact .inl hsame
    · exact .inr ⟨hpre.trans hway, hnone, hdir⟩

theorem put (hway : way ≠ []) (h : t.get? way = none) :
    Grows t (t.put way .directory) way where
  home := rfl
  kept loc := by
    by_cases hloc : loc = way
    · subst hloc
      exact .inr ⟨List.prefix_rfl, h, get?_put_self t _ hway⟩
    · exact .inl (get?_put_of_ne t _ hloc)

theorem link? (h : Grows t t' way) (loc : Location) :
    t.link? loc = t'.link? loc := by
  rcases h.kept loc with hsame | ⟨-, hnone, hdir⟩
  · simp only [FileTree.link?, hsame]
  · simp only [FileTree.link?, hnone, hdir]

end Grows

theorem ne_nil_of_get?_none {loc : Location} (h : t.get? loc = none) :
    loc ≠ [] := by
  rintro rfl
  cases h

theorem of_makeDirectory (habs : p.isAbsolute = true)
    (hstraight : t.Straight p.parts) (h : t.makeDirectory p = .ok t') :
    t.get? p.parts = none ∧ t' = t.put p.parts .directory := by
  unfold makeDirectory at h
  cases hplace : t.resolving false p with
  | error f => simp [hplace, bind, Except.bind] at h
  | ok place =>
      obtain ⟨hloc, hholds⟩ :=
        (resolving_of_straight false habs hstraight).1 place hplace
      cases place with
      | found loc n => simp [hplace, bind, Except.bind, failing] at h
      | vacant loc =>
          simp only [hplace, bind, Except.bind, Except.ok.injEq] at h
          simp only [Place.loc] at hloc
          subst hloc
          exact ⟨hholds, h.symm⟩

theorem grows_ensureDirectory (habs : p.isAbsolute = true)
    (hstraight : t.Straight p.parts) {above : Failure → Change}
    (habove : ∀ f, Grows t (above f).2 p.parts) :
    Grows t (t.ensureDirectory p above).2 p.parts := by
  unfold ensureDirectory
  cases hmake : t.makeDirectory p with
  | ok t' =>
      obtain ⟨hnone, rfl⟩ := of_makeDirectory habs hstraight hmake
      exact .put (ne_nil_of_get?_none hnone) hnone
  | error f =>
      dsimp only
      split
      · exact habove _
      · unfold unlessDirectory
        split
        · split <;> exact .refl t _
        · exact .refl t _

theorem grows_makeDirectoriesUpTo (n : Nat) (habs : p.isAbsolute = true)
    (hstraight : t.Straight p.parts) :
    Grows t (t.makeDirectoriesUpTo p n).2 p.parts := by
  induction n generalizing p with
  | zero => exact grows_ensureDirectory habs hstraight fun _ => .refl t _
  | succ n ih =>
      refine grows_ensureDirectory habs hstraight fun _ => ?_
      have hparent : Grows t (t.makeDirectoriesUpTo p.parent n).2 p.parts :=
        (ih (p := p.parent) habs hstraight.dropLast).mono (List.dropLast_prefix _)
      rcases hmake : t.makeDirectoriesUpTo p.parent n with ⟨f | u, t'⟩
      · rw [hmake] at hparent
        exact hparent
      · rw [hmake] at hparent
        refine hparent.trans (grows_ensureDirectory habs ?_ fun _ => .refl t' _)
        exact hstraight.congr hparent.link?

theorem of_write {content : List UInt8} (habs : p.isAbsolute = true)
    (hstraight : t.Straight p.parts) (h : t.write p content = .ok t') :
    p.parts ≠ [] ∧ t' = t.put p.parts (.file content t.clock) := by
  unfold write openPlace at h
  cases hplace : t.resolving true p with
  | error f => simp [hplace, bind, Except.bind] at h
  | ok place =>
      obtain ⟨hloc, hholds⟩ :=
        (resolving_of_straight true habs hstraight).1 place hplace
      cases place with
      | vacant loc =>
          simp only [hplace, bind, Except.bind, Except.ok.injEq] at h
          simp only [Place.loc] at hloc
          subst hloc
          exact ⟨ne_nil_of_get?_none hholds, h.symm⟩
      | found loc n =>
          simp only [Place.loc] at hloc
          subst hloc
          cases n with
          | file old modified =>
              simp only [hplace, bind, Except.bind, Except.ok.injEq] at h
              refine ⟨fun hroot => ?_, h.symm⟩
              rw [hroot] at hholds
              cases hholds
          | directory => simp [hplace, bind, Except.bind, failing] at h
          | link target => simp [hplace, bind, Except.bind, failing] at h

/-! Where nothing stands in the way. -/

theorem prefix_or_prefix_dropLast {above way : Location} (h : above <+: way) :
    above = way ∨ above <+: way.dropLast := by
  rcases List.eq_nil_or_concat way with rfl | ⟨dir, c, rfl⟩
  · exact .inl (List.prefix_nil.mp h)
  · rw [List.concat_eq_append] at h ⊢
    rw [List.dropLast_concat]
    exact List.prefix_concat_iff.mp h

theorem descend_legal (follow : Bool) (expand : Location → List String → LookUp)
    {dir rest : Location} {c : String} (hc : LegalName c)
    (hdir : t.get? dir = some .directory) (hlink : t.link? (dir ++ [c]) = none) :
    descend t follow expand dir (c :: rest) =
      match t.get? (dir ++ [c]) with
      | none => if rest = [] then .ok (.vacant (dir ++ [c])) else .error .noEntry
      | some _ => descend t follow expand (dir ++ [c]) rest := by
  obtain ⟨hempty, hdot, hup⟩ := hc.plain
  conv => lhs; unfold descend
  rw [if_neg (by simp [hdir]), if_neg (by simp [hempty, hdot]), if_neg hup,
    if_neg (Nat.not_lt.mpr hc.short)]
  cases hget : t.get? (dir ++ [c]) with
  | none => rfl
  | some n =>
      cases n with
      | link target => simp [FileTree.link?, hget] at hlink
      | file content modified => rfl
      | directory => rfl

theorem descend_directories (follow : Bool)
    (expand : Location → List String → LookUp) {loc dirs rest : Location}
    (hlegal : ∀ c ∈ dirs, LegalName c)
    (hdirs : ∀ above, above <+: dirs → t.get? (loc ++ above) = some .directory) :
    descend t follow expand loc (dirs ++ rest) =
      descend t follow expand (loc ++ dirs) rest := by
  induction dirs generalizing loc with
  | nil => simp
  | cons c dirs ih =>
      have hc := hlegal c (List.mem_cons_self ..)
      have hhere : t.get? loc = some .directory := by
        simpa using hdirs [] (List.nil_prefix)
      have hnext : t.get? (loc ++ [c]) = some .directory := hdirs [c] (by simp)
      have hlink : t.link? (loc ++ [c]) = none := link?_eq_none_of_get? (by simp [hnext])
      have hrest : ∀ above, above <+: dirs →
          t.get? (loc ++ [c] ++ above) = some .directory := by
        intro above habove
        have hcons := hdirs (c :: above) ((List.prefix_cons_inj c).mpr habove)
        simpa using hcons
      have hsplit : loc ++ c :: dirs = loc ++ [c] ++ dirs := by simp
      rw [List.cons_append, descend_legal follow expand hc hhere hlink, hnext, hsplit]
      exact ih (fun c' hc' => hlegal c' (List.mem_cons_of_mem c hc')) hrest

theorem descend_child (follow : Bool) (expand : Location → List String → LookUp)
    {dir : Location} {c : String} (hc : LegalName c)
    (hdir : t.get? dir = some .directory) (hlink : t.link? (dir ++ [c]) = none) :
    descend t follow expand dir [c] =
      .ok (match t.get? (dir ++ [c]) with
        | none => .vacant (dir ++ [c])
        | some n => .found (dir ++ [c]) n) := by
  rw [descend_legal follow expand hc hdir hlink]
  cases hget : t.get? (dir ++ [c]) with
  | none => rfl
  | some n => exact descend_nil t follow expand hget

theorem descend_missing (follow : Bool)
    (expand : Location → List String → LookUp) {loc way : Location}
    (hlegal : ∀ c ∈ way, LegalName c) (hhere : t.get? loc = some .directory)
    (hway : ∀ above, above <+: way → t.get? (loc ++ above) = some .directory ∨
      t.get? (loc ++ above) = none)
    (hmissing : t.get? (loc ++ way.dropLast) = none) :
    descend t follow expand loc way = .error .noEntry := by
  induction way generalizing loc with
  | nil =>
      rw [List.dropLast_nil, List.append_nil, hhere] at hmissing
      cases hmissing
  | cons c way ih =>
      have hc := hlegal c (List.mem_cons_self ..)
      have hmore : way ≠ [] := by
        rintro rfl
        simp [hhere] at hmissing
      have hnext := hway [c] (by simp)
      have hlink : t.link? (loc ++ [c]) = none := by
        rcases hnext with hdir | hnone <;> exact link?_eq_none_of_get? (by simp [*])
      rw [descend_legal follow expand hc hhere hlink]
      rcases hnext with hdir | hnone
      · rw [hdir]
        refine ih (fun c' hc' => hlegal c' (List.mem_cons_of_mem c hc')) hdir ?_ ?_
        · intro above habove
          have hcons := hway (c :: above) ((List.prefix_cons_inj c).mpr habove)
          simpa using hcons
        · simpa [List.dropLast_cons_of_ne_nil hmore] using hmissing
      · rw [hnone]
        exact if_neg hmore

theorem hasNul_of_legal (h : ∀ c ∈ p.parts, LegalName c) :
    p.hasNul = false := by
  refine List.any_eq_false.mpr fun c hc => ?_
  have hnul := (h c hc).noNul
  simpa [FileTree.hasNul] using hnul

theorem size_append (a b : String) :
    Text.Utf8.size (a ++ b) = Text.Utf8.size a + Text.Utf8.size b := by
  simp [Text.Utf8.size, Text.Utf8.encode, Text.Utf8.encodeChars]

theorem size_child (habs : p.isAbsolute = true) (c : String) :
    Text.Utf8.size (p.child c).text =
      Text.Utf8.size p.text + (if p.parts = [] then 0 else 1) + Text.Utf8.size c := by
  have hroot : p.root ≠ .relative := by simpa [Path.isAbsolute] using habs
  have hslash : Text.Utf8.size "/" = 1 := rfl
  have hempty : Text.Utf8.size "" = 0 := rfl
  simp only [Path.child, Path.text, hroot, false_and, if_false, size_append]
  split
  · rename_i hparts
    simp only [hparts, List.nil_append, String.intercalate_nil,
      String.intercalate_singleton, hempty]
    omega
  · rename_i hparts
    rw [String.intercalate_append_of_ne_nil hparts (by simp), size_append, size_append,
      hslash, String.intercalate_singleton]
    omega

structure Takes (p : Path) : Prop where
  absolute : p.isAbsolute = true
  legal : ∀ c ∈ p.parts, LegalName c
  short : Text.Utf8.size p.text ≤ maxPath

namespace Takes

theorem parent (h : Takes p) : Takes p.parent where
  absolute := h.absolute
  legal c hc := h.legal c ((List.dropLast_prefix _).subset hc)
  short := by
    refine Nat.le_trans ?_ h.short
    have habs := h.absolute
    obtain ⟨root, parts⟩ := p
    rcases List.eq_nil_or_concat parts with rfl | ⟨dir, c, rfl⟩
    · exact Nat.le_refl _
    · have hsize := size_child (p := ⟨root, dir⟩) habs c
      simp only [Path.child] at hsize
      simp only [Path.parent, List.concat_eq_append, List.dropLast_concat, hsize]
      omega

theorem hasNul (h : Takes p) : p.hasNul = false :=
  hasNul_of_legal h.legal

theorem resolving (h : Takes p) (t : FileTree) (follow : Bool) :
    t.resolving follow p =
      (descend t follow (walk t follow (maxLinks - 1)) [] p.parts).mapError
        fun code => .system code p.text := by
  simp only [FileTree.resolving, lookUp, h.hasNul, h.absolute, if_true,
    Bool.false_eq_true, if_false, Nat.not_lt.mpr h.short]
  rfl

theorem resolving_inside (h : Takes p) (follow : Bool)
    (hdirs : ∀ above, above <+: p.parts.dropLast → t.get? above = some .directory)
    (hlink : t.link? p.parts = none) :
    t.resolving follow p =
      .ok (match t.get? p.parts with
        | none => .vacant p.parts
        | some n => .found p.parts n) := by
  rw [h.resolving t follow]
  have hlegal := h.legal
  generalize p.parts = parts at hdirs hlink hlegal ⊢
  rcases List.eq_nil_or_concat parts with rfl | ⟨dir, c, rfl⟩
  · simp [descend, get?_root, mapError_ok]
  · rw [List.concat_eq_append] at hdirs hlink hlegal ⊢
    rw [List.dropLast_concat] at hdirs
    have hlegal' : ∀ c' ∈ dir, LegalName c' := fun c' hc' => hlegal c' (by simp [hc'])
    rw [descend_directories follow _ hlegal' (by simpa using hdirs), List.nil_append,
      descend_child follow _ (hlegal c (by simp)) (hdirs dir List.prefix_rfl) hlink]
    rfl

theorem resolving_missing (h : Takes p) (follow : Bool)
    (hway : ∀ above, above <+: p.parts → t.get? above = some .directory ∨
    t.get? above = none)
    (hmissing : t.get? p.parts.dropLast = none) :
    t.resolving follow p = .error (.system .noEntry p.text) := by
  rw [h.resolving t follow,
    descend_missing follow _ h.legal (get?_root t) (by simpa using hway)
    (by simpa using hmissing)]
  rfl

theorem ensureDirectory_inside (h : Takes p)
    (hdirs : ∀ above, above <+: p.parts.dropLast → t.get? above = some .directory)
    (hend : t.get? p.parts = some .directory ∨ t.get? p.parts = none)
    (above : Failure → Change) :
    (t.ensureDirectory p above).1 = .ok () ∧
      (t.ensureDirectory p above).2.get? p.parts = some .directory := by
  have hlink : t.link? p.parts = none := by
    rcases hend with hdir | hnone <;> exact link?_eq_none_of_get? (by simp [*])
  have hinside : ∀ follow, t.resolving follow p = _ := fun follow =>
    h.resolving_inside follow hdirs hlink
  unfold ensureDirectory makeDirectory
  rcases hend with hdir | hnone
  · have hask : t.isDirectory p = .ok true := by
      simp [isDirectory, asks, stat, hinside, hdir, bind, Except.bind]
    simp [hinside, hdir, bind, Except.bind, failing, unlessDirectory,
      Failure.isSystem, hask]
  · simp only [hinside, hnone, bind, Except.bind]
    exact ⟨trivial, get?_put_self t _ (ne_nil_of_get?_none hnone)⟩

theorem straight (h : Takes p)
    (hway : ∀ above, above <+: p.parts → t.get? above = some .directory ∨
    t.get? above = none) :
    t.Straight p.parts where
  plain c hc := (h.legal c hc).plain
  clear above habove := by
    rcases hway above habove with hdir | hnone <;>
      exact link?_eq_none_of_get? (by simp [*])

theorem directories_inside (h : Takes p)
    (hway : ∀ above, above <+: p.parts → t.get? above = some .directory ∨
    t.get? above = none)
    (hdirs : ∀ above, above <+: p.parts.dropLast → t.get? above = some .directory)
    {above : Failure → Change}
    (hgrows : Grows t (t.ensureDirectory p above).2 p.parts) :
    (t.ensureDirectory p above).1 = .ok () ∧
      ∀ loc, loc <+: p.parts →
        (t.ensureDirectory p above).2.get? loc = some .directory := by
  obtain ⟨hok, hend⟩ :=
    h.ensureDirectory_inside hdirs (hway p.parts List.prefix_rfl) above
  refine ⟨hok, fun loc hloc => ?_⟩
  rcases prefix_or_prefix_dropLast hloc with rfl | hloc'
  · exact hend
  · rcases hgrows.kept loc with hsame | ⟨-, -, hdir⟩
    · rw [hsame]
      exact hdirs loc hloc'
    · exact hdir

theorem makeDirectoriesUpTo_done {n : Nat} (h : Takes p)
    (hlength : p.parts.length ≤ n) (hwell : t.WellFormed)
    (hway : ∀ above, above <+: p.parts → t.get? above = some .directory ∨
      t.get? above = none) :
    (t.makeDirectoriesUpTo p n).1 = .ok () ∧
      ∀ loc, loc <+: p.parts →
        (t.makeDirectoriesUpTo p n).2.get? loc = some .directory := by
  induction n generalizing p with
  | zero =>
      have hroot : p.parts = [] := List.length_eq_zero_iff.mp (Nat.le_zero.mp hlength)
      refine h.directories_inside hway (fun above habove => ?_)
        (grows_makeDirectoriesUpTo 0 h.absolute (h.straight hway))
      rw [hroot, List.dropLast_nil, List.prefix_nil] at habove
      rw [habove]
      rfl
  | succ n ih =>
      have hstraight := h.straight hway
      rcases hway p.parts.dropLast (List.dropLast_prefix _) with hdir | hmissing
      · exact h.directories_inside hway
          (fun above habove => hwell.directory_of_prefix hdir habove)
          (grows_makeDirectoriesUpTo (n + 1) h.absolute hstraight)
      · -- Those above are made first, and then this one in what they have become.
        have hmake : t.makeDirectory p = .error (.system .noEntry p.text) := by
          simp [makeDirectory, h.resolving_missing false hway hmissing,
            bind, Except.bind]
        have hparent := ih h.parent (by simp [Path.parent]; omega) fun above habove =>
          hway above (habove.trans (List.dropLast_prefix _))
        have hgrown :=
          grows_makeDirectoriesUpTo (p := p.parent) n h.absolute hstraight.dropLast
        simp only [makeDirectoriesUpTo]
        rcases hrun : t.makeDirectoriesUpTo p.parent n with ⟨f | u, t'⟩
        · rw [hrun] at hparent
          cases hparent.1
        · rw [hrun] at hparent hgrown
          simp only [ensureDirectory, hmake]
          refine h.directories_inside (fun above habove => ?_) hparent.2
            (grows_ensureDirectory h.absolute (hstraight.congr hgrown.link?) fun _ => .refl t' _)
          rcases hgrown.kept above with hsame | ⟨-, -, hdir⟩
          · rw [hsame]
            exact hway above habove
          · exact .inl hdir

theorem write_inside (h : Takes p) (content : List UInt8)
    (hdirs : ∀ above, above <+: p.parts.dropLast → t.get? above = some .directory)
    (hend : t.get? p.parts = none ∨ ∃ old modified, t.get? p.parts =
      some (.file old modified)) :
    t.write p content = .ok (t.put p.parts (.file content t.clock)) := by
  have hlink : t.link? p.parts = none := by
    rcases hend with hnone | ⟨old, modified, hfile⟩ <;>
      exact link?_eq_none_of_get? (by simp [*])
  unfold write openPlace
  rcases hend with hnone | ⟨old, modified, hfile⟩
  · simp [h.resolving_inside true hdirs hlink, hnone, bind, Except.bind]
  · simp [h.resolving_inside true hdirs hlink, hfile, bind, Except.bind]

theorem read_inside (h : Takes p) {content : List UInt8} {modified : Int}
    (hdirs : ∀ above, above <+: p.parts.dropLast → t.get? above = some .directory)
    (hend : t.get? p.parts = some (.file content modified)) :
    t.read p = .ok content := by
  have hlink : t.link? p.parts = none := link?_eq_none_of_get? (by simp [hend])
  simp [read, stat, h.resolving_inside true hdirs hlink, hend, bind, Except.bind]

end Takes

end FileStash.FileTree
