import FileStash.Proofs.FileTree.Failures

namespace FileStash

theorem Text.not_mem_of_splitOn {sep : Char} {cs part : List Char}
    (h : part ∈ Text.splitOn sep cs) : sep ∉ part := by
  induction cs generalizing part with
  | nil =>
      rw [List.mem_singleton.mp h]
      exact List.not_mem_nil
  | cons c cs ih =>
      unfold Text.splitOn at h
      split at h
      · rename_i hnil
        exact absurd hnil (Text.splitOn_ne_nil sep cs)
      · rename_i first parts hsplit
        rw [hsplit] at ih
        have hfirst : sep ∉ first := ih (List.mem_cons_self ..)
        split at h
        · rcases List.mem_cons.mp h with rfl | h
          · exact List.not_mem_nil
          · exact ih h
        · rename_i hc
          rcases List.mem_cons.mp h with rfl | h
          · simpa [hfirst] using Ne.symm hc
          · exact ih (List.mem_cons_of_mem first h)

theorem Text.splitOn_of_not_mem {sep : Char} {cs : List Char} (h : sep ∉ cs) :
    Text.splitOn sep cs = [cs] := by
  induction cs with
  | nil => rfl
  | cons c cs ih =>
      rw [List.mem_cons, not_or] at h
      simp [Text.splitOn, ih h.2, Ne.symm h.1]

namespace Path

variable {s c : String}

theorem of_mem_parts (h : c ∈ (ofText s).parts) : (c ≠ "" ∧ c ≠ ".") ∧ '/' ∉ c.toList := by
  obtain ⟨hpiece, hpart⟩ := List.mem_filter.mp h
  obtain ⟨part, hmem, rfl⟩ := List.mem_map.mp hpiece
  refine ⟨by simpa [isPart] using hpart, ?_⟩
  rw [String.toList_ofList]
  exact Text.not_mem_of_splitOn hmem

theorem name_eq_empty_iff (s : String) : (ofText s).name = "" ↔ (ofText s).parts = [] := by
  cases hlast : (ofText s).parts.getLast? with
  | none =>
      have hnil := List.getLast?_eq_none_iff.mp hlast
      simp [name, hnil]
  | some c =>
      obtain ⟨⟨hc, -⟩, -⟩ := of_mem_parts (List.mem_of_getLast? hlast)
      have hne : (ofText s).parts ≠ [] := by
        intro hnil
        simp [hnil] at hlast
      simp [name, hlast, hc, hne]

theorem name_ofText (s : String) :
    (ofText s).name ≠ "." ∧ '/' ∉ (ofText s).name.toList := by
  cases hlast : (ofText s).parts.getLast? with
  | none => simp [name, hlast]
  | some c =>
      obtain ⟨⟨-, hc⟩, hslash⟩ := of_mem_parts (List.mem_of_getLast? hlast)
      simp only [name, hlast, Option.getD_some]
      exact ⟨hc, hslash⟩

theorem ofText_of_part (hpart : s ≠ "" ∧ s ≠ ".") (hslash : '/' ∉ s.toList) :
    ofText s = ⟨.relative, [s]⟩ := by
  have hkept : isPart s = true := by simp [isPart, hpart]
  have hroot : rootOf s.toList = .relative := by
    cases hcs : s.toList with
    | nil => rfl
    | cons c cs =>
        rw [hcs] at hslash
        have hc : c ≠ '/' := fun hc => hslash (by simp [hc])
        unfold rootOf
        split <;> simp_all
  simp [ofText, hroot, pieces, Text.splitOn_of_not_mem hslash, hkept]

end Path

namespace FileTree

variable {t : FileTree} {follow : Bool} {place : Place} {loc : Location}

section DoubleDot

theorem directory_of_descend_up (h : t.WellFormed)
    {expand : Location → List String → LookUp}
    (hexpand : ∀ loc cs, expand loc (cs ++ [".."]) = .ok place →
      ∃ dir, place = .found dir .directory)
    {cs : List String} (hplace : descend t follow expand loc (cs ++ [".."]) = .ok place) :
    ∃ dir, place = .found dir .directory := by
  induction cs generalizing loc with
  | nil =>
      obtain ⟨hdir, hstep⟩ := first_step hplace
      cases hstep with
      | stay dot => exact absurd dot (by decide)
      | up _ _ rest =>
          rw [descend_nil t follow expand (h loc _ hdir)] at rest
          exact ⟨loc.dropLast, (Except.ok.inj rest).symm⟩
      | missing _ down | followed _ down | unfollowed _ down | down _ down => exact absurd rfl down
  | cons c cs ih =>
      have hmore : cs ++ [".."] ≠ [] := by simp
      rw [List.cons_append] at hplace
      obtain ⟨-, hstep⟩ := first_step hplace
      cases hstep with
      | stay _ rest | up _ _ rest | down _ _ _ _ _ rest => exact ih rest
      | missing _ _ _ _ last => exact absurd last hmore
      | unfollowed _ _ _ _ stops => exact absurd stops.1 hmore
      | followed _ _ _ _ _ rest =>
          rw [← List.append_assoc] at rest
          exact hexpand _ _ rest

theorem directory_of_walk_up (h : t.WellFormed) {links : Nat} {cs : List String}
    (hplace : walk t follow links loc (cs ++ [".."]) = .ok place) :
    ∃ dir, place = .found dir .directory := by
  induction links generalizing loc cs with
  | zero => exact directory_of_descend_up h (fun _ _ hexpand => by cases hexpand) hplace
  | succ links ih =>
      have hexpand : ∀ loc cs, walk t follow links loc (cs ++ [".."]) = .ok place →
          ∃ dir, place = .found dir .directory := fun _ _ hwalk => ih hwalk
      exact directory_of_descend_up h hexpand hplace

theorem Lawful.directory_of_walk_nil (h : t.Lawful) {links : Nat} {p : Path}
    (hplace : walk t follow links (t.startOfPath p) [] = .ok place) :
    ∃ dir, place = .found dir .directory := by
  have hstart : t.get? (t.startOfPath p) = some .directory := by
    unfold startOfPath
    split
    · rfl
    · exact h.home
  refine ⟨t.startOfPath p, ?_⟩
  cases links <;> exact (Except.ok.inj ((descend_nil t follow _ hstart).symm.trans hplace)).symm

theorem of_read {p : Path} {content : List UInt8} (h : t.read p = .ok content) :
    ∃ loc modified, t.resolving true p = .ok (.found loc (.file content modified)) := by
  unfold read stat at h
  cases hplace : t.resolving true p with
  | error f => simp [hplace, bind, Except.bind] at h
  | ok place =>
      cases place with
      | vacant loc => simp [hplace, bind, Except.bind, failing] at h
      | found loc n =>
          cases n with
          | file content' modified =>
              simp only [hplace, bind, Except.bind, Except.ok.injEq] at h
              subst h
              exact ⟨loc, modified, rfl⟩
          | directory | link => simp [hplace, bind, Except.bind, failing] at h

theorem Lawful.plainName_of_read (h : t.Lawful) {s : String} {content : List UInt8}
    (hread : t.read (Path.ofText s) = .ok content) : PlainName (Path.ofText s).name := by
  obtain ⟨loc, modified, hplace⟩ := of_read hread
  obtain ⟨-, hwalk⟩ := walk_of_resolving hplace
  refine ⟨fun hempty => ?_, (Path.name_ofText s).1, fun hup => ?_⟩
  · rw [(Path.name_eq_empty_iff s).mp hempty] at hwalk
    obtain ⟨dir, hdir⟩ := h.directory_of_walk_nil hwalk
    cases hdir
  · have hlast : (Path.ofText s).parts.getLast? = some ".." := by
      cases hlast : (Path.ofText s).parts.getLast? with
      | none => simp [Path.name, hlast] at hup
      | some c => simpa [Path.name, hlast] using hup
    obtain ⟨front, hfront⟩ := List.getLast?_eq_some_iff.mp hlast
    rw [hfront] at hwalk
    obtain ⟨dir, hdir⟩ := directory_of_walk_up h.wellFormed hwalk
    cases hdir

end DoubleDot

section Containment

variable {base : Path} {name : String}

theorem hasNul_child {p : Path} (hp : p.hasNul = false) (hname : hasNul name = false) :
    (p.child name).hasNul = false := by
  simp only [hasNul] at hname
  simp only [Path.hasNul] at hp
  simp only [Path.hasNul, Path.child, List.any_append, List.any_cons, List.any_nil, hp, hname,
    Bool.or_false]

theorem pathOf_join (hpart : name ≠ "" ∧ name ≠ ".") (hslash : '/' ∉ name.toList) :
    (pathOf loc).join (Path.ofText name) = pathOf (loc ++ [name]) := by
  rw [Path.ofText_of_part hpart hslash]
  rfl

theorem Tidy.resolve_of_straight (h : t.Tidy) (hnul : (pathOf loc).hasNul = false)
    (hstraight : t.Straight loc) : t.resolve (pathOf loc) = .ok (pathOf loc) :=
  h.resolve_of_resolves ⟨hnul, 0, pass_of_straight _ hstraight⟩ hnul

theorem Tidy.safePath_of_straight (h : t.Tidy) (hbase : t.resolve base = .ok (pathOf loc))
    (hslash : '/' ∉ name.toList) (hnul : hasNul name = false)
    (hstraight : t.Straight (loc ++ [name])) :
    t.safePath base (.text name) = .ok (pathOf (loc ++ [name])) := by
  obtain ⟨hempty, hdot, -⟩ := hstraight.plain name (by simp)
  have hplace : t.resolve (pathOf (loc ++ [name])) = .ok (pathOf (loc ++ [name])) :=
    h.resolve_of_straight (hasNul_child (hasNul_of_resolve hbase) hnul) hstraight
  have hbelow : (pathOf (loc ++ [name])).isBelowOrAt (pathOf loc) = true := by
    simp [Path.isBelowOrAt, pathOf]
  have hne : pathOf (loc ++ [name]) ≠ pathOf loc := by
    simp [pathOf]
  simp [safePath, hbase, Value.toPath, pathOf_join ⟨hempty, hdot⟩ hslash, hplace, hbelow, hne,
    bind, Except.bind]

theorem Tidy.safePath_up (h : t.Tidy) (hbase : t.resolve base = .ok (pathOf loc))
    (hstraight : t.Straight loc) :
    ∃ fault, t.safePath base (.text "..") = .error (.illFormed fault) := by
  have hnul : (pathOf loc).hasNul = false := hasNul_of_resolve hbase
  have habove : (pathOf loc.dropLast).hasNul = false :=
    hasNul_parent (p := pathOf loc) hnul
  have hself : pass t (leads t 0) [] loc = some loc := pass_of_straight _ hstraight
  have hleads : pass t (leads t 0) [] (loc ++ [".."]) = some loc.dropLast := by
    rw [pass_append, hself]
    rfl
  have hplace : t.resolve (pathOf (loc ++ [".."])) = .ok (pathOf loc.dropLast) :=
    h.resolve_of_resolves ⟨hasNul_child hnul rfl, 0, hleads⟩ habove
  have hjoin : (pathOf loc).join (Path.ofText "..") = pathOf (loc ++ [".."]) :=
    pathOf_join (by decide) (by decide)
  simp only [safePath, hbase, Value.toPath, hjoin, hplace, bind, Except.bind]
  split
  · exact ⟨_, rfl⟩
  · rename_i hinside
    have hprefix : loc <+: loc.dropLast := by
      simpa [Path.isBelowOrAt, pathOf] using hinside
    have hsame : loc.dropLast = loc := ((List.dropLast_prefix loc).eq_of_length_le
      hprefix.length_le)
    rw [if_pos (by rw [hsame])]
    exact ⟨_, rfl⟩

end Containment

end FileTree

end FileStash
