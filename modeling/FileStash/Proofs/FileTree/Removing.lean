import FileStash.Proofs.FileTree.Opening

namespace FileStash.FileTree

variable {t t' t'' : FileTree} {p : Path} {name : String} {place : Place}

/-- A look-up that does not follow a last link comes to a directory first, the one that
the rest of the path leads to. -/
theorem descend_front {expand expand' : Location → List String → LookUp}
    (hname : PlainName name)
    (hexpand : ∀ loc cs, expand loc (cs ++ [name]) = .ok place →
      ∃ dir, expand' loc cs = .ok (.found dir .directory) ∧ place.loc = dir ++ [name])
    {loc : Location} {cs : List String}
    (h : descend t false expand loc (cs ++ [name]) = .ok place) :
    ∃ dir, descend t true expand' loc cs = .ok (.found dir .directory) ∧
      place.loc = dir ++ [name] := by
  induction cs generalizing loc with
  | nil =>
      obtain ⟨hdir, hstep⟩ := first_step h
      refine ⟨loc, descend_nil t true expand' hdir, ?_⟩
      cases hstep with
      | stay dot => exact absurd dot (by simp [hname.1, hname.2.1])
      | up _ up => exact absurd up hname.2.2
      | missing _ _ _ _ _ ends | unfollowed _ _ _ _ _ ends => rw [ends, Place.loc]
      | followed _ _ _ _ follows => exact absurd ⟨rfl, rfl⟩ follows
      | down _ _ _ there _ rest =>
          rw [descend_nil t false expand there] at rest
          rw [← Except.ok.inj rest, Place.loc]
  | cons c cs ih =>
      have hmore : cs ++ [name] ≠ [] := by simp
      rw [List.cons_append] at h
      obtain ⟨hdir, hstep⟩ := first_step h
      cases hstep with
      | stay dot rest =>
          obtain ⟨dir, hrest, hloc⟩ := ih rest
          exact ⟨dir, FirstStep.descend hdir (.stay dot hrest), hloc⟩
      | up named up rest =>
          obtain ⟨dir, hrest, hloc⟩ := ih rest
          exact ⟨dir, FirstStep.descend hdir (.up named up hrest), hloc⟩
      | missing _ _ _ _ last => exact absurd last hmore
      | unfollowed _ _ _ _ stops => exact absurd stops.1 hmore
      | followed named down short there _ rest =>
          rw [← List.append_assoc] at rest
          obtain ⟨dir, hrest, hloc⟩ := hexpand _ _ rest
          exact ⟨dir, FirstStep.descend hdir
            (.followed named down short there (by simp) hrest), hloc⟩
      | down named down short there noLink rest =>
          obtain ⟨dir, hrest, hloc⟩ := ih rest
          exact ⟨dir, FirstStep.descend hdir (.down named down short there noLink hrest), hloc⟩

theorem walk_front (hname : PlainName name) {links : Nat} {loc : Location}
    {cs : List String} (h : walk t false links loc (cs ++ [name]) = .ok place) :
    ∃ dir, walk t true links loc cs = .ok (.found dir .directory) ∧
      place.loc = dir ++ [name] := by
  induction links generalizing loc cs with
  | zero => exact descend_front hname (fun _ _ hexpand => by cases hexpand) h
  | succ links ih =>
      have hexpand : ∀ loc cs, walk t false links loc (cs ++ [name]) = .ok place →
          ∃ dir, walk t true links loc cs = .ok (.found dir .directory) ∧
            place.loc = dir ++ [name] := fun _ _ hwalk => ih hwalk
      exact descend_front hname hexpand h

theorem of_resolving_child (hname : PlainName name)
    (h : t.resolving false (p.child name) = .ok place) :
    ∃ dir, t.Resolves p dir ∧ t.get? dir = some .directory ∧ place.loc = dir ++ [name] := by
  obtain ⟨hnul, hwalk⟩ := walk_of_resolving h
  have hnul' : p.hasNul = false := by
    simp only [Path.hasNul, Path.child, List.any_append, Bool.or_eq_false_iff] at hnul
    exact hnul.1
  obtain ⟨dir, hfront, hplace⟩ := walk_front hname hwalk
  obtain ⟨hpass, hdir⟩ := pass_of_walk hfront
  exact ⟨dir, ⟨hnul', _, hpass⟩, hdir, hplace⟩

/-- What is removed under a name, and is no link, is a file of the directory that the
path leads to. -/
theorem of_unlink_child (hname : PlainName name) (hlink : t.isLink (p.child name) = .ok false)
    (h : t.unlink (p.child name) = .ok t') :
    ∃ dir, t.Resolves p dir ∧ t.get? dir = some .directory ∧
      (∃ content modified, t.get? (dir ++ [name]) = some (.file content modified)) ∧
      t' = t.remove (dir ++ [name]) := by
  unfold unlink at h
  unfold isLink at hlink
  cases hplace : t.resolving false (p.child name) with
  | error f => simp [hplace, bind, Except.bind] at h
  | ok place =>
      obtain ⟨dir, hp, hdir, hloc⟩ := of_resolving_child hname hplace
      cases place with
      | vacant loc => simp [hplace, bind, Except.bind, failing] at h
      | found loc n =>
          obtain rfl : loc = dir ++ [name] := hloc
          cases n with
          | directory => simp [hplace, bind, Except.bind, failing] at h
          | link target => simp [hplace] at hlink
          | file content modified =>
              simp only [hplace, bind, Except.bind, Except.ok.injEq] at h
              have hfollow := resolving_follow (fun _ _ h => by cases h) hplace
              exact ⟨dir, hp, hdir, ⟨content, modified, (resolves_of_resolving hfollow).2⟩, h.symm⟩

/-- The name of a place in a directory, none for what lies elsewhere. -/
def nameIn (dir loc : Location) : Option String :=
  match loc.getLast? with
  | some name => if loc.dropLast = dir then some name else none
  | none => none

theorem nameIn_eq_some_iff {dir loc : Location} :
    nameIn dir loc = some name ↔ loc = dir ++ [name] := by
  unfold nameIn
  constructor
  · intro h
    cases hlast : loc.getLast? with
    | none => simp [hlast] at h
    | some c =>
        simp only [hlast, Option.ite_none_right_eq_some, Option.some.injEq] at h
        obtain ⟨hdir, rfl⟩ := h
        obtain ⟨front, hfront⟩ := List.getLast?_eq_some_iff.mp hlast
        rw [← hdir, hfront, List.dropLast_concat]
  · rintro rfl
    simp

theorem names_eq (t : FileTree) (dir : Location) :
    t.names dir = (Dict.keys t.nodes).filterMap (nameIn dir) := by
  rw [names, Dict.keys, List.filterMap_map]
  rfl

theorem mem_names_iff {dir : Location} :
    name ∈ t.names dir ↔ (t.get? (dir ++ [name])).isSome := by
  have hne : dir ++ [name] ≠ [] := by simp
  rw [names_eq, List.mem_filterMap, get?, if_neg hne]
  constructor
  · rintro ⟨loc, hloc, hname⟩
    obtain ⟨e, he, rfl⟩ := List.mem_map.mp hloc
    rw [← nameIn_eq_some_iff.mp hname]
    exact Dict.isSome_get?_of_mem he
  · intro h
    obtain ⟨n, hn⟩ := Option.isSome_iff_exists.mp h
    exact ⟨_, List.mem_map_of_mem (Dict.mem_of_get? hn), nameIn_eq_some_iff.mpr rfl⟩

/-- Text has been put behind what files held at the `files`, and files at places that
satisfy `gone` have been removed; nothing else has changed. -/
structure Trims (t t' : FileTree) (gone files : Location → Prop) : Prop where
  home : t'.home = t.home
  kept : ∀ loc, t'.get? loc = t.get? loc ∨
    (files loc ∧ ∃ content modified more later,
      t.get? loc = some (.file content modified) ∧
        t'.get? loc = some (.file (content ++ more) later)) ∨
    (gone loc ∧ (∃ content modified, t.get? loc = some (.file content modified)) ∧
      t'.get? loc = none)

namespace Trims

variable {gone files : Location → Prop}

theorem of_extends (h : Extends t t' files) : Trims t t' gone files where
  home := h.home
  kept loc := (h.kept loc).imp id .inl

theorem refl (t : FileTree) (gone files : Location → Prop) : Trims t t gone files :=
  ⟨rfl, fun _ => .inl rfl⟩

theorem of_remove {loc : Location} (hgone : gone loc)
    (hfile : ∃ content modified, t.get? loc = some (.file content modified)) :
    Trims t (t.remove loc) gone files where
  home := rfl
  kept other := by
    by_cases hloc : other = loc
    · subst hloc
      obtain ⟨content, modified, hget⟩ := hfile
      exact .inr (.inr ⟨hgone, ⟨content, modified, hget⟩,
        get?_remove_self t (ne_nil_of_file hget)⟩)
    · exact .inl (get?_remove_of_ne t hloc)

theorem trans (h : Trims t t' gone files) (h' : Trims t' t'' gone files) :
    Trims t t'' gone files where
  home := h'.home.trans h.home
  kept loc := by
    rcases h.kept loc with hsame | ⟨hfile, content, modified, first, _, hold, hmiddle⟩ |
      ⟨hgone, hold, hmiddle⟩
    · rw [← hsame]
      exact h'.kept loc
    · rcases h'.kept loc with hsame | ⟨-, _, _, second, later, hmiddle', hnew⟩ | ⟨hgone, -, hnew⟩
      · exact .inr (.inl ⟨hfile, content, modified, first, _, hold, hsame.trans hmiddle⟩)
      · rw [hmiddle] at hmiddle'
        cases hmiddle'
        rw [List.append_assoc] at hnew
        exact .inr (.inl ⟨hfile, content, modified, first ++ second, later, hold, hnew⟩)
      · exact .inr (.inr ⟨hgone, ⟨content, modified, hold⟩, hnew⟩)
    · have hnone : t''.get? loc = none := by
        rcases h'.kept loc with hsame | ⟨-, _, _, _, _, hmiddle', -⟩ | ⟨-, -, hnew⟩
        · exact hsame.trans hmiddle
        · rw [hmiddle] at hmiddle'
          cases hmiddle'
        · exact hnew
      exact .inr (.inr ⟨hgone, hold, hnone⟩)

theorem link? (h : Trims t t' gone files) (loc : Location) : t.link? loc = t'.link? loc := by
  rcases h.kept loc with hsame | ⟨-, _, _, _, _, hold, hnew⟩ | ⟨-, ⟨_, _, hold⟩, hnew⟩
  · simp only [FileTree.link?, hsame]
  · simp only [FileTree.link?, hold, hnew]
  · simp only [FileTree.link?, hold, hnew]

theorem resolves_before (h : Trims t t' gone files) {loc : Location} (hp : t'.Resolves p loc) :
    t.Resolves p loc :=
  hp.congr (fun loc => (h.link? loc).symm) h.home.symm

theorem directory_before (h : Trims t t' gone files) {loc : Location}
    (hget : t'.get? loc = some .directory) : t.get? loc = some .directory := by
  rcases h.kept loc with hsame | ⟨-, _, _, _, _, -, hnew⟩ | ⟨-, -, hnew⟩
  · rw [← hsame, hget]
  · rw [hnew] at hget
    cases hget
  · rw [hnew] at hget
    cases hget

theorem isSome_before (h : Trims t t' gone files) {loc : Location}
    (hget : (t'.get? loc).isSome) : (t.get? loc).isSome := by
  rcases h.kept loc with hsame | ⟨-, _, _, _, _, hold, -⟩ | ⟨-, -, hnew⟩
  · rwa [← hsame]
  · rw [hold]
    rfl
  · rw [hnew] at hget
    cases hget

end Trims

end FileStash.FileTree
