import FileStash.Proofs.FileTree.Destination

namespace FileStash.FileTree

variable {t t' : FileTree} {p : Path} {place : Place} {n : Node}

/-- Whether a file can be put at a place: nothing or a file is there. -/
def TakesFile (t : FileTree) (loc : Location) : Prop :=
  t.get? loc = none ∨ ∃ content modified, t.get? loc = some (.file content modified)

theorem TakesFile.ne_nil {loc : Location} (h : t.TakesFile loc) : loc ≠ [] := by
  rintro rfl
  rcases h with hnone | ⟨content, modified, hfile⟩
  · cases hnone
  · cases hfile

theorem TakesFile.get?_put {loc loc' : Location} (h : t.TakesFile loc') {node : Node}
    (hget : t.get? loc = some node) (hnode : ∀ content modified, node ≠ .file content modified) :
    (t.put loc' n).get? loc = some node := by
  have hne : loc ≠ loc' := by
    rintro rfl
    rcases h with hnone | ⟨content, modified, hfile⟩
    · cases hget.symm.trans hnone
    · exact hnode content modified (Option.some.inj (hget.symm.trans hfile))
  rw [get?_put_of_ne t n hne, hget]

theorem TakesFile.get?_put_directory {loc loc' : Location} (h : t.TakesFile loc')
    (hget : t.get? loc = some .directory) : (t.put loc' n).get? loc = some .directory :=
  h.get?_put hget nofun

theorem TakesFile.get?_put_link {loc loc' : Location} (h : t.TakesFile loc') {target : String}
    (hget : t.get? loc = some (.link target)) :
    (t.put loc' n).get? loc = some (.link target) :=
  h.get?_put hget nofun

section Put

variable (hn : ∀ target, n ≠ .link target) (hplace : t.TakesFile place.loc)

include hn hplace

/-- A look-up that ends where a file can be put finds there what has been put. -/
theorem descend_put {expand expand' : Location → List String → LookUp}
    (hexpand : ∀ loc cs, expand loc cs = .ok place →
      expand' loc cs = .ok (.found place.loc n))
    {loc : Location} {cs : List String} (h : descend t true expand loc cs = .ok place) :
    descend (t.put place.loc n) true expand' loc cs = .ok (.found place.loc n) := by
  have hend : (t.put place.loc n).get? place.loc = some n := get?_put_self t n hplace.ne_nil
  induction cs generalizing loc with
  | nil =>
      obtain ⟨node, -, rfl⟩ := of_descend_nil h
      exact descend_nil _ true expand' hend
  | cons c cs ih =>
      obtain ⟨hdir, hstep⟩ := first_step h
      have hhere := hplace.get?_put_directory (n := n) hdir
      apply FirstStep.descend hhere
      cases hstep with
      | stay dot rest => exact .stay dot (ih rest)
      | up named up rest => exact .up named up (ih rest)
      | missing named down short _ last ends =>
          subst last
          have hloc : place.loc = loc ++ [c] := by rw [ends, Place.loc]
          rw [hloc] at hend ⊢
          exact .down named down short hend hn (descend_nil _ true expand' hend)
      | followed named down short there follows rest =>
          have hlink := hplace.get?_put_link (n := n) there
          exact .followed named down short hlink follows (hexpand _ _ rest)
      | unfollowed _ _ _ _ stops => simp at stops
      | @down node named down short there noLink rest =>
          rcases Decidable.em (place.loc = loc ++ [c]) with hloc | hloc
          · exact .down named down short (hloc ▸ hend) hn (ih rest)
          · have hnext : (t.put place.loc n).get? (loc ++ [c]) = some node := by
              rw [get?_put_of_ne t n (Ne.symm hloc), there]
            exact .down named down short hnext noLink (ih rest)

theorem walk_put {links : Nat} {loc : Location} {cs : List String}
    (h : walk t true links loc cs = .ok place) :
    walk (t.put place.loc n) true links loc cs = .ok (.found place.loc n) := by
  induction links generalizing loc cs with
  | zero => exact descend_put hn hplace (fun _ _ hexpand => by cases hexpand) h
  | succ links ih => exact descend_put hn hplace (fun _ _ hexpand => ih hexpand) h

theorem resolving_put (h : t.resolving true p = .ok place) :
    (t.put place.loc n).resolving true p = .ok (.found place.loc n) := by
  unfold resolving at h ⊢
  split at h
  · cases h
  · rename_i hnul
    rw [if_neg hnul]
    cases hlook : t.lookUp true p with
    | error code => simp [hlook, mapError_error] at h
    | ok place' =>
        simp only [hlook, mapError_ok, Except.ok.injEq] at h
        subst h
        have hput : (t.put place'.loc n).lookUp true p = .ok (.found place'.loc n) := by
          unfold lookUp at hlook ⊢
          split at hlook
          · cases hlook
          · rename_i hshort
            rw [if_neg hshort]
            exact walk_put hn hplace hlook
        rw [hput]
        rfl

end Put

theorem place_of_write {content : List UInt8} (h : t.write p content = .ok t') :
    ∃ place, t.resolving true p = .ok place ∧ t.TakesFile place.loc ∧
      t' = t.put place.loc (.file content t.clock) := by
  unfold write openPlace at h
  cases hplace : t.resolving true p with
  | error f => simp [hplace, bind, Except.bind] at h
  | ok place =>
      obtain ⟨-, hholds⟩ := resolves_of_resolving hplace
      cases place with
      | vacant loc =>
          simp only [hplace, bind, Except.bind, Except.ok.injEq] at h
          exact ⟨_, rfl, .inl hholds, h.symm⟩
      | found loc node =>
          cases node with
          | file old modified =>
              simp only [hplace, bind, Except.bind, Except.ok.injEq] at h
              exact ⟨_, rfl, .inr ⟨old, modified, hholds⟩, h.symm⟩
          | directory | link => simp [hplace, bind, Except.bind, failing] at h

theorem read_of_write {content : List UInt8} (h : t.write p content = .ok t') :
    t'.read p = .ok content := by
  obtain ⟨place, hplace, htakes, rfl⟩ := place_of_write h
  have hfound := resolving_put (n := .file content t.clock) (fun _ => nofun) htakes hplace
  simp [read, stat, hfound, bind, Except.bind]

end FileStash.FileTree
