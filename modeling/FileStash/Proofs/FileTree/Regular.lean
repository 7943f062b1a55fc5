import FileStash.Proofs.FileTree.Children
import FileStash.Proofs.FileTree.Descent

namespace FileStash

namespace Dict

variable {κ ν : Type} [BEq κ] [LawfulBEq κ]

omit [LawfulBEq κ] in
theorem mem_keys_of_insert {d : Dict κ ν} {k k' : κ} {v : ν} (h : k' ∈ keys (insert d k v)) :
    k' ∈ keys d ∨ k' = k := by
  induction d with
  | nil => exact .inr (List.mem_singleton.mp h)
  | cons e d ih =>
      unfold insert at h
      split at h
      · exact .inl h
      · rcases List.mem_cons.mp h with rfl | h
        · exact .inl (List.mem_cons_self ..)
        · exact (ih h).imp_left (List.mem_cons_of_mem _)

theorem nodup_keys_insert {d : Dict κ ν} (h : (keys d).Nodup) (k : κ) (v : ν) :
    (keys (insert d k v)).Nodup := by
  induction d with
  | nil => simp [insert, keys]
  | cons e d ih =>
      obtain ⟨hfirst, hrest⟩ := List.nodup_cons.mp h
      unfold insert
      split
      · exact h
      · rename_i hne
        refine List.nodup_cons.mpr ⟨fun hmem => ?_, ih hrest⟩
        rcases mem_keys_of_insert hmem with hold | hnew
        · exact hfirst hold
        · exact hne (beq_iff_eq.mpr hnew)

end Dict

theorem Path.Unslashed.parent {p : Path} (h : p.Unslashed) : p.parent.Unslashed :=
  fun c hc => h c (List.dropLast_subset _ hc)

namespace FileTree

/-- A tree as systems hold them: lawful, and with every place once. -/
structure Regular (t : FileTree) : Prop where
  lawful : t.Lawful
  distinct : (Dict.keys t.nodes).Nodup

variable {t t' : FileTree} {p : Path} {loc : Location} {place : Place} {follow : Bool}

structure Open (t : FileTree) (loc : Location) : Prop where
  above : t.get? loc.dropLast = some .directory
  legal : ∀ c ∈ loc, LegalName c
  free : t.get? loc ≠ some .directory

theorem Open.ne_nil (h : t.Open loc) : loc ≠ [] := by
  rintro rfl
  exact h.free rfl

theorem Regular.put (h : t.Regular) (hopen : t.Open loc) {n : Node}
    (hn : hasNul (targetOf n) = false) : (t.put loc n).Regular := by
  have hdirectory : ∀ dir, t.get? dir = some .directory →
      (t.put loc n).get? dir = some .directory := by
    intro dir hdir
    have hne : dir ≠ loc := by
      rintro rfl
      exact hopen.free hdir
    rw [get?_put_of_ne t n hne, hdir]
  have hkept : ∀ loc' n', (t.put loc n).get? loc' = some n' →
      loc' = loc ∧ n' = n ∨ t.get? loc' = some n' := by
    intro loc' n' hget
    by_cases hloc : loc' = loc
    · subst hloc
      rw [get?_put_self t n hopen.ne_nil] at hget
      exact .inl ⟨rfl, (Option.some.inj hget).symm⟩
    · rw [get?_put_of_ne t n hloc] at hget
      exact .inr hget
  refine ⟨⟨?_, hdirectory _ h.lawful.home, ?_, ?_⟩, Dict.nodup_keys_insert h.distinct loc n⟩
  · intro loc' n' hget
    rcases hkept loc' n' hget with ⟨rfl, -⟩ | hold
    · exact hdirectory _ hopen.above
    · exact hdirectory _ (h.lawful.wellFormed loc' n' hold)
  · intro loc' n' hget
    rcases hkept loc' n' hget with ⟨rfl, -⟩ | hold
    · exact hopen.legal
    · exact h.lawful.names loc' n' hold
  · intro loc' target hlink
    rcases hkept loc' _ (get?_of_link? hlink) with ⟨rfl, rfl⟩ | hold
    · exact hn
    · exact h.lawful.targets loc' target (by rw [link?, hold])

theorem Regular.remove (h : t.Regular) (hloc : t.get? loc ≠ some .directory) :
    (t.remove loc).Regular := by
  have hne : loc ≠ [] := by
    rintro rfl
    exact hloc rfl
  have hbefore : ∀ other n, (t.remove loc).get? other = some n → t.get? other = some n := by
    intro other n hget
    by_cases hother : other = loc
    · rw [hother, get?_remove_self t hne] at hget
      cases hget
    · rwa [get?_remove_of_ne t hother] at hget
  have hdirectory : ∀ dir, t.get? dir = some .directory →
      (t.remove loc).get? dir = some .directory := by
    intro dir hdir
    have hother : dir ≠ loc := by
      rintro rfl
      exact hloc hdir
    rw [get?_remove_of_ne t hother, hdir]
  refine ⟨⟨fun other n hget => ?_, hdirectory _ h.lawful.home, fun other n hget => ?_,
    fun other target hlink => ?_⟩, nodup_keys_remove h.distinct loc⟩
  · exact hdirectory _ (h.lawful.wellFormed other n (hbefore other n hget))
  · exact h.lawful.names other n (hbefore other n hget)
  · refine h.lawful.targets other target ?_
    rw [link?, hbefore other _ (get?_of_link? hlink)]

/-- A vacant place lies in a directory, under a name that the system has looked at. -/
theorem of_descend_vacant {expand : Location → List String → LookUp} {free : Location}
    (hexpand : ∀ loc cs, expand loc cs = .ok (.vacant free) →
      ∃ dir name, free = dir ++ [name] ∧ t.get? dir = some .directory ∧ PlainName name ∧
        Text.Utf8.size name ≤ maxName)
    {cs : List String} (h : descend t follow expand loc cs = .ok (.vacant free)) :
    ∃ dir name, free = dir ++ [name] ∧ t.get? dir = some .directory ∧ PlainName name ∧
      Text.Utf8.size name ≤ maxName := by
  induction cs generalizing loc with
  | nil =>
      obtain ⟨n, -, hplace⟩ := of_descend_nil h
      cases hplace
  | cons c cs ih =>
      obtain ⟨hdir, hstep⟩ := first_step h
      cases hstep with
      | stay _ rest | up _ _ rest | down _ _ _ _ _ rest => exact ih rest
      | followed _ _ _ _ _ rest => exact hexpand _ _ rest
      | unfollowed _ _ _ _ _ ends => cases ends
      | missing named down short _ _ ends =>
          cases ends
          rw [not_or] at named
          exact ⟨loc, c, rfl, hdir, ⟨named.1, named.2, down⟩, short⟩

theorem of_walk_vacant {links : Nat} {cs : List String} {free : Location}
    (h : walk t follow links loc cs = .ok (.vacant free)) :
    ∃ dir name, free = dir ++ [name] ∧ t.get? dir = some .directory ∧ PlainName name ∧
      Text.Utf8.size name ≤ maxName := by
  induction links generalizing loc cs with
  | zero => exact of_descend_vacant (fun _ _ hexpand => by cases hexpand) h
  | succ links ih => exact of_descend_vacant (fun _ _ hexpand => ih hexpand) h

theorem Lawful.open_of_vacant (h : t.Lawful) (hslash : p.Unslashed)
    (hplace : t.resolving follow p = .ok (.vacant loc)) : t.Open loc := by
  obtain ⟨-, hwalk⟩ := walk_of_resolving hplace
  obtain ⟨dir, name, rfl, hdir, hplain, hshort⟩ := of_walk_vacant hwalk
  have hfollow : t.resolving true p = .ok (.vacant (dir ++ [name])) := by
    cases follow with
    | true => exact hplace
    | false => exact resolving_follow nofun hplace
  obtain ⟨hleads, hnone⟩ := resolves_of_resolving hfollow
  have hnames := h.names_of_resolves hslash hleads
  refine ⟨by rw [List.dropLast_concat]; exact hdir, fun c hc => ?_, by rw [hnone]; nofun⟩
  rcases List.mem_append.mp hc with hc' | hc'
  · exact h.names dir _ hdir c hc'
  · obtain rfl := List.mem_singleton.mp hc'
    exact ⟨hplain, (hnames c hc).1, (hnames c hc).2, hshort⟩

theorem Lawful.open_of_file (h : t.Lawful) {content : List UInt8} {modified : Int}
    (hget : t.get? loc = some (.file content modified)) : t.Open loc :=
  ⟨h.wellFormed loc _ hget, h.names loc _ hget, by rw [hget]; nofun⟩

namespace Regular

variable (h : t.Regular) (hslash : p.Unslashed)
include h hslash

theorem makeDirectory (hmade : t.makeDirectory p = .ok t') : t'.Regular := by
  unfold FileTree.makeDirectory at hmade
  cases hplace : t.resolving false p with
  | error f => simp [hplace, bind, Except.bind] at hmade
  | ok place =>
      cases place with
      | found loc n => simp [hplace, bind, Except.bind, failing] at hmade
      | vacant loc =>
          simp only [hplace, bind, Except.bind, Except.ok.injEq] at hmade
          subst hmade
          exact h.put (h.lawful.open_of_vacant hslash hplace) rfl

omit h hslash in
theorem ensureDirectory (h : t.Regular) (hslash : p.Unslashed) {above : Failure → Change}
    (habove : ∀ f, (above f).2.Regular) : (t.ensureDirectory p above).2.Regular := by
  unfold FileTree.ensureDirectory
  cases hmake : t.makeDirectory p with
  | ok t' => exact h.makeDirectory hslash hmake
  | error f =>
      dsimp only
      split
      · exact habove _
      · unfold unlessDirectory
        split
        · split <;> exact h
        · exact h

theorem makeDirectoriesUpTo (n : Nat) : (t.makeDirectoriesUpTo p n).2.Regular := by
  induction n generalizing p with
  | zero => exact h.ensureDirectory hslash fun _ => h
  | succ n ih =>
      refine h.ensureDirectory hslash fun _ => ?_
      have hparent : (t.makeDirectoriesUpTo p.parent n).2.Regular := ih hslash.parent
      rcases hrun : t.makeDirectoriesUpTo p.parent n with ⟨f' | u, t'⟩
      · rw [hrun] at hparent
        exact hparent
      · rw [hrun] at hparent
        exact hparent.ensureDirectory hslash fun _ => hparent

theorem makeDirectories : (t.makeDirectories p).2.Regular :=
  h.makeDirectoriesUpTo hslash _

theorem open_of_openPlace {content : List UInt8} (hplace : t.openPlace p = .ok (loc, content)) :
    t.Open loc := by
  unfold openPlace at hplace
  cases hresolving : t.resolving true p with
  | error f => simp [hresolving, bind, Except.bind] at hplace
  | ok place =>
      obtain ⟨-, hholds⟩ := resolves_of_resolving hresolving
      cases place with
      | vacant loc' =>
          simp only [hresolving, bind, Except.bind, Except.ok.injEq, Prod.mk.injEq] at hplace
          obtain ⟨rfl, rfl⟩ := hplace
          exact h.lawful.open_of_vacant hslash hresolving
      | found loc' n =>
          cases n with
          | directory | link => simp [hresolving, bind, Except.bind, failing] at hplace
          | file content' modified =>
              simp only [hresolving, bind, Except.bind, Except.ok.injEq, Prod.mk.injEq] at hplace
              obtain ⟨rfl, rfl⟩ := hplace
              exact h.lawful.open_of_file hholds

theorem write {content : List UInt8} (hwritten : t.write p content = .ok t') : t'.Regular := by
  unfold FileTree.write at hwritten
  cases hplace : t.openPlace p with
  | error f => simp [hplace, bind, Except.bind] at hwritten
  | ok r =>
      obtain ⟨loc, old⟩ := r
      simp only [hplace, bind, Except.bind, Except.ok.injEq] at hwritten
      subst hwritten
      exact h.put (h.open_of_openPlace hslash hplace) rfl

theorem openAppend (hopened : t.openAppend p = .ok (loc, t')) : t'.Regular := by
  unfold FileTree.openAppend at hopened
  cases hplace : t.openPlace p with
  | error f => simp [hplace, bind, Except.bind] at hopened
  | ok r =>
      obtain ⟨loc', old⟩ := r
      cases hget : t.get? loc' with
      | some n =>
          simp only [hplace, hget, bind, Except.bind, Except.ok.injEq, Prod.mk.injEq] at hopened
          exact hopened.2 ▸ h
      | none =>
          simp only [hplace, hget, bind, Except.bind, Except.ok.injEq, Prod.mk.injEq] at hopened
          exact hopened.2 ▸ h.put (h.open_of_openPlace hslash hplace) rfl

end Regular

end FileTree

end FileStash
