import FileStash.Proofs.FileCache.Record
import FileStash.Proofs.FileTree.Directories

namespace FileStash

namespace FileTree

variable {t t' : FileTree}

/-- Outside a place nothing has changed, but missing directories on the way to
it. -/
def Confined (t t' : FileTree) (root : Location) : Prop :=
  ∀ loc, t'.get? loc = t.get? loc ∨ (root <+: loc ∧ root ≠ loc) ∨
    (loc <+: root ∧ t.get? loc = none ∧ t'.get? loc = some .directory)

theorem Confined.refl (t : FileTree) (root : Location) : Confined t t root :=
  fun _ => .inl rfl

theorem confined_of_grows {root way : Location} (h : Grows t t' way)
    (hinside : root <+: way) :
    Confined t t' root := by
  intro loc
  rcases h.kept loc with hsame | ⟨hway, hnone, hdir⟩
  · exact .inl hsame
  · rcases List.prefix_or_prefix_of_prefix hway hinside with habove | hbelow
    · exact .inr (.inr ⟨habove, hnone, hdir⟩)
    · by_cases hloc : root = loc
      · exact .inr (.inr ⟨hloc ▸ List.prefix_rfl, hnone, hdir⟩)
      · exact .inr (.inl ⟨hbelow, hloc⟩)

theorem Confined.put {root loc : Location} (h : Confined t t' root)
    (hinside : root <+: loc) (hne : root ≠ loc) (n : Node) :
    Confined t (t'.put loc n) root := by
  intro loc'
  by_cases hloc : loc' = loc
  · rw [hloc]
    exact .inr (.inl ⟨hinside, hne⟩)
  · rw [get?_put_of_ne t' n hloc]
    exact h loc'

theorem isAbsolute_join {a b : Path} (h : a.isAbsolute = true) :
    (a.join b).isAbsolute = true := by
  unfold Path.join
  split
  · assumption
  · exact h

/-- The path of a link that leads back to itself is absolute, and so is whatever
follows it. -/
theorem isAbsolute_of_stuck {expand : Spot → String → Seen → Access Progress}
    (hexpand : ∀ dir target seen path, expand dir target seen = .ok (.stuck path) →
    path.isAbsolute = true)
    {spot : Spot} {seen : Seen} {cs : List String} {path : Path}
    (h : trace t expand spot seen cs = .ok (.stuck path)) :
    path.isAbsolute = true := by
  induction cs generalizing spot seen with
  | nil => cases h
  | cons c cs ih =>
      unfold trace at h
      split at h
      · exact ih h
      · split at h
        · exact ih h
        · split at h
          · cases h
          · dsimp only at h
            split at h
            · exact ih h
            · split at h
              · exact ih h
              · cases h
                exact isAbsolute_join (isAbsolute_pathOf _)
              · split at h
                · cases h
                · rename_i path' hstuck
                  cases h
                  exact isAbsolute_join (hexpand _ _ _ path' hstuck)
                · exact ih h

theorem isAbsolute_of_expandLink (depth : Nat) (dir : Spot) (target : String)
    (seen : Seen) (path : Path)
    (h : expandLink t depth dir target seen = .ok (.stuck path)) :
    path.isAbsolute = true := by
  induction depth generalizing dir target seen path with
  | zero =>
      cases h
      exact isAbsolute_join (isAbsolute_pathOf _)
  | succ depth ih => exact isAbsolute_of_stuck ih h

theorem isAbsolute_of_resolve {p q : Path} (h : t.resolve p = .ok q) :
    q.isAbsolute = true := by
  have hfollow : t.follow p = .ok q := by
    unfold resolve at h
    cases hreal : t.follow p with
    | error f => simp [hreal, bind, Except.bind] at h
    | ok real =>
        simp only [hreal, bind, Except.bind] at h
        split at h
        · cases h
        · cases h
        · exact h
  cases htrace : trace t (expandLink t t.maxDepth)
      (if p.isAbsolute then ⟨false, []⟩ else ⟨true, t.home⟩) [] p.parts with
  | error f => simp [follow, htrace, bind, Except.bind] at hfollow
  | ok progress =>
      simp only [follow, htrace, bind, Except.bind] at hfollow
      cases progress with
      | reached spot seen =>
          cases hfollow
          exact isAbsolute_pathOf _
      | stuck path =>
          cases hfollow
          change path.isAbsolute = true
          exact isAbsolute_of_stuck (isAbsolute_of_expandLink _) htrace

theorem settle_confined {root : Location} {p : Path} (content : List UInt8)
    (habs : p.isAbsolute = true) (hstraight : t.Straight p.parts)
    (hinside : root <+: p.parts) (hne : root ≠ p.parts) :
    Confined t (FileCache.settle t p content).2 root := by
  have hparent : root <+: p.parent.parts := by
    rcases prefix_or_prefix_dropLast hinside with hsame | habove
    · exact absurd hsame hne
    · exact habove
  have hgrows : Grows t (t.makeDirectories p.parent).2 p.parent.parts :=
    grows_makeDirectoriesUpTo _ habs hstraight.dropLast
  rcases FileCache.settle_cases t p content with
    ⟨f, t', hmake, hsettle⟩ |
    ⟨t', hmake, ⟨f, -, hsettle⟩ | ⟨t'', hwrite, hsettle⟩⟩ <;>
    rw [hsettle] <;> rw [hmake] at hgrows
  · exact confined_of_grows hgrows hparent
  · exact confined_of_grows hgrows hparent
  · obtain ⟨-, rfl⟩ := of_write habs (hstraight.congr hgrows.link?) hwrite
    exact (confined_of_grows hgrows hparent).put hinside hne _

/-- The place that an accepted name opens is the place that was looked at just
where no link is left in its path, and none is left where the name leads
somewhere. -/
theorem accepted_straight (h : t.Lawful) {base p : Path} {name : Value}
    (hp : t.safePath base name = .ok p) :
    ∃ root below, t.resolve base = .ok root ∧ name.toPath = .ok below ∧
      (∀ loc n, t.stat base = .ok (loc, n) → root.parts = loc) ∧
      root.parts <+: p.parts ∧ root.parts ≠ p.parts ∧
      ((∃ loc, t.Resolves (root.join below) loc) → t.Straight p.parts) ∧
      ∀ loc content, t.openPlace p = .ok (loc, content) →
        (loc = p.parts ↔ t.Straight p.parts) := by
  obtain ⟨root, below, hroot, hbelow, hfull, hinside, hne⟩ := of_safePath hp
  refine ⟨root, below, hroot, hbelow, ?_, hinside, hne, ?_, ?_⟩
  · intro loc n hstat
    rw [h.tidy.eq_of_resolve (resolves_of_stat hstat).1 hroot]
    rfl
  · rintro ⟨loc, hloc⟩
    rw [h.tidy.eq_of_resolve hloc hfull]
    exact h.tidy.straight_of_resolves hloc
  · intro loc content hopen
    have habs := isAbsolute_of_resolve hfull
    unfold openPlace at hopen
    cases hplace : t.resolving true p with
    | error f => simp [hplace, bind, Except.bind] at hopen
    | ok place =>
        have hloc : place.loc = loc := by
          cases place with
          | vacant loc' =>
              simp only [hplace, bind, Except.bind, Except.ok.injEq,
                Prod.mk.injEq] at hopen
              exact hopen.1
          | found loc' n =>
              cases n with
              | file old modified =>
                  simp only [hplace, bind, Except.bind, Except.ok.injEq,
                    Prod.mk.injEq] at hopen
                  exact hopen.1
              | directory => simp [hplace, bind, Except.bind, failing] at hopen
              | link target => simp [hplace, bind, Except.bind, failing] at hopen
        constructor
        · intro hsame
          rw [← hsame, ← hloc]
          exact h.tidy.straight_of_resolves (resolves_of_resolving hplace).1
        · intro hstraight
          rw [← hloc]
          exact ((resolving_of_straight true habs hstraight).1 place hplace).1

end FileTree

namespace FileCache

variable {σ : Type}

/-- What `restore` does to the files, whatever answers: nothing, or the delivery
of the name that was answered. -/
theorem tree_restore (client : Client σ) (c : FileCache) (name : Value) (s : σ)
    (t : FileTree) :
    ((c.restore name).run client s t).tree = t ∨
      ∃ n es content p, name = .text n ∧
        ((c.entries n).run client s t).result = .ok es ∧
        t.safePath c.scratchDir (fieldOr es nameField name) = .ok p ∧
        ((c.restore name).run client s t).tree = (settle t p content).2 := by
  rcases restore_cases client c name s t with
    ⟨-, -, hsame, -⟩ | ⟨n, es, rfl, -, hentries, -, htree⟩
  · exact .inl hsame
  · rw [htree]
    rcases c.unpack_cases t n es with
      ⟨-, hunpack⟩ | ⟨-, ⟨e, -, hunpack⟩ | ⟨content, -, hunpack⟩⟩ <;> rw [hunpack]
    · exact .inl rfl
    · exact .inl rfl
    · rcases c.deliver_cases t (fieldOr es nameField (.text n)) content with
        ⟨e, -, hdeliver⟩ | ⟨p, hsafe, hdeliver⟩ <;> rw [hdeliver]
      · exact .inl rfl
      · exact .inr ⟨n, es, content, p, rfl, hentries, hsafe, rfl⟩

/-- A name that goes round a link: what follows the link is kept as text, the
double dots take the link away, and the link that remains leads out. -/
theorem restore_escapes_round_a_link :
    let t : FileTree := { nodes :=
      [(["scratch"], .directory), (["outside.txt"], .file [107, 101, 101, 112] 0),
        (["scratch", "loop"], .link "loop"),
        (["scratch", "x"], .link "../outside.txt")] }
    let c : FileCache := ⟨FileTree.pathOf ["scratch"], defaultPrefix, none⟩
    let s : ScriptedServer := { server := { entries := [("file:evil",
      ⟨.hash [(nameField, "loop/../x"), (contentField, "cHduZWQ=")], none⟩)] } }
    let run := (c.restore (.text "evil")).run ScriptedServer.call s t
    t.Lawful ∧ run.result = .ok (some (FileTree.pathOf ["scratch", "x"])) ∧
      t.get? ["outside.txt"] = some (.file [107, 101, 101, 112] 0) ∧
      run.tree.get? ["outside.txt"] = some (.file [112, 119, 110, 101, 100] 0) ∧
      ¬t.Confined run.tree ["scratch"] := by
  intro t c s run
  have hbefore : t.get? ["outside.txt"] = some (.file [107, 101, 101, 112] 0) := rfl
  have hresult : run.result = .ok (some (FileTree.pathOf ["scratch", "x"])) := by
    decide +kernel
  have hafter : run.tree.get? ["outside.txt"] =
      some (.file [112, 119, 110, 101, 100] 0) := by
    decide +kernel
  refine ⟨FileTree.lawful_of_nodes rfl (by decide +kernel), hresult, hbefore, hafter,
    fun hconfined => ?_⟩
  rcases hconfined ["outside.txt"] with hsame | ⟨hinside, -⟩ | ⟨habove, -, -⟩
  · rw [hbefore, hafter] at hsame
    cases hsame
  · revert hinside
    decide
  · revert habove
    decide

end FileCache

end FileStash
