import FileStash.Proofs.FileCache.Record
import FileStash.Proofs.FileTree.Directories
import FileStash.Proofs.FileTree.LastName

namespace FileStash

namespace FileTree

variable {t : FileTree}

/-- A path is or can be made the path of a directory: with some missing
directories added, it leads to one. -/
def CanBeDirectory (t : FileTree) (p : Path) (loc : Location) : Prop :=
  ∃ t' : FileTree, t'.Lawful ∧ t'.home = t.home ∧ t'.stat p = .ok (loc, .directory) ∧
    ∀ l, t'.get? l = t.get? l ∨ (t.get? l = none ∧ t'.get? l = some .directory)

namespace CanBeDirectory

variable {p : Path} {loc : Location}

theorem resolves (h : t.CanBeDirectory p loc) : t.Resolves p loc := by
  obtain ⟨t', -, hhome, hstat, hgrown⟩ := h
  obtain ⟨⟨hnul, hreaches⟩, -⟩ := resolves_of_stat hstat
  have hlinks : ∀ l, t'.link? l = t.link? l := by
    intro l
    rcases hgrown l with hsame | ⟨hnone, hdir⟩
    · simp only [link?, hsame]
    · simp only [link?, hnone, hdir]
  refine ⟨hnul, ?_⟩
  have hstart : t.startOfPath p = t'.startOfPath p := by simp only [startOfPath, hhome]
  rw [hstart]
  exact hreaches.congr hlinks

theorem legal (h : t.CanBeDirectory p loc) : ∀ c ∈ loc, LegalName c := by
  obtain ⟨t', hlawful, -, hstat, -⟩ := h
  exact hlawful.names loc _ (resolves_of_stat hstat).2

theorem way (h : t.CanBeDirectory p loc) (above : Location)
    (habove : above <+: loc) :
    t.get? above = some .directory ∨ t.get? above = none := by
  obtain ⟨t', hlawful, -, hstat, hgrown⟩ := h
  have hdir := hlawful.wellFormed.directory_of_prefix (resolves_of_stat hstat).2 habove
  rcases hgrown above with hsame | ⟨hnone, -⟩
  · exact .inl (hsame ▸ hdir)
  · exact .inr hnone

end CanBeDirectory

end FileTree

namespace FileCache

open FileTree (pathOf LegalName Takes)

variable {t : FileTree}

theorem parent_place (loc : Location) (name : String) :
    (pathOf (loc ++ [name])).parent = pathOf loc := by
  simp [pathOf, Path.parent]

theorem ne_of_above {loc above : Location} (h : above <+: loc) (name : String) :
    above ≠ loc ++ [name] := by
  rintro rfl
  have hlength := h.length_le
  rw [List.length_append, List.length_singleton] at hlength
  omega

/-- Room for a file: the system takes its path, the directories on the way there are there or
can be made, and at its place is nothing or a file. -/
structure Room (t : FileTree) (loc : Location) (name : String) : Prop where
  wellFormed : t.WellFormed
  takes : Takes (pathOf (loc ++ [name]))
  straight : t.Straight loc
  way : ∀ above, above <+: loc → t.get? above = some .directory ∨ t.get? above = none
  free : t.get? (loc ++ [name]) = none ∨
    ∃ old modified, t.get? (loc ++ [name]) = some (.file old modified)

namespace Room

variable {loc : Location} {name : String}

/-- The directories of the way are made, and the place of the file is as it was. -/
theorem directories_done (h : Room t loc name) :
    ∃ t', t.makeDirectories (pathOf loc) = (.ok (), t') ∧
      (∀ above, above <+: loc → t'.get? above = some .directory) ∧
      t'.get? (loc ++ [name]) = t.get? (loc ++ [name]) := by
  have hparent : Takes (pathOf loc) := parent_place loc name ▸ h.takes.parent
  obtain ⟨hok, hdirs⟩ := hparent.makeDirectoriesUpTo_done (Nat.le_refl _) h.wellFormed h.way
  have hgrows :=
    FileTree.grows_makeDirectoriesUpTo (t := t) (p := pathOf loc)
      (pathOf loc).parts.length (FileTree.isAbsolute_pathOf loc) h.straight
  rcases hmake : t.makeDirectoriesUpTo (pathOf loc) (pathOf loc).parts.length with
    ⟨r, t'⟩
  rw [hmake] at hok hdirs hgrows
  cases hok
  refine ⟨t', hmake, hdirs, ?_⟩
  rcases hgrows.kept (loc ++ [name]) with hsame | ⟨hway, -⟩
  · exact hsame
  · exact absurd rfl (ne_of_above hway name)

theorem settle_done (h : Room t loc name) (content : List UInt8) :
    ∃ t', settle t (pathOf (loc ++ [name])) content = (.ok (), t') ∧
      t'.read (pathOf (loc ++ [name])) = .ok content := by
  have habove : (pathOf (loc ++ [name])).parts.dropLast = loc := List.dropLast_concat
  obtain ⟨t₁, hmake, hdirs, hplace⟩ := h.directories_done
  have hfree := h.free
  rw [← hplace] at hfree
  have hwrite := h.takes.write_inside content (habove.symm ▸ hdirs) hfree
  refine ⟨t₁.put (loc ++ [name]) (.file content t₁.clock), ?_, ?_⟩
  · simp only [settle, parent_place, hmake, FileTree.fill]
    rw [hwrite]
    rfl
  · refine h.takes.read_inside (fun above hup => ?_)
      (FileTree.get?_put_self t₁ _ (by simp))
    rw [habove] at hup
    rw [FileTree.get?_put_of_ne t₁ _ (ne_of_above hup name)]
    exact hdirs above hup

end Room

/-- A place for a file in a scratch directory: the directory is there or can be
made, and its entry of that name is free or a file. -/
structure Placed (t : FileTree) (scratch : Path) (loc : Location)
    (name : String) : Prop where
  lawful : t.Lawful
  legal : LegalName name
  directory : t.CanBeDirectory scratch loc
  notDirectory : t.get? (loc ++ [name]) ≠ some .directory
  notLink : t.link? (loc ++ [name]) = none

namespace Placed

variable {scratch : Path} {loc : Location} {name : String}

theorem legal_parts (h : Placed t scratch loc name) :
    ∀ c ∈ (pathOf (loc ++ [name])).parts, LegalName c := by
  intro c hc
  rcases List.mem_append.mp hc with hc | hc
  · exact h.directory.legal c hc
  · rw [List.mem_singleton.mp hc]
    exact h.legal

theorem straight (h : Placed t scratch loc name) : t.Straight (loc ++ [name]) :=
  (h.lawful.tidy.straight_of_resolves h.directory.resolves).concat h.legal.plain h.notLink

theorem resolve_scratch (h : Placed t scratch loc name) :
    t.resolve scratch = .ok (pathOf loc) :=
  h.lawful.tidy.resolve_of_resolves h.directory.resolves
    (FileTree.hasNul_of_legal h.directory.legal)

theorem resolve_child (h : Placed t scratch loc name) :
    t.resolve (scratch.child name) = .ok (pathOf (loc ++ [name])) := by
  obtain ⟨hnul, hreaches⟩ := h.directory.resolves
  refine h.lawful.tidy.resolve_of_resolves ⟨FileTree.hasNul_child hnul h.legal.noNul, ?_⟩
    (FileTree.hasNul_of_legal h.legal_parts)
  refine hreaches.append ⟨0, ?_⟩
  exact FileTree.pass_of_straight _ h.straight

theorem safePath (h : Placed t scratch loc name) :
    t.safePath scratch (.text name) = .ok (pathOf (loc ++ [name])) :=
  h.lawful.tidy.safePath_of_straight h.resolve_scratch h.legal.noSlash h.legal.noNul h.straight

theorem free_or_file (h : Placed t scratch loc name) :
    t.get? (loc ++ [name]) = none ∨
      ∃ old modified, t.get? (loc ++ [name]) = some (.file old modified) := by
  cases hget : t.get? (loc ++ [name]) with
  | none => exact .inl rfl
  | some n =>
      cases n with
      | file old modified => exact .inr ⟨old, modified, rfl⟩
      | directory => exact absurd hget h.notDirectory
      | link target =>
          have hlink := FileTree.link?_of_get? hget
          rw [h.notLink] at hlink
          cases hlink

theorem room (h : Placed t scratch loc name)
    (hshort : Text.Utf8.size (pathOf (loc ++ [name])).text ≤ FileTree.maxPath) :
    Room t loc name where
  wellFormed := h.lawful.wellFormed
  takes := ⟨FileTree.isAbsolute_pathOf _, h.legal_parts, hshort⟩
  straight := h.lawful.tidy.straight_of_resolves h.directory.resolves
  way := h.directory.way
  free := h.free_or_file

theorem settle_too_long
    (hlong : FileTree.maxPath < Text.Utf8.size (pathOf (loc ++ [name])).text)
    (content : List UInt8) :
    ∃ e, (settle t (pathOf (loc ++ [name])) content).1 = .error e := by
  unfold settle
  rcases t.makeDirectories (pathOf (loc ++ [name])).parent with ⟨f | u, t'⟩
  · exact ⟨_, rfl⟩
  · have hwrite : ∃ f, t'.write (pathOf (loc ++ [name])) content = .error f := by
      unfold FileTree.write FileTree.openPlace FileTree.resolving FileTree.lookUp
      rw [if_pos hlong]
      split <;> exact ⟨_, rfl⟩
    obtain ⟨f, hf⟩ := hwrite
    simp only [FileTree.fill, hf]
    exact ⟨_, rfl⟩

theorem deliver_done {c : FileCache} (h : Placed t c.scratchDir loc name)
    (hshort : Text.Utf8.size (pathOf (loc ++ [name])).text ≤ FileTree.maxPath)
    (content : List UInt8) :
    ∃ t', c.deliver t (.text name) content = (.ok (pathOf (loc ++ [name])), t') ∧
      t'.read (pathOf (loc ++ [name])) = .ok content := by
  obtain ⟨t', hsettle, hread⟩ := (h.room hshort).settle_done content
  refine ⟨t', ?_, hread⟩
  rw [deliver_of_safePath h.safePath, hsettle]
  rfl

theorem deliver_too_long {c : FileCache} (h : Placed t c.scratchDir loc name)
    (hlong : FileTree.maxPath < Text.Utf8.size (pathOf (loc ++ [name])).text)
    (content : List UInt8) :
    ∃ e, (c.deliver t (.text name) content).1 = .error e := by
  obtain ⟨e, he⟩ := settle_too_long (t := t) hlong content
  refine ⟨e, ?_⟩
  rw [deliver_of_safePath h.safePath, he]
  rfl

end Placed

end FileCache

end FileStash
