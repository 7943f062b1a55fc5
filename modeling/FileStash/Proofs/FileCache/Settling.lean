import FileStash.Proofs.FileCache.Delivery
import FileStash.Proofs.FileCache.RestoreEffect
import FileStash.Proofs.FileTree.Opening
import FileStash.Proofs.FileTree.Regular
import FileStash.Proofs.FileTree.Written

namespace FileStash

namespace FileTree

variable {t t' t'' : FileTree} {dir loc : Location}

structure Tended (dir : Location) (t t' : FileTree) : Prop where
  home : t'.home = t.home
  links : ∀ loc, t.link? loc = t'.link? loc
  directories : ∀ loc, t.get? loc = some .directory → t'.get? loc = some .directory
  files : ∀ loc, t.FileAt loc → t'.FileAt loc
  inside : ∀ name,
    t'.get? (dir ++ [name]) = t.get? (dir ++ [name]) ∨ t'.FileAt (dir ++ [name])

namespace Tended

theorem refl (dir : Location) (t : FileTree) : Tended dir t t :=
  ⟨rfl, fun _ => rfl, fun _ => id, fun _ => id, fun _ => .inl rfl⟩

theorem trans (h : Tended dir t t') (h' : Tended dir t' t'') : Tended dir t t'' where
  home := h'.home.trans h.home
  links loc := (h.links loc).trans (h'.links loc)
  directories loc hdir := h'.directories loc (h.directories loc hdir)
  files loc hfile := h'.files loc (h.files loc hfile)
  inside name := by
    rcases h'.inside name with hsame | hfile
    · rw [hsame]
      exact (h.inside name).imp_right (h'.files _)
    · exact .inr hfile

/-- Directories that are made on the way to the directory are none of its entries. -/
theorem of_grows (h : Grows t t' dir) : Tended dir t t' where
  home := h.home
  links := h.link?
  directories loc hdir := by
    rcases h.kept loc with hsame | ⟨-, hnone, -⟩
    · rw [hsame, hdir]
    · rw [hdir] at hnone
      cases hnone
  files loc := by
    rintro ⟨content, modified, hget⟩
    rcases h.kept loc with hsame | ⟨-, hnone, -⟩
    · exact ⟨content, modified, hsame.trans hget⟩
    · rw [hget] at hnone
      cases hnone
  inside name := by
    rcases h.kept (dir ++ [name]) with hsame | ⟨hway, -⟩
    · exact .inl hsame
    · exact absurd rfl (FileCache.ne_of_above hway name)

theorem put (h : t.TakesFile loc) (content : List UInt8) (modified : Int) :
    Tended dir t (t.put loc (.file content modified)) := by
  have hself : (t.put loc (.file content modified)).get? loc = some (.file content modified) :=
    get?_put_self t _ h.ne_nil
  have hfile : (t.put loc (.file content modified)).FileAt loc := ⟨content, modified, hself⟩
  refine ⟨rfl, fun other => ?_, fun other => h.get?_put_directory, fun other hother => ?_,
    fun name => ?_⟩
  · by_cases hsame : other = loc
    · have hbefore : t.link? loc = none := by
        rcases h with hnone | ⟨old, before, hold⟩
        · exact link?_eq_none_of_get? (by simp [hnone])
        · exact link?_eq_none_of_get? (by simp [hold])
      rw [hsame, hbefore, link?_eq_none_of_get? (by simp [hself])]
    · simp only [link?, get?_put_of_ne t _ hsame]
  · by_cases hsame : other = loc
    · exact hsame ▸ hfile
    · obtain ⟨old, before, hold⟩ := hother
      exact ⟨old, before, by rw [get?_put_of_ne t _ hsame, hold]⟩
  · by_cases hsame : dir ++ [name] = loc
    · exact .inr (hsame ▸ hfile)
    · exact .inl (get?_put_of_ne t _ hsame)

end Tended

/-- A name is accepted in a directory that holds no link of this name only where it is the
name of a place there. -/
theorem Tidy.of_safePath_text (h : t.Tidy) {base p : Path} {name : String}
    (hbase : t.resolve base = .ok (pathOf dir)) (hstraight : t.Straight dir)
    (hslash : '/' ∉ name.toList) (hlink : t.link? (dir ++ [name]) = none)
    (hp : t.safePath base (.text name) = .ok p) :
    PlainName name ∧ hasNul name = false ∧ p = pathOf (dir ++ [name]) := by
  have hnul : (pathOf dir).hasNul = false := hasNul_of_resolve hbase
  have hup : name ≠ ".." := by
    rintro rfl
    obtain ⟨fault, hfault⟩ := h.safePath_up hbase hstraight
    cases hfault.symm.trans hp
  obtain ⟨root, below, hroot, hbelow, hfull, -, hne⟩ := of_safePath hp
  cases hbase.symm.trans hroot
  obtain rfl : Path.ofText name = below := Except.ok.inj hbelow
  have hpart : name ≠ "" ∧ name ≠ "." := by
    -- Both texts are that of the directory itself.
    refine not_or.mp fun hself => ?_
    have hjoin : (pathOf dir).join (Path.ofText name) = pathOf dir := by
      rcases hself with rfl | rfl <;> simp [Path.join, Path.ofText, Path.isAbsolute, Path.rootOf,
        Path.pieces, Path.isPart, Text.splitOn, pathOf]
    rw [hjoin, h.resolve_of_straight hnul hstraight] at hfull
    cases hfull
    exact hne rfl
  have hplain : PlainName name := ⟨hpart.1, hpart.2, hup⟩
  have hchild : t.Straight (dir ++ [name]) := hstraight.concat hplain hlink
  rw [pathOf_join hpart hslash] at hfull
  have hname : hasNul name = false := by
    cases hname : hasNul name with
    | false => rfl
    | true =>
        have hparts : (pathOf (dir ++ [name])).parts = dir ++ name :: [] := rfl
        have hfollow := h.follow_nul_behind hparts (nulFree_parts hnul)
          ⟨0, pass_of_straight _ hstraight⟩ hname
        simp [resolve, hfollow, bind, Except.bind] at hfull
  exact ⟨hplain, hname,
    h.eq_of_resolve ⟨hasNul_child hnul hname, 0, pass_of_straight _ hchild⟩ hfull⟩

/-- A scratch directory in a tree, there or not: its path leads there, and it holds no
links. -/
structure Housed (t : FileTree) (scratch : Path) (dir : Location) : Prop where
  regular : t.Regular
  unslashed : scratch.Unslashed
  leads : t.Resolves scratch dir
  bare : ∀ name, t.link? (dir ++ [name]) = none

namespace Housed

variable {scratch : Path} {name : String}

theorem congr (h : Housed t scratch dir) (hregular : t'.Regular) (hhome : t'.home = t.home)
    (hlinks : ∀ loc, t.link? loc = t'.link? loc) : Housed t' scratch dir :=
  ⟨hregular, h.unslashed, h.leads.congr hlinks hhome,
    fun name => (hlinks _).symm.trans (h.bare name)⟩

theorem place (h : Housed t scratch dir) : RealPlace t scratch dir :=
  h.regular.lawful.realPlace h.unslashed h.leads

theorem straight (h : Housed t scratch dir) (hname : PlainName name) :
    t.Straight (dir ++ [name]) :=
  h.place.straight.concat hname (h.bare name)

theorem unslashed_child (h : Housed t scratch dir) (hslash : '/' ∉ name.toList) :
    (pathOf (dir ++ [name])).Unslashed := by
  intro c hc
  rcases List.mem_append.mp hc with hc | hc
  · exact h.place.noSlash c hc
  · exact List.mem_singleton.mp hc ▸ hslash

theorem of_safePath (h : Housed t scratch dir) {p : Path} (hslash : '/' ∉ name.toList)
    (hp : t.safePath scratch (.text name) = .ok p) :
    PlainName name ∧ hasNul name = false ∧ p = pathOf (dir ++ [name]) :=
  h.regular.lawful.tidy.of_safePath_text h.place.real h.place.straight hslash (h.bare name) hp

theorem safePath (h : Housed t scratch dir) (hname : PlainName name) (hslash : '/' ∉ name.toList)
    (hnul : hasNul name = false) :
    t.safePath scratch (.text name) = .ok (pathOf (dir ++ [name])) :=
  h.regular.lawful.tidy.safePath_of_straight h.place.real hslash hnul (h.straight hname)

end Housed

end FileTree

namespace FileCache

open FileTree (pathOf PlainName Housed Regular Tended)

variable {c : FileCache} {t : FileTree} {p : Path} {dir : Location} {name : String}

theorem tended_settle (hstraight : t.Straight (dir ++ [name])) (content : List UInt8) :
    Tended dir t (settle t (pathOf (dir ++ [name])) content).2 := by
  have hdir : t.Straight dir := by
    have hparent := hstraight.dropLast
    rwa [List.dropLast_concat] at hparent
  have hgrows := FileTree.grows_makeDirectoriesUpTo (t := t) (p := pathOf dir)
    (pathOf dir).parts.length (FileTree.isAbsolute_pathOf dir) hdir
  rcases settle_cases t (pathOf (dir ++ [name])) content with
    ⟨f, t', hmake, hsettle⟩ | ⟨t', hmake, ⟨f, -, hsettle⟩ | ⟨t'', hwrite, hsettle⟩⟩ <;>
    rw [hsettle] <;> rw [parent_place, FileTree.makeDirectories] at hmake <;>
    rw [hmake] at hgrows
  · exact .of_grows hgrows
  · exact .of_grows hgrows
  · obtain ⟨place, -, htakes, rfl⟩ := FileTree.place_of_write hwrite
    exact (Tended.of_grows hgrows).trans (.put htakes content _)

theorem regular_settle (h : t.Regular) (hslash : p.Unslashed) (content : List UInt8) :
    (settle t p content).2.Regular := by
  have hdirs := h.makeDirectories hslash.parent
  rcases settle_cases t p content with
    ⟨f, t', hmake, hsettle⟩ | ⟨t', hmake, ⟨f, -, hsettle⟩ | ⟨t'', hwrite, hsettle⟩⟩ <;>
    rw [hsettle] <;> rw [hmake] at hdirs
  · exact hdirs
  · exact hdirs
  · exact hdirs.write hslash hwrite

section Housed

variable {content : List UInt8} (h : Housed t c.scratchDir dir) (hslash : '/' ∉ name.toList)
include h hslash

theorem housed_deliver_cases (content : List UInt8) :
    (∃ e, c.deliver t (.text name) content = (.error e, t)) ∨
      PlainName name ∧ c.deliver t (.text name) content =
        ((settle t (pathOf (dir ++ [name])) content).1.map fun _ => pathOf (dir ++ [name]),
          (settle t (pathOf (dir ++ [name])) content).2) := by
  rcases deliver_cases c t (.text name) content with ⟨e, -, hdeliver⟩ | ⟨p, hp, hdeliver⟩
  · exact .inl ⟨e, hdeliver⟩
  · obtain ⟨hplain, -, rfl⟩ := h.of_safePath hslash hp
    exact .inr ⟨hplain, hdeliver⟩

theorem tended_deliver (content : List UInt8) :
    Tended dir t (c.deliver t (.text name) content).2 ∧
      Housed (c.deliver t (.text name) content).2 c.scratchDir dir := by
  rcases housed_deliver_cases h hslash content with ⟨e, hdeliver⟩ | ⟨hplain, hdeliver⟩ <;>
    rw [hdeliver]
  · exact ⟨.refl dir t, h⟩
  · have htended := tended_settle (h.straight hplain) content
    have hregular := regular_settle h.regular (h.unslashed_child hslash) content
    exact ⟨htended, h.congr hregular htended.home htended.links⟩

/-- What has been delivered is a file of the directory, under a path that the system takes. -/
theorem of_deliver_housed (hp : (c.deliver t (.text name) content).1 = .ok p) :
    p = pathOf (dir ++ [name]) ∧ Text.Utf8.size p.text ≤ FileTree.maxPath ∧
      (c.deliver t (.text name) content).2.FileAt (dir ++ [name]) ∧
      (c.deliver t (.text name) content).2.read p = .ok content := by
  rcases housed_deliver_cases h hslash content with ⟨e, hdeliver⟩ | ⟨hplain, hdeliver⟩
  · rw [hdeliver] at hp
    cases hp
  · rw [hdeliver] at hp ⊢
    cases hsettle : (settle t (pathOf (dir ++ [name])) content).1 with
    | error e =>
        rw [hsettle] at hp
        cases hp
    | ok u =>
        rw [hsettle] at hp
        cases hp
        have hdelivered := of_settle_ok (FileTree.isAbsolute_pathOf _) (h.straight hplain) hsettle
        obtain ⟨modified, hfile⟩ := hdelivered.file
        obtain ⟨loc, _, hresolving⟩ := FileTree.of_read hdelivered.read
        exact ⟨rfl, FileTree.short_of_resolving hresolving, ⟨content, modified, hfile⟩,
          hdelivered.read⟩

end Housed

end FileCache

end FileStash
