import FileStash.Proofs.FileTree.LastName
import FileStash.Proofs.Program.Effects

/-!
Names that lead strictly below a directory. In a tree whose links go round nowhere
every path has a real path, a name is accepted just where its real path goes on from
that of the directory, and a real path is the real path of its own text.
-/

namespace FileStash

namespace Text

variable {sep : Char}

theorem splitOn_append {part : List Char} (h : sep ∉ part) (cs : List Char) :
    splitOn sep (part ++ sep :: cs) = part :: splitOn sep cs := by
  induction part with
  | nil =>
      rw [List.nil_append, splitOn]
      split
      · rename_i hnil
        exact absurd hnil (splitOn_ne_nil sep cs)
      · rename_i hsplit
        rw [if_pos rfl, hsplit]
  | cons c part ih =>
      rw [List.mem_cons, not_or] at h
      rw [List.cons_append, splitOn, ih h.2]
      exact if_neg (Ne.symm h.1)

theorem splitOn_intercalate {parts : List (List Char)} (hne : parts ≠ [])
    (h : ∀ part ∈ parts, sep ∉ part) : splitOn sep ([sep].intercalate parts) = parts := by
  induction parts with
  | nil => exact absurd rfl hne
  | cons part parts ih =>
      have hpart := h part (List.mem_cons_self ..)
      cases parts with
      | nil => rw [List.intercalate_singleton, splitOn_of_not_mem hpart]
      | cons part' parts =>
          have hrest := ih (List.cons_ne_nil part' parts) fun p hp =>
            h p (List.mem_cons_of_mem _ hp)
          rw [List.intercalate_cons_cons, List.append_assoc, List.singleton_append,
            splitOn_append hpart, hrest]

theorem intercalate_starts {sep part : List Char} (hne : part ≠ []) (parts : List (List Char)) :
    ∃ c ∈ part, ∃ cs, sep.intercalate (part :: parts) = c :: cs := by
  obtain ⟨c, cs, rfl⟩ := List.exists_cons_of_ne_nil hne
  refine ⟨c, List.mem_cons_self .., ?_⟩
  cases parts with
  | nil => exact ⟨cs, List.intercalate_singleton⟩
  | cons part' parts =>
      refine ⟨cs ++ sep ++ sep.intercalate (part' :: parts), ?_⟩
      rw [List.intercalate_cons_cons]
      rfl

end Text

namespace Path

theorem hasNul_ofText {s : String} (h : FileTree.hasNul s = false) :
    (ofText s).hasNul = false := by
  simp only [FileTree.hasNul, List.contains_eq_mem, decide_eq_false_iff_not] at h
  apply List.any_eq_false.mpr
  intro c hc
  obtain ⟨hpiece, -⟩ := List.mem_filter.mp hc
  obtain ⟨part, hpart, rfl⟩ := List.mem_map.mp hpiece
  rw [String.toList_ofList]
  simpa using fun hmem => h (FileTree.mem_splitOn hpart hmem)

theorem hasNul_join {a b : Path} (ha : a.hasNul = false) (hb : b.hasNul = false) :
    (a.join b).hasNul = false := by
  unfold join
  split
  · exact hb
  · simp only [hasNul] at ha hb
    simp only [hasNul, List.any_append, ha, hb, Bool.or_false]

theorem rootOf_single {c : Char} (hc : c ≠ '/') (cs : List Char) :
    rootOf ('/' :: c :: cs) = .single := by
  unfold rootOf
  split <;> simp_all

/-- A path goes on from another one, part by part. -/
def StrictlyBelow (p base : Path) : Prop :=
  ∃ rest, rest ≠ [] ∧ p = ⟨base.root, base.parts ++ rest⟩

theorem strictlyBelow_iff {p base : Path} :
    p.StrictlyBelow base ↔ p.isBelowOrAt base = true ∧ p ≠ base := by
  simp only [isBelowOrAt, Bool.and_eq_true, decide_eq_true_eq, List.isPrefixOf_iff_prefix]
  constructor
  · rintro ⟨rest, hrest, rfl⟩
    refine ⟨⟨rfl, rest, rfl⟩, ?_⟩
    intro heq
    exact hrest (by simpa using congrArg Path.parts heq)
  · rintro ⟨⟨hroot, rest, hrest⟩, hne⟩
    refine ⟨rest, ?_, ?_⟩
    · rintro rfl
      obtain ⟨root, parts⟩ := p
      obtain ⟨root', parts'⟩ := base
      simp_all
    · obtain ⟨root, parts⟩ := p
      cases hroot
      cases hrest
      rfl

def Unslashed (p : Path) : Prop :=
  ∀ c ∈ p.parts, '/' ∉ c.toList

theorem unslashed_ofText (s : String) : (ofText s).Unslashed := fun _ hc => (of_mem_parts hc).2

theorem Unslashed.join {a b : Path} (ha : a.Unslashed) (hb : b.Unslashed) :
    (a.join b).Unslashed := by
  unfold Path.join
  split
  · exact hb
  · intro c hc
    rcases List.mem_append.mp hc with hc | hc
    · exact ha c hc
    · exact hb c hc

end Path

namespace FileTree

variable {t : FileTree}

theorem text_pathOf (loc : Location) :
    (pathOf loc).text.toList = '/' :: ['/'].intercalate (loc.map String.toList) := by
  have hne : ¬((pathOf loc).root = .relative ∧ (pathOf loc).parts = []) := nofun
  rw [Path.text, if_neg hne, String.toList_append, String.toList_intercalate]
  simp [pathOf, Path.rootText]

theorem ofText_pathOf {loc : Location} (hplain : ∀ c ∈ loc, PlainName c)
    (hslash : (pathOf loc).Unslashed) : Path.ofText (pathOf loc).text = pathOf loc := by
  cases loc with
  | nil => decide
  | cons c cs =>
      have hparts : Text.splitOn '/' (['/'].intercalate ((c :: cs).map String.toList)) =
          (c :: cs).map String.toList := by
        apply Text.splitOn_intercalate (by simp)
        intro part hpart
        obtain ⟨d, hd, rfl⟩ := List.mem_map.mp hpart
        exact hslash d hd
      have hpieces : Path.pieces (pathOf (c :: cs)).text.toList = "" :: c :: cs := by
        have hempty : '/' ∉ ([] : List Char) := List.not_mem_nil
        rw [Path.pieces, text_pathOf, ← List.nil_append ('/' :: _), Text.splitOn_append hempty,
          hparts]
        simp
      have hkept : (c :: cs).filter Path.isPart = c :: cs := by
        apply List.filter_eq_self.mpr
        intro d hd
        simp [Path.isPart, (hplain d hd).1, (hplain d hd).2.1]
      have hroot : Path.rootOf (pathOf (c :: cs)).text.toList = .single := by
        have hne : c.toList ≠ [] := by simpa using (hplain c (List.mem_cons_self ..)).1
        obtain ⟨d, hd, ds, hstart⟩ := Text.intercalate_starts hne (cs.map String.toList)
        rw [text_pathOf, List.map_cons, hstart]
        apply Path.rootOf_single
        rintro rfl
        exact hslash c (List.mem_cons_self ..) hd
      rw [Path.ofText, hroot, hpieces, List.filter_cons_of_neg (by decide), hkept]
      rfl

/-! Where a path leads, the names on the way are those of the path, of its start or of
the targets of links. -/

section Names

variable {P : String → Prop}

theorem names_of_pass {lead : Location → Option Location}
    (hlead : ∀ loc c loc', (∀ d ∈ loc, P d) → lead (loc ++ [c]) = some loc' → ∀ d ∈ loc', P d)
    {loc loc' : Location} {cs : List String} (hcs : ∀ c ∈ cs, P c) (hloc : ∀ d ∈ loc, P d)
    (h : pass t lead loc cs = some loc') : ∀ d ∈ loc', P d := by
  induction cs generalizing loc with
  | nil =>
      cases h
      exact hloc
  | cons c cs ih =>
      have hrest : ∀ d ∈ cs, P d := fun d hd => hcs d (List.mem_cons_of_mem c hd)
      unfold pass at h
      split at h
      · exact ih hrest hloc h
      · split at h
        · exact ih hrest (fun d hd => hloc d (List.dropLast_subset loc hd)) h
        · cases hlink : t.link? (loc ++ [c]) with
          | none =>
              simp only [hlink] at h
              refine ih hrest ?_ h
              intro d hd
              rcases List.mem_append.mp hd with hd | hd
              · exact hloc d hd
              · rw [List.mem_singleton.mp hd]
                exact hcs c (List.mem_cons_self ..)
          | some target =>
              simp only [hlink] at h
              cases hm : lead (loc ++ [c]) with
              | none => simp [hm] at h
              | some m =>
                  simp only [hm] at h
                  exact ih hrest (hlead loc c m hloc hm) h

theorem names_of_leads
    (htargets : ∀ loc target, t.link? loc = some target → ∀ c ∈ Path.pieces target.toList, P c)
    {n : Nat} {loc loc' : Location} {c : String} (hloc : ∀ d ∈ loc, P d)
    (h : leads t n (loc ++ [c]) = some loc') : ∀ d ∈ loc', P d := by
  induction n generalizing loc loc' c with
  | zero => cases h
  | succ n ih =>
      unfold leads at h
      cases hlink : t.link? (loc ++ [c]) with
      | none => simp [hlink] at h
      | some target =>
          simp only [hlink, List.dropLast_concat] at h
          refine names_of_pass (fun _ _ _ h h' => ih h h') (htargets _ _ hlink) ?_ h
          unfold startOf
          split
          · exact fun d hd => absurd hd List.not_mem_nil
          · exact hloc

end Names

structure RealPlace (t : FileTree) (p : Path) (loc : Location) : Prop where
  real : t.resolve p = .ok (pathOf loc)
  straight : t.Straight loc
  noSlash : (pathOf loc).Unslashed
  noNul : (pathOf loc).hasNul = false

section Real

variable (h : t.Lawful)
include h

theorem Lawful.names_of_resolves {p : Path} (hslash : p.Unslashed)
    {loc : Location} (hp : t.Resolves p loc) :
    ∀ c ∈ loc, '/' ∉ c.toList ∧ hasNul c = false := by
  obtain ⟨hnul, n, hn⟩ := hp
  have htargets : ∀ loc target, t.link? loc = some target →
      ∀ c ∈ Path.pieces target.toList, '/' ∉ c.toList ∧ hasNul c = false := by
    intro loc target hlink c hc
    refine ⟨?_, h.tidy.nulFree_pieces loc target hlink c hc⟩
    obtain ⟨part, hpart, rfl⟩ := List.mem_map.mp hc
    rw [String.toList_ofList]
    exact Text.not_mem_of_splitOn hpart
  refine names_of_pass (fun _ _ _ h h' => names_of_leads htargets h h') ?_ ?_ hn
  · intro c hc
    exact ⟨hslash c hc, by simpa [hasNul] using List.any_eq_false.mp hnul c hc⟩
  · unfold startOfPath
    split
    · exact fun d hd => absurd hd List.not_mem_nil
    · intro d hd
      have hlegal := h.names _ _ h.home d hd
      exact ⟨hlegal.noSlash, hlegal.noNul⟩

theorem Lawful.realPlace {p : Path} (hslash : p.Unslashed) {loc : Location}
    (hp : t.Resolves p loc) : RealPlace t p loc := by
  have hnames := h.names_of_resolves hslash hp
  have hnul : (pathOf loc).hasNul = false := by
    apply List.any_eq_false.mpr
    intro c hc
    simpa [hasNul] using (hnames c hc).2
  exact ⟨h.tidy.resolve_of_resolves hp hnul, h.tidy.straight_of_resolves hp,
    fun c hc => (hnames c hc).1, hnul⟩

end Real

theorem RealPlace.again {p : Path} {loc : Location} (hp : RealPlace t p loc) (htidy : t.Tidy) :
    t.resolve (pathOf loc) = .ok (pathOf loc) ∧ Path.ofText (pathOf loc).text = pathOf loc :=
  ⟨htidy.resolve_of_straight hp.noNul hp.straight, ofText_pathOf hp.straight.plain hp.noSlash⟩

theorem LoopFree.resolves_join (hloops : t.LoopFree) {base name : Path} {dir : Location}
    (hbase : t.Resolves base dir) (hdir : RealPlace t base dir) (hname : name.hasNul = false) :
    ∃ loc, t.Resolves (base.join name) loc ∧ t.Resolves ((pathOf dir).join name) loc := by
  have hnul := Path.hasNul_join hbase.1 hname
  have hnul' := Path.hasNul_join hdir.noNul hname
  by_cases habs : name.isAbsolute = true
  · obtain ⟨loc, hloc⟩ := hloops.resolves hname
    refine ⟨loc, ?_, ?_⟩ <;> rwa [Path.join, if_pos habs]
  · obtain ⟨loc, hloc⟩ := hloops.reaches dir name.parts
    have hself : Reaches t [] dir dir := ⟨0, pass_of_straight _ hdir.straight⟩
    rw [Path.join, if_neg habs] at hnul hnul' ⊢
    rw [Path.join, if_neg habs]
    exact ⟨loc, ⟨hnul, hbase.2.append hloc⟩, hnul', hself.append hloc⟩

theorem safePath_eq (name : Value) {base root below full : Path} {shown plain : String}
    (hbelow : name.toPath = .ok below) (hshown : name.shown = .ok shown)
    (hplain : name.plain = .ok plain) (hroot : t.resolve base = .ok root)
    (hfull : t.resolve (root.join below) = .ok full) :
    t.safePath base name =
      if full.isBelowOrAt root = false then .error (.illFormed (.outsideDirectory plain))
      else if full = root then .error (.illFormed (.directoryItself shown))
      else .ok full := by
  simp [safePath, hbelow, hshown, hplain, hroot, hfull, bind, Except.bind]

end FileTree

end FileStash
