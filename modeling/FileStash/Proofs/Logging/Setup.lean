import FileStash.Proofs.FileTree.LoopFree
import FileStash.Proofs.Logging.Emitting

namespace FileStash

/-- A call that sets up loggers: one that gives a logger handlers of its own, and one
that shows the package's records. -/
inductive Setup
  | own (name : String) (level : Option Int)
  | enable (level : Int) (file : Value)

namespace Setup

def levelValue : Option Int → Value
  | none => .null
  | some n => .int n

def perform (j : Journal) : Setup → Except Failure Unit × Journal
  | .own name level =>
      let r := j.getLogger (.text name) (levelValue level)
      (r.1.map fun _ => (), r.2)
  | .enable level file => j.enable (.int level) file

/-- The journal behind several calls, some of which may fail. -/
def after (j : Journal) (calls : List Setup) : Journal :=
  calls.foldl (fun j c => (c.perform j).2) j

/-- The loggers that are given handlers of their own, the package's apart. -/
def owners (calls : List Setup) : List String :=
  calls.filterMap fun
    | .own name _ => if name = packageLogger then none else some name
    | .enable .. => none

end Setup

open FileTree (pathOf Gains Extends)

/-- A logger with one handler for the console and one for each of the files, that
passes nothing on. -/
structure Equipped (files : List (Path × Location)) (g : Logger) : Prop where
  closed : g.propagate = false
  handlers : g.handlers.map (·.file) = none :: files.map some

theorem Equipped.handlers_ne_nil {files : List (Path × Location)} {g : Logger}
    (h : Equipped files g) : g.handlers ≠ [] := by
  intro hempty
  have hnone := h.handlers
  rw [hempty] at hnone
  cases hnone

namespace Loggers

variable {l l' : Loggers} {owners : List String} {files files' : List (Path × Location)}
  {name : String} {g : Logger}

/-- The package's loggers as calls leave them: which of them have something of their
own, and which files the package writes to. -/
structure Provided (owners : List String) (files : List (Path × Location)) (l : Loggers) :
    Prop where
  package : files = [] ∧ l.get packageLogger = {} ∨ Equipped files (l.get packageLogger)
  owner : ∀ name ∈ owners, Packaged name → (l.get name).propagate = false
  console : ∀ name, Packaged name → name ≠ packageLogger →
    ∀ h ∈ (l.get name).handlers, h.file = none
  free : ∀ name, Packaged name → name ≠ packageLogger → name ∉ owners → l.get name = {}

namespace Provided

theorem start : Provided [] [] {} := by
  have hget : ∀ name, Packaged name → ({} : Loggers).get name = {} := fun name hname => by
    simp [get, hname.ne_root, Dict.get?]
  refine ⟨.inl ⟨rfl, rfl⟩, by simp, fun name hname _ => ?_, fun name hname _ _ => hget name hname⟩
  simp [hget name hname]

theorem congr (hget : ∀ name, l'.get name = l.get name) (h : Provided owners files l) :
    Provided owners files l' := by
  refine ⟨?_, fun name => ?_, fun name => ?_, fun name => ?_⟩
  · rw [hget]
    exact h.package
  · rw [hget]
    exact h.owner name
  · rw [hget]
    exact h.console name
  · rw [hget]
    exact h.free name

theorem ensure (h : Provided owners files l) (name : String) :
    Provided owners files (l.ensure name) :=
  h.congr (get_ensure l name)

theorem put_package (h : Provided owners files l) (hg : Equipped files' g) :
    Provided owners files' (l.put packageLogger g) where
  package := by
    rw [get_put_self]
    exact .inr hg
  owner name hname hpackaged := by
    by_cases hne : name = packageLogger
    · rw [hne, get_put_self]
      exact hg.closed
    · rw [get_put_of_ne hne hpackaged.ne_root]
      exact h.owner name hname hpackaged
  console name hpackaged hne := by
    rw [get_put_of_ne hne hpackaged.ne_root]
    exact h.console name hpackaged hne
  free name hpackaged hne := by
    rw [get_put_of_ne hne hpackaged.ne_root]
    exact h.free name hpackaged hne

theorem put_own (h : Provided owners files l) (hname : name ≠ packageLogger)
    (hclosed : g.propagate = false) (hconsole : ∀ x ∈ g.handlers, x.file = none) :
    Provided (owners ++ [name]) files (l.put name g) where
  package := by
    rw [get_put_of_ne hname.symm Member.package.packaged.ne_root]
    exact h.package
  owner other hother hpackaged := by
    by_cases hne : other = name
    · rw [hne, get_put_self]
      exact hclosed
    · rw [get_put_of_ne hne hpackaged.ne_root]
      exact h.owner other (by simpa [hne] using hother) hpackaged
  console other hpackaged hother := by
    by_cases hne : other = name
    · rw [hne, get_put_self]
      exact hconsole
    · rw [get_put_of_ne hne hpackaged.ne_root]
      exact h.console other hpackaged hother
  free other hpackaged hother hfree := by
    have hne : other ≠ name := fun hsame => hfree (by simp [hsame])
    rw [get_put_of_ne hne hpackaged.ne_root]
    exact h.free other hpackaged hother fun hbefore => hfree (by simp [hbefore])

theorem known (h : Provided owners files l) (hname : name ≠ packageLogger)
    (hhandlers : (l.get name).handlers ≠ []) : Provided (owners ++ [name]) files l where
  package := h.package
  owner other hother hpackaged := by
    by_cases hbefore : other ∈ owners
    · exact h.owner other hbefore hpackaged
    · obtain rfl : other = name := by simpa [hbefore] using hother
      exact absurd (by rw [h.free other hpackaged hname hbefore]) hhandlers
  console := h.console
  free other hpackaged hother hfree :=
    h.free other hpackaged hother fun hbefore => hfree (by simp [hbefore])

end Provided

end Loggers

namespace FileTree

def RealPath (t : FileTree) (file : Value) (p : Path) : Prop :=
  file.toPath.bind t.resolve = .ok p

/-- The place of the file that a value names. -/
def PlaceOf (t : FileTree) (file : Value) (loc : Location) : Prop :=
  ∃ p, t.RealPath file p ∧ t.Resolves p loc

/-- A place on the way to the file that a value names. -/
def AbovePlaceOf (t : FileTree) (file : Value) (loc : Location) : Prop :=
  ∃ p, t.RealPath file p ∧ t.OnWay p.parent loc

end FileTree

/-- The files that the package writes to: they are open, each path is there once, and
where links go round nowhere each place too. The tree has the links it started with. -/
structure FileTree.Serves (start : FileTree) (files : List (Path × Location)) (t : FileTree) :
    Prop where
  links : ∀ loc, start.link? loc = t.link? loc
  home : t.home = start.home
  distinct : (files.map (·.1)).Nodup
  opened : ∀ f ∈ files, t.Resolves f.1 f.2 ∧
    ∃ content modified, t.get? f.2 = some (.file content modified)
  straight : start.Tidy → start.LoopFree → ∀ f ∈ files, f.1 = pathOf f.2

namespace FileTree.Serves

variable {start t t' : FileTree} {files : List (Path × Location)}

theorem refl (t : FileTree) : Serves t [] t :=
  ⟨fun _ => rfl, rfl, by simp, by simp, by simp⟩

theorem trans (h : Serves start files t) (hlinks : ∀ loc, t.link? loc = t'.link? loc)
    (hhome : t'.home = t.home)
    (hfiles : ∀ loc, (∃ content modified, t.get? loc = some (.file content modified)) →
      ∃ content modified, t'.get? loc = some (.file content modified)) :
    Serves start files t' where
  links loc := (h.links loc).trans (hlinks loc)
  home := hhome.trans h.home
  distinct := h.distinct
  opened f hf :=
    let ⟨hresolves, hfile⟩ := h.opened f hf
    ⟨hresolves.congr hlinks hhome, hfiles f.2 hfile⟩
  straight := h.straight

theorem of_gains (h : Serves start files t) {dirs places : Location → Prop}
    (hgains : Gains t t' dirs places) : Serves start files t' :=
  h.trans hgains.link? hgains.home fun _ ⟨content, modified, hget⟩ =>
    ⟨content, modified, hgains.get?_of_some hget⟩

theorem of_extends (h : Serves start files t) {places : Location → Prop}
    (hextends : Extends t t' places) : Serves start files t' :=
  h.trans hextends.link? hextends.home fun _ => hextends.file

/-- The real path of a file that a real path was looked for is that of its place. -/
theorem eq_pathOf (h : Serves start files t) (htidy : start.Tidy) (hloops : start.LoopFree)
    {p q : Path} {loc : Location} (hreal : t.resolve p = .ok q) (hq : t.Resolves q loc) :
    q = pathOf loc := by
  have htidy' := htidy.congr h.links h.home
  obtain ⟨loc', hloc'⟩ := htidy'.resolves_of_resolve (hloops.congr h.links) hreal
  obtain ⟨rfl, hpath⟩ := htidy'.of_resolve hloc' hreal hq
  exact hpath

theorem concat (h : Serves start files t) {p : Path} {loc : Location}
    (hnew : p ∉ files.map (·.1)) (hp : t.Resolves p loc)
    (hfile : ∃ content modified, t.get? loc = some (.file content modified))
    (hstraight : start.Tidy → start.LoopFree → p = pathOf loc) :
    Serves start (files ++ [(p, loc)]) t where
  links := h.links
  home := h.home
  distinct := by
    rw [List.map_append, List.nodup_append]
    refine ⟨h.distinct, by simp, ?_⟩
    rintro a ha b hb rfl
    obtain rfl : a = p := by simpa using hb
    exact hnew ha
  opened f hf := by
    rcases List.mem_append.mp hf with hf | hf
    · exact h.opened f hf
    · obtain rfl := List.mem_singleton.mp hf
      exact ⟨hp, hfile⟩
  straight htidy hloops f hf := by
    rcases List.mem_append.mp hf with hf | hf
    · exact h.straight htidy hloops f hf
    · obtain rfl := List.mem_singleton.mp hf
      exact hstraight htidy hloops

end FileTree.Serves

namespace Handler

variable {files : List (Path × Location)} {hs : List Handler}

theorem places_of_files (h : hs.map (·.file) = none :: files.map some) :
    places hs = files.map (·.2) := by
  have hplaces : places hs = (hs.map (·.file)).filterMap (·.map (·.2)) := by
    rw [List.filterMap_map]
    rfl
  rw [hplaces, h, List.filterMap_cons_none rfl, List.filterMap_map]
  exact congrFun List.filterMap_eq_map files

theorem consoles_of_files (h : hs.map (·.file) = none :: files.map some) :
    consoles hs = 1 := by
  have hconsoles : consoles hs = (hs.map (·.file)).countP (·.isNone) := by
    rw [List.countP_map]
    rfl
  rw [hconsoles, h]
  simp [List.countP_map, Function.comp_def]

end Handler

/-- What calls leave of a journal that started with a tree. -/
structure Journal.Arranged (t : FileTree) (owners : List String)
    (files : List (Path × Location)) (j : Journal) : Prop where
  provided : j.loggers.Provided owners files
  serves : t.Serves files j.tree

structure Journal.Showing (level : Int) (j : Journal) : Prop where
  logger : (j.loggers.get packageLogger).level = .number level
  handlers : ∀ h ∈ (j.loggers.get packageLogger).handlers, h.level = .number level

/-- What can come of a call that is given a file, for the files that the package writes to: it
fails and they stay, none is given or its real path is among them already, or it is opened and
is the last of them. -/
inductive Journal.Opening (t : FileTree) (file : Value) (files : List (Path × Location)) :
    Except Failure Unit → List (Path × Location) → Prop
  | failed (f : Failure) : Opening t file files (.error f) files
  | none (null : file.isNull = true) : Opening t file files (.ok ()) files
  | again {p : Path} {loc : Location} (given : file.isNull = false) (real : t.RealPath file p)
      (there : (p, loc) ∈ files) : Opening t file files (.ok ()) files
  | opened {p : Path} {loc : Location} (given : file.isNull = false) (real : t.RealPath file p)
      (fresh : p ∉ files.map (·.1)) : Opening t file files (.ok ()) (files ++ [(p, loc)])

namespace Journal

variable {t : FileTree} {owners : List String} {files : List (Path × Location)}
  {j : Journal}

theorem Arranged.start (t : FileTree) : Arranged t [] [] { tree := t } :=
  ⟨.start, .refl t⟩

theorem Arranged.emit (h : Arranged t owners files j) (s : Stamp) (n : Notice) :
    Arranged t owners files (j.emit s n) where
  provided := by
    rw [loggers_emit]
    exact h.provided.ensure n.logger
  serves := h.serves.of_extends (extends_emit s j n)

theorem Showing.emit {level : Int} (h : Showing level j) (s : Stamp) (n : Notice) :
    Showing level (j.emit s n) := by
  have hget : (j.emit s n).loggers.get packageLogger = j.loggers.get packageLogger := by
    rw [loggers_emit, Loggers.get_ensure]
  refine ⟨?_, ?_⟩
  · rw [hget]
    exact h.logger
  · rw [hget]
    exact h.handlers

theorem Showing.equipped {level : Int} (hshowing : Showing level j)
    (h : j.loggers.Provided owners files) (hlevel : 0 < level) :
    Equipped files (j.loggers.get packageLogger) := by
  rcases h.package with ⟨-, hdefault⟩ | hequipped
  · have hunset := hshowing.logger
    rw [hdefault] at hunset
    have hzero : (0 : Int) = level := Level.number.inj hunset
    omega
  · exact hequipped

/-- Where no logger on their way was given handlers, records go where the package's go. -/
theorem Showing.handlers_of_clear {level : Int} (hshowing : Showing level j)
    (h : j.loggers.Provided owners files) (hlevel : 0 < level) {name : String}
    (hmember : Loggers.Member name)
    (hclear : ∀ m ∈ owners, m ≠ name ∧ ¬Loggers.StandsAbove m name) :
    (j.loggers.ensure name).handlers name = (j.loggers.get packageLogger).handlers ∧
      Loggers.effectiveLevel ((j.loggers.ensure name).lineage name) = level := by
  have hvalue : (j.loggers.get packageLogger).level.value = level := by
    rw [hshowing.logger]
    rfl
  have hpackage := Loggers.get_ensure j.loggers name packageLogger
  have hfree : ∀ m, Loggers.Packaged m → m ≠ packageLogger →
      (m = name ∨ Loggers.StandsAbove m name) → (j.loggers.ensure name).get m = {} := by
    intro m hm hne hway
    rw [Loggers.get_ensure]
    refine h.free m hm hne fun howner => ?_
    rcases hway with hsame | habove
    · exact (hclear m howner).1 hsame
    · exact (hclear m howner).2 habove
  have hclosed := (hshowing.equipped h hlevel).closed
  rw [← hpackage] at hclosed hvalue
  obtain ⟨hhandlers, heffective⟩ := Loggers.handlers_of_clear hmember hclosed (by omega) hfree
  rw [hvalue] at heffective
  rw [hpackage] at hhandlers
  exact ⟨hhandlers, heffective⟩

section Equip

variable (j) (name : String) (level : Option Int)

/-- The logger with a console handler of its own. -/
def ownLogger (level : Option Int) : Logger :=
  ⟨.number (level.getD 20), false, [⟨.number (level.getD 20), none⟩]⟩

theorem equip_levelValue :
    j.equip name (Setup.levelValue level) =
      (.ok (), if (j.loggers.get name).handlers = [] then
        { j with loggers := j.loggers.put name (ownLogger level) } else j) := by
  by_cases hempty : (j.loggers.get name).handlers = []
  · cases level <;>
      simp [equip, hempty, Setup.levelValue, Value.isNull, Level.ofValue, Level.info,
        Level.toValue, ownLogger]
  · simp [equip, hempty]

theorem nameOf_text : nameOf (.text name) = .ok name := by
  unfold nameOf
  split
  · rfl
  · rename_i hempty
    simp only [Value.truth] at hempty
    simp_all

theorem getLogger_text :
    j.getLogger (.text name) (Setup.levelValue level) =
      (.ok name, { j with
        loggers := if (j.loggers.get name).handlers = [] then
          (j.loggers.ensure name).put name (ownLogger level) else j.loggers.ensure name }) := by
  simp only [getLogger, look, nameOf_text, equip_levelValue, Loggers.get_ensure]
  split <;> rfl

end Equip

theorem Arranged.getLogger (h : Arranged t owners files j) (name : String)
    (level : Option Int) :
    Arranged t (owners ++ Setup.owners [.own name level]) files
        (j.getLogger (.text name) (Setup.levelValue level)).2 ∧
      (name = packageLogger → Equipped files
        ((j.getLogger (.text name) (Setup.levelValue level)).2.loggers.get packageLogger)) := by
  rw [getLogger_text]
  have hthere := h.provided.ensure name
  by_cases hname : name = packageLogger
  · subst hname
    have howners : owners ++ Setup.owners [.own packageLogger level] = owners := by
      simp [Setup.owners]
    rw [howners]
    rcases h.provided.package with ⟨rfl, hdefault⟩ | hequipped
    · have hown : Equipped [] (ownLogger level) := ⟨rfl, rfl⟩
      simp only [hdefault, if_true]
      refine ⟨⟨hthere.put_package hown, h.serves⟩, fun _ => ?_⟩
      rw [Loggers.get_put_self]
      exact hown
    · rw [if_neg hequipped.handlers_ne_nil]
      refine ⟨⟨hthere, h.serves⟩, fun _ => ?_⟩
      dsimp only
      rw [Loggers.get_ensure]
      exact hequipped
  · have howners : owners ++ Setup.owners [.own name level] = owners ++ [name] := by
      simp [Setup.owners, hname]
    rw [howners]
    refine ⟨⟨?_, h.serves⟩, fun hsame => absurd hsame hname⟩
    dsimp only
    split
    · exact hthere.put_own hname rfl (by simp [ownLogger])
    · rename_i hhandlers
      exact hthere.known hname (by rwa [Loggers.get_ensure])

theorem Arranged.setLevel (h : Arranged t owners files j)
    (hpackage : Equipped files (j.loggers.get packageLogger)) (level : Int) :
    Arranged t owners files (j.setLevel (.number level)) ∧
      Equipped files ((j.setLevel (.number level)).loggers.get packageLogger) ∧
      Showing level (j.setLevel (.number level)) := by
  unfold Journal.setLevel
  dsimp only
  have hleveled : Equipped files { j.loggers.get packageLogger with
      level := .number level
      handlers := (j.loggers.get packageLogger).handlers.map fun h =>
        { h with level := .number level } } := by
    refine ⟨hpackage.closed, ?_⟩
    rw [← hpackage.handlers, List.map_map]
    rfl
  refine ⟨⟨h.provided.put_package hleveled, h.serves⟩, ?_, ?_⟩
  · rw [Loggers.get_put_self]
    exact hleveled
  · refine ⟨?_, ?_⟩
    · rw [Loggers.get_put_self]
    · rw [Loggers.get_put_self]
      simp

theorem writesTo_iff (hpackage : Equipped files (j.loggers.get packageLogger)) (p : Path) :
    j.writesTo p = true ↔ p ∈ files.map (·.1) := by
  have hany : j.writesTo p = ((j.loggers.get packageLogger).handlers.map (·.file)).any
      fun file => file.any (·.1 = p) := by
    rw [List.any_map]
    rfl
  rw [hany, hpackage.handlers]
  simp [List.any_map, Function.comp_def]

theorem Arranged.attach (h : Arranged t owners files j)
    (hpackage : Equipped files (j.loggers.get packageLogger)) {level : Int}
    (hshowing : Showing level j) {p : Path} {loc : Location}
    (hserves : t.Serves (files ++ [(p, loc)]) j.tree) :
    Arranged t owners (files ++ [(p, loc)]) (j.attach (.number level) p loc) ∧
      Showing level (j.attach (.number level) p loc) := by
  unfold Journal.attach
  have hmore : Equipped (files ++ [(p, loc)]) { j.loggers.get packageLogger with
      handlers := (j.loggers.get packageLogger).handlers ++ [⟨.number level, some (p, loc)⟩] } := by
    refine ⟨hpackage.closed, ?_⟩
    simp [hpackage.handlers]
  refine ⟨⟨h.provided.put_package hmore, hserves⟩, ?_, ?_⟩
  · rw [Loggers.get_put_self]
    exact hshowing.logger
  · rw [Loggers.get_put_self]
    intro x hx
    rcases List.mem_append.mp hx with hx | hx
    · exact hshowing.handlers x hx
    · rw [List.mem_singleton.mp hx]

theorem Opening.origin {file : Value} {files' : List (Path × Location)}
    {result : Except Failure Unit} (h : Opening t file files result files') :
    ∀ f ∈ files', f ∈ files ∨ t.RealPath file f.1 := by
  intro f hf
  cases h with
  | failed | none | again => exact .inl hf
  | opened given real fresh =>
      rcases List.mem_append.mp hf with hf | hf
      · exact .inl hf
      · rw [List.mem_singleton.mp hf]
        exact .inr real

theorem Opening.mem {file : Value} {files' : List (Path × Location)}
    (h : Opening t file files (.ok ()) files') (hgiven : file.isNull = false) :
    ∃ p loc, t.RealPath file p ∧ (p, loc) ∈ files' := by
  cases h with
  | none null =>
      rw [hgiven] at null
      cases null
  | again given real there => exact ⟨_, _, real, there⟩
  | opened given real fresh =>
      exact ⟨_, _, real, List.mem_append_right _ (List.mem_singleton_self _)⟩

/-- Whatever comes of it, a file that could be opened is one of those that the package
writes to, and it writes to no other than before. -/
theorem Arranged.openFile (h : Arranged t owners files j)
    (hpackage : Equipped files (j.loggers.get packageLogger)) {level : Int}
    (hshowing : Showing level j) {file : Value} (hgiven : file.isNull = false) :
    ∃ files', Arranged t owners files' (j.openFile (.number level) file).2 ∧
      Showing level (j.openFile (.number level) file).2 ∧
      Opening j.tree file files (j.openFile (.number level) file).1 files' := by
  unfold Journal.openFile
  cases hreal : file.toPath.bind j.tree.resolve with
  | error f => exact ⟨files, h, hshowing, .failed f⟩
  | ok p =>
      dsimp only
      split
      · rename_i hwrites
        obtain ⟨f, hf, rfl⟩ := List.mem_map.mp ((writesTo_iff hpackage p).mp hwrites)
        exact ⟨files, h, hshowing, .again hgiven hreal hf⟩
      · rename_i hwrites
        have hdirs := FileTree.gains_makeDirectories (t := j.tree) (p := p.parent)
        rcases hmake : j.tree.makeDirectories p.parent with ⟨f | u, tree⟩
        · rw [hmake] at hdirs
          exact ⟨files, ⟨h.provided, h.serves.of_gains hdirs⟩, ⟨hshowing.1, hshowing.2⟩, .failed f⟩
        · rw [hmake] at hdirs
          have hserves := h.serves.of_gains hdirs
          dsimp only
          cases hopen : tree.openAppend p with
          | error f =>
              exact ⟨files, ⟨h.provided, hserves⟩, ⟨hshowing.1, hshowing.2⟩, .failed f⟩
          | ok opened =>
              obtain ⟨loc, tree'⟩ := opened
              obtain ⟨hp, hfile, hgains⟩ := FileTree.of_openAppend hopen
              have hnew : p ∉ files.map (·.1) := fun hold =>
                hwrites ((writesTo_iff hpackage p).mpr hold)
              have hmore := (hserves.of_gains hgains).concat hnew (hgains.resolves hp) hfile
                fun htidy hloops => by
                  cases hpath : file.toPath with
                  | error f => simp [hpath, Except.bind] at hreal
                  | ok q =>
                      rw [hpath] at hreal
                      exact h.serves.eq_pathOf htidy hloops hreal (hdirs.resolves_before hp)
              have hready : Arranged t owners files { j with tree := tree' } :=
                ⟨h.provided, hserves.of_gains hgains⟩
              obtain ⟨harranged, hshown⟩ := hready.attach hpackage ⟨hshowing.1, hshowing.2⟩ hmore
              exact ⟨_, harranged, hshown, .opened hgiven hreal hnew⟩

/-- On the way to the file directories are made where there were none, and the file
itself where there was none. -/
theorem gains_openFile (j : Journal) (lv : Level) (file : Value) :
    Gains j.tree (j.openFile lv file).2.tree
      (j.tree.AbovePlaceOf file) (j.tree.PlaceOf file) := by
  unfold Journal.openFile
  cases hreal : file.toPath.bind j.tree.resolve with
  | error f => exact .refl _ _ _
  | ok p =>
      dsimp only
      split
      · exact .refl _ _ _
      · have hdirs := FileTree.gains_makeDirectories (t := j.tree) (p := p.parent)
        rcases hmake : j.tree.makeDirectories p.parent with ⟨f | u, tree⟩
        · rw [hmake] at hdirs
          exact hdirs.mono (fun loc hway => ⟨p, hreal, hway⟩) fun _ => False.elim
        · rw [hmake] at hdirs
          have hway : Gains j.tree tree (j.tree.AbovePlaceOf file) (j.tree.PlaceOf file) :=
            hdirs.mono (fun loc hway => ⟨p, hreal, hway⟩) fun _ => False.elim
          dsimp only
          cases hopen : tree.openAppend p with
          | error f => exact hway
          | ok opened =>
              obtain ⟨loc, tree'⟩ := opened
              obtain ⟨hp, -, hgains⟩ := FileTree.of_openAppend hopen
              refine hway.trans (hgains.mono (fun _ => False.elim) ?_)
              rintro loc' rfl
              exact ⟨p, hreal, hdirs.resolves_before hp⟩

theorem enable_int (j : Journal) (level : Int) (file : Value) :
    j.enable (.int level) file =
      let j' := (j.getLogger (.text packageLogger) (Setup.levelValue (some level))).2.setLevel
        (.number level)
      if file.isNull then (.ok (), j') else j'.openFile (.number level) file := by
  have hget := getLogger_text j packageLogger (some level)
  simp only [enable, Setup.levelValue] at hget ⊢
  rw [hget]
  rfl

/-- The package's records are shown, and of the files nothing else comes than of opening the
one that was given. -/
theorem Arranged.enable_opening (h : Arranged t owners files j) (level : Int) (file : Value) :
    ∃ files', Arranged t owners files' (j.enable (.int level) file).2 ∧
      Showing level (j.enable (.int level) file).2 ∧
      Opening j.tree file files (j.enable (.int level) file).1 files' := by
  rw [enable_int]
  obtain ⟨hown, hequipped⟩ := h.getLogger packageLogger (some level)
  have htree : (j.getLogger (.text packageLogger) (Setup.levelValue (some level))).2.tree =
      j.tree := by rw [getLogger_text]
  generalize (j.getLogger (.text packageLogger) (Setup.levelValue (some level))).2 = j' at *
  have hown' : Arranged t owners files j' := by
    simpa [Setup.owners] using hown
  obtain ⟨hleveled, hpackage, hshowing⟩ := hown'.setLevel (hequipped rfl) level
  dsimp only
  split
  · rename_i hnull
    exact ⟨files, hleveled, hshowing, .none hnull⟩
  · rename_i hnull
    rw [← htree]
    exact hleveled.openFile hpackage hshowing (by simpa using hnull)

/-- The package's records are shown, in a file too where one was given and could be
opened. -/
theorem Arranged.enable (h : Arranged t owners files j) (level : Int) (file : Value) :
    ∃ files', Arranged t owners files' (j.enable (.int level) file).2 ∧
      Showing level (j.enable (.int level) file).2 ∧
      (∀ f ∈ files', f ∈ files ∨ j.tree.RealPath file f.1) ∧
      ((j.enable (.int level) file).1 = .ok () → file.isNull = false →
        ∃ p loc, j.tree.RealPath file p ∧ (p, loc) ∈ files') := by
  obtain ⟨files', harranged, hshowing, hopening⟩ := h.enable_opening level file
  refine ⟨files', harranged, hshowing, hopening.origin, fun hok hgiven => ?_⟩
  rw [hok] at hopening
  exact hopening.mem hgiven

theorem gains_enable (j : Journal) (level : Int) (file : Value) :
    Gains j.tree (j.enable (.int level) file).2.tree
      (j.tree.AbovePlaceOf file) (j.tree.PlaceOf file) := by
  have htree : (j.getLogger (.text packageLogger) (Setup.levelValue (some level))).2.tree =
      j.tree := by rw [getLogger_text]
  rw [enable_int, ← htree]
  dsimp only
  split
  · exact .refl _ _ _
  · exact gains_openFile (setLevel _ (.number level)) (.number level) file

theorem Arranged.after (h : Arranged t owners files j) (calls : List Setup) :
    ∃ files', Arranged t (owners ++ Setup.owners calls) files' (Setup.after j calls) := by
  induction calls generalizing owners files j with
  | nil => exact ⟨files, by simpa [Setup.owners, Setup.after] using h⟩
  | cons c calls ih =>
      have hsplit : owners ++ Setup.owners (c :: calls) =
          (owners ++ Setup.owners [c]) ++ Setup.owners calls := by
        rw [List.append_assoc, Setup.owners, Setup.owners, Setup.owners, ← List.filterMap_append]
        rfl
      rw [hsplit]
      cases c with
      | own name level => exact ih (h.getLogger name level).1
      | enable level file =>
          obtain ⟨files', hnext, -⟩ := h.enable level file
          have howners : owners ++ Setup.owners [.enable level file] = owners := by
            simp [Setup.owners]
          rw [howners]
          exact ih hnext

end Journal

end FileStash
