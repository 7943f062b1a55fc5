import FileStash.Proofs.FileCache.Deposits
import FileStash.Proofs.FileCache.Settling
import FileStash.Proofs.Session.Independence

namespace FileStash

open FileTree (pathOf Housed Tended)

theorem FileSource.noSlash_of_readIn {t : FileTree} {file : FileSource} {name : String}
    {content : List UInt8} (hslash : ∀ p, file.path? = some p → p.Unslashed)
    (h : file.readIn t = .ok (name, content)) : '/' ∉ name.toList := by
  obtain ⟨p, hpath, rfl⟩ := path?_of_readIn h
  cases hlast : p.parts.getLast? with
  | none => simp [Path.name, hlast]
  | some c =>
      simpa [Path.name, hlast] using hslash p hpath c (List.mem_of_getLast? hlast)

theorem World.Lasts.before {key : String} {w w' : World} (h : Lasts key w w') {e : Entry}
    (he : w'.server.server.live? key = some e) : w.server.server.live? key = some e := by
  rw [h.live] at he
  exact (Option.filter_eq_some_iff.mp he).1

namespace FileCache

/-- A session with a cache: it stores and restores files, anybody deletes keys, and nobody
else changes what is under its keys or saves files. -/
inductive Works (c : FileCache) (first : String) : Step → Prop
  | store (file : FileSource) (limit : Value) (h : ∀ p, file.path? = some p → p.Unslashed) :
      Works c first (.request (.store c file limit))
  | restore (name : Value) : Works c first (.request (.restore c name))
  | delete (key : Value) : Works c first (.request (.operate (.delete key)))
  | other (r : Request) (hfiles : ¬r.Saves) (hkeys : ∀ name, ¬r.Changes (first ++ name)) :
      Works c first (.request r)
  | wait (milliseconds : Nat) : Works c first (.wait milliseconds)

/-- A step stores a file under its base name, and does not fail. -/
def StoredBy (c : FileCache) (first : String) (w : World) (st : Step) (name : String)
    (content : List UInt8) : Prop :=
  ∃ file limit, st = .request (.store c file limit) ∧
    w.answer (.store c file limit) = .ok (.text (first ++ name)) ∧
    file.readIn w.tree = .ok (name, content)

def StoredIn (c : FileCache) (first : String) (w : World) (steps : List Step) (name : String)
    (content : List UInt8) : Prop :=
  ∃ before st behind, steps = before ++ st :: behind ∧
    StoredBy c first (w.after before) st name content

variable {c : FileCache} {first name : String} {dir : Location} {w : World} {st : Step}
  {steps : List Step} {content : List UInt8} {stored stored' : String → List UInt8 → Prop}

theorem StoredBy.here (h : StoredBy c first w st name content) (steps : List Step) :
    StoredIn c first w (st :: steps) name content :=
  ⟨[], st, steps, rfl, h⟩

theorem StoredIn.later (h : StoredIn c first (w.step st) steps name content) :
    StoredIn c first w (st :: steps) name content := by
  obtain ⟨before, st', behind, rfl, hst'⟩ := h
  exact ⟨st :: before, st', behind, rfl, hst'⟩

/-- An entry is the record of a file that has been stored under a name. -/
def Accounted (stored : String → List UInt8 → Prop) (name : String) (e : Entry) : Prop :=
  ∃ content fields, e.content = .hash fields ∧ Holds name content fields ∧
    '/' ∉ name.toList ∧ stored name content

theorem Accounted.mono {e : Entry} (h : Accounted stored name e)
    (himp : ∀ name content, stored name content → stored' name content) :
    Accounted stored' name e := by
  obtain ⟨content, fields, hhash, hholds, hslash, hstored⟩ := h
  exact ⟨content, fields, hhash, hholds, hslash, himp _ _ hstored⟩

/-- All that is under the keys of a cache are records of files that have been stored. -/
structure Stocked (c : FileCache) (first : String) (dir : Location)
    (stored : String → List UInt8 → Prop) (w : World) : Prop where
  plain : w.Plain
  house : Housed w.tree c.scratchDir dir
  records : ∀ name e, w.server.server.live? (first ++ name) = some e → Accounted stored name e

structure OnRecord (first : String) (stored : String → List UInt8 → Prop) (w : World)
    (name : String) (content : List UInt8) (fields : Dict String String) : Prop where
  named : name ≠ ""
  notBlank : Text.allBlank (first ++ name) = false
  live : ∃ deadline, w.server.server.live? (first ++ name) = some ⟨.hash fields, deadline⟩
  holds : Holds name content fields
  noSlash : '/' ∉ name.toList
  stored : stored name content

theorem Works.shares (hst : Works c first st) (hchanges : st.Changes (first ++ name)) :
    ∃ r, st = .request r ∧ r.Shares ∧ r.Changes (first ++ name) ∧
      ∀ c' file limit, r = .store c' file limit →
        c' = c ∧ ∀ p, file.path? = some p → p.Unslashed := by
  cases hst with
  | store file limit h =>
      refine ⟨_, rfl, trivial, hchanges, fun c' file' limit' hsame => ?_⟩
      cases hsame
      exact ⟨rfl, h⟩
  | delete key => exact ⟨_, rfl, trivial, hchanges, nofun⟩
  | restore name => exact absurd trivial hchanges.1
  | other r _ hkeys => exact absurd hchanges (hkeys name)
  | wait milliseconds => exact hchanges.elim

section Step

variable (hlead : c.keyPrefix.plain = .ok first)
include hlead

/-- What is under a key after a step was there before, or is the record of what has just been
stored. -/
theorem live_step_cases (hplain : w.Plain) (hst : Works c first st) {e : Entry}
    (he : (w.step st).server.server.live? (first ++ name) = some e) :
    w.server.server.live? (first ++ name) = some e ∨
      Accounted (StoredBy c first w st) name e := by
  by_cases hchanges : st.Changes (first ++ name)
  · obtain ⟨r, rfl, hr, hchanges, hstore⟩ := hst.shares hchanges
    cases hanswer : w.answer r with
    | error f =>
        have hagrees := World.agrees_of_failure hplain hr hanswer
        exact .inl (hagrees.server.server.live _ ▸ he)
    | ok v =>
        rcases gone_or_kept hplain hr hchanges hanswer with
          hgone | ⟨c', file, limit, name', content, e', rfl, rfl, hkept⟩
        · rw [hgone] at he
          cases he
        · obtain ⟨rfl, hslash⟩ := hstore c' file limit rfl
          have hkeys := hkept.keyed
          rw [cacheKey_text hlead, Except.ok.injEq, String.append_right_inj] at hkeys
          subst hkeys
          obtain rfl : e' = e := Option.some.inj (hkept.live.symm.trans he)
          obtain ⟨fields, hhash, hholds⟩ := hkept.record
          exact .inr ⟨content, fields, hhash, hholds,
            FileSource.noSlash_of_readIn hslash hkept.read, file, limit, rfl, hanswer, hkept.read⟩
  · exact .inl ((World.Lasts.step_unchanged w hchanges).before he)

namespace Stocked

variable (h : Stocked c first dir stored w)
include h

omit hlead in
theorem mono (himp : ∀ name content, stored name content → stored' name content) :
    Stocked c first dir stored' w :=
  ⟨h.plain, h.house, fun name e he => (h.records name e he).mono himp⟩

theorem restore_cases (name : Value) :
    (w.step (.request (.restore c name))).tree = w.tree ∧
        (∀ p, w.answer (.restore c name) ≠ .ok (.path p)) ∨
      ∃ n content fields, name = .text n ∧ OnRecord first stored w n content fields ∧
        w.answer (.restore c name) = (c.deliver w.tree (.text n) content).1.map .path ∧
        (w.step (.request (.restore c name))).tree = (c.deliver w.tree (.text n) content).2 := by
  rw [World.tree_step_restore, World.answer_restore]
  rcases FileCache.restore_cases ScriptedServer.call c name w.server w.tree with
    ⟨e, hresult, htree, -⟩ | ⟨n, es, rfl, hname, hentries, -, -⟩
  · refine .inl ⟨htree, fun p hp => ?_⟩
    rw [hresult] at hp
    cases hp
  · have hkey := cacheKey_text hlead n
    have hblank : Text.allBlank (first ++ n) = false := by
      rw [result_entries h.plain] at hentries
      cases hblank : Text.allBlank (first ++ n) with
      | false => rfl
      | true => simp [found, hkey, hblank] at hentries
    cases hlive : w.server.server.live? (first ++ n) with
    | none =>
        obtain ⟨hresult, htree⟩ := run_restore_absent h.plain hname hkey hblank hlive
        refine .inl ⟨htree, fun p hp => ?_⟩
        rw [hresult] at hp
        cases hp
    | some e =>
        obtain ⟨content, fields, hhash, hholds, hslash, hstored⟩ := h.records n e hlive
        obtain ⟨_, deadline⟩ := e
        cases hhash
        obtain ⟨hanswer, htree⟩ := restore_of_live h.plain hname hkey hblank hholds hlive
        rw [World.answer_restore] at hanswer
        rw [World.tree_step_restore] at htree
        exact .inr ⟨n, content, fields, rfl,
          ⟨hname, hblank, ⟨deadline, hlive⟩, hholds, hslash, hstored⟩, hanswer, htree⟩

theorem tended_step (hst : Works c first st) :
    Tended dir w.tree (w.step st).tree ∧ Housed (w.step st).tree c.scratchDir dir := by
  have hquiet : (w.step st).tree = w.tree →
      Tended dir w.tree (w.step st).tree ∧ Housed (w.step st).tree c.scratchDir dir := by
    intro htree
    rw [htree]
    exact ⟨.refl dir w.tree, h.house⟩
  cases hst with
  | store file limit => exact hquiet (World.tree_step (fun hsaves => hsaves))
  | delete key => exact hquiet (World.tree_step (fun hsaves => hsaves))
  | other r hfiles => exact hquiet (World.tree_step hfiles)
  | wait milliseconds => exact hquiet rfl
  | restore name =>
      rcases h.restore_cases hlead name with ⟨htree, -⟩ | ⟨n, content, fields, -, hrecord, -, htree⟩
      · exact hquiet htree
      · rw [htree]
        exact tended_deliver h.house hrecord.noSlash content

theorem step (hst : Works c first st) :
    Stocked c first dir
      (fun name content => stored name content ∨ StoredBy c first w st name content)
      (w.step st) where
  plain := (World.script_step w st).trans h.plain
  house := (h.tended_step hlead hst).2
  records name e he := by
    rcases live_step_cases hlead h.plain hst he with hbefore | hnew
    · exact (h.records name e hbefore).mono fun _ _ => .inl
    · exact hnew.mono fun _ _ => .inr

theorem after (hsteps : ∀ st ∈ steps, Works c first st) :
    Tended dir w.tree (w.after steps).tree ∧
      Stocked c first dir
        (fun name content => stored name content ∨ StoredIn c first w steps name content)
        (w.after steps) := by
  induction steps generalizing w stored with
  | nil => exact ⟨.refl dir w.tree, h.mono fun _ _ => .inl⟩
  | cons st steps ih =>
      have hst := hsteps st List.mem_cons_self
      obtain ⟨htended, hstocked⟩ := ih (h.step hlead hst) fun st' hst' =>
        hsteps st' (List.mem_cons_of_mem st hst')
      refine ⟨(h.tended_step hlead hst).1.trans htended, hstocked.mono fun name content => ?_⟩
      rintro ((hstored | hnew) | hlater)
      · exact .inl hstored
      · exact .inr (hnew.here steps)
      · exact .inr hlater.later

/-- What has been restored is a file directly in the scratch directory, under the name that it
was stored under. -/
theorem restored {name : Value} {p : Path} (hp : w.answer (.restore c name) = .ok (.path p)) :
    ∃ n content fields, name = .text n ∧ OnRecord first stored w n content fields ∧
      p = pathOf (dir ++ [n]) ∧ Text.Utf8.size p.text ≤ FileTree.maxPath ∧
      (w.step (.request (.restore c name))).tree.FileAt (dir ++ [n]) ∧
      (w.step (.request (.restore c name))).tree.read p = .ok content := by
  rcases h.restore_cases hlead name with
    ⟨-, hno⟩ | ⟨n, content, fields, rfl, hrecord, hanswer, htree⟩
  · exact absurd hp (hno p)
  · rw [hanswer] at hp
    cases hdeliver : (c.deliver w.tree (.text n) content).1 with
    | error e =>
        rw [hdeliver] at hp
        cases hp
    | ok p' =>
        rw [hdeliver] at hp
        cases hp
        obtain ⟨hplace, hshort, hfile, hread⟩ :=
          of_deliver_housed h.house hrecord.noSlash hdeliver
        rw [htree]
        exact ⟨n, content, fields, rfl, hrecord, hplace, hshort, hfile, hread⟩

theorem restore_done {n : String} {fields : Dict String String}
    (hrecord : OnRecord first stored' w n content fields) (hroom : Room w.tree dir n) :
    w.answer (.restore c (.text n)) = .ok (.path (pathOf (dir ++ [n]))) ∧
      (w.step (.request (.restore c (.text n)))).tree.read (pathOf (dir ++ [n])) = .ok content := by
  have hlegal : FileTree.LegalName n := hroom.takes.legal n (by simp [pathOf])
  obtain ⟨deadline, hlive⟩ := hrecord.live
  obtain ⟨hanswer, htree⟩ := restore_of_live h.plain hrecord.named (cacheKey_text hlead n)
    hrecord.notBlank hrecord.holds hlive
  have hsafe := h.house.safePath hlegal.plain hlegal.noSlash hlegal.noNul
  obtain ⟨t', hsettle, hread⟩ := hroom.settle_done content
  rw [hanswer, htree, deliver_of_safePath hsafe, hsettle]
  exact ⟨rfl, hread⟩

end Stocked

end Step

end FileCache

end FileStash
