import FileStash.Proofs.FileCache.Delivery
import FileStash.Proofs.FileCache.FailedStore
import FileStash.Proofs.FileCache.Lifetime
import FileStash.Proofs.FileTree.Chain

/-!
A cache without time limits as a map from base names to contents. Each step of a
session keeps the record of a name in step with the map, as long as nobody but
the cache writes under the name's key.
-/

namespace FileStash

abbrev Shelf := String → Option (List UInt8)

namespace Shelf

def put (shelf : Shelf) (name : String) (content : List UInt8) : Shelf :=
  fun n => if n = name then some content else shelf n

/-- What a step does to the map: a store that succeeds puts the content under
the base name of its source, and a key that is deleted takes its name with
it. -/
def step (c : FileCache) (w : World) (shelf : Shelf) : Step → Shelf
  | .request (.store c' file limit) =>
      match w.answer (.store c' file limit), file.readIn w.tree with
      | .ok _, .ok (name, content) => shelf.put name content
      | _, _ => shelf
  | .request (.operate (.delete (.text key))) =>
      fun name => if c.cacheKey (.text name) = .ok key then none else shelf name
  | _ => shelf

def after (c : FileCache) : World → Shelf → List Step → Shelf
  | _, shelf, [] => shelf
  | w, shelf, st :: steps => after c (w.step st) (shelf.step c w st) steps

end Shelf

namespace FileCache

open FileTree (pathOf)

variable {c : FileCache} {first name key : String} {w : World}

/-- A session with a cache, as far as the file under one key goes: the cache
stores files without a time limit, anybody looks files up, the key is deleted,
and other operations are about other keys. -/
inductive Tends (c : FileCache) (key : String) : Step → Prop
  | store (file : FileSource) : Tends c key (.request (.store c file .null))
  | restore (c' : FileCache) (name : Value) : Tends c key (.request (.restore c' name))
  | restoreBytes (c' : FileCache) (name : Value) :
      Tends c key (.request (.restoreBytes c' name))
  | contains (c' : FileCache) (name : Value) :
      Tends c key (.request (.contains c' name))
  | delete : Tends c key (.request (.operate (.delete (.text key))))
  | operate (op : Store.Operation) (h : ¬op.Names key) :
      Tends c key (.request (.operate op))
  | wait (milliseconds : Nat) : Tends c key (.wait milliseconds)
  | files (t : FileTree) : Tends c key (.files t)

/-- The key of a name holds what the map has under the name, and will do so for
ever. -/
structure Shelved (name key : String) (w : World) (held : Option (List UInt8)) :
    Prop where
  plain : w.server.script = []
  absent : held = none → w.server.server.live? key = none
  present : ∀ content, held = some content → ∃ fields,
    w.server.server.live? key = some ⟨.hash fields, none⟩ ∧ Holds name content fields

theorem notBlank_of_prefix (h : Text.allBlank first = false) (name : String) :
    Text.allBlank (first ++ name) = false := by
  simp only [Text.allBlank, String.toList_append, List.all_append,
    Bool.and_eq_false_iff]
  exact .inl h

theorem agrees_of_answer_error (hplain : w.server.script = []) {file : FileSource}
    {limit : Value} {e : StoreError} (h : w.answer (.store c file limit) = .error e) :
    (w.step (.request (.store c file limit))).server.Agrees w.server := by
  rw [World.answer_store, run_store] at h
  rw [World.step_store, run_store]
  cases hpack : c.pack file limit w.tree with
  | error e' => exact .refl w.server
  | ok p =>
      have hundone : p.send.Undone (ScriptedServer.interrupted fun _ _ => none)
        Store.Traceless := p.undone_send
      simp only [hpack] at h ⊢
      cases hresult : (p.send.run ScriptedServer.call w.server w.tree).result with
      | error e' =>
          exact (hundone w.server w.tree e' hresult).resolve_left
            (ScriptedServer.not_interruptsLimit_of_plain hplain e')
      | ok key =>
          rw [hresult] at h
          cases h

namespace Shelved

variable {held : Option (List UInt8)}

theorem empty (name key : String) (t : FileTree) :
    Shelved name key ⟨{}, t⟩ none where
  plain := rfl
  absent _ := rfl
  present _ h := by cases h

theorem congr {w' : World} (h : Shelved name key w held)
    (hscript : w'.server.script = w.server.script)
    (hlive : w'.server.server.live? key = w.server.server.live? key) :
    Shelved name key w' held where
  plain := hscript.trans h.plain
  absent hheld := hlive.trans (h.absent hheld)
  present content hheld := by
    obtain ⟨fields, hfields, hholds⟩ := h.present content hheld
    exact ⟨fields, hlive.trans hfields, hholds⟩

theorem no_deadline (h : Shelved name key w held) :
    (w.server.server.live? key).bind (·.deadline) = none := by
  cases hheld : held with
  | none => rw [h.absent hheld]; rfl
  | some content =>
      obtain ⟨fields, hfields, -⟩ := h.present content hheld
      rw [hfields]
      rfl

theorem wait (h : Shelved name key w held) (milliseconds : Nat) :
    Shelved name key (w.step (.wait milliseconds)) held := by
  refine h.congr rfl ?_
  change (w.server.server.advance milliseconds).live? key = _
  rw [Server.live?_advance]
  cases hheld : held with
  | none => rw [h.absent hheld]; rfl
  | some content =>
      obtain ⟨fields, hfields, -⟩ := h.present content hheld
      rw [hfields]
      rfl

theorem look {r : Request} (hr : r.Reads) (h : Shelved name key w held) :
    Shelved name key (w.step (.request r)) held := by
  have hagrees := w.agrees_of_reads hr
  exact h.congr hagrees.script (hagrees.server.live key)

theorem other {r : Request} (hr : ¬r.Names key) (h : Shelved name key w held) :
    Shelved name key (w.step (.request r)) held := by
  have hkeep := Request.keeps_run hr w.server w.tree
  exact h.congr hkeep.script hkeep.live?

theorem delete (hblank : Text.allBlank key = false)
    (h : Shelved name key w held) :
    Shelved name key (w.step (.request (.operate (.delete (.text key))))) none := by
  have hkeyed : Store.requireKey (.text key) = .ok key :=
    (Store.requireKey_eq_ok_iff _ _).mpr ⟨rfl, hblank⟩
  have hact := Server.actsOn_run w.server.server (c := .delete [key]) rfl
  have hstate : (w.step (.request (.operate (.delete (.text key))))).server =
      { w.server with server := (w.server.server.run (.delete [key])).2 } := by
    simp only [World.step, World.perform, Request.program, Store.Operation.program]
    rw [Store.run_answering]
    simp only [Store.delete, Store.checked, hkeyed, Program.bind_eq_andThen,
      Program.ofExcept, Program.andThen_done]
    rw [Program.run_andThen, Store.run_ask h.plain hact.answer]
    rfl
  have hlive : (w.step (.request (.operate (.delete (.text key))))).server.server.live? key =
      none := by
    rw [hstate]
    exact hact.here
  exact ⟨by rw [hstate]; exact h.plain, fun _ => hlive, fun _ hsome => by cases hsome⟩

/-- A store puts its content under its own name and leaves the other names
alone. -/
theorem store (hlead : c.keyPrefix.plain = .ok first) (hlimit : c.ttl = none)
    (file : FileSource) {shelf : Shelf}
    (h : Shelved name (first ++ name) w (shelf name)) :
    Shelved name (first ++ name) (w.step (.request (.store c file .null)))
      (shelf.step c w (.request (.store c file .null)) name) := by
  have hseconds : c.effectiveTtl .null = .ok none := by simp [effectiveTtl, hlimit]
  cases hanswer : w.answer (.store c file .null) with
  | error e =>
      have hagrees := agrees_of_answer_error h.plain hanswer
      simp only [Shelf.step, hanswer]
      exact h.congr hagrees.script (hagrees.server.live _)
  | ok v =>
      obtain ⟨name', key, content, fields, -, hrec⟩ :=
        recorded_of_answer h.plain hseconds hanswer
      have hkey : key = first ++ name' :=
        Except.ok.inj (hrec.keyed.symm.trans (cacheKey_text hlead name'))
      simp only [Shelf.step, hanswer, hrec.read, Shelf.put]
      by_cases hname : name = name'
      · subst hname
        have hlive := hrec.live
        rw [hkey, h.no_deadline] at hlive
        simp only [if_true]
        refine ⟨hrec.script, fun hheld => ?_, fun _ hheld => ?_⟩
        · cases hheld
        · cases hheld
          exact ⟨fields, hlive, hrec.holds⟩
      · -- Another name has another key, since all keys begin alike.
        simp only [hname, if_false]
        refine h.other ?_
        rintro ⟨p, hpath, hpkey⟩
        obtain ⟨p', hpath', hp'⟩ := FileSource.path?_of_readIn hrec.read
        cases hpath.symm.trans hpath'
        rw [hp', cacheKey_text hlead] at hpkey
        exact hname ((String.append_right_inj first).mp (Except.ok.inj hpkey)).symm

theorem operate {op : Store.Operation} (hop : ¬op.Names (first ++ name))
    (hlead : c.keyPrefix.plain = .ok first) {shelf : Shelf}
    (h : Shelved name (first ++ name) w (shelf name)) :
    Shelved name (first ++ name) (w.step (.request (.operate op)))
      (shelf.step c w (.request (.operate op)) name) := by
  have hsame : shelf.step c w (.request (.operate op)) name = shelf name := by
    cases op
    case delete k =>
      cases k with
      | text k =>
          have hk : c.cacheKey (.text name) ≠ .ok k := by
            intro hkey
            cases hkey.symm.trans (cacheKey_text hlead name)
            exact hop (List.mem_singleton.mpr rfl)
          simp only [Shelf.step, hk, if_false]
      | _ => rfl
    all_goals rfl
  rw [hsame]
  exact h.other hop

theorem step (hlead : c.keyPrefix.plain = .ok first) (hlimit : c.ttl = none)
    (hblank : Text.allBlank (first ++ name) = false) {st : Step}
    (hst : Tends c (first ++ name) st) {shelf : Shelf}
    (h : Shelved name (first ++ name) w (shelf name)) :
    Shelved name (first ++ name) (w.step st) (shelf.step c w st name) := by
  cases hst with
  | store file => exact h.store hlead hlimit file
  | restore c' n | restoreBytes c' n | contains c' n => exact h.look trivial
  | delete =>
      simp only [Shelf.step, cacheKey_text hlead, if_true]
      exact h.delete hblank
  | operate op hop => exact h.operate hop hlead
  | wait milliseconds => exact h.wait milliseconds
  | files t => exact h.congr rfl rfl

theorem after (hlead : c.keyPrefix.plain = .ok first) (hlimit : c.ttl = none)
    (hblank : Text.allBlank (first ++ name) = false) {steps : List Step}
    (hsteps : ∀ st ∈ steps, Tends c (first ++ name) st) {shelf : Shelf}
    (h : Shelved name (first ++ name) w (shelf name)) :
    Shelved name (first ++ name) (w.after steps)
      (Shelf.after c w shelf steps name) := by
  induction steps generalizing w shelf with
  | nil => exact h
  | cons st steps ih =>
      have hfirst := h.step hlead hlimit hblank (hsteps st (List.mem_cons_self ..))
      exact ih (fun st' hst' => hsteps st' (List.mem_cons_of_mem st hst')) hfirst

section Answers

variable {held : Option (List UInt8)} {content : List UInt8}

theorem hash (h : Shelved name key w held) :
    ∃ fields, Server.hashUnder (w.server.server.live? key) = some fields := by
  cases hheld : held with
  | none => exact ⟨[], by rw [h.absent hheld]; rfl⟩
  | some content =>
      obtain ⟨fields, hfields, -⟩ := h.present content hheld
      exact ⟨fields, by rw [hfields]; rfl⟩

theorem answer_restoreBytes (h : Shelved name key w held) (hname : name ≠ "")
    (hkey : c.cacheKey (.text name) = .ok key)
    (hblank : Text.allBlank key = false) :
    w.answer (.restoreBytes c (.text name)) = .ok (.bytes (held.getD [])) := by
  cases hheld : held with
  | none => exact (misses_of_live h.plain hname hkey hblank (h.absent hheld)).empty
  | some content =>
      obtain ⟨fields, hlive, hholds⟩ := h.present content hheld
      exact (gets_of_live h.plain hname hkey hblank hholds hlive).content

theorem answer_contains (h : Shelved name key w held) (hname : name ≠ "")
    (hkey : c.cacheKey (.text name) = .ok key)
    (hblank : Text.allBlank key = false) :
    w.answer (.contains c (.text name)) = .ok (.bool held.isSome) := by
  cases hheld : held with
  | none => exact (misses_of_live h.plain hname hkey hblank (h.absent hheld)).absent
  | some content =>
      obtain ⟨fields, hlive, hholds⟩ := h.present content hheld
      exact (gets_of_live h.plain hname hkey hblank hholds hlive).there

theorem answer_store (h : Shelved name key w held) (hlimit : c.ttl = none)
    (hkey : c.cacheKey (.text name) = .ok key)
    (hblank : Text.allBlank key = false) {file : FileSource}
    (hread : file.readIn w.tree = .ok (name, content)) :
    w.answer (.store c file .null) = .ok (.text key) := by
  obtain ⟨fields, hunder⟩ := h.hash
  have hseconds : c.effectiveTtl .null = .ok none := by simp [effectiveTtl, hlimit]
  rw [World.answer_store, result_store h.plain hseconds hread hkey hblank hunder]
  rfl

theorem answer_restore (h : Shelved name key w (some content))
    (hname : name ≠ "") (hkey : c.cacheKey (.text name) = .ok key)
    (hblank : Text.allBlank key = false) :
    w.answer (.restore c (.text name)) =
      (c.deliver w.tree (.text name) content).1.map .path ∧
      (w.step (.request (.restore c (.text name)))).tree =
        (c.deliver w.tree (.text name) content).2 := by
  obtain ⟨fields, hlive, hholds⟩ := h.present content rfl
  exact restore_of_live h.plain hname hkey hblank hholds hlive

theorem restore_null_iff (h : Shelved name key w held) (hname : name ≠ "")
    (hkey : c.cacheKey (.text name) = .ok key)
    (hblank : Text.allBlank key = false) :
    w.answer (.restore c (.text name)) = .ok .null ↔ held = none := by
  constructor
  · intro hnull
    cases held with
    | none => rfl
    | some content =>
        rw [(h.answer_restore hname hkey hblank).1] at hnull
        cases hdelivered : (c.deliver w.tree (.text name) content).1 <;>
          simp [hdelivered, Except.map] at hnull
  · intro hnone
    rw [World.answer_restore, (run_restore_absent h.plain hname hkey hblank
      (h.absent hnone)).1]
    rfl

/-- What is held comes back as a file, unless the path of the file is too long
for the system. -/
theorem restored (h : Shelved name key w (some content)) (hname : name ≠ "")
    (hkey : c.cacheKey (.text name) = .ok key)
    (hblank : Text.allBlank key = false) {loc : Location}
    (hplaced : Placed w.tree c.scratchDir loc name) :
    if Text.Utf8.size (pathOf (loc ++ [name])).text ≤ FileTree.maxPath then
      w.answer (.restore c (.text name)) = .ok (.path (pathOf (loc ++ [name]))) ∧
        (w.step (.request (.restore c (.text name)))).tree.read
          (pathOf (loc ++ [name])) =
          .ok content
    else ∃ e, w.answer (.restore c (.text name)) = .error e := by
  obtain ⟨hanswer, htree⟩ := h.answer_restore hname hkey hblank
  rw [hanswer, htree]
  split
  · rename_i hshort
    obtain ⟨t', hdelivered, hread⟩ := hplaced.deliver_done hshort content
    rw [hdelivered]
    exact ⟨rfl, hread⟩
  · rename_i hlong
    obtain ⟨e, hdelivered⟩ := hplaced.deliver_too_long (Nat.not_le.mp hlong) content
    rw [hdelivered]
    exact ⟨e, rfl⟩

end Answers

end Shelved

theorem readIn_opened {name : String} (h : FileTree.LegalName name)
    (content : List UInt8) (t : FileTree) :
    FileSource.readIn t (.opened (some (.text name)) (.ok (.bytes content))) =
      .ok (name, content) := by
  have hpath := Path.ofText_of_part ⟨h.plain.1, h.plain.2.1⟩ h.noSlash
  rw [FileSource.readIn_opened_text h.plain.1, hpath]
  rfl

theorem stored_beyond_reach {t : FileTree} {loc : Location}
    (hlead : c.keyPrefix.plain = .ok first)
    (hfirst : Text.allBlank first = false) (hlimit : c.ttl = none)
    (hplaced : Placed t c.scratchDir loc name)
    (hlong : FileTree.maxPath < Text.Utf8.size (pathOf (loc ++ [name])).text)
    (content : List UInt8) :
    let w := World.step ⟨{}, t⟩
      (.request (.store c (.opened (some (.text name)) (.ok (.bytes content))) .null))
    Placed w.tree c.scratchDir loc name ∧
      w.answer (.restoreBytes c (.text name)) = .ok (.bytes content) ∧
      ∃ e, w.answer (.restore c (.text name)) = .error e := by
  intro w
  have hname : name ≠ "" := hplaced.legal.plain.1
  have hkey := cacheKey_text hlead name
  have hblank := notBlank_of_prefix hfirst name
  have hread := readIn_opened hplaced.legal content t
  let nothing : Shelf := fun _ => none
  have hempty : Shelved name (first ++ name) ⟨{}, t⟩ (nothing name) := .empty name _ t
  have hshelved := hempty.store hlead hlimit
    (.opened (some (.text name)) (.ok (.bytes content)))
  simp only [Shelf.step, hempty.answer_store hlimit hkey hblank hread, hread, Shelf.put,
    if_true] at hshelved
  have htree : w.tree = t := congrArg World.tree (World.step_store ..)
  have hplaced' : Placed w.tree c.scratchDir loc name := htree ▸ hplaced
  have hrestored := hshelved.restored hname hkey hblank hplaced'
  rw [if_neg (Nat.not_le.mpr hlong)] at hrestored
  exact ⟨hplaced', hshelved.answer_restoreBytes hname hkey hblank, hrestored⟩

theorem placed_chain {d name : String} {n : Nat} (hd : FileTree.LegalName d)
    (hname : FileTree.LegalName name)
    (hshort : Text.Utf8.size (pathOf (List.replicate n d)).text ≤ FileTree.maxPath) :
    Placed (FileTree.chain d n) (pathOf (List.replicate n d))
      (List.replicate n d) name where
  lawful := FileTree.lawful_chain hd n
  legal := hname
  directory := ⟨_, FileTree.lawful_chain hd n, rfl,
    FileTree.stat_chain hd hshort, fun _ => .inl rfl⟩
  notDirectory := by
    intro hdir
    obtain ⟨-, k, hk, hloc⟩ := FileTree.of_get?_chain hdir
    have hlength := congrArg List.length hloc
    simp only [List.length_append, List.length_replicate,
      List.length_singleton] at hlength
    omega
  notLink := FileTree.link?_chain ..

end FileCache

end FileStash
