import FileStash.Proofs.FileCache.Record
import FileStash.Proofs.Server.Deadline
import FileStash.Proofs.Session.Unchanged

namespace FileStash

namespace FileCache

open World (Lasts)

variable {c : FileCache} {name key : String} {content : List UInt8}
  {fields : Dict String String}
  {w : World}

structure Gets (c : FileCache) (w : World) (name : String)
    (content : List UInt8) : Prop where
  there : w.answer (.contains c (.text name)) = .ok (.bool true)
  content : w.answer (.restoreBytes c (.text name)) = .ok (.bytes content)

structure Misses (c : FileCache) (w : World) (name : String) : Prop where
  absent : w.answer (.contains c (.text name)) = .ok (.bool false)
  empty : w.answer (.restoreBytes c (.text name)) = .ok (.bytes [])

theorem gets_of_live (hplain : w.server.script = []) (hname : name ≠ "")
    (hkey : c.cacheKey (.text name) = .ok key)
    (hblank : Text.allBlank key = false) (hholds : Holds name content fields)
    {deadline : Option Int}
    (h : w.server.server.live? key = some ⟨.hash fields, deadline⟩) :
    Gets c w name content where
  there := by
    rw [World.answer_contains, result_exists hplain hname hkey hblank, h]
    rfl
  content := by
    have hunder : Server.hashUnder (w.server.server.live? key) = some fields := by
      rw [h]
      rfl
    rw [World.answer_restoreBytes, result_restoreBytes hplain hname hkey hblank hunder,
      decodeContent_fieldOr hholds]
    rfl

theorem restore_of_live (hplain : w.server.script = []) (hname : name ≠ "")
    (hkey : c.cacheKey (.text name) = .ok key)
    (hblank : Text.allBlank key = false) (hholds : Holds name content fields)
    {deadline : Option Int}
    (h : w.server.server.live? key = some ⟨.hash fields, deadline⟩) :
    w.answer (.restore c (.text name)) =
        (c.deliver w.tree (.text name) content).1.map .path ∧
      (w.step (.request (.restore c (.text name)))).tree =
        (c.deliver w.tree (.text name) content).2 := by
  have hunder : Server.hashUnder (w.server.server.live? key) = some fields := by
    rw [h]
    rfl
  obtain ⟨hresult, htree⟩ := run_restore (t := w.tree) hplain hname hkey hblank hunder
  rw [unpack_of_holds hname hholds] at hresult htree
  rw [World.answer_restore, World.tree_step_restore, hresult]
  refine ⟨?_, htree⟩
  cases (c.deliver w.tree (.text name) content).1 <;> rfl

theorem misses_of_live (hplain : w.server.script = []) (hname : name ≠ "")
    (hkey : c.cacheKey (.text name) = .ok key)
    (hblank : Text.allBlank key = false) (h : w.server.server.live? key = none) :
    Misses c w name where
  absent := by
    rw [World.answer_contains, result_exists hplain hname hkey hblank, h]
    rfl
  empty := by
    have hunder : Server.hashUnder (w.server.server.live? key) = some [] := by
      rw [h]
      rfl
    rw [World.answer_restoreBytes, result_restoreBytes hplain hname hkey hblank hunder]
    rfl

theorem not_gets_of_misses (h : Misses c w name) : ¬Gets c w name content := by
  intro hgets
  cases h.absent.symm.trans hgets.there

theorem not_gets_empty : ¬Gets c w "" content := by
  intro hgets
  cases hgets.there

theorem recorded_of_answer {file : FileSource} {limit v : Value}
    (hplain : w.server.script = []) (hlimit : c.effectiveTtl limit = .ok none)
    (h : w.answer (.store c file limit) = .ok v) :
    ∃ name key content fields, v = .text key ∧ Recorded c file w.tree w.server
      (w.step (.request (.store c file limit))).server name key content fields := by
  rw [World.answer_store] at h
  rw [World.step_store]
  cases hresult : ((c.store file limit).run ScriptedServer.call w.server w.tree).result with
  | error e =>
      rw [hresult] at h
      cases h
  | ok key =>
      rw [hresult] at h
      cases h
      obtain ⟨name, content, fields, hrec⟩ := recorded_of_store hplain hlimit hresult
      exact ⟨name, key, content, fields, rfl, hrec⟩

theorem gets_until_deadline {w' : World} (hplain : w.server.script = [])
    (hname : name ≠ "") (hkey : c.cacheKey (.text name) = .ok key)
    (hblank : Text.allBlank key = false) (hholds : Holds name content fields)
    {deadline : Option Int}
    (h : w.server.server.live? key = some ⟨.hash fields, deadline⟩)
    (hlasts : Lasts key w w') :
    if ∀ d, deadline = some d → w'.server.server.now < d
      then Gets c w' name content else Misses c w' name := by
  have hlive := hlasts.live
  rw [h, Server.alive_some] at hlive
  have hplain' : w'.server.script = [] := hlasts.script.trans hplain
  split
  · rename_i hd
    rw [if_pos hd] at hlive
    exact gets_of_live hplain' hname hkey hblank hholds hlive
  · rename_i hd
    rw [if_neg hd] at hlive
    exact misses_of_live hplain' hname hkey hblank hlive

/-- A file that is stored without a time limit lasts for ever just where its key
had no deadline before, and it is only then that its remaining time is none;
with an older deadline it lasts until that deadline and no longer. A file whose
base name is empty is kept but cannot be looked up. -/
theorem file_without_limit_lasts_iff (c : FileCache) (file : FileSource)
    (limit : Value) (s : Server) (t : FileTree) (key : String)
    (hlimit : c.effectiveTtl limit = .ok none)
    (hstore : World.answer ⟨⟨s, []⟩, t⟩ (.store c file limit) = .ok (.text key)) :
    let w := World.step ⟨⟨s, []⟩, t⟩ (.request (.store c file limit))
    let older := (s.live? key).bind (·.deadline)
    ∃ name content, file.readIn t = .ok (name, content) ∧
      c.cacheKey (.text name) = .ok key ∧
      (w.answer (.operate (.ttl (.text key))) = .ok (.int (-1)) ↔ older = none) ∧
      ((∀ later, (∀ st ∈ later, ¬st.Names key) → Gets c (w.after later) name content) ↔
        name ≠ "" ∧ older = none) ∧
      (name ≠ "" → ∀ d, older = some d → ∀ later, (∀ st ∈ later, ¬st.Names key) →
        if (w.after later).server.server.now < d
          then Gets c (w.after later) name content
          else Misses c (w.after later) name) := by
  intro w older
  obtain ⟨name, key', content, fields, hkey, hrec⟩ :=
    recorded_of_answer rfl hlimit hstore
  cases hkey
  have hplain : w.server.script = [] := hrec.script
  have hlive : w.server.server.live? key = some ⟨.hash fields, older⟩ := hrec.live
  have hlasts : name ≠ "" → ∀ later : List Step, (∀ st ∈ later, ¬st.Names key) →
      if ∀ d, older = some d → (w.after later).server.server.now < d
        then Gets c (w.after later) name content else Misses c (w.after later) name :=
    fun hname later hlater =>
      gets_until_deadline hplain hname hrec.keyed hrec.notBlank hrec.holds hlive
        (Lasts.after w hlater)
  refine ⟨name, content, hrec.read, hrec.keyed, ?_, ?_, ?_⟩
  · have hanswer : w.answer (.operate (.ttl (.text key))) =
        .ok (.int (Server.remaining w.server.server.now (some ⟨.hash fields, older⟩))) := by
      rw [← hlive]
      exact Store.result_ttl hplain hrec.notBlank
    rw [hanswer]
    simp only [Except.ok.injEq, Value.int.injEq]
    exact Server.remaining_eq_neg_one_iff _ _
  · constructor
    · intro hall
      have hname : name ≠ "" := by
        rintro rfl
        exact not_gets_empty (hall [] (by simp))
      refine ⟨hname, ?_⟩
      cases hd : older with
      | none => rfl
      | some d =>
          -- Waiting for the older deadline is a session that is not about the
          -- key.
          let later : List Step := [.wait (d - w.server.server.now).toNat]
          have hlater : ∀ st ∈ later, ¬st.Names key := by simp [later, Step.Names]
          have hnow : (w.after later).server.server.now =
              w.server.server.now + (d - w.server.server.now).toNat := rfl
          have hend := hlasts hname later hlater
          rw [if_neg (by intro hbefore; have := hbefore d hd; omega)] at hend
          exact absurd (hall later hlater) (not_gets_of_misses hend)
    · rintro ⟨hname, hnone⟩ later hlater
      have hend := hlasts hname later hlater
      rwa [if_pos (by simp [hnone])] at hend
  · intro hname d hd later hlater
    have hend := hlasts hname later hlater
    simpa [hd] using hend

/-- The same name stored with a limit of a minute and then without one: the
second content goes with the deadline of the first. -/
theorem file_without_limit_ends_with_older_deadline :
    let c : FileCache := ⟨⟨.single, ["scratch"]⟩, defaultPrefix, none⟩
    let file (b : UInt8) : FileSource :=
      .opened (some (.text "a.txt")) (.ok (.bytes [b]))
    let first := World.step {} (.request (.store c (file 1) (.int 60)))
    let w := first.step (.request (.store c (file 2) .null))
    first.answer (.store c (file 2) .null) = .ok (.text "file:a.txt") ∧
      w.answer (.operate (.ttl (.text "file:a.txt"))) = .ok (.int 60) ∧
      Gets c w "a.txt" [2] ∧ Misses c (w.after [.wait 60000]) "a.txt" :=
  ⟨rfl, rfl, ⟨rfl, rfl⟩, ⟨rfl, rfl⟩⟩

theorem file_without_limit_lasts_on_empty_server :
    let c : FileCache := ⟨⟨.single, ["scratch"]⟩, defaultPrefix, none⟩
    let file : FileSource := .opened (some (.text "a.txt")) (.ok (.bytes [1]))
    c.effectiveTtl .null = .ok none ∧
      World.answer ⟨⟨{}, []⟩, {}⟩ (.store c file .null) = .ok (.text "file:a.txt") ∧
      ∃ name content, file.readIn {} = .ok (name, content) ∧
        ∀ later, (∀ st ∈ later, ¬st.Names "file:a.txt") →
          Gets c ((World.step ⟨⟨{}, []⟩, {}⟩ (.request (.store c file .null))).after later) name
            content := by
  intro c file
  have hstore : World.answer ⟨⟨{}, []⟩, {}⟩ (.store c file .null) =
      .ok (.text "file:a.txt") := rfl
  obtain ⟨name, content, hread, -, -, hlasts, -⟩ :=
    file_without_limit_lasts_iff c file .null {} {} "file:a.txt" rfl hstore
  have hname : name ≠ "" := by
    have hsame : ("a.txt", [(1 : UInt8)]) = (name, content) := Except.ok.inj hread
    cases hsame
    decide
  exact ⟨rfl, hstore, name, content, hread, hlasts.mpr ⟨hname, rfl⟩⟩

end FileCache

end FileStash
