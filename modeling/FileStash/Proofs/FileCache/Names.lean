import FileStash.Proofs.FileCache.ErrorKinds
import FileStash.Proofs.FileCache.LimitedLifetime
import FileStash.Proofs.FileTree.LastName

namespace FileStash

open FileTree (pathOf PlainName)

namespace FileSource

variable {t : FileTree} {v : Value} {p : Path}

/-- An open file that is called by a text and answers octets. -/
def openedAs (label : String) (content : List UInt8) : FileSource :=
  .opened (some (.text label)) (.ok (.bytes content))

theorem readIn_openedAs_empty (content : List UInt8) (t : FileTree) :
    (openedAs "" content).readIn t = .error (.invalidArgument .namelessFile) := rfl

theorem readIn_openedAs {label : String} (h : label ≠ "") (content : List UInt8)
    (t : FileTree) :
    (openedAs label content).readIn t = .ok ((Path.ofText label).name, content) :=
  readIn_opened_text h content t

/-- An open file is refused for its name just where it is called by the empty text. -/
theorem readIn_openedAs_error_iff (label : String) (content : List UInt8) (t : FileTree) :
    (openedAs label content).readIn t = .error (.invalidArgument .namelessFile) ↔
      label = "" := by
  by_cases h : label = ""
  · simp [h, readIn_openedAs_empty]
  · simp [h, readIn_openedAs h]

theorem readIn_value {content : List UInt8} (hp : v.toPath = .ok p) (hname : p.name ≠ "")
    (hread : t.read p = .ok content) :
    (FileSource.value v).readIn t = .ok (p.name, content) := by
  have hsome : p.name.isEmpty = false := by simpa using hname
  simp only [readIn, hp, hsome, hread, Bool.false_eq_true, if_false]

theorem readIn_value_error_iff (hp : v.toPath = .ok p) :
    (∃ shown, (FileSource.value v).readIn t = .error (.invalidArgument (.noFileName shown))) ↔
      p.name = "" := by
  constructor
  · rintro ⟨shown, h⟩
    cases hname : p.name.isEmpty with
    | true => simpa using hname
    | false =>
        simp only [readIn, hp, hname, Bool.false_eq_true, if_false] at h
        cases hread : t.read p with
        | ok content => simp [hread] at h
        | error f =>
            simp only [hread, readFailure, Except.error.injEq] at h
            split at h <;> cases h
  · intro hname
    have hshown : ∃ shown, v.shown = .ok shown := by
      cases v with
      | text s => exact ⟨_, by rw [Value.shown, Value.shown?_text]⟩
      | path p => exact ⟨_, rfl⟩
      | _ => cases hp
    obtain ⟨shown, hshown⟩ := hshown
    exact ⟨shown, by simp [readIn, hp, hname, hshown]⟩

end FileSource

namespace FileCache

open FileSource (openedAs)

variable {σ : Type} {c : FileCache} {t : FileTree} {loc : Location} {name key : String}
  {content : List UInt8}

theorem run_store_congr {file file' : FileSource} {r : String × List UInt8}
    (h : file.readIn t = .ok r) (h' : file'.readIn t = .ok r) (limit : Value)
    (client : Client σ) (s : σ) :
    (c.store file limit).run client s t = (c.store file' limit).run client s t := by
  have hpack : c.pack file limit t = c.pack file' limit t := by
    unfold pack
    split
    · cases h
    · split
      · cases h'
      · rw [h, h']
  rw [run_store, run_store, hpack]

section Deliver

variable (htidy : t.Tidy) (hscratch : t.resolve c.scratchDir = .ok (pathOf loc))
include htidy hscratch

/-- What is delivered under a name that leads nowhere else comes to its place, unless
the system fails to write it. -/
theorem deliver_plain (hslash : '/' ∉ name.toList) (hnul : FileTree.hasNul name = false)
    (hstraight : t.Straight (loc ++ [name])) (content : List UInt8) :
    (c.deliver t (.text name) content).1 = .ok (pathOf (loc ++ [name])) ∨
      ∃ f, (c.deliver t (.text name) content).1 =
        .error (.fileIO (.unwritable (pathOf (loc ++ [name])).text f)) := by
  have hsafe : t.safePath c.scratchDir (.text name) = .ok (pathOf (loc ++ [name])) :=
    htidy.safePath_of_straight hscratch hslash hnul hstraight
  have hplace : (pathOf (loc ++ [name])).hasNul = false :=
    FileTree.hasNul_child (FileTree.hasNul_of_resolve hscratch) hnul
  rw [deliver_of_safePath hsafe]
  cases hsettle : (settle t (pathOf (loc ++ [name])) content).1 with
  | ok u => exact .inl rfl
  | error e =>
      obtain ⟨f, rfl⟩ := unwritable_of_settle hplace hsettle
      exact .inr ⟨f, rfl⟩

theorem deliver_up (hstraight : t.Straight loc) (content : List UInt8) :
    ∃ fault, (c.deliver t (.text "..") content).1 =
      .error (.fileIO (.refusedName "'..'" (.illFormed fault))) := by
  obtain ⟨fault, hsafe⟩ := htidy.safePath_up hscratch hstraight
  refine ⟨fault, ?_⟩
  simp only [deliver, target, hsafe]
  rfl

end Deliver

/-- A file can be had under its name as octets; and in a scratch directory that holds no
link of this name it is written there, unless the system fails to write it. -/
structure GivenBack (c : FileCache) (w : World) (name : String) (content : List UInt8) : Prop
    extends Gets c w name content where
  restored : ∀ (t : FileTree) (loc : Location), t.Lawful →
    t.resolve c.scratchDir = .ok (pathOf loc) → t.Straight loc →
    t.link? (loc ++ [name]) = none → FileTree.hasNul name = false →
    (w.step (.files t)).answer (.restore c (.text name)) =
        .ok (.path (pathOf (loc ++ [name]))) ∨
      ∃ f, (w.step (.files t)).answer (.restore c (.text name)) =
        .error (.fileIO (.unwritable (pathOf (loc ++ [name])).text f))

/-- A file can be had under a double dot as octets, and no scratch directory takes it. -/
structure NotTaken (c : FileCache) (w : World) (content : List UInt8) : Prop
    extends Gets c w ".." content where
  refused : ∀ (t : FileTree) (loc : Location), t.Lawful →
    t.resolve c.scratchDir = .ok (pathOf loc) → t.Straight loc →
    ∃ fault, (w.step (.files t)).answer (.restore c (.text "..")) =
      .error (.fileIO (.refusedName "'..'" (.illFormed fault)))

section Kept

variable {file : FileSource} {limit : Value} {w w' : World} {e : Entry}

theorem Kept.givenBack (h : Kept c file limit w w' name key content e)
    (hplainName : PlainName name) (hslash : '/' ∉ name.toList) :
    GivenBack c w' name content := by
  obtain ⟨_, deadline⟩ := e
  obtain ⟨fields, rfl, hholds⟩ := h.record
  refine ⟨gets_of_live h.script hplainName.1 h.keyed h.notBlank hholds h.live, ?_⟩
  intro t loc hlawful hscratch hstraight hlink hnul
  obtain ⟨hanswer, -⟩ := restore_of_live (w := w'.step (.files t)) h.script hplainName.1
    h.keyed h.notBlank hholds h.live
  rcases deliver_plain hlawful.tidy hscratch hslash hnul (hstraight.concat hplainName hlink)
    content with hok | ⟨f, hf⟩
  · rw [World.step, hok] at hanswer
    exact .inl hanswer
  · rw [World.step, hf] at hanswer
    exact .inr ⟨f, hanswer⟩

theorem Kept.notTaken (h : Kept c file limit w w' ".." key content e) :
    NotTaken c w' content := by
  obtain ⟨_, deadline⟩ := e
  obtain ⟨fields, rfl, hholds⟩ := h.record
  have hname : ".." ≠ "" := by decide
  refine ⟨gets_of_live h.script hname h.keyed h.notBlank hholds h.live, ?_⟩
  intro t loc hlawful hscratch hstraight
  obtain ⟨hanswer, -⟩ := restore_of_live (w := w'.step (.files t)) h.script hname h.keyed
    h.notBlank hholds h.live
  obtain ⟨fault, hfault⟩ := deliver_up hlawful.tidy hscratch hstraight content
  refine ⟨fault, ?_⟩
  rw [hanswer, World.step, hfault]
  rfl

end Kept

/-- Where a text is the path of a file, the path and an open file that is called by it are
stored alike, under a plain name. The path is refused for its name where it has no last
part, but the open file only where the text is empty. An open file that is stored is kept
under the last part of the text: a plain name gives the file back; a double dot does not
give it back as a file, and without a last part nobody can look it up. -/
theorem stored_names_given_back (c : FileCache) (label : String) (content : List UInt8)
    (limit : Value) :
    let p := Path.ofText label
    let file := openedAs label content
    (∀ (t : FileTree) (v : Value), t.Lawful → v.toPath = .ok p → t.read p = .ok content →
      PlainName p.name ∧ file.readIn t = .ok (p.name, content) ∧
        ∀ {σ : Type} (client : Client σ) (s : σ),
          (c.store file limit).run client s t = (c.store (.value v) limit).run client s t) ∧
    (∀ (t : FileTree) (v : Value), v.toPath = .ok p →
      ((∃ shown, (FileSource.value v).readIn t =
          .error (.invalidArgument (.noFileName shown))) ↔ p.name = "") ∧
        (file.readIn t = .error (.invalidArgument .namelessFile) ↔ label = "")) ∧
    (∀ (s : Server) (t : FileTree) (key : String),
      World.answer ⟨⟨s, []⟩, t⟩ (.store c file limit) = .ok (.text key) →
      let w := World.step ⟨⟨s, []⟩, t⟩ (.request (.store c file limit))
      (label ≠ "" ∧ p.name ≠ "." ∧ '/' ∉ p.name.toList ∧
          c.cacheKey (.text p.name) = .ok key) ∧
        (PlainName p.name → GivenBack c w p.name content) ∧
        (p.name = ".." → NotTaken c w content) ∧
        (p.name = "" → Refuses c w "")) := by
  intro p file
  obtain ⟨hdot, hslash⟩ := Path.name_ofText label
  refine ⟨fun t v hlawful hp hread => ?_, fun t v hp => ?_, fun s t key hstore => ?_⟩
  · have hname : PlainName p.name := hlawful.plainName_of_read hread
    have hlabel : label ≠ "" := by
      rintro rfl
      exact hname.1 rfl
    have hopened : file.readIn t = .ok (p.name, content) :=
      FileSource.readIn_openedAs hlabel content t
    have hvalue : (FileSource.value v).readIn t = .ok (p.name, content) :=
      FileSource.readIn_value hp hname.1 hread
    exact ⟨hname, hopened, fun client s => run_store_congr hopened hvalue limit client s⟩
  · exact ⟨FileSource.readIn_value_error_iff hp,
      FileSource.readIn_openedAs_error_iff label content t⟩
  · intro w
    obtain ⟨name, key', content', e, hkey, hkept⟩ := kept_of_answer rfl hstore
    cases hkey
    have hlabel : label ≠ "" := by
      rintro rfl
      cases hkept.read
    have hread : (p.name, content) = (name, content') :=
      Except.ok.inj ((FileSource.readIn_openedAs hlabel content t).symm.trans hkept.read)
    cases hread
    refine ⟨⟨hlabel, hdot, hslash, hkept.keyed⟩, fun hplain => hkept.givenBack hplain hslash,
      fun hup => ?_, fun _ => refuses_empty c w⟩
    rw [hup] at hkept
    exact hkept.notTaken

/-- An open file called by the path of a file, one called by the root, and one called by
the directory above. -/
theorem names_given_back_refused_and_not_taken :
    let t : FileTree := { nodes :=
      [(["dir"], .directory), (["dir", "a.txt"], .file [1] 0), (["scratch"], .directory)] }
    let c : FileCache := ⟨pathOf ["scratch"], defaultPrefix, none⟩
    let w (label : String) :=
      World.step ⟨⟨{}, []⟩, t⟩ (.request (.store c (openedAs label [1]) .null))
    let key (label : String) :=
      World.answer ⟨⟨{}, []⟩, t⟩ (.store c (openedAs label [1]) .null)
    (t.Lawful ∧ t.read (Path.ofText "dir/a.txt") = .ok [1] ∧
      (c.store (openedAs "dir/a.txt" [1]) .null).run ScriptedServer.call ⟨{}, []⟩ t =
        (c.store (.value (.text "dir/a.txt")) .null).run ScriptedServer.call ⟨{}, []⟩ t) ∧
      (key "dir/a.txt" = .ok (.text "file:a.txt") ∧ GivenBack c (w "dir/a.txt") "a.txt" [1]) ∧
      (key "/" = .ok (.text "file:") ∧ Refuses c (w "/") "") ∧
      (key ".." = .ok (.text "file:..") ∧ NotTaken c (w "..") [1]) := by
  intro t c w key
  have hlawful : t.Lawful := FileTree.lawful_of_nodes rfl (by decide +kernel)
  have hread : t.read (Path.ofText "dir/a.txt") = .ok [1] := by decide +kernel
  have hfile : key "dir/a.txt" = .ok (.text "file:a.txt") := rfl
  have hroot : key "/" = .ok (.text "file:") := rfl
  have hup : key ".." = .ok (.text "file:..") := rfl
  obtain ⟨halike, -, hgiven⟩ := stored_names_given_back c "dir/a.txt" [1] .null
  obtain ⟨-, -, hrefused⟩ := stored_names_given_back c "/" [1] .null
  obtain ⟨-, -, hnotTaken⟩ := stored_names_given_back c ".." [1] .null
  obtain ⟨hname, -, hsame⟩ := halike t (.text "dir/a.txt") hlawful rfl hread
  exact ⟨⟨hlawful, hread, hsame ScriptedServer.call ⟨{}, []⟩⟩,
    ⟨hfile, (hgiven {} t _ hfile).2.1 hname⟩, ⟨hroot, (hrefused {} t _ hroot).2.2.2 rfl⟩,
    ⟨hup, (hnotTaken {} t _ hup).2.2.1 rfl⟩⟩

end FileCache

end FileStash
