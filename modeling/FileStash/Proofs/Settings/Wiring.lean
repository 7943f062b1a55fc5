import FileStash.Proofs.Connection.Credentials
import FileStash.Proofs.FileCache.LimitedLifetime
import FileStash.Proofs.Session.Operating
import FileStash.Proofs.Settings.Loading
import FileStash.Registry

namespace FileStash

namespace Settings

/-- The first directory named that is not empty. -/
def firstDir? (cfg : Settings) : Option String :=
  ([cfg.cacheDir, cfg.temporaryDir].filterMap id).find? (· ≠ "")

def scratchIn (cfg : Settings) (temporary : Path) : Path :=
  (firstDir? cfg).elim temporary .ofText

theorem scratchDir_eq (cfg : Settings) : cfg.scratchDir = (firstDir? cfg).elim .null .text := by
  unfold scratchDir firstDir?
  cases cfg.cacheDir with
  | none =>
      cases cfg.temporaryDir with
      | none => rfl
      | some dir => by_cases hdir : dir = "" <;> simp [hdir]
  | some dir =>
      by_cases hdir : dir = ""
      · cases cfg.temporaryDir with
        | none => simp [hdir]
        | some dir' => by_cases hdir' : dir' = "" <;> simp [hdir, hdir']
      · simp [hdir]

theorem chooseScratch_scratchDir (cfg : Settings) (temporary : Path) :
    FileCache.chooseScratch temporary cfg.scratchDir = .ok (cfg.scratchIn temporary) := by
  rw [scratchDir_eq, scratchIn]
  cases hfirst : firstDir? cfg with
  | none => rfl
  | some dir =>
      have hdir : dir ≠ "" := by simpa using List.find?_some hfirst
      have htruth : (Value.text dir).truth = true := by simpa [Value.truth] using hdir
      rw [Option.elim_some, FileCache.chooseScratch, if_pos htruth]
      rfl

end Settings

namespace Registry

variable {cfg : Settings} {temporary : Path}

def describedBy (cfg : Settings) (temporary : Path) : Registry :=
  let values : ValueStore := ⟨.opened cfg.address⟩
  ⟨values, ⟨cfg.scratchIn temporary, .text cfg.keyPrefix, cfg.fileTtl⟩, values⟩

theorem overClient_of_valid (h : cfg.Valid) (temporary : Path) :
    overClient (.opened cfg.address) temporary cfg.scratchDir (.text cfg.keyPrefix)
      (FileCache.durationValue cfg.fileTtl) = .ok (describedBy cfg temporary) := by
  have hlimit := FileCache.optionalDuration_of_pos h.fileTtl
  simp [overClient, FileCache.create, Settings.chooseScratch_scratchDir, hlimit, Store.bare,
    bind, Except.bind, describedBy]

/-- The call that opens the client, which is not to ask the server anything. -/
def openingCall (cfg : Settings) : Call :=
  .connect cfg.address (connectionOptions cfg (.bool false)).arguments

theorem run_ofSettings {σ : Type} {client : Client σ} {state : σ} {reply : Reply} (h : cfg.Valid)
    (hopened : (client state (openingCall cfg)).1 = .ok reply) (t : FileTree) :
    (ofSettings cfg temporary (.bool false)).run client state t =
      { result := .ok (describedBy cfg temporary)
        state := (client state (openingCall cfg)).2
        tree := t
        calls := [openingCall cfg] } := by
  have hverify : (connectionOptions cfg (.bool false)).verify.truth = false := rfl
  unfold openingCall at hopened ⊢
  simp only [ofSettings, Program.bind_eq_andThen, Connection.connect_eq, Connection.calling,
    Program.andThen, Program.run, hopened, hverify, Bool.false_eq_true, if_false,
    overClient_of_valid h, Program.ofExcept]

theorem has_of_stored {c : FileCache} {lead : String} (hlead : c.keyPrefix = .text lead)
    {w : World} (hplain : w.server.script = []) {file : FileSource} {limit v : Value}
    (h : w.answer (.store c file limit) = .ok v) :
    ∃ name, v = .text (lead ++ name) ∧
      (w.step (.request (.store c file limit))).answer (.operate (.hasKey v .null)) =
        .ok (.bool true) := by
  obtain ⟨name, key, content, e, rfl, hkept⟩ := FileCache.kept_of_answer hplain h
  have hplainLead : c.keyPrefix.plain = .ok lead := by
    rw [hlead]
    rfl
  have hkey : key = lead ++ name :=
    (Except.ok.inj ((FileCache.cacheKey_text hplainLead name).symm.trans hkept.keyed)).symm
  refine ⟨name, by rw [hkey], ?_⟩
  rw [World.answer_hasKey hkept.script hkept.notBlank, hkept.live]
  rfl

structure Wired (cfg : Settings) (temporary : Path) (r : Registry) : Prop where
  client : r.values.client = .opened cfg.address
  shared : r.fileStore = r.values
  seen : ∀ (w : World) (file : FileSource) (limit v : Value), w.server.script = [] →
    w.answer (.store r.files file limit) = .ok v →
    ∃ name, v = .text (cfg.keyPrefix ++ name) ∧
      (w.step (.request (.store r.files file limit))).answer (.operate (.hasKey v .null)) =
        .ok (.bool true)
  keyPrefix : r.files.keyPrefix = .text cfg.keyPrefix ∧ cfg.keyPrefix ≠ ""
  ttl : r.files.ttl = cfg.fileTtl ∧ ∀ n, cfg.fileTtl = some n → 0 < n
  scratchDir : r.files.scratchDir = (cfg.firstDir?).elim temporary .ofText

theorem wired_describedBy (h : cfg.Valid) (temporary : Path) :
    Wired cfg temporary (describedBy cfg temporary) where
  client := rfl
  shared := rfl
  seen _ _ _ _ hplain hstored := has_of_stored rfl hplain hstored
  keyPrefix := ⟨rfl, h.keyPrefix⟩
  ttl := ⟨rfl, h.fileTtl⟩
  scratchDir := rfl

end Registry

namespace Settings

open Registry (Wired openingCall)

/-- Settings that are accepted are enough, whatever library loads them: where the client is
opened the services are set up as the settings say, with no other call. And what an earlier
source has of a setting is all that counts: other values of it in the later ones, good or bad,
change neither whether the settings are accepted nor what they are. -/
theorem accepted_settings_wired_and_sources_apart {Report : Type} {L : Loader Report}
    (h : L.Lawful) (s : Sources) :
    (∀ cfg, L.load s = .ok cfg → cfg.Valid ∧
      ∀ {σ : Type} (client : Client σ) (state : σ) (t : FileTree) (temporary : Path)
        (reply : Reply), (client state (openingCall cfg)).1 = .ok reply →
        let run := (Registry.ofSettings cfg temporary (.bool false)).run client state t
        ∃ r, run.result = .ok r ∧ Wired cfg temporary r ∧ run.calls = [openingCall cfg] ∧
          run.records = [] ∧ run.tree = t) ∧
    ∀ s', L.Shadowed s s' → Plain s' → L.load s' = L.load s := by
  constructor
  · intro cfg hload
    have hvalid := h.valid_of_load hload
    refine ⟨hvalid, ?_⟩
    intro σ client state t temporary reply hopened run
    have hrun : run = _ := Registry.run_ofSettings hvalid hopened t
    refine ⟨_, ?_, Registry.wired_describedBy hvalid temporary, ?_, ?_, ?_⟩ <;> rw [hrun]
  · intro s' hshadowed hplain'
    exact hshadowed.load h hplain'

/-- A limit in the environment that would be refused, and one in the file that is no
number, behind the limit that the caller gives. -/
theorem shadowed_limits_ignored :
    let s : Sources := {
      given := [("FILE_TTL_SECONDS", .int 300)]
      environment := [("file_ttl_seconds", "0"), ("FILE_CACHE_DIR", "")]
      file := some "FILE_CACHE_DIR=/other\nTMPDIR=/scratch\n" }
    let s' : Sources := { s with
      environment := [("FILE_CACHE_DIR", "")]
      file := some "FILE_TTL_SECONDS=never\nTMPDIR=/scratch\n" }
    let cfg : Settings :=
      { cacheDir := some "", fileTtl := some 300, temporaryDir := some "/scratch" }
    let program := Registry.ofSettings cfg (.ofText "/tmp") (.bool false)
    loader.Lawful ∧ load s = .ok cfg ∧ loader.Shadowed s s' ∧ Plain s' ∧ load s' = .ok cfg ∧
      (load { s with given := [] }).toOption = none ∧
      ∃ r, (program.run ScriptedServer.call {} {}).result = .ok r ∧ r.files.ttl = some 300 ∧
        r.files.keyPrefix = .text "file:" ∧ r.files.scratchDir = .ofText "/scratch" := by
  intro s s' cfg program
  have hload : load s = .ok cfg := by
    have hloaded : (load s).toOption = some cfg := by decide +kernel
    cases h : load s with
    | error problems => simp [h, Except.toOption] at hloaded
    | ok cfg' => simpa [h, Except.toOption] using hloaded
  have hrefused : (load { s with given := [] }).toOption = none := by decide +kernel
  have hplain' : Plain s' := by
    rintro text ⟨⟩
    decide +kernel
  have hread : loader.fileEntries s.environment s =
      [("FILE_CACHE_DIR", some "/other"), ("TMPDIR", some "/scratch")] := by
    decide +kernel
  have hread' : loader.fileEntries s.environment s' =
      [("FILE_TTL_SECONDS", some "never"), ("TMPDIR", some "/scratch")] := by
    decide +kernel
  have hshadowed : loader.Shadowed s s' := by
    refine ⟨rfl, fun f => ?_, fun f => ?_⟩
    · cases f <;> decide +kernel
    · rw [hread, hread']
      cases f <;> decide +kernel
  obtain ⟨haccepted, happart⟩ := accepted_settings_wired_and_sources_apart lawful_loader s
  obtain ⟨r, hresult, hwired, -, -, -⟩ :=
    (haccepted cfg hload).2 ScriptedServer.call {} {} (.ofText "/tmp") _ rfl
  have hscratch : r.files.scratchDir = .ofText "/scratch" := by
    rw [hwired.scratchDir]
    rfl
  exact ⟨lawful_loader, hload, hshadowed, hplain', (happart s' hshadowed hplain').trans hload,
    hrefused, r, hresult, hwired.ttl.1, hwired.keyPrefix.1, hscratch⟩

end Settings

end FileStash
