import FileStash.Proofs.Store.Question
import FileStash.Settings.Load

namespace FileStash

def Settings.isAboveZero (x : Binary64) : Bool :=
  Binary64.numLt (some (Binary64.extendedInt 0)) x.extended?

/-- What a setting is declared to be, apart from its type. -/
def Setting.Allows : (f : Setting) → f.Held → Prop
  | .socketTimeout, x => Settings.isAboveZero x = true
  | .connectTimeout, x => Settings.isAboveZero x = true
  | .healthCheckInterval, n => 0 ≤ n
  | .keyPrefix, t => t ≠ ""
  | .fileTtl, o => ∀ n, o = some n → 0 < n
  | .address, _ | .retryOnTimeout, _ | .cacheDir, _ | .temporaryDir, _ => True

theorem Setting.allows_default (f : Setting) : f.Allows f.default := by
  cases f with
  | socketTimeout => exact show Settings.isAboveZero _ = true by decide +kernel
  | connectTimeout => exact show Settings.isAboveZero _ = true by decide +kernel
  | healthCheckInterval => exact show (0 : Int) ≤ 30 by decide
  | keyPrefix => exact show "file:" ≠ "" by decide
  | fileTtl => exact nofun
  | _ => exact trivial

namespace Settings

/-- Every setting is what it is declared to be. -/
def Valid (cfg : Settings) : Prop :=
  ∀ f : Setting, f.Allows (cfg.get f)

namespace Valid

variable {cfg : Settings}

theorem keyPrefix (h : cfg.Valid) : cfg.keyPrefix ≠ "" :=
  h .keyPrefix

theorem fileTtl (h : cfg.Valid) : ∀ n, cfg.fileTtl = some n → 0 < n :=
  h .fileTtl

end Valid

section Readings

variable {α : Type} {P : α → Prop}

/-- Whatever the reading gives satisfies the condition. -/
def Ensures (read : Value → Reading α) (P : α → Prop) : Prop :=
  ∀ v a, read v = .ok a → P a

theorem ensures_true (read : Value → Reading α) : Ensures read fun _ => True :=
  fun _ _ _ => trivial

theorem ensures_checked (read : Value → Reading α) (fault : SettingFault) [DecidablePred P] :
    Ensures (fun v => read v >>= fun a => if P a then .ok a else .error fault) P := by
  intro v a h
  obtain ⟨b, -, h⟩ := Except.of_bind_ok h
  split at h
  · cases h
    assumption
  · cases h

theorem ensures_readNonempty : Ensures readNonempty (· ≠ "") := by
  intro v s h
  obtain ⟨t, -, h⟩ := Except.of_bind_ok h
  split at h
  · cases h
  · cases h
    rename_i hne
    simpa using hne

theorem Ensures.readOptional {read : Value → Reading α} (h : Ensures read P) :
    Ensures (readOptional read) fun o => ∀ a, o = some a → P a := by
  intro v o ho a ha
  subst ha
  cases v with
  | null => cases ho
  | _ =>
      obtain ⟨b, hb, hsome⟩ := Except.of_map_ok ho
      cases hsome
      exact h _ _ hb

theorem ensures_read (f : Setting) : Ensures (read f) f.Allows := by
  cases f with
  | socketTimeout => exact ensures_checked readFloating .notAbove
  | connectTimeout => exact ensures_checked readFloating .notAbove
  | healthCheckInterval => exact ensures_checked readInteger .below
  | keyPrefix => exact ensures_readNonempty
  | fileTtl => exact (ensures_checked readInteger .notAbove).readOptional
  | _ => exact ensures_true _

end Readings

section Validate

variable {values : Setting → Option Value} {cfg : Settings}

theorem obtain_of_validate (h : validate values = .ok cfg) (f : Setting) :
    obtain values f = .ok (cfg.get f) := by
  unfold validate at h
  split at h
  · cases h
    cases f <;> assumption
  · cases h

theorem read_of_validate (h : validate values = .ok cfg) {f : Setting} {v : Value}
    (hv : values f = some v) : read f v = .ok (cfg.get f) := by
  simpa only [obtain, hv] using obtain_of_validate h f

theorem get_of_validate (h : validate values = .ok cfg) {f : Setting} (hnone : values f = none) :
    cfg.get f = f.default := by
  have hdefault := obtain_of_validate h f
  simp only [obtain, hnone] at hdefault
  exact (Except.ok.inj hdefault).symm

end Validate

end Settings

end FileStash
