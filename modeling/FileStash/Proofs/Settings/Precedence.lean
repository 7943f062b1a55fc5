import FileStash.Proofs.Settings.Accepted
import FileStash.Proofs.Settings.References

/-!
The order of the sources of settings, for any library that loads settings and keeps to a few
rules. Entries that an earlier source stands in front of change nothing, whatever they hold.
-/

namespace FileStash

namespace Settings

/-- The entries under the names of a setting, in any case of letters. -/
def entriesOf {α : Type} (f : Setting) (entries : List (String × α)) : List (String × α) :=
  entries.filter fun e => foldName e.1 = foldName f.name

def Plain (s : Sources) : Prop :=
  ∀ text, s.file = some text → EnvFile.refers text.toList = false

end Settings

open Settings (Sources Plain entriesOf)

/-- A library that loads settings: what it finds in each of the sources, and how it comes
from what it finds to settings or to a report. -/
structure Loader (Report : Type) where
  given? : Dict String Value → Setting → Option Value
  inherited? : Dict String String → Setting → Option Value
  /-- The assignments in the text of a file, which may refer to the environment. -/
  parse : Dict String String → String → List (String × Option String)
  assigned? : List (String × Option String) → Setting → Option Value
  validate : (Setting → Option Value) → Except Report Settings
  load : Sources → Except Report Settings

namespace Loader

variable {Report : Type}

/-- What the file of some sources assigns, in some environment. -/
def fileEntries (L : Loader Report) (environment : Dict String String) (s : Sources) :
    List (String × Option String) :=
  s.file.elim [] (L.parse environment)

/-- The value of the first source that has the setting. -/
def first? (L : Loader Report) (s : Sources) (f : Setting) : Option Value :=
  (L.given? s.given f).or
    ((L.inherited? s.environment f).or (L.assigned? (L.fileEntries s.environment s) f))

/-- What the library is documented to do. -/
structure Lawful (L : Loader Report) : Prop where
  -- A source has a setting where it has an entry under one of its names, in any case.
  given_isSome {entries : Dict String Value} {f : Setting} :
    entriesOf f entries ≠ [] → (L.given? entries f).isSome = true
  inherited_isSome {entries : Dict String String} {f : Setting} :
    entriesOf f entries ≠ [] → (L.inherited? entries f).isSome = true
  -- Entries under other names do not count.
  inherited_congr {entries entries' : Dict String String} {f : Setting} :
    entriesOf f entries' = entriesOf f entries → L.inherited? entries' f = L.inherited? entries f
  assigned_congr {entries entries' : List (String × Option String)} {f : Setting} :
    entriesOf f entries' = entriesOf f entries → L.assigned? entries' f = L.assigned? entries f
  -- Only references make what a file assigns depend on the environment.
  parse_congr {text : String} (environment environment' : Dict String String) :
    EnvFile.refers text.toList = false → L.parse environment' text = L.parse environment text
  -- Exactly the value of the first source that has a setting is validated.
  load_eq (s : Sources) : L.load s = L.validate (L.first? s)
  -- What passes is as the setting is declared; a setting without a value has its default.
  allows {values : Setting → Option Value} {cfg : Settings} {f : Setting} :
    L.validate values = .ok cfg → (values f).isSome = true → f.Allows (cfg.get f)
  default {values : Setting → Option Value} {cfg : Settings} {f : Setting} :
    L.validate values = .ok cfg → values f = none → cfg.get f = f.default

/-- Sources that differ in what does not count: in the environment and the file where the
caller gives a setting, and in the file where the environment does. The file is what it
assigns. -/
structure Shadowed (L : Loader Report) (s s' : Sources) : Prop where
  given : s'.given = s.given
  environment (f : Setting) : entriesOf f s.given ≠ [] ∨
    entriesOf f s'.environment = entriesOf f s.environment
  file (f : Setting) : entriesOf f s.given ≠ [] ∨ entriesOf f s.environment ≠ [] ∨
    entriesOf f (L.fileEntries s.environment s') = entriesOf f (L.fileEntries s.environment s)

variable {L : Loader Report} {s s' : Sources}

theorem Lawful.valid_of_load (h : L.Lawful) {cfg : Settings} (hload : L.load s = .ok cfg) :
    cfg.Valid := by
  intro f
  rw [h.load_eq] at hload
  cases hfirst : L.first? s f with
  | some v => exact h.allows hload (by rw [hfirst]; rfl)
  | none =>
      rw [h.default hload hfirst]
      exact f.allows_default

theorem Lawful.fileEntries_congr (h : L.Lawful) (hplain : Plain s)
    (environment environment' : Dict String String) :
    L.fileEntries environment' s = L.fileEntries environment s := by
  unfold fileEntries
  cases hfile : s.file with
  | none => rfl
  | some text => exact h.parse_congr environment environment' (hplain text hfile)

/-- The value that counts is the same: that of a source with the same entries, or in front of
all that differs. -/
theorem Shadowed.first? (hs : L.Shadowed s s') (h : L.Lawful) (hplain' : Plain s')
    (f : Setting) : L.first? s' f = L.first? s f := by
  -- A source is only asked where no earlier one has the setting, and there its entries are
  -- the same.
  unfold Loader.first?
  rw [hs.given]
  cases hgiven : L.given? s.given f with
  | some v => rfl
  | none =>
      have hgiven : ¬entriesOf f s.given ≠ [] := fun hhas => by
        simpa [hgiven] using h.given_isSome hhas
      rw [h.inherited_congr ((hs.environment f).resolve_left hgiven)]
      cases hinherited : L.inherited? s.environment f with
      | some v => rfl
      | none =>
          have hinherited : ¬entriesOf f s.environment ≠ [] := fun hhas => by
            simpa [hinherited] using h.inherited_isSome hhas
          have hfile := ((hs.file f).resolve_left hgiven).resolve_left hinherited
          rw [h.fileEntries_congr hplain' s.environment, h.assigned_congr hfile]

theorem Shadowed.load (hs : L.Shadowed s s') (h : L.Lawful) (hplain' : Plain s') :
    L.load s' = L.load s := by
  rw [h.load_eq, h.load_eq]
  exact congrArg L.validate (funext (hs.first? h hplain'))

end Loader

end FileStash
