import FileStash.Settings.EnvFile
import FileStash.Settings.Reading

/-!
Settings from three sources: what the caller gives, the environment, and a file
of assignments. The first source that has a setting decides, also where its
value is wrong. Names count in any case. This loading stands in for a library.
-/

namespace FileStash.Settings

structure Sources where
  given : Dict String Value := []
  environment : Dict String String := []
  file : Option String := none

/-- The lower-case form of a character, as far as it is an ASCII letter. Of all
other characters only the Kelvin sign has such a form. -/
def foldChar (c : Char) : Char :=
  if c = '\u212a' then 'k' else c.toLower

def foldName (name : String) : String :=
  String.ofList (name.toList.map foldChar)

/-- Entries under folded names; of two that become one the later decides. -/
def folded {α : Type} (entries : List (String × α)) : Dict String α :=
  Dict.ofEntries (entries.map fun e => (foldName e.1, e.2))

/-- What the caller gives under the exact name, else under the first that
differs in case only. -/
def given? (s : Sources) (name : String) : Option Value :=
  match Dict.get? s.given name with
  | some v => some v
  | none => (s.given.find? fun e => foldName e.1 = foldName name).map (·.2)

def assigned? (s : Sources) (name : String) : Option String :=
  (s.file.bind fun text =>
    Dict.get? (folded (EnvFile.read s.environment text)) (foldName name)).join

def sourced? (s : Sources) (setting : Setting) : Option Value :=
  match given? s setting.name with
  | some v => some v
  | none =>
      match Dict.get? (folded s.environment) (foldName setting.name) with
      | some t => some (.text t)
      | none => (assigned? s setting.name).map .text

/-- A setting as it is read from its value, or its default where it has none. -/
def obtain (values : Setting → Option Value) (f : Setting) : Reading f.Held :=
  match values f with
  | some v => read f v
  | none => .ok f.default

def problem? (values : Setting → Option Value) (f : Setting) : Option SettingProblem :=
  match obtain values f with
  | .ok _ => none
  | .error fault => some ⟨f, fault⟩

def validate (values : Setting → Option Value) : Except (List SettingProblem) Settings :=
  match obtain values .address, obtain values .socketTimeout, obtain values .connectTimeout,
    obtain values .healthCheckInterval, obtain values .retryOnTimeout, obtain values .keyPrefix,
    obtain values .cacheDir, obtain values .fileTtl, obtain values .temporaryDir with
  | .ok a, .ok b, .ok c, .ok d, .ok e, .ok f, .ok g, .ok h, .ok i => .ok ⟨a, b, c, d, e, f, g, h, i⟩
  | _, _, _, _, _, _, _, _, _ => .error (Setting.all.filterMap (problem? values))

def load (s : Sources) : Except (List SettingProblem) Settings :=
  validate (sourced? s)

end FileStash.Settings
