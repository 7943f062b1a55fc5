import FileStash.Number.Binary64
import FileStash.Value.Basic

namespace FileStash

structure Settings where
  address : String := "redis://localhost:6379/0"
  socketTimeout : Binary64 := .ofRatio false 30 1
  connectTimeout : Binary64 := .ofRatio false 30 1
  healthCheckInterval : Int := 30
  retryOnTimeout : Bool := true
  keyPrefix : String := "file:"
  cacheDir : Option String := none
  fileTtl : Option Int := none
  temporaryDir : Option String := none
deriving DecidableEq, Repr

/-- The settings as callers name them. -/
inductive Setting
  | address
  | socketTimeout
  | connectTimeout
  | healthCheckInterval
  | retryOnTimeout
  | keyPrefix
  | cacheDir
  | fileTtl
  | temporaryDir
deriving DecidableEq, Repr

def Setting.name : Setting → String
  | .address => "REDIS_URL"
  | .socketTimeout => "REDIS_SOCKET_TIMEOUT"
  | .connectTimeout => "REDIS_SOCKET_CONNECT_TIMEOUT"
  | .healthCheckInterval => "REDIS_HEALTH_CHECK_INTERVAL"
  | .retryOnTimeout => "REDIS_RETRY_ON_TIMEOUT"
  | .keyPrefix => "FILE_CACHE_KEY_PREFIX"
  | .cacheDir => "FILE_CACHE_DIR"
  | .fileTtl => "FILE_TTL_SECONDS"
  | .temporaryDir => "TMPDIR"

abbrev Setting.Held : Setting → Type
  | .address => String
  | .socketTimeout => Binary64
  | .connectTimeout => Binary64
  | .healthCheckInterval => Int
  | .retryOnTimeout => Bool
  | .keyPrefix => String
  | .cacheDir => Option String
  | .fileTtl => Option Int
  | .temporaryDir => Option String

def Setting.all : List Setting :=
  [.address, .socketTimeout, .connectTimeout, .healthCheckInterval, .retryOnTimeout, .keyPrefix,
    .cacheDir, .fileTtl, .temporaryDir]

def Settings.get (s : Settings) : (f : Setting) → f.Held
  | .address => s.address
  | .socketTimeout => s.socketTimeout
  | .connectTimeout => s.connectTimeout
  | .healthCheckInterval => s.healthCheckInterval
  | .retryOnTimeout => s.retryOnTimeout
  | .keyPrefix => s.keyPrefix
  | .cacheDir => s.cacheDir
  | .fileTtl => s.fileTtl
  | .temporaryDir => s.temporaryDir

def Setting.default (f : Setting) : f.Held :=
  Settings.get {} f

inductive SettingFault
  | notText
  | textEncoding
  | textTooShort
  | notFloat
  | malformedFloat
  | notInteger
  | malformedInteger
  | tooManyDigits
  | fraction
  | notFinite
  | notTruth
  | malformedTruth
  | notAbove
  | below
deriving DecidableEq, Repr

def SettingFault.kind : SettingFault → String
  | .notText => "string_type"
  | .textEncoding => "string_unicode"
  | .textTooShort => "string_too_short"
  | .notFloat => "float_type"
  | .malformedFloat => "float_parsing"
  | .notInteger => "int_type"
  | .malformedInteger => "int_parsing"
  | .tooManyDigits => "int_parsing_size"
  | .fraction => "int_from_float"
  | .notFinite => "finite_number"
  | .notTruth => "bool_type"
  | .malformedTruth => "bool_parsing"
  | .notAbove => "greater_than"
  | .below => "greater_than_equal"

structure SettingProblem where
  setting : Setting
  fault : SettingFault
deriving DecidableEq, Repr

/-- The settings as callers see them, in the order of their names above. -/
def Settings.values (s : Settings) : List Value :=
  let optional (o : Option String) : Value :=
    match o with
    | some t => .text t
    | none => .null
  let seconds : Value :=
    match s.fileTtl with
    | some n => .int n
    | none => .null
  [.text s.address, .float s.socketTimeout, .float s.connectTimeout, .int s.healthCheckInterval,
    .bool s.retryOnTimeout, .text s.keyPrefix, optional s.cacheDir, seconds,
    optional s.temporaryDir]

/-- The directory that files are restored to: the first one named that is not
empty. -/
def Settings.scratchDir (s : Settings) : Value :=
  let named (o : Option String) : Option Value :=
    match o with
    | some t => if t.isEmpty then none else some (.text t)
    | none => none
  ((named s.cacheDir).orElse fun _ => named s.temporaryDir).getD .null

end FileStash
