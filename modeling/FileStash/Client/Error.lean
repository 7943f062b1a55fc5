import FileStash.Text.Quoted

/-!
Errors that a client of the server raises. What a caller does about one depends
on its family; its name and text are passed on.
-/

namespace FileStash

/-- `rejection` is an error reply of the server, `badInput` a value that cannot
be sent, `unavailable` any other trouble with the server, `system` trouble of
the operating system; `foreign` errors have nothing to do with the server, and an
`interruption` is no error of the program at all. -/
inductive ErrorFamily
  | rejection
  | badInput
  | unavailable
  | system
  | foreign
  | interruption
deriving DecidableEq, Repr

structure ClientError where
  name : String
  family : ErrorFamily
  text : String
deriving DecidableEq, Repr

namespace ClientError

def troubles : List String :=
  ["RedisError", "ConnectionError", "TimeoutError", "AuthenticationError", "AuthorizationError",
    "BusyLoadingError", "MaxConnectionsError", "ExternalAuthProviderError", "InvalidResponse",
    "PubSubError", "WatchError", "LockError", "LockNotOwnedError", "ClusterError"]

/-- Errors of the client library that are no trouble with the server. -/
def inwardErrors : List String :=
  ["RedisClusterException", "SlotNotCoveredError", "CrossSlotTransactionError",
    "InvalidPipelineStack", "ChildDeadlockedError", "IncorrectPolicyType"]

/-- The family of an error that the client library defines. What is named
nowhere else is an error reply: the server has many, and gets new ones. -/
def libraryFamily (name : String) : ErrorFamily :=
  if name = "DataError" then .badInput
  else if troubles.contains name then .unavailable
  else if inwardErrors.contains name then .foreign
  else .rejection

def systemErrors : List String :=
  ["OSError", "BlockingIOError", "ChildProcessError", "ConnectionError", "BrokenPipeError",
    "ConnectionAbortedError", "ConnectionRefusedError", "ConnectionResetError", "FileExistsError",
    "FileNotFoundError", "InterruptedError", "IsADirectoryError", "NotADirectoryError",
    "PermissionError", "ProcessLookupError", "TimeoutError"]

def systemAliases : List String :=
  ["IOError", "EnvironmentError"]

/-- What ends a program from outside and passes by those who handle errors. -/
def interruptions : List String :=
  ["BaseException", "BaseExceptionGroup", "GeneratorExit", "KeyboardInterrupt", "SystemExit"]

def generalFamily (name : String) : ErrorFamily :=
  if systemErrors.contains name then .system
  else if interruptions.contains name then .interruption
  else .foreign

def ofLibrary (name text : String) : ClientError :=
  ⟨name, libraryFamily name, text⟩

/-- An error that any program may raise; a missing key is shown between
quotes. -/
def ofGeneral (name : String) (text : Option String) : ClientError :=
  let name := if systemAliases.contains name then "OSError" else name
  let shown := match text with
    | some t => if name = "KeyError" then Text.quote t else t
    | none => ""
  ⟨name, generalFamily name, shown⟩

/-- The names of the errors that stand for the numbers of an operating
system. -/
def systemName (number : Nat) : String :=
  match number with
  | 1 | 13 => "PermissionError"
  | 2 => "FileNotFoundError"
  | 3 => "ProcessLookupError"
  | 4 => "InterruptedError"
  | 10 => "ChildProcessError"
  | 11 | 114 | 115 => "BlockingIOError"
  | 17 => "FileExistsError"
  | 20 => "NotADirectoryError"
  | 21 => "IsADirectoryError"
  | 32 | 108 => "BrokenPipeError"
  | 103 => "ConnectionAbortedError"
  | 104 => "ConnectionResetError"
  | 110 => "TimeoutError"
  | 111 => "ConnectionRefusedError"
  | _ => "OSError"

def ofSystem (number : Nat) (text : String) : ClientError :=
  ⟨systemName number, .system, "[Errno " ++ toString number ++ "] " ++ text⟩

/-- The reply of the server to a command on a key that holds another kind of
value. -/
def wrongKind : ClientError :=
  ofLibrary "ResponseError" "WRONGTYPE Operation against a key holding the wrong kind of value"

def badInput (text : String) : ClientError :=
  ofLibrary "DataError" text

def concernsServer (e : ClientError) : Bool :=
  e.family = .rejection || e.family = .badInput || e.family = .unavailable

/-- Whether the text says that the key holds another kind of value. -/
def reportsWrongKind (e : ClientError) : Bool :=
  "WRONGTYPE".toList.isPrefixOf e.text.toList

theorem wrongKind_family : wrongKind.family = .rejection := by decide

end ClientError

end FileStash
