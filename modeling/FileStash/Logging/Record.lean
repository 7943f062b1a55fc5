namespace FileStash

inductive Severity
  | debug
  | info
  | warning
  | error
deriving DecidableEq, Repr

def Severity.level : Severity → Int
  | .debug => 10
  | .info => 20
  | .warning => 30
  | .error => 40

structure Record where
  severity : Severity
  logger : String
  message : String
deriving DecidableEq, Repr

def packageLogger : String := "redis_store"

def libraryLogger (part : String) : String :=
  packageLogger ++ "." ++ part

end FileStash
