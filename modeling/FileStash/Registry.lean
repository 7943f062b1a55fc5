import FileStash.Connection.Basic
import FileStash.FileCache.Basic
import FileStash.Settings.Basic

namespace FileStash

/-- Where a client comes from: it was there already, or was opened under an
address. -/
inductive ClientOrigin
  | given
  | opened (address : String)
deriving DecidableEq, Repr

/-- The operations on values; they need a client and nothing else. -/
structure ValueStore where
  client : ClientOrigin
deriving DecidableEq, Repr

/-- The services, and the store that the files are kept in. -/
structure Registry where
  values : ValueStore
  files : FileCache
  fileStore : ValueStore
deriving Repr

namespace Registry

/-- The services over one client: the cache is given the store of the values. -/
def overClient (client : ClientOrigin) (temporary : Path)
    (scratch keyPrefix ttl : Value) :
    Except StoreError Registry := do
  let values : ValueStore := ⟨client⟩
  let files ← FileCache.create true temporary scratch keyPrefix ttl
  .ok ⟨values, files, values⟩

def ofClient (hasClient : Bool) (temporary : Path)
    (scratch keyPrefix ttl : Value) :
    Except StoreError Registry :=
  if !hasClient then .error (.invalidArgument .noClient)
  else overClient .given temporary scratch keyPrefix ttl

def connectionOptions (s : Settings) (verify : Value) : Connection.Options where
  socketTimeout := .float s.socketTimeout
  connectTimeout := .float s.connectTimeout
  healthCheckInterval := .int s.healthCheckInterval
  retryOnTimeout := .bool s.retryOnTimeout
  verify := verify

/-- Opens the connection that settings describe, and the services over it. -/
def ofSettings (s : Settings) (temporary : Path) (verify : Value) :
    Program Registry := do
  Connection.connect s.address (connectionOptions s verify)
  .ofExcept (overClient (.opened s.address) temporary s.scratchDir (.text s.keyPrefix)
    (FileCache.durationValue s.fileTtl))

def close (_ : Registry) : Program Unit :=
  Connection.close

end Registry

end FileStash
