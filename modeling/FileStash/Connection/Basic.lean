import FileStash.Connection.Keepalive
import FileStash.Connection.Redaction
import FileStash.Program

namespace FileStash.Connection

def logger : String := libraryLogger "client"

def halfMinute : Value := .float (.ofRatio false 30 1)

/-- `verify` says whether the server is asked; whatever counts as true does. -/
structure Options where
  socketTimeout : Value := halfMinute
  connectTimeout : Value := halfMinute
  healthCheckInterval : Value := .int 30
  retryOnTimeout : Value := .bool true
  verify : Value := .bool true

namespace Options

def set (o : Options) (name : String) (v : Value) : Except Failure Options :=
  match name with
  | "socket_timeout" => .ok { o with socketTimeout := v }
  | "socket_connect_timeout" => .ok { o with connectTimeout := v }
  | "health_check_interval" => .ok { o with healthCheckInterval := v }
  | "retry_on_timeout" => .ok { o with retryOnTimeout := v }
  | "ping" => .ok { o with verify := v }
  | _ => .error .wrongType

def ofNamed (entries : List (String × Value)) : Except Failure Options :=
  entries.foldlM (fun o e => o.set e.1 e.2) {}

def arguments (o : Options) : List (String × Value) :=
  [("decode_responses", .bool true),
    ("health_check_interval", o.healthCheckInterval),
    ("retry_on_timeout", o.retryOnTimeout),
    ("socket_connect_timeout", o.connectTimeout),
    ("socket_keepalive", .bool true),
    ("socket_keepalive_options",
      .map (Keepalive.usual.options.map fun e => (.int e.1, .int e.2))),
    ("socket_timeout", o.socketTimeout)]

end Options

/-- One call whose answer does not matter; a failure is handed on. -/
def calling (c : Call) (failing : Failure → Program Unit) : Program Unit :=
  .call c fun r =>
    match r with
    | .ok _ => .done ()
    | .error f => failing f

/-- What a failure to reach the server means: trouble with the server is
recorded and reported without the credentials in the address. -/
def unreachable (address : String) : Failure → Program Unit
  | .client e =>
      if e.concernsServer then
        match redact address with
        | .error f => .fail (.bare f)
        | .ok shown =>
            .log ⟨.error, logger, "Redis connection failed for " ++ shown ++ ": " ++ e.text⟩
              (.fail (.unavailable (.unreachable shown e)))
      else .fail (.bare (.client e))
  | f => .fail (.bare f)

def connect (address : String) (o : Options) : Program Unit := do
  calling (.connect address o.arguments) fun f => .fail (.bare f)
  if o.verify.truth then
    calling (.run .ping) (unreachable address)
    Program.note .debug logger "Redis connection established"

def close : Program Unit :=
  calling .close fun f => .fail (.bare f)

end FileStash.Connection
