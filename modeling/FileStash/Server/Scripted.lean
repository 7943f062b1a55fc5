import FileStash.Server.Run

/-!
A server some of whose commands answer by a script: with a fixed value or a
fixed error, without any effect. It answers single calls and transactions.
-/

namespace FileStash

/-- The scripted answers stand under the names of the commands. -/
structure ScriptedServer where
  server : Server := {}
  script : Dict String (Except ClientError Value) := []

namespace ScriptedServer

def scripted? (s : ScriptedServer) (name : String) :
    Option (Except Failure Value) :=
  (Dict.get? s.script name).map fun r => r.mapError .client

def answer (s : ScriptedServer) (c : Command) :
    Except Failure Value × ScriptedServer :=
  match s.scripted? c.name with
  | some r => (r, s)
  | none =>
      let r := s.server.run c
      (r.1, { s with server := r.2 })

/-- Runs the commands of a transaction in order up to the first failure. -/
def answerAll (s : ScriptedServer) :
    List Command → Except Failure (List Value) × ScriptedServer
  | [] => (.ok [], s)
  | c :: cs =>
      match s.answer c with
      | (.error f, s) => (.error f, s)
      | (.ok v, s) =>
          let r := s.answerAll cs
          (r.1.map (v :: ·), r.2)

/-- Commits a transaction: an error anywhere undoes all of it, while an
interruption leaves what has been run before it. -/
def commit (s : ScriptedServer) (cs : List Command) :
    Except Failure Value × ScriptedServer :=
  match s.answerAll cs with
  | (.ok vs, s') => (.ok (.list vs), s')
  | (.error f, s') => (.error f, if f.interrupts then s' else s)

def openingName : String := "pipeline"

def call (s : ScriptedServer) : Call → Except Failure Reply × ScriptedServer
  | .connect .. | .close => (.ok (.value .null), s)
  | .run c =>
      let r := s.answer c
      (r.1.map .value, r.2)
  | .openTransaction =>
      match s.scripted? openingName with
      | some r => (r.map .value, s)
      | none => (.ok .transaction, s)
  | .queue _ => (.ok .transaction, s)
  | .commit cs =>
      let r := s.commit cs
      (r.1.map .value, r.2)

def inject (s : ScriptedServer) (name : String) (r : Except ClientError Value) :
    ScriptedServer :=
  { s with script := Dict.insert s.script name r }

def restore (s : ScriptedServer) (name : String) : ScriptedServer :=
  { s with script := Dict.erase s.script name }

end ScriptedServer

end FileStash
