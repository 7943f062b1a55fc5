import FileStash.Failure
import FileStash.Value.Convert

namespace FileStash

/-- What a key can hold. Sets list their members once, in the order they
came. -/
inductive Content
  | text (s : String)
  | hash (fields : Dict String String)
  | set (members : List String)
  | scored (scores : Dict String Binary64)
  | sequence (items : List String)
deriving DecidableEq, Repr

/-- A collection without elements is dropped when its last element goes. -/
def Content.isEmpty : Content → Bool
  | .text _ => false
  | .hash fields => fields.isEmpty
  | .set members => members.isEmpty
  | .scored scores => scores.isEmpty
  | .sequence items => items.isEmpty

/-- Deadlines are points of the clock, in milliseconds. -/
structure Entry where
  content : Content
  deadline : Option Int := none
deriving DecidableEq, Repr

structure Server where
  entries : Dict String Entry := []
  now : Int := 0
deriving DecidableEq, Repr, Inhabited

namespace Server

def Entry.expired (e : Entry) (now : Int) : Bool :=
  match e.deadline with
  | some d => d ≤ now
  | none => false

def live? (s : Server) (key : String) : Option Entry :=
  match Dict.get? s.entries key with
  | some e => if Entry.expired e s.now then none else some e
  | none => none

def purge (s : Server) (key : String) : Server :=
  match Dict.get? s.entries key with
  | some e => if Entry.expired e s.now then { s with entries := Dict.erase s.entries key } else s
  | none => s

def put (s : Server) (key : String) (e : Entry) : Server :=
  { s with entries := Dict.insert s.entries key e }

def drop (s : Server) (key : String) : Server :=
  { s with entries := Dict.erase s.entries key }

def update (s : Server) (key : String) (c : Content) : Server :=
  match Dict.get? s.entries key with
  | some e => s.put key { e with content := c }
  | none => s.put key ⟨c, none⟩

def dropIfEmpty (s : Server) (key : String) : Server :=
  match Dict.get? s.entries key with
  | some e => if e.content.isEmpty then s.drop key else s
  | none => s

def advance (s : Server) (milliseconds : Int) : Server :=
  { s with now := s.now + milliseconds }

theorem live?_purge (s : Server) (key key' : String) :
    (s.purge key).live? key' = s.live? key' := by
  unfold purge
  split
  · rename_i e he
    split
    · rename_i hx
      by_cases h : key' = key
      · subst h
        simp [live?, he, hx, Dict.get?_erase_self]
      · simp [live?, Dict.get?_erase_of_ne _ h]
    · rfl
  · rfl

theorem get?_purge_of_ne (s : Server) {key key' : String} (h : key' ≠ key) :
    Dict.get? (s.purge key).entries key' = Dict.get? s.entries key' := by
  unfold purge
  split
  · split
    · exact Dict.get?_erase_of_ne _ h
    · rfl
  · rfl

/-- How a value is sent: texts as they are, octets as the text they encode,
numbers by their text. Truth values and the absent value cannot be sent. -/
def encode : Value → Except Failure String
  | .bool _ => .error (.client (.badInput "Invalid input of type: 'bool'"))
  | .null => .error (.client (.badInput "Invalid input of type: 'NoneType'"))
  | .bytes b => (Text.Utf8.decode b).mapError .encoding
  | v => v.plain

theorem encode_text (s : String) : encode (.text s) = .ok s := rfl

end Server

end FileStash
