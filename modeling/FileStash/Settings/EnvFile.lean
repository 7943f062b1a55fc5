import FileStash.Dict
import FileStash.Text.Blank
import FileStash.Text.Split

/-!
Files of assignments, one `NAME=value` after the other. A value may be bare, up
to a comment or the end of the line, or quoted, also over several lines. A line
that cannot be read is passed over. References to variables in a value are
replaced by what the variables hold.
-/

namespace FileStash.EnvFile

def unifyLineEnds : List Char → List Char
  | [] => []
  | '\r' :: '\n' :: cs => '\n' :: unifyLineEnds cs
  | c :: cs => (if c = '\r' then '\n' else c) :: unifyLineEnds cs

def isLineBlank (c : Char) : Bool :=
  Text.isBlank c && c ≠ '\n'

def skipBlanks (cs : List Char) : List Char :=
  cs.dropWhile isLineBlank

def dropLine (cs : List Char) : List Char :=
  (cs.dropWhile (· ≠ '\n')).drop 1

def exportWord : List Char := "export".toList

def skipExport (cs : List Char) : List Char :=
  let rest := cs.drop exportWord.length
  if exportWord.isPrefixOf cs && rest.head?.any isLineBlank then skipBlanks rest else cs

def isNameChar (c : Char) : Bool :=
  c ≠ '=' && c ≠ '#' && !Text.isBlank c

abbrev Reading (α : Type) := Option (α × List Char)

def takeSome (p : Char → Bool) (cs : List Char) : Reading (List Char) :=
  let run := cs.takeWhile p
  if run.isEmpty then none else some (run, cs.dropWhile p)

def readName (cs : List Char) : Reading (Option (List Char)) :=
  match cs with
  | '#' :: _ => some (none, cs)
  | '\'' :: rest =>
      match takeSome (· ≠ '\'') rest with
      | some (name, '\'' :: rest) => some (some name, rest)
      | _ => none
  | cs => (takeSome isNameChar cs).map fun r => (some r.1, r.2)

/-- What stands before the closing quote `q`. A backslash and the character
behind it stand together, so that a quote behind a backslash does not close. -/
def readQuoted (q : Char) : List Char → Reading (List Char)
  | [] => none
  | '\\' :: c :: cs => (readQuoted q cs).map fun r => ('\\' :: c :: r.1, r.2)
  | c :: cs =>
      if c = q then some ([], cs) else (readQuoted q cs).map fun r => (c :: r.1, r.2)

theorem eq_append_of_readQuoted {q : Char} {cs body rest : List Char}
    (h : readQuoted q cs = some (body, rest)) : cs = body ++ q :: rest := by
  fun_induction readQuoted q cs generalizing body with
  | case1 => simp at h
  | case2 c cs ih =>
      obtain ⟨⟨b, r⟩, hr, he⟩ := Option.map_eq_some_iff.1 h
      obtain ⟨rfl, rfl⟩ := Prod.mk.inj he
      simp [ih hr]
  | case3 cs =>
      obtain ⟨rfl, rfl⟩ := Prod.mk.inj (Option.some.inj h)
      rfl
  | case4 c cs _ hc ih =>
      obtain ⟨⟨b, r⟩, hr, he⟩ := Option.map_eq_some_iff.1 h
      obtain ⟨rfl, rfl⟩ := Prod.mk.inj he
      simp [ih hr]

def singleEscape? (c : Char) : Option Char :=
  if c = '\\' || c = '\'' then some c else none

def doubleEscape? (c : Char) : Option Char :=
  match c with
  | 'a' => some '\x07'
  | 'b' => some '\x08'
  | 'f' => some '\x0c'
  | 'n' => some '\n'
  | 'r' => some '\r'
  | 't' => some '\t'
  | 'v' => some '\x0b'
  | '"' => some '"'
  | c => singleEscape? c

/-- Replaces the escapes in a text; other backslashes stand for themselves. -/
def unescape (escape? : Char → Option Char) : List Char → List Char
  | [] => []
  | '\\' :: c :: cs =>
      match escape? c with
      | some d => d :: unescape escape? cs
      | none => '\\' :: unescape escape? (c :: cs)
  | c :: cs => c :: unescape escape? cs

def cutComment (afterBlank : Bool) : List Char → List Char
  | [] => []
  | c :: cs => if c = '#' && afterBlank then [] else c :: cutComment (Text.isBlank c) cs

/-- A value without quotes, up to a comment. The blanks around it do not
count. -/
def bareValue (line : List Char) : List Char :=
  Text.trim Text.isBlank (cutComment false line)

def readValue (cs : List Char) : Reading (List Char) :=
  match skipBlanks cs with
  | '\'' :: rest => (readQuoted '\'' rest).map fun r => (unescape singleEscape? r.1, r.2)
  | '"' :: rest => (readQuoted '"' rest).map fun r => (unescape doubleEscape? r.1, r.2)
  | _ => some (bareValue (cs.takeWhile (· ≠ '\n')), cs.dropWhile (· ≠ '\n'))

/-- What follows the end of the line, before which only a comment may stand. -/
def endLine? (cs : List Char) : Option (List Char) :=
  match skipBlanks cs with
  | [] => some []
  | '\n' :: rest => some rest
  | '#' :: rest => some (dropLine rest)
  | _ => none

structure Assignment where
  name : String
  value : Option String
deriving DecidableEq, Repr

/-- Reads the value of an assignment, if there is one, and the rest of its
line. -/
def readAssigned (name : Option (List Char)) (cs : List Char) :
    Option Assignment × List Char :=
  match cs with
  | '=' :: rest =>
      match readValue rest with
      | none => (none, dropLine rest)
      | some (value, rest) =>
          match endLine? rest with
          | none => (none, dropLine rest)
          | some rest => (name.map fun n => ⟨String.ofList n, some (String.ofList value)⟩, rest)
  | cs =>
      match endLine? cs with
      | none => (none, dropLine cs)
      | some rest => (name.map fun n => ⟨String.ofList n, none⟩, rest)

/-- Reads the next assignment and its line, and passes over a line that cannot
be read. -/
def readBinding (cs : List Char) : Option Assignment × List Char :=
  let cs := skipExport (cs.dropWhile Text.isBlank)
  match readName cs with
  | none => (none, dropLine cs)
  | some (name, rest) => readAssigned name (skipBlanks rest)

/-- All assignments in their order. Each step leaves less to read. -/
def assignments (cs : List Char) : List Assignment :=
  match cs with
  | [] => []
  | cs =>
      let (a, rest) := readBinding cs
      if rest.length < cs.length then a.toList ++ assignments rest else a.toList
termination_by cs.length

/-- A reference to a variable, with the text that stands in for a missing
one. -/
structure Reference where
  name : String
  default : String
  length : Nat
deriving DecidableEq, Repr

def reference? (cs : List Char) : Option Reference :=
  match cs with
  | '$' :: '\x7b' :: rest =>
      let name := rest.takeWhile fun c => c ≠ '\x7d' && c ≠ ':'
      match rest.drop name.length with
      | '\x7d' :: _ => some ⟨String.ofList name, "", name.length + 3⟩
      | ':' :: '-' :: more =>
          let default := more.takeWhile (· ≠ '\x7d')
          if default.length < more.length then
            some ⟨String.ofList name, String.ofList default, name.length + default.length + 5⟩
          else none
      | _ => none
  | _ => none

/-- The variables that a value may refer to. A name without value counts as
empty. -/
abbrev Variables := Dict String (Option String)

def Reference.text (r : Reference) (vars : Variables) : List Char :=
  match Dict.get? vars r.name with
  | some value => (value.getD "").toList
  | none => r.default.toList

/-- Replaces the references; the first `skip` characters belong to one that has
been replaced. -/
def expandFrom (vars : Variables) (skip : Nat) : List Char → List Char
  | [] => []
  | c :: cs =>
      match skip with
      | skip + 1 => expandFrom vars skip cs
      | 0 =>
          match reference? (c :: cs) with
          | some r => r.text vars ++ expandFrom vars (r.length - 1) cs
          | none => c :: expandFrom vars 0 cs

def expand (vars : Variables) (s : String) : String :=
  String.ofList (expandFrom vars 0 s.toList)

/-- Adds an assignment, whose value may refer to the environment and to earlier
ones. -/
def assign (environment : Dict String String) (d : Variables) (a : Assignment) :
    Variables :=
  let vars : Variables :=
    d.foldl (fun vars e => Dict.insert vars e.1 e.2) (environment.map fun e => (e.1, some e.2))
  Dict.insert d a.name (a.value.map (expand vars))

/-- A byte order mark at the start of a file is no part of its text. -/
def dropMark (cs : List Char) : List Char :=
  if cs.head? = some '\ufeff' then cs.drop 1 else cs

def read (environment : Dict String String) (text : String) : Variables :=
  (assignments (unifyLineEnds (dropMark text.toList))).foldl (assign environment) []

end FileStash.EnvFile
