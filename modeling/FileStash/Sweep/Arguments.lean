import FileStash.Number.Literal
import FileStash.Text.Quoted
import FileStash.Text.Split
import FileStash.Value.Basic

/-!
The arguments of the sweep command. Options start with two dashes and may be cut
short where no other starts alike; a value follows as the next argument or
behind an equals sign. What looks like a negative number, or has a space in it,
is a value.
-/

namespace FileStash.Sweep

inductive Switch
  | help
  | path
  | older
  | force
  | verbose
  | logFile
deriving DecidableEq, Repr

namespace Switch

def spellings : List (String × Switch) :=
  [("-h", .help), ("--help", .help), ("--path", .path), ("--older-than-hours", .older),
    ("--force", .force), ("--verbose", .verbose), ("--log-file", .logFile)]

def title (s : Switch) : String :=
  String.intercalate "/" ((spellings.filter (·.2 = s)).map (·.1))

def takesValue : Switch → Bool
  | .path | .older | .logFile => true
  | .help | .force | .verbose => false

def ofSpelling? (s : String) : Option Switch :=
  Dict.get? spellings s

end Switch

inductive UsageFault
  | ambiguous (given : String) (spellings : List String)
  | missingValue (option : Switch)
  | notNumber (option : Switch) (shown : String)
  | unwantedValue (option : Switch) (shown : String)
  | unknown (arguments : List String)
deriving DecidableEq, Repr

def UsageFault.message : UsageFault → String
  | .ambiguous given spellings =>
      "ambiguous option: " ++ given ++ " could match " ++ String.intercalate ", " spellings
  | .missingValue option => "argument " ++ option.title ++ ": expected one argument"
  | .notNumber option shown =>
      "argument " ++ option.title ++ ": invalid float value: " ++ shown
  | .unwantedValue option shown =>
      "argument " ++ option.title ++ ": ignored explicit argument " ++ shown
  | .unknown arguments => "unrecognized arguments: " ++ String.intercalate " " arguments

/-- A value that stands in one argument with its option, behind an equals sign
or, where the option is a single letter, right behind that. -/
structure Attached where
  letter : Bool
  text : String
deriving DecidableEq, Repr

inductive Word
  | plain (s : String)
  | separator
  | option (s : Switch) (attached : Option Attached)
  | stranger (s : String)
deriving DecidableEq, Repr

def looksNegative (cs : List Char) : Bool :=
  let isDigit (c : Char) : Bool := (Text.digitValue? c).isSome
  match cs with
  | '-' :: body =>
      let body := if body.getLast? = some '\n' then body.dropLast else body
      let rest := body.dropWhile isDigit
      match rest with
      | [] => !body.isEmpty
      | '.' :: places => !places.isEmpty && places.all isDigit
      | _ => false
  | _ => false

/-- Whether a spelling of an option is a single letter behind a dash. -/
def isLetter (spelling : String) : Bool :=
  spelling.length = 2

def atEquals (s : String) : String × Option Attached :=
  match Text.cutAt ['='] s.toList with
  | some (before, behind) =>
      let start := String.ofList before
      (start, some ⟨isLetter start, String.ofList behind⟩)
  | none => (s, none)

def candidates (s : String) : List (String × Switch × Option Attached) :=
  match s.toList with
  | '-' :: '-' :: _ =>
      let (start, attached) := atEquals s
      (Switch.spellings.filter fun e => start.toList.isPrefixOf e.1.toList).map fun e =>
        (e.1, e.2, attached)
  | '-' :: c :: rest =>
      (Switch.spellings.filter (·.1.toList = ['-', c])).map fun e =>
        (e.1, e.2, some ⟨true, String.ofList rest⟩)
  | _ => []

/-- The form of an argument that starts with a dash and is no option as it
stands. -/
def abbreviated (s : String) : Except UsageFault Word :=
  match candidates s with
  | [(_, option, attached)] => .ok (.option option attached)
  | [] =>
      if looksNegative s.toList || s.toList.contains ' ' then .ok (.plain s) else .ok (.stranger s)
  | several => .error (.ambiguous s (several.map (·.1)))

def classify (s : String) : Except UsageFault Word :=
  match s.toList with
  | ['-'] => .ok (.plain s)
  | '-' :: _ =>
      match Switch.ofSpelling? s with
      | some option => .ok (.option option none)
      | none =>
          match atEquals s with
          | (start, some attached) =>
              match Switch.ofSpelling? start with
              | some option => .ok (.option option (some attached))
              | none => abbreviated s
          | (_, none) => abbreviated s
  | _ => .ok (.plain s)

def classifyAll : List String → Except UsageFault (List Word)
  | [] => .ok []
  | s :: ss =>
      if s = "--" then .ok (.separator :: ss.map .plain)
      else do
        let w ← classify s
        .ok (w :: (← classifyAll ss))

/-- What arguments say about an option with a value. Two dashes behind the
equals sign give the option, but no value. -/
inductive Supplied (α : Type)
  | absent
  | empty
  | value (a : α)
deriving DecidableEq, Repr

def Supplied.toValue {α : Type} (ofValue : α → Value) : Supplied α → Value
  | .absent => .null
  | .empty => .list []
  | .value a => ofValue a

structure Arguments where
  path : Supplied String := .absent
  older : Supplied Binary64 := .absent
  force : Bool := false
  verbose : Bool := false
  logFile : Supplied String := .absent
deriving DecidableEq, Repr

inductive Request
  | help
  | sweep (a : Arguments)
deriving DecidableEq, Repr

def Arguments.take (a : Arguments) (option : Switch) (value : String) :
    Except UsageFault Arguments :=
  let text : Supplied String := if value = "--" then .empty else .value value
  match option with
  | .path => .ok { a with path := text }
  | .logFile => .ok { a with logFile := text }
  | .older =>
      if value = "--" then .ok { a with older := .empty }
      else
        match readFloat .wide value.toList with
        | some x => .ok { a with older := .value x }
        | none => .error (.notNumber option (Text.quote value))
  | _ => .error (.unwantedValue option (Text.quote value))

def Arguments.set (a : Arguments) : Switch → Arguments
  | .force => { a with force := true }
  | .verbose => { a with verbose := true }
  | _ => a

/-- What remains of a value of the option for help: behind its letter, the same
letter may follow any number of times. -/
def helpRest (attached : Attached) : String :=
  if attached.letter then String.ofList (attached.text.toList.dropWhile (· = 'h'))
  else attached.text

def checkAttached (option : Switch) : Option Attached → Except UsageFault Unit
  | none => .ok ()
  | some attached =>
      let rest := if option = .help then helpRest attached else attached.text
      if attached.letter && !attached.text.isEmpty && rest.isEmpty then .ok ()
      else .error (.unwantedValue option (Text.quote rest))

/-- Goes through the arguments. Those that belong to no option are strangers and
refused at the end, but help is given at once. -/
def gather (a : Arguments) (strangers : List String) :
    List Word → Except UsageFault Request
  | [] => if strangers.isEmpty then .ok (.sweep a) else .error (.unknown strangers)
  | .plain s :: ws => gather a (strangers ++ [s]) ws
  | .separator :: ws => gather a (strangers ++ ["--"]) ws
  | .stranger s :: ws => gather a (strangers ++ [s]) ws
  | .option option attached :: ws =>
      if option.takesValue then
        match attached, ws with
        | some value, ws => do gather (← a.take option value.text) strangers ws
        | none, .plain value :: ws => do gather (← a.take option value) strangers ws
        | none, _ => .error (.missingValue option)
      else do
        checkAttached option attached
        if option = .help then .ok .help else gather (a.set option) strangers ws

def readArguments (arguments : List String) : Except UsageFault Request := do
  gather {} [] (← classifyAll arguments)

end FileStash.Sweep
