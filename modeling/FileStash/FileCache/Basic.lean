import FileStash.Containment
import FileStash.FileCache.Source
import FileStash.Store.Hash
import FileStash.Store.Scalar

/-!
Files kept in the store. Each file is a hash of two fields under a key made of a
prefix and the base name: the name, and the content in Base64. Files come back
as octets or into a scratch directory.
-/

namespace FileStash

structure FileCache where
  scratchDir : Path
  keyPrefix : Value
  ttl : Option Int
deriving Repr

namespace FileCache

def logger : String := libraryLogger "file_cache"

def defaultPrefix : Value := .text "file:"

def nameField : String := "fileName"

def contentField : String := "fileContent"

/-- The scratch directory: the one that is named, or the one for temporary
files. -/
def chooseScratch (temporary : Path) (scratch : Value) : Except Failure Path :=
  if scratch.truth then scratch.toPath else .ok temporary

def create (hasStore : Bool) (temporary : Path) (scratch keyPrefix ttl : Value) :
    Except StoreError FileCache := do
  if !hasStore then .error (.invalidArgument .noStore)
  else do
    let dir ← Store.bare (chooseScratch temporary scratch)
    let seconds ← Store.optionalDuration ttl
    .ok ⟨dir, keyPrefix, seconds⟩

def cacheKey (c : FileCache) (name : Value) : Except Failure String := do
  let first ← c.keyPrefix.plain
  let last ← name.plain
  .ok (first ++ last)

def encodeContent (content : List UInt8) : String :=
  String.ofList (Base64.encode content)

/-- The text that a content given as a value is kept as; only octets are
content. -/
def encodeValue : Value → Except Failure String
  | .bytes b => .ok (encodeContent b)
  | _ => .error .wrongType

/-- The octets of a cached content; text and octets are read, nothing else. -/
def decodeContent : Value → Except StoreError (List UInt8)
  | .text s => (Base64.decode s.toList).mapError .decode
  | .bytes b => (Base64.decodeOctets b).mapError .decode
  | _ => .error (.bare .wrongType)

def record (name : String) (content : List UInt8) : Value :=
  .map [(.text nameField, .text name), (.text contentField, .text (encodeContent content))]

def sizeNote (content : List UInt8) : String :=
  " (" ++ toString content.length ++ " bytes)"

/-- The time limit of a record: the one given for it, else the one of the
cache. -/
def effectiveTtl (c : FileCache) (ttl : Value) :
    Except StoreError (Option Int) :=
  match ttl with
  | .null => .ok c.ttl
  | v => (Store.requireDuration v).map some

def durationValue : Option Int → Value
  | some n => .int n
  | none => .null

/-- Caches a file under its base name and answers the key. The content is read
and encoded before the store is asked for anything. -/
def store (c : FileCache) (file : FileSource) (ttl : Value) : Program String :=
  match file with
  | .value .null => .fail (.invalidArgument .noFile)
  | file => do
      let seconds ← .ofExcept (c.effectiveTtl ttl)
      let (name, content) ← file.read
      let key ← .ofConverted (c.cacheKey (.text name))
      let _ ← Store.hashPutAll (.text key) (record name content) (durationValue seconds)
      Program.note .info logger ("Cached " ++ name ++ " under " ++ key ++ sizeNote content)
      .done key

def requireName : Value → Except StoreError String
  | .text s => if s.isEmpty then .error (.invalidArgument .emptyFileName) else .ok s
  | _ => .error (.invalidArgument .emptyFileName)

def entries (c : FileCache) (name : String) : Program (Dict Value Value) := do
  let key ← .ofConverted (c.cacheKey (.text name))
  Store.hashGetAll (.text key)

/-- A field of a record, or a default where it is missing or counts as false. -/
def fieldOr (entries : Dict Value Value) (field : String) (default : Value) :
    Value :=
  match Dict.get? entries (.text field) with
  | some v => if v.truth then v else default
  | none => default

/-- The place where a cached file is written; a name that is refused is the
cache's failure. -/
def target (c : FileCache) (t : FileTree) (name : Value) :
    Except StoreError Path :=
  match t.safePath c.scratchDir name with
  | .ok p => .ok p
  | .error f =>
      if f.isIllFormed then do
        let shown ← Store.bare name.shown
        .error (.fileIO (.refusedName shown f))
      else .error (.bare f)

/-- The failure to write a file; trouble with the system is a failure of the
cache. -/
def writeFailure (p : Path) (f : Failure) : StoreError :=
  if f.isSystem then .fileIO (.unwritable p.text f) else .bare f

/-- Writes a file, making the directories on the way to it. The write may break
off. -/
def materialise (p : Path) (content : List UInt8)
    (broken : Option FileTree.Break := none) : Program Unit := do
  let t ← Program.currentTree
  let (outcome, t) := t.makeDirectories p.parent
  Program.replaceTree t
  match outcome with
  | .error f => .fail (writeFailure p f)
  | .ok () =>
      let (outcome, t) := t.fill p content broken
      Program.replaceTree t
      match outcome with
      | .error f => .fail (writeFailure p f)
      | .ok () => .done ()

/-- Writes the cached file of a name into the scratch directory and answers
where; none where nothing is cached. -/
def restore (c : FileCache) (name : Value) (broken : Option FileTree.Break := none) :
    Program (Option Path) := do
  let n ← .ofExcept (requireName name)
  let es ← c.entries n
  if es.isEmpty then
    Program.note .debug logger ("No cached file for " ++ n)
    .done none
  else
    let cachedName := fieldOr es nameField (.text n)
    let content ← .ofExcept (decodeContent (fieldOr es contentField (.text "")))
    let p ← .ofExcept (c.target (← Program.currentTree) cachedName)
    materialise p content broken
    let shownName ← .ofConverted cachedName.plain
    Program.note .info logger
      ("Restored " ++ shownName ++ " to " ++ p.text ++ sizeNote content)
    .done (some p)

/-- The cached octets of a name; none are there for a name that was never
cached. -/
def restoreBytes (c : FileCache) (name : Value) : Program (List UInt8) := do
  let n ← .ofExcept (requireName name)
  let es ← c.entries n
  if es.isEmpty then
    Program.note .debug logger ("No cached file for " ++ n ++ ", returning empty content")
  .ofExcept (decodeContent (fieldOr es contentField (.text "")))

def exists? (c : FileCache) (name : Value) : Program Bool := do
  let n ← .ofExcept (requireName name)
  let key ← .ofConverted (c.cacheKey (.text n))
  Store.hasKey (.text key) .null

end FileCache

end FileStash
