import FileStash.FileTree.Resolve
import FileStash.Logging.Loggers
import FileStash.Value.Convert

namespace FileStash

/-- Loggers with the files they write to, and what has been written to the
console, text by text. -/
structure Journal where
  loggers : Loggers := {}
  tree : FileTree := {}
  console : List String := []
deriving DecidableEq, Repr

/-- When and where in the program something is logged. -/
structure Stamp where
  time : String
  place : String
deriving DecidableEq, Repr

/-- Something to be logged at any level. -/
structure Notice where
  level : Level
  logger : String
  message : String
deriving DecidableEq, Repr

def Record.notice (r : Record) : Notice :=
  ⟨.number r.severity.level, r.logger, r.message⟩

namespace Notice

def loggerName (n : Notice) : String :=
  if Loggers.isRoot n.logger then Loggers.rootName else n.logger

def consoleText (n : Notice) (s : Stamp) : String :=
  s.time ++ " - " ++ n.loggerName ++ " - " ++ n.level.shown ++ " - " ++ n.message

def fileText (n : Notice) (s : Stamp) : String :=
  s.time ++ " - " ++ n.loggerName ++ " - " ++ n.level.shown ++ " - " ++ s.place ++ " - " ++ n.message

end Notice

namespace Journal

def handle (s : Stamp) (n : Notice) (j : Journal) (h : Handler) : Journal :=
  if n.level.value < h.level.value then j
  else
    match h.file with
    | none => { j with console := j.console ++ [n.consoleText s] }
    | some (_, loc) =>
        { j with tree := j.tree.append loc (Text.Utf8.encode (n.fileText s ++ "\n")) }

/-- Without any handler, warnings and worse show their bare message. -/
def handleLast (n : Notice) (j : Journal) : Journal :=
  if n.level.value < Level.warning.value then j
  else { j with console := j.console ++ [n.message] }

def emit (s : Stamp) (j : Journal) (n : Notice) : Journal :=
  let j := { j with loggers := j.loggers.ensure n.logger }
  if j.loggers.takes n.logger n.level.value then
    match j.loggers.handlers n.logger with
    | [] => handleLast n j
    | hs => hs.foldl (handle s n) j
  else j

/-- The name in a value. What counts as false means the root logger; else a name
is a text. -/
def nameOf (v : Value) : Except Failure String :=
  if v.truth then
    match v with
    | .text s => .ok s
    | _ => .error .wrongType
  else .ok ""

def look (j : Journal) (name : Value) : Except Failure String × Journal :=
  match nameOf name with
  | .error f => (.error f, j)
  | .ok n => (.ok n, { j with loggers := j.loggers.ensure n })

/-- Gives a logger a console handler of a level, to which its records go alone;
one that has handlers stays as it is. -/
def equip (j : Journal) (name : String) (level : Value) :
    Except Failure Unit × Journal :=
  let g := j.loggers.get name
  if !g.handlers.isEmpty then (.ok (), j)
  else
    match Level.ofValue (if level.isNull then Level.info.toValue else level) with
    | .error f => (.error f, j)
    | .ok lv =>
        (.ok (), { j with loggers := j.loggers.put name ⟨lv, false, [⟨lv, none⟩]⟩ })

def log (s : Stamp) (j : Journal) (name level : Value) (message : String) :
    Except Failure Unit × Journal :=
  match j.look name with
  | (.error f, j) => (.error f, j)
  | (.ok n, j) =>
      match Level.ofNumber level with
      | .error f => (.error f, j)
      | .ok lv => (.ok (), j.emit s ⟨lv, n, message⟩)

def getLogger (j : Journal) (name level : Value) :
    Except Failure String × Journal :=
  match j.look name with
  | (.error f, j) => (.error f, j)
  | (.ok n, j) =>
      let r := j.equip n level
      (r.1.map fun _ => n, r.2)

def setLevel (j : Journal) (lv : Level) : Journal :=
  let g := j.loggers.get packageLogger
  let handlers := g.handlers.map fun h => { h with level := lv }
  { j with loggers := j.loggers.put packageLogger { g with level := lv, handlers := handlers } }

def writesTo (j : Journal) (p : Path) : Bool :=
  (j.loggers.get packageLogger).handlers.any fun h => h.file.any (·.1 = p)

def attach (j : Journal) (lv : Level) (p : Path) (loc : Location) : Journal :=
  let g := j.loggers.get packageLogger
  { j with
    loggers := j.loggers.put packageLogger { g with handlers := g.handlers ++ [⟨lv, some (p, loc)⟩] } }

/-- Opens a file for the package's records unless they go there already; missing
directories on the way to it are made. -/
def openFile (j : Journal) (lv : Level) (file : Value) :
    Except Failure Unit × Journal :=
  match file.toPath.bind j.tree.resolve with
  | .error f => (.error f, j)
  | .ok p =>
      if j.writesTo p then (.ok (), j)
      else
        match j.tree.makeDirectories p.parent with
        | (.error f, t) => (.error f, { j with tree := t })
        | (.ok (), t) =>
            match t.openAppend p with
            | .error f => (.error f, { j with tree := t })
            | .ok (loc, t) => (.ok (), { j with tree := t }.attach lv p loc)

/-- Shows the package's records of a level and above on the console, and writes
them to a file where one is given. Calling it again changes the level and adds
files. -/
def enable (j : Journal) (level file : Value) : Except Failure Unit × Journal :=
  match j.getLogger (.text packageLogger) level with
  | (.error f, j) => (.error f, j)
  | (.ok _, j) =>
      match Level.ofValue level with
      | .error f => (.error f, j)
      | .ok lv =>
          let j := j.setLevel lv
          if file.isNull then (.ok (), j) else j.openFile lv file

end Journal

end FileStash
