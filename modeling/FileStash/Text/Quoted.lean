import FileStash.Text.Printable
import FileStash.Text.Utf8

namespace FileStash.Text

def quoteMark (hasSingle hasDouble : Bool) : Char :=
  if hasSingle && !hasDouble then '"' else '\''

/-- The shortest of the three numbered escapes that holds the code point. -/
def numberedEscape (n : Nat) : List Char :=
  if n < 0x100 then '\\' :: 'x' :: Utf8.hexDigits 2 n
  else if n < 0x10000 then '\\' :: 'u' :: Utf8.hexDigits 4 n
  else '\\' :: 'U' :: Utf8.hexDigits 8 n

def escapeChar (q c : Char) : List Char :=
  if c = q || c = '\\' then ['\\', c]
  else if c = '\n' then ['\\', 'n']
  else if c = '\r' then ['\\', 'r']
  else if c = '\t' then ['\\', 't']
  else if isPrintable c then [c]
  else numberedEscape c.toNat

def quoteChars (cs : List Char) : List Char :=
  let q := quoteMark (cs.contains '\'') (cs.contains '"')
  q :: cs.flatMap (escapeChar q) ++ [q]

def quote (s : String) : String :=
  String.ofList (quoteChars s.toList)

/-- One octet inside quotes `q`; octets outside the visible ASCII range are
numbered. -/
def escapeByte (q : Char) (b : UInt8) : List Char :=
  if b.toNat < 0x7f then escapeChar q (Char.ofNat b.toNat) else numberedEscape b.toNat

def quoteBytes (bytes : List UInt8) : String :=
  let q := quoteMark (bytes.contains 0x27) (bytes.contains 0x22)
  String.ofList ('b' :: q :: bytes.flatMap (escapeByte q) ++ [q])

example : quote "it's" = "\"it's\"" := by decide +kernel

end FileStash.Text
