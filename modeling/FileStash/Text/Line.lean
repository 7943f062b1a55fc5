namespace FileStash.Text

/-- The characters that end a line: line feed to carriage return, the separators
of files, groups and records, the next line, and the separators of lines and
paragraphs. -/
def isLineEnd (c : Char) : Bool :=
  let n := c.toNat
  (10 ≤ n && n ≤ 13) || (0x1c ≤ n && n ≤ 0x1e) || n == 0x85 || n == 0x2028 || n == 0x2029

def consLine (c : Char) : List (List Char) → List (List Char)
  | [] => [[c]]
  | line :: lines => (c :: line) :: lines

def lines : List Char → List (List Char)
  | [] => []
  | '\r' :: '\n' :: cs => [] :: lines cs
  | c :: cs => if isLineEnd c then [] :: lines cs else consLine c (lines cs)

example : lines "a\r\nb\r\n\n".toList = ["a".toList, "b".toList, []] := by decide +kernel

end FileStash.Text
