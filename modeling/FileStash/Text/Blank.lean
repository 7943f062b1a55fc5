namespace FileStash.Text

/-- The blanks of the ASCII range that surround a number: tab to carriage
return, and the space. -/
def isAsciiBlank (c : Char) : Bool :=
  (9 ≤ c.toNat && c.toNat ≤ 13) || c.toNat == 32

def isWideBlank (c : Char) : Bool :=
  let n := c.toNat
  n == 0x85 || n == 0xa0 || n == 0x1680 || (0x2000 ≤ n && n ≤ 0x200a) || n == 0x2028 || n == 0x2029
    || n == 0x202f || n == 0x205f || n == 0x3000

def isNumberBlank (c : Char) : Bool :=
  isAsciiBlank c || isWideBlank c

/-- The blanks around a word: those around a number and the four information
separators. -/
def isBlank (c : Char) : Bool :=
  isNumberBlank c || (0x1c ≤ c.toNat && c.toNat ≤ 0x1f)

def trim (p : Char → Bool) (cs : List Char) : List Char :=
  ((cs.dropWhile p).reverse.dropWhile p).reverse

def allBlank (s : String) : Bool :=
  s.toList.all isBlank

/-- The lower-case form of the ASCII letters; every other character stays. -/
def lower (cs : List Char) : List Char :=
  cs.map Char.toLower

theorem trim_eq_nil_of_all {p : Char → Bool} {cs : List Char}
    (h : cs.all p = true) :
    trim p cs = [] := by
  have hdrop : cs.dropWhile p = [] := by
    induction cs with
    | nil => rfl
    | cons c cs ih =>
        simp only [List.all_cons, Bool.and_eq_true] at h
        simp [h.1, ih h.2]
  simp [trim, hdrop]

end FileStash.Text
