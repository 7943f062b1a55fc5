namespace FileStash.Text.Utf8

def encodeChar (c : Char) : List UInt8 :=
  let n := c.toNat
  if n < 0x80 then [UInt8.ofNat n]
  else if n < 0x800 then [UInt8.ofNat (0xc0 + n / 64), UInt8.ofNat (0x80 + n % 64)]
  else if n < 0x10000 then
    [UInt8.ofNat (0xe0 + n / 4096), UInt8.ofNat (0x80 + n / 64 % 64), UInt8.ofNat (0x80 + n % 64)]
  else
    [UInt8.ofNat (0xf0 + n / 262144), UInt8.ofNat (0x80 + n / 4096 % 64),
      UInt8.ofNat (0x80 + n / 64 % 64), UInt8.ofNat (0x80 + n % 64)]

def encodeChars (cs : List Char) : List UInt8 :=
  cs.flatMap encodeChar

def encode (s : String) : List UInt8 :=
  encodeChars s.toList

def size (s : String) : Nat :=
  (encode s).length

inductive Reason
  | invalidStart
  | invalidContinuation
  | unexpectedEnd
deriving DecidableEq, Repr

def Reason.text : Reason → String
  | .invalidStart => "invalid start byte"
  | .invalidContinuation => "invalid continuation byte"
  | .unexpectedEnd => "unexpected end of data"

/-- The first fault of a run of octets: where it starts, how many octets it
spans, the first of them, and what is wrong. -/
structure Fault where
  position : Nat
  span : Nat
  octet : UInt8
  reason : Reason
deriving DecidableEq, Repr

def hexDigits (width n : Nat) : List Char :=
  let digits := Nat.toDigits 16 n
  List.replicate (width - digits.length) '0' ++ digits

def Fault.message (f : Fault) : String :=
  let place :=
    if f.span = 1 then
      "byte 0x" ++ String.ofList (hexDigits 2 f.octet.toNat) ++ " in position " ++ toString f.position
    else
      "bytes in position " ++ toString f.position ++ "-" ++ toString (f.position + f.span - 1)
  "'utf-8' codec can't decode " ++ place ++ ": " ++ f.reason.text

def isContinuation (b : UInt8) : Bool :=
  0x80 ≤ b.toNat && b.toNat < 0xc0

/-- Whether `b` may follow the first octet `a` of a form of three octets: no
overlong form and no surrogate. -/
def isSecondOfThree (a b : UInt8) : Bool :=
  isContinuation b && (if a.toNat = 0xe0 then 0xa0 ≤ b.toNat else a.toNat ≠ 0xed || b.toNat < 0xa0)

/-- Whether `b` may follow the first octet `a` of a form of four octets: no
overlong form and no code point beyond the last plane. -/
def isSecondOfFour (a b : UInt8) : Bool :=
  isContinuation b && (if a.toNat = 0xf0 then 0x90 ≤ b.toNat else a.toNat ≠ 0xf4 || b.toNat < 0x90)

def payload (b : UInt8) : Nat :=
  b.toNat - 0x80

def decodeFrom (position : Nat) : List UInt8 → Except Fault (List Char)
  | [] => .ok []
  | a :: rest =>
      let fault (span : Nat) (reason : Reason) : Except Fault (List Char) :=
        .error ⟨position, span, a, reason⟩
      if a.toNat < 0x80 then
        (decodeFrom (position + 1) rest).map (Char.ofNat a.toNat :: ·)
      else if a.toNat < 0xc2 then fault 1 .invalidStart
      else if a.toNat < 0xe0 then
        match rest with
        | [] => fault 1 .unexpectedEnd
        | b :: rest =>
            if !isContinuation b then fault 1 .invalidContinuation
            else
              let n := (a.toNat - 0xc0) * 64 + payload b
              (decodeFrom (position + 2) rest).map (Char.ofNat n :: ·)
      else if a.toNat < 0xf0 then
        match rest with
        | [] => fault 1 .unexpectedEnd
        | b :: rest =>
            if !isSecondOfThree a b then fault 1 .invalidContinuation
            else match rest with
              | [] => fault 2 .unexpectedEnd
              | c :: rest =>
                  if !isContinuation c then fault 2 .invalidContinuation
                  else
                    let n := (a.toNat - 0xe0) * 4096 + payload b * 64 + payload c
                    (decodeFrom (position + 3) rest).map (Char.ofNat n :: ·)
      else if a.toNat < 0xf5 then
        match rest with
        | [] => fault 1 .unexpectedEnd
        | b :: rest =>
            if !isSecondOfFour a b then fault 1 .invalidContinuation
            else match rest with
              | [] => fault 2 .unexpectedEnd
              | c :: rest =>
                  if !isContinuation c then fault 2 .invalidContinuation
                  else match rest with
                    | [] => fault 3 .unexpectedEnd
                    | d :: rest =>
                        if !isContinuation d then fault 3 .invalidContinuation
                        else
                          let n := (a.toNat - 0xf0) * 262144 + payload b * 4096
                            + payload c * 64 + payload d
                          (decodeFrom (position + 4) rest).map (Char.ofNat n :: ·)
      else fault 1 .invalidStart

def decode (bytes : List UInt8) : Except Fault String :=
  (decodeFrom 0 bytes).map String.ofList

end FileStash.Text.Utf8
