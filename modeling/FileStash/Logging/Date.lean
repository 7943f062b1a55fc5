namespace FileStash.Date

structure Day where
  year : Int
  month : Nat
  day : Nat
deriving DecidableEq, Repr

/-- The day so many days after 1 March of the year 0. Years are counted from
March on, so that the leap day ends one; four hundred of them have 146097
days. -/
def dayFromMarch (days : Int) : Day :=
  let era := days.fdiv 146097
  let inEra := (days - era * 146097).toNat
  let year := (inEra - inEra / 1460 + inEra / 36524 - inEra / 146096) / 365
  let inYear := inEra - (365 * year + year / 4 - year / 100)
  let month := (5 * inYear + 2) / 153
  let day := inYear - (153 * month + 2) / 5 + 1
  let calendarMonth := if month < 10 then month + 3 else month - 9
  ⟨era * 400 + year + (if calendarMonth ≤ 2 then 1 else 0), calendarMonth, day⟩

def dayFromEpoch (days : Int) : Day :=
  dayFromMarch (days + 719468)

example : dayFromEpoch 0 = ⟨1970, 1, 1⟩ := by decide

example : dayFromEpoch 19782 = ⟨2024, 2, 29⟩ := by decide

def padded (width n : Nat) : String :=
  let digits := toString n
  String.ofList (List.replicate (width - digits.length) '0') ++ digits

/-- The text of a point in time, given in seconds after the start of 1970. -/
def text (seconds : Int) : String :=
  let days := seconds.fdiv 86400
  let rest := (seconds - days * 86400).toNat
  let d := dayFromEpoch days
  padded 4 d.year.toNat ++ "-" ++ padded 2 d.month ++ "-" ++ padded 2 d.day ++ " " ++
    padded 2 (rest / 3600) ++ ":" ++ padded 2 (rest / 60 % 60) ++ ":" ++ padded 2 (rest % 60)

end FileStash.Date
