import FileStash.Text.Blank
import FileStash.Value.Convert

namespace FileStash.Store

abbrev Checked := Except StoreError

def bare {α : Type} : Except Failure α → Checked α
  | .ok a => .ok a
  | .error f => .error (.bare f)

/-- Failures that say that a value does not fit, as against one that is out of
range. -/
def isMisfit (f : Failure) : Bool :=
  f = .wrongType || f.isIllFormed

def requireKey : Value → Checked String
  | .text s => if Text.allBlank s then .error (.invalidArgument .blankKey) else .ok s
  | _ => .error (.invalidArgument .blankKey)

/-- A duration is a positive number of seconds; whatever converts to one is
taken. -/
def requireDuration (v : Value) : Checked Int :=
  match v.toInt with
  | .error f =>
      if isMisfit f then do
        let shown ← bare v.shown
        .error (.invalidArgument (.notDuration shown f))
      else .error (.bare f)
  | .ok n =>
      if 0 < n then .ok n
      else do
        let shown ← bare (Value.int n).shown
        .error (.invalidArgument (.durationNotPositive shown))

def optionalDuration : Value → Checked (Option Int)
  | .null => .ok none
  | v => (requireDuration v).map some

theorem requireKey_eq_ok_iff (v : Value) (s : String) :
    requireKey v = .ok s ↔ v = .text s ∧ Text.allBlank s = false := by
  cases v <;> simp [requireKey]
  rename_i t
  constructor
  · intro h
    by_cases hb : Text.allBlank t
    · simp [hb] at h
    · simp only [hb] at h
      cases h
      simpa using hb
  · rintro ⟨rfl, h⟩
    simp [h]

theorem requireKey_of_blank {s : String} (h : Text.allBlank s = true) :
    requireKey (.text s) = .error (.invalidArgument .blankKey) := by
  rw [requireKey, if_pos h]

theorem requireDuration_pos {v : Value} {n : Int}
    (h : requireDuration v = .ok n) : 0 < n := by
  unfold requireDuration at h
  split at h
  · split at h
    · cases hs : bare v.shown <;> simp [hs, bind, Except.bind] at h
    · simp at h
  · rename_i m _
    split at h
    · cases h
      assumption
    · cases hs : bare (Value.int m).shown <;> simp [hs, bind, Except.bind] at h

theorem optionalDuration_of_requireDuration {v : Value} {n : Int}
    (h : requireDuration v = .ok n) : optionalDuration v = .ok (some n) := by
  unfold optionalDuration
  split
  · cases h
  · rw [h]
    rfl

theorem optionalDuration_pos {v : Value} {n : Int}
    (h : optionalDuration v = .ok (some n)) : 0 < n := by
  unfold optionalDuration at h
  split at h
  · cases h
  · cases hduration : requireDuration v with
    | error e => simp [hduration, Except.map] at h
    | ok m =>
        simp only [hduration, Except.map, Except.ok.injEq, Option.some.injEq] at h
        exact h ▸ requireDuration_pos hduration

end FileStash.Store
