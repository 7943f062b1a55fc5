import FileStash.Proofs.Program.Outcome
import FileStash.Proofs.Store.Coercion

namespace FileStash.Store

/-- What stops at the gate with another error: an infinite number, and what the
message would have to show with an integer of too many digits. -/
inductive GateSlip : Value → Failure → Prop
  | infinite (negative : Bool) : GateSlip (.float (.infinite negative)) .overflow
  | overlong {v : Value} {n : Int} (hn : v.toInt = .ok n) (hpos : n ≤ 0)
      (hlong : firstOverlong ≤ n.natAbs) : GateSlip v (.illFormed .digitLimit)
  | unshown {v : Value} (hv : v.toInt = .error .wrongType) (hshown : v.shown? = none) :
      GateSlip v (.illFormed .digitLimit)

inductive Gated (v : Value) : Checked Int → Prop
  | passed {n : Int} (hn : v.toInt = .ok n) (hpos : 0 < n) : Gated v (.ok n)
  | notPositive {n : Int} {shown : String} (hn : v.toInt = .ok n) (hpos : n ≤ 0)
      (hshown : integerText? n = some shown) :
      Gated v (.error (.invalidArgument (.durationNotPositive shown)))
  | noInteger {f : Failure} {shown : String} (hf : v.toInt = .error f)
      (hshown : v.shown? = some shown) :
      Gated v (.error (.invalidArgument (.notDuration shown f)))
  | slip {f : Failure} (h : GateSlip v f) : Gated v (.error (.bare f))

/-- What is no integer and cannot be shown is of a kind that no integer is read
from. -/
theorem wrongType_of_unshown {v : Value} {f : Failure} (h : v.toInt = .error f)
    (hshown : v.shown? = none) : v.toInt = .error .wrongType := by
  cases v with
  | int n | bool b => cases h
  | float x | text s | bytes b => simp [Value.shown?] at hshown
  | _ => rfl

theorem gated (v : Value) : Gated v (requireDuration v) := by
  unfold requireDuration
  cases hint : v.toInt with
  | error f =>
      dsimp only
      obtain hmisfit | ⟨rfl, negative, rfl⟩ := toInt_error hint
      · rw [if_pos hmisfit]
        cases hshown : v.shown? with
        | some shown =>
            simp only [Value.shown, hshown, bare, bind, Except.bind]
            exact .noInteger hint hshown
        | none =>
            simp only [Value.shown, hshown, bare, bind, Except.bind]
            exact .slip (.unshown (wrongType_of_unshown hint hshown) hshown)
      · exact .slip (.infinite negative)
  | ok n =>
      dsimp only
      split
      · rename_i hpos
        exact .passed hint hpos
      · rename_i hpos
        cases hshown : integerText? n with
        | some shown =>
            simp only [Value.shown, Value.shown?, hshown, bare, bind, Except.bind]
            exact .notPositive hint (by omega) hshown
        | none =>
            have hlong := integerText?_isSome_iff n
            rw [hshown] at hlong
            simp only [Value.shown, Value.shown?, hshown, bare, bind, Except.bind]
            exact .slip (.overlong hint (by omega) (by simpa using hlong))

theorem requireDuration_eq_ok_iff (v : Value) (n : Int) :
    requireDuration v = .ok n ↔ v.toInt = .ok n ∧ 0 < n := by
  constructor
  · intro h
    have hgated := gated v
    rw [h] at hgated
    cases hgated with
    | passed hn hpos => exact ⟨hn, hpos⟩
  · rintro ⟨hn, hpos⟩
    simp only [requireDuration, hn, if_pos hpos]

theorem requireDuration_of_slip {v : Value} {f : Failure} (h : GateSlip v f) :
    requireDuration v = .error (.bare f) := by
  cases h with
  | infinite negative => rfl
  | @overlong _ n hn hpos hlong =>
      simp only [requireDuration, hn, if_neg (Int.not_lt.mpr hpos), shown_overlong hlong, bare, bind,
        Except.bind]
  | unshown hv hshown =>
      simp only [requireDuration, hv, Value.shown, hshown, bare, bind, Except.bind]
      rfl

section Calls

variable {σ : Type} {client : Client σ}

open Program (Follows Begins)

theorem follows_calling (operation key : String) (c : Call) :
    (calling operation key c).Follows client [c] := by
  refine Program.follows_call (Q := fun _ => False) fun r => ?_
  cases r with
  | ok reply => trivial
  | error f => exact within_meaning operation key f

theorem begins_calling (operation key : String) (c : Call) :
    (calling operation key c).Begins client :=
  Program.begins_call c _

theorem follows_ask (operation key : String) (c : Command) :
    (ask operation key c).Follows client [.run c] := by
  refine (follows_calling operation key (.run c)).andThen_silent fun r => ?_
  cases r <;> exact trivial

theorem begins_ask (operation key : String) (c : Command) :
    (ask operation key c).Begins client :=
  (begins_calling operation key (.run c)).andThen _

/-- The calls of a write within a time limit. -/
def transactionCalls (key : String) (items : List (Value × Value)) (n : Int) : List Call :=
  [.openTransaction, .queue (.hsetAll key items), .queue (.expire key n),
    .commit [.hsetAll key items, .expire key n]]

theorem follows_putWithin {key : String} {mapping : Value} {items : List (Value × Value)}
    (hitems : mapping.toMap = .ok items) (n : Int) :
    (putWithin key mapping n).Follows client (transactionCalls key items n) := by
  have hopen : (openTransaction "HSET+EXPIRE" key).Follows client [.openTransaction] := by
    refine (follows_calling _ key .openTransaction).andThen_silent fun r => ?_
    cases r <;> exact trivial
  have hqueue : ∀ c, (enqueue "HSET+EXPIRE" key c).Follows client [.queue c] := fun c =>
    (follows_calling _ key (.queue c)).andThen_silent fun _ => trivial
  unfold putWithin
  simp only [Program.bind_eq_andThen, hitems, Program.ofConverted, Program.andThen_done]
  refine hopen.cons fun _ => (hqueue _).cons fun _ => (hqueue _).cons fun _ => ?_
  exact (follows_calling _ key _).andThen_silent fun _ => trivial

theorem begins_putWithin (key : String) (mapping : Value) (n : Int) :
    (putWithin key mapping n).Begins client :=
  ((begins_calling _ key .openTransaction).andThen _).andThen _

end Calls

theorem optionalDuration_eq {v : Value} (hv : v ≠ .null) :
    optionalDuration v = (requireDuration v).map some := by
  unfold optionalDuration
  split
  · exact absurd rfl hv
  · rfl

section Refused

variable {key : String} {v : Value} {e : StoreError} (hkey : requireKey (.text key) = .ok key)
  (hv : requireDuration v = .error e)
include hkey hv

theorem expire_refused : expire (.text key) v = .fail e := by
  simp only [expire, checked, hkey, hv, Program.bind_eq_andThen, Program.ofExcept,
    Program.andThen_done, Program.andThen_fail]

variable (hnull : v ≠ .null)
include hnull

theorem setValue_refused (value : Value) : setValue (.text key) value v = .fail e := by
  simp only [setValue, checked, hkey, optionalDuration_eq hnull, hv, Except.map,
    Program.bind_eq_andThen, Program.ofExcept, Program.andThen_done, Program.andThen_fail]

theorem hashPutAll_refused (mapping : Value) : hashPutAll (.text key) mapping v = .fail e := by
  simp only [hashPutAll, checked, hkey, optionalDuration_eq hnull, hv, Except.map,
    Program.bind_eq_andThen, Program.ofExcept, Program.andThen_done, Program.andThen_fail]

end Refused

section Passed

variable {σ : Type} (client : Client σ) (s : σ) (t : FileTree) {key : String} {v : Value} {n : Int}
  (hkey : requireKey (.text key) = .ok key) (hv : requireDuration v = .ok n)
include hkey hv

theorem sends_setValue (value : Value) :
    ((setValue (.text key) value v).run client s t).Sends [.run (.set key value (some n))] := by
  have hprogram : setValue (.text key) value v =
      (ask "SET" key (.set key value (some n))).andThen fun _ => .done value := by
    simp only [setValue, checked, hkey, optionalDuration_of_requireDuration hv,
      Program.bind_eq_andThen, Program.ofExcept, Program.andThen_done]
  rw [hprogram]
  refine Program.Follows.sends ?_ ((begins_ask _ key _).andThen _) s t
  exact (follows_ask _ key _).andThen_silent fun _ => trivial

theorem sends_expire :
    ((expire (.text key) v).run client s t).Sends [.run (.expire key n)] := by
  have hprogram : expire (.text key) v =
      (ask "EXPIRE" key (.expire key n)).andThen fun r => .done (flag r) := by
    simp only [expire, checked, hkey, hv, Program.bind_eq_andThen, Program.ofExcept,
      Program.andThen_done]
  rw [hprogram]
  refine Program.Follows.sends ?_ ((begins_ask _ key _).andThen _) s t
  exact (follows_ask _ key _).andThen_silent fun _ => trivial

theorem sends_hashPutAll {mapping : Value} (htruth : mapping.truth = true)
    {items : List (Value × Value)} (hitems : mapping.toMap = .ok items) :
    ((hashPutAll (.text key) mapping v).run client s t).Sends (transactionCalls key items n) := by
  have hprogram : hashPutAll (.text key) mapping v =
      (putWithin key mapping n).andThen fun _ => .done mapping := by
    simp only [hashPutAll, checked, hkey, optionalDuration_of_requireDuration hv, htruth,
      Program.bind_eq_andThen, Program.ofExcept, Program.andThen_done, Bool.not_true,
      Bool.false_eq_true, if_false]
  rw [hprogram]
  refine Program.Follows.sends ?_ ((begins_putWithin key mapping n).andThen _) s t
  exact (follows_putWithin hitems n).andThen_silent fun _ => trivial

end Passed

end FileStash.Store
