import FileStash.Proofs.FileCache.Storing
import FileStash.Proofs.Program.Stepping
import FileStash.Proofs.Session.World

namespace FileStash

namespace Store

variable {α : Type} {operation key : String}

theorem endsIn_meaning (operation key : String) (f : Failure) :
    (meaning operation key f : Program α).EndsIn 1 := by
  unfold meaning
  split
  · split
    · split
      · trivial
      · exact ⟨Nat.one_pos, trivial⟩
    · trivial
    · exact ⟨Nat.one_pos, trivial⟩
    all_goals trivial
  · trivial

theorem endsIn_calling (operation key : String) (c : Call) :
    (calling operation key c).EndsIn 2 := by
  refine ⟨Nat.two_pos, fun r => ?_⟩
  cases r with
  | ok reply => trivial
  | error f => exact endsIn_meaning operation key f

theorem endsIn_ask (operation key : String) (c : Command) : (ask operation key c).EndsIn 2 := by
  refine (endsIn_calling operation key (.run c)).last fun reply => ?_
  cases reply <;> trivial

theorem endsIn_count (v : Value) : (count v).EndsIn 0 := by
  unfold count
  split
  · trivial
  · cases v.toInt <;> trivial

theorem endsIn_openTransaction (operation key : String) :
    (openTransaction operation key).EndsIn 2 := by
  refine (endsIn_calling operation key .openTransaction).last fun reply => ?_
  cases reply <;> trivial

theorem endsIn_enqueue (operation key : String) (c : Command) :
    (enqueue operation key c).EndsIn 2 :=
  (endsIn_calling operation key (.queue c)).last fun _ => trivial

theorem endsIn_putWithin (key : String) (mapping : Value) (n : Int) :
    (putWithin key mapping n).EndsIn 8 := by
  refine (endsIn_openTransaction _ key).andThen (m := 6) fun _ => ?_
  refine Program.endsIn_ofConverted _ fun entries => ?_
  refine (endsIn_enqueue _ key _).andThen (m := 4) fun _ => ?_
  refine (endsIn_enqueue _ key _).andThen (m := 2) fun _ => ?_
  exact (endsIn_calling _ key _).last fun _ => trivial

theorem once_calling {c : Call} (h : c.decides = true) : (calling operation key c).Once := by
  refine Program.once_ask h fun r => ?_
  cases r with
  | ok reply => trivial
  | error f => exact within_meaning operation key f

theorem once_ask (operation key : String) (c : Command) : (ask operation key c).Once := by
  refine (once_calling rfl).andThen fun reply => ?_
  cases reply <;> trivial

theorem quiet_calling {c : Call} (h : c.decides = false) : (calling operation key c).Quiet :=
  within_calling h

theorem once_putWithin (key : String) (mapping : Value) (n : Int) :
    (putWithin key mapping n).Once := by
  have hopen : (openTransaction "HSET+EXPIRE" key).Quiet := by
    refine (quiet_calling rfl).bind fun reply => ?_
    cases reply <;> trivial
  have hqueue : ∀ c, (enqueue "HSET+EXPIRE" key c).Quiet := fun c =>
    (quiet_calling rfl).bind fun _ => trivial
  refine hopen.andThen_once fun _ => Program.once_ofConverted _ fun entries => ?_
  refine (hqueue _).andThen_once fun _ => (hqueue _).andThen_once fun _ => ?_
  exact (once_calling rfl).andThen fun _ => trivial

theorem once_delete (key : Value) : (delete key).Once := by
  refine Program.once_ofExcept _ fun k => (once_ask "DEL" k _).andThen fun v => ?_
  exact (within_count v).bind fun _ => trivial

theorem endsIn_delete (key : Value) : (delete key).EndsIn 2 := by
  refine Program.endsIn_ofExcept _ fun k => (endsIn_ask "DEL" k _).last fun v => ?_
  exact (endsIn_count v).last fun _ => trivial

theorem once_hashGetAll (key : Value) : (hashGetAll key).Once := by
  refine Program.once_ofExcept _ fun k => (once_ask "HGETALL" k _).andThen fun v => ?_
  split
  · exact Program.within_ofConverted _
  · trivial

theorem endsIn_hashGetAll (key : Value) : (hashGetAll key).EndsIn 2 := by
  refine Program.endsIn_ofExcept _ fun k => (endsIn_ask "HGETALL" k _).last fun v => ?_
  split
  · cases v.toMap <;> trivial
  · trivial

theorem once_hasKey (key field : Value) : (hasKey key field).Once := by
  refine Program.once_ofExcept _ fun k => ?_
  split
  · refine (once_ask "EXISTS" k _).andThen fun v => ?_
    exact (within_count v).bind fun _ => trivial
  · exact (once_ask "HEXISTS" k _).andThen fun _ => trivial

theorem endsIn_hasKey (key field : Value) : (hasKey key field).EndsIn 2 := by
  refine Program.endsIn_ofExcept _ fun k => ?_
  split
  · refine (endsIn_ask "EXISTS" k _).last fun v => ?_
    exact (endsIn_count v).last fun _ => trivial
  · exact (endsIn_ask "HEXISTS" k _).last fun _ => trivial

end Store

namespace FileSource

theorem quiet_read (file : FileSource) : file.read.Quiet := by
  cases file with
  | opened name content =>
      simp only [read]
      split
      · trivial
      · exact Program.Within.ofExcept_bind fun _ _ => trivial
  | value v =>
      refine Program.Within.ofConverted_bind fun p _ => ?_
      split
      · exact Program.Within.ofConverted_bind fun _ _ => trivial
      · refine Program.Within.bind (fun _ => trivial) fun t => ?_
        split <;> trivial

theorem endsIn_read (file : FileSource) : file.read.EndsIn 1 := by
  cases file with
  | opened name content =>
      simp only [read]
      split
      · trivial
      · exact Program.endsIn_ofExcept _ fun _ => trivial
  | value v =>
      refine Program.endsIn_ofConverted _ fun p => ?_
      split
      · exact Program.endsIn_ofConverted _ fun _ => trivial
      · have hlook : Program.currentTree.EndsIn 1 := ⟨Nat.one_pos, fun _ => trivial⟩
        refine hlook.last fun t => ?_
        split <;> trivial

end FileSource

namespace FileCache

namespace Parcel

theorem once_write (p : Parcel) : p.write.Once := by
  unfold write
  split
  · exact (Store.once_ask "HSET" p.key _).andThen fun _ => trivial
  · exact Store.once_putWithin p.key _ _

theorem endsIn_write (p : Parcel) : p.write.EndsIn 8 := by
  unfold write
  split
  · refine Program.EndsIn.mono (n := 2) ?_ (by omega)
    exact (Store.endsIn_ask "HSET" p.key _).last fun _ => trivial
  · exact Store.endsIn_putWithin p.key _ _

end Parcel

variable (c : FileCache)

theorem once_store (file : FileSource) (limit : Value) : (c.store file limit).Once := by
  unfold store
  split
  · trivial
  · refine Program.once_ofExcept _ fun seconds => file.quiet_read.andThen_once fun r => ?_
    refine Program.once_ofConverted _ fun key => ?_
    rw [hashPutAll_record]
    refine Program.Once.andThen ?_ fun _ => trivial
    refine Program.once_ofExcept _ fun k => Program.once_ofExcept _ fun limit' => ?_
    exact (Parcel.once_write _).andThen fun _ => trivial

theorem endsIn_store (file : FileSource) (limit : Value) : (c.store file limit).EndsIn 10 := by
  unfold store
  split
  · trivial
  · refine Program.endsIn_ofExcept _ fun seconds => file.endsIn_read.andThen (m := 9) fun r => ?_
    refine Program.endsIn_ofConverted _ fun key => ?_
    rw [hashPutAll_record]
    refine Program.EndsIn.andThen (n := 8) (m := 1) ?_ fun _ => ⟨Nat.one_pos, trivial⟩
    refine Program.endsIn_ofExcept _ fun k => Program.endsIn_ofExcept _ fun limit' => ?_
    exact (Parcel.endsIn_write _).last fun _ => trivial

theorem once_restoreBytes (name : Value) : (c.restoreBytes name).Once := by
  refine Program.once_ofExcept _ fun n => ?_
  refine Program.Once.andThen ?_ fun es => ?_
  · exact Program.once_ofConverted _ fun key => Store.once_hashGetAll _
  · split
    · exact (Program.within_note ..).bind fun _ => Program.within_ofExcept _
    · exact Program.within_ofExcept _

theorem endsIn_restoreBytes (name : Value) : (c.restoreBytes name).EndsIn 3 := by
  have hdecode : ∀ v, (Program.ofExcept (decodeContent v)).EndsIn 0 := by
    intro v
    cases decodeContent v <;> trivial
  refine Program.endsIn_ofExcept _ fun n => ?_
  refine Program.EndsIn.andThen (n := 2) (m := 1) ?_ fun es => ?_
  · exact Program.endsIn_ofConverted _ fun key => Store.endsIn_hashGetAll _
  · split
    · exact ⟨Nat.one_pos, hdecode _⟩
    · exact (hdecode _).mono (Nat.zero_le 1)

theorem once_exists (name : Value) : (c.exists? name).Once :=
  Program.once_ofExcept _ fun _ => Program.once_ofConverted _ fun _ => Store.once_hasKey ..

theorem endsIn_exists (name : Value) : (c.exists? name).EndsIn 2 :=
  Program.endsIn_ofExcept _ fun _ => Program.endsIn_ofConverted _ fun _ => Store.endsIn_hasKey ..

end FileCache

namespace Request

/-- A request about what a cache keeps: a file is stored, looked up as octets or asked
for, or a key is deleted. -/
def Shares : Request → Prop
  | .store .. | .restoreBytes .. | .contains .. | .operate (.delete _) => True
  | _ => False

theorem once_of_shares {r : Request} (h : r.Shares) : r.program.Once := by
  cases r with
  | store c file limit => exact (c.once_store file limit).andThen fun _ => trivial
  | restoreBytes c name => exact (c.once_restoreBytes name).andThen fun _ => trivial
  | contains c name => exact (c.once_exists name).andThen fun _ => trivial
  | restore c name => exact h.elim
  | operate op =>
      cases op with
      | delete key => exact (Store.once_delete key).andThen fun _ => trivial
      | _ => exact h.elim

theorem endsIn_of_shares {r : Request} (h : r.Shares) : r.program.EndsIn 10 := by
  cases r with
  | store c file limit => exact (c.endsIn_store file limit).last fun _ => trivial
  | restoreBytes c name =>
      exact ((c.endsIn_restoreBytes name).mono (by omega)).last fun _ => trivial
  | contains c name => exact ((c.endsIn_exists name).mono (by omega)).last fun _ => trivial
  | restore c name => exact h.elim
  | operate op =>
      cases op with
      | delete key => exact ((Store.endsIn_delete key).mono (by omega)).last fun _ => trivial
      | _ => exact h.elim

end Request

end FileStash
