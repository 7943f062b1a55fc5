import FileStash.FileCache.Basic
import FileStash.Proofs.Store.Operation

namespace FileStash.FileCache

variable {P : Call → Prop} {Q : FileTree → Prop} {c : FileCache} {name : Value}

theorem requireName_eq_ok_iff (v : Value) (n : String) :
    requireName v = .ok n ↔ v = .text n ∧ n ≠ "" := by
  cases v with
  | text s =>
      by_cases hs : s = ""
      · constructor
        · intro h
          simp [requireName, hs] at h
        · rintro ⟨h, hn⟩
          cases h
          exact absurd hs hn
      · constructor
        · intro h
          simp only [requireName, String.isEmpty_iff, hs, if_false,
            Except.ok.injEq] at h
          subst h
          exact ⟨rfl, hs⟩
        · rintro ⟨h, -⟩
          cases h
          simp [requireName, hs]
  | _ => simp [requireName]

theorem error_of_requireName {v : Value} {e : StoreError} (h : requireName v = .error e) :
    e = .invalidArgument .emptyFileName := by
  cases v with
  | text s =>
      simp only [requireName] at h
      split at h <;> cases h
      rfl
  | _ =>
      cases h
      rfl

theorem cacheKey_text {first : String} (hlead : c.keyPrefix.plain = .ok first)
    (name : String) : c.cacheKey (.text name) = .ok (first ++ name) := by
  have hname : (Value.text name).plain = .ok name := rfl
  simp only [cacheKey, hlead, hname, bind, Except.bind]

theorem within_entries {n : String}
    (h : ∀ key, c.cacheKey (.text n) = .ok key → P (.run (.hgetall key))) :
    (c.entries n).Within P Q := by
  refine Program.Within.ofConverted_bind fun key hkey => Store.within_requireKey fun k hk => ?_
  cases hk
  refine (Store.within_ask (h key hkey)).bind fun v => ?_
  split
  · exact Program.within_ofConverted _
  · trivial

theorem within_materialise (p : Path) (content : List UInt8)
    (broken : Option FileTree.Break) :
    (materialise p content broken).Within P fun _ => True := by
  unfold materialise
  refine Program.Within.bind (fun _ => trivial) fun t => ?_
  rcases t.makeDirectories p.parent with ⟨f | u, t'⟩
  · exact ⟨trivial, trivial⟩
  · refine Program.Within.bind ⟨trivial, trivial⟩ fun _ => ?_
    refine Program.Within.bind ⟨trivial, trivial⟩ fun _ => ?_
    split <;> trivial

/-- A look-up asks for the key of the name that it is given, and for no
other. -/
theorem within_restoreBytes
    (h : ∀ n key, name = .text n → c.cacheKey (.text n) = .ok key →
    P (.run (.hgetall key))) :
    (c.restoreBytes name).Within P Q := by
  refine Program.Within.ofExcept_bind fun n hn => ?_
  obtain ⟨rfl, -⟩ := (requireName_eq_ok_iff name n).mp hn
  refine (within_entries (h n · rfl)).bind fun es => ?_
  split
  · exact (Program.within_note ..).bind fun _ => Program.within_ofExcept _
  · exact Program.within_ofExcept _

theorem within_restore {broken : Option FileTree.Break}
    (h : ∀ n key, name = .text n → c.cacheKey (.text n) = .ok key →
    P (.run (.hgetall key))) :
    (c.restore name broken).Within P fun _ => True := by
  refine Program.Within.ofExcept_bind fun n hn => ?_
  obtain ⟨rfl, -⟩ := (requireName_eq_ok_iff name n).mp hn
  refine (within_entries (h n · rfl)).bind fun es => ?_
  split
  · exact (Program.within_note ..).bind fun _ => trivial
  · refine Program.Within.ofExcept_bind fun content _ => fun t => ?_
    refine Program.Within.ofExcept_bind fun p _ => ?_
    refine (within_materialise p content broken).bind fun _ => ?_
    exact Program.Within.ofConverted_bind fun shown _ => trivial

theorem within_exists
    (h : ∀ n key, name = .text n → c.cacheKey (.text n) = .ok key →
    P (.run (.exists key))) :
    (c.exists? name).Within P Q := by
  refine Program.Within.ofExcept_bind fun n hn => ?_
  obtain ⟨rfl, -⟩ := (requireName_eq_ok_iff name n).mp hn
  refine Program.Within.ofConverted_bind fun key hkey => Store.within_requireKey fun k hk => ?_
  cases hk
  exact (Store.within_ask (h n key rfl hkey)).bind fun v => (Store.within_count v).bind
    fun _ => trivial

end FileStash.FileCache
