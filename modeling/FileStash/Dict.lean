namespace FileStash

abbrev Dict (κ ν : Type) := List (κ × ν)

namespace Dict

variable {κ ν : Type} [BEq κ]

def get? (d : Dict κ ν) (k : κ) : Option ν :=
  match d with
  | [] => none
  | e :: d => if e.1 == k then some e.2 else get? d k

def contains (d : Dict κ ν) (k : κ) : Bool :=
  (get? d k).isSome

def insert (d : Dict κ ν) (k : κ) (v : ν) : Dict κ ν :=
  match d with
  | [] => [(k, v)]
  | e :: d => if e.1 == k then (e.1, v) :: d else e :: insert d k v

def erase (d : Dict κ ν) (k : κ) : Dict κ ν :=
  d.filter fun e => !(e.1 == k)

def keys (d : Dict κ ν) : List κ :=
  d.map (·.1)

def ofEntries (entries : List (κ × ν)) : Dict κ ν :=
  entries.foldl (fun d e => insert d e.1 e.2) []

theorem get?_nil (k : κ) : get? ([] : Dict κ ν) k = none := rfl

theorem get?_erase_self (d : Dict κ ν) (k : κ) : get? (erase d k) k = none := by
  induction d with
  | nil => rfl
  | cons e d ih =>
      by_cases h : e.1 == k
      · simpa [erase, h] using ih
      · simpa [erase, h, get?] using ih

section Lawful

variable [LawfulBEq κ]

theorem get?_insert_self (d : Dict κ ν) (k : κ) (v : ν) :
    get? (insert d k v) k = some v := by
  induction d with
  | nil => simp [insert, get?]
  | cons e d ih =>
      by_cases h : e.1 == k
      · simp [insert, get?, h]
      · simp [insert, get?, h, ih]

theorem mem_of_get? {d : Dict κ ν} {k : κ} {v : ν} (h : get? d k = some v) :
    (k, v) ∈ d := by
  induction d with
  | nil => cases h
  | cons e d ih =>
      by_cases he : e.1 == k
      · simp only [get?, he, if_true, Option.some.injEq] at h
        rw [← eq_of_beq he, ← h]
        exact List.mem_cons_self ..
      · simp only [get?, he] at h
        exact List.mem_cons_of_mem e (ih h)

theorem isSome_get?_of_mem {d : Dict κ ν} {e : κ × ν} (h : e ∈ d) : (get? d e.1).isSome := by
  induction d with
  | nil => cases h
  | cons e' d ih =>
      rcases List.mem_cons.mp h with rfl | h
      · simp [get?]
      · by_cases he : e'.1 == e.1
        · simp [get?, he]
        · simpa [get?, he] using ih h

theorem get?_insert_of_ne (d : Dict κ ν) {k k' : κ} (v : ν) (hne : k' ≠ k) :
    get? (insert d k v) k' = get? d k' := by
  induction d with
  | nil =>
      have h : ¬(k == k') = true := fun h => hne (eq_of_beq h).symm
      simp [insert, get?, h]
  | cons e d ih =>
      by_cases h : e.1 == k
      · have hk : ¬(e.1 == k') = true := fun h' => hne ((eq_of_beq h').symm.trans (eq_of_beq h))
        simp [insert, get?, h, hk]
      · by_cases h' : e.1 == k'
        · simp [insert, get?, h, h']
        · simp [insert, get?, h, h', ih]

theorem get?_insert (d : Dict κ ν) [DecidableEq κ] (k k' : κ) (v : ν) :
    get? (insert d k v) k' = if k' = k then some v else get? d k' := by
  split
  · rename_i h
    rw [h, get?_insert_self]
  · rename_i h
    exact get?_insert_of_ne d v h

theorem get?_erase_of_ne (d : Dict κ ν) {k k' : κ} (hne : k' ≠ k) :
    get? (erase d k) k' = get? d k' := by
  induction d with
  | nil => rfl
  | cons e d ih =>
      by_cases h : e.1 == k
      · have hk : ¬(e.1 == k') = true := fun h' => hne ((eq_of_beq h').symm.trans (eq_of_beq h))
        have ih' : get? (List.filter (fun e => !(e.1 == k)) d) k' = get? d k' := ih
        simp [erase, h, get?, hk, ih']
      · have ih' : get? (List.filter (fun e => !(e.1 == k)) d) k' = get? d k' := ih
        by_cases h' : e.1 == k'
        · simp [erase, h, get?, h']
        · simp [erase, h, get?, h', ih']

end Lawful

end Dict

end FileStash
