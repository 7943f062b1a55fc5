import FileStash.Proofs.Server.Agreement

namespace FileStash

/-- The entries written one after the other. -/
def Dict.insertAll {κ ν : Type} [BEq κ] (d : Dict κ ν) (entries : List (κ × ν)) :
    Dict κ ν :=
  entries.foldl (fun d e => insert d e.1 e.2) d

namespace Dict

variable {κ ν : Type} [DecidableEq κ]

theorem get?_append (d d' : Dict κ ν) (k : κ) :
    get? (d ++ d') k = (get? d k).or (get? d' k) := by
  induction d with
  | nil => rfl
  | cons e d ih =>
      by_cases h : e.1 == k <;> simp only [List.cons_append, get?, h, ih] <;> rfl

theorem get?_insertAll (d : Dict κ ν) (entries : List (κ × ν)) (k : κ) :
    get? (insertAll d entries) k = (get? entries.reverse k).or (get? d k) := by
  induction entries generalizing d with
  | nil => rfl
  | cons e entries ih =>
      have hfold : insertAll d (e :: entries) = insertAll (insert d e.1 e.2) entries := rfl
      rw [hfold, ih, get?_insert, List.reverse_cons, get?_append, Option.or_assoc]
      congr 1
      by_cases h : k = e.1
      · simp [get?, h]
      · have hne : (e.1 == k) = false := by simpa using Ne.symm h
        simp [get?, h, hne]

end Dict

namespace Server

def textItems (entries : List (String × String)) : List (Value × Value) :=
  entries.map fun e => (.text e.1, .text e.2)

theorem writeItems_of_mapM {items : List (Value × Value)}
    {entries : List (String × String)} (h : items.mapM encodeItem = .ok entries)
    (fields : Dict String String) (added : Nat) :
    ∃ n, writeItems fields added items = (.ok n, Dict.insertAll fields entries) := by
  induction items generalizing fields added entries with
  | nil =>
      cases h
      exact ⟨added, rfl⟩
  | cons item items ih =>
      rw [List.mapM_cons] at h
      cases hitem : encodeItem item with
      | error f => simp [hitem, bind, Except.bind] at h
      | ok e =>
          cases hrest : items.mapM encodeItem with
          | error f => simp [hitem, hrest, bind, Except.bind] at h
          | ok rest =>
              simp only [hitem, hrest, bind, Except.bind, pure, Except.pure,
                Except.ok.injEq] at h
              subst h
              simp only [writeItems, hitem]
              exact ih hrest _ _

theorem mapM_of_writeItems {items : List (Value × Value)}
    {fields : Dict String String} {added n : Nat}
    (h : (writeItems fields added items).1 = .ok n) :
    ∃ entries, items.mapM encodeItem = .ok entries := by
  induction items generalizing fields added with
  | nil => exact ⟨[], rfl⟩
  | cons item items ih =>
      cases hitem : encodeItem item with
      | error f => simp [writeItems, hitem] at h
      | ok e =>
          simp only [writeItems, hitem] at h
          obtain ⟨rest, hrest⟩ := ih h
          exact ⟨e :: rest, by rw [List.mapM_cons, hitem, hrest]; rfl⟩

theorem mapM_textItems (entries : List (String × String)) :
    (textItems entries).mapM encodeItem = .ok entries := by
  induction entries with
  | nil => rfl
  | cons e entries ih =>
      have hitem : encodeItem (.text e.1, .text e.2) = .ok e := rfl
      have ih' := ih
      simp only [textItems] at ih'
      rw [textItems, List.map_cons, List.mapM_cons, hitem, ih']
      rfl

theorem textItems_ne_nil {entries : List (String × String)} (h : entries ≠ []) :
    textItems entries ≠ [] := by
  simpa [textItems] using h

/-- The hash that a key holds or would hold: an absent one is empty. -/
def hashUnder : Option Entry → Option (Dict String String)
  | none => some []
  | some e => Content.hash? e.content

section Write

variable {s : Server} {key : String} {items : List (Value × Value)}
  {entries : List (String × String)}

theorem writeItemsEffect_of_mapM (hne : items ≠ []) (held : Option Entry)
    {fields : Dict String String} (h : hashUnder held = some fields)
    (hsent : items.mapM encodeItem = .ok entries) :
    ∃ n, writeItemsEffect items held =
      (.ok (count n), some ⟨.hash (Dict.insertAll fields entries), held.bind (·.deadline)⟩) := by
  have hitems : items.isEmpty = false := by simpa using hne
  obtain ⟨n, hwrite⟩ := writeItems_of_mapM hsent fields 0
  refine ⟨n, ?_⟩
  simp only [writeItemsEffect, hitems, Bool.false_eq_true, if_false]
  cases held with
  | none =>
      cases h
      simp [growEffect, hwrite, Except.map]
  | some e =>
      have hview : Content.hash? e.content = some fields := h
      simp [growEffect, hview, hwrite, Except.map]

/-- A write succeeds only over a hash or nothing, and with items that can be
sent. -/
theorem of_writeItemsEffect_ok {held : Option Entry} {v : Value}
    (h : (writeItemsEffect items held).1 = .ok v) :
    items ≠ [] ∧ ∃ fields entries, hashUnder held = some fields ∧
      items.mapM encodeItem = .ok entries := by
  have hmapM : ∀ {fields}, (writeItems fields 0 items).1.map count = .ok v →
      ∃ entries, items.mapM encodeItem = .ok entries := by
    intro fields hcount
    cases hwrite : (writeItems fields 0 items).1 with
    | error f => simp [hwrite, Except.map] at hcount
    | ok n => exact mapM_of_writeItems hwrite
  unfold writeItemsEffect at h
  split at h
  · cases h
  · rename_i hne
    refine ⟨by simpa using hne, ?_⟩
    cases held with
    | none =>
        obtain ⟨entries, hsent⟩ := hmapM h
        exact ⟨[], entries, rfl, hsent⟩
    | some e =>
        cases hview : Content.hash? e.content with
        | none => simp [growEffect, hview] at h
        | some fields =>
            simp only [growEffect, hview] at h
            obtain ⟨entries, hsent⟩ := hmapM h
            exact ⟨fields, entries, hview, hsent⟩

/-- Nothing is written under a key that holds another kind of value, whatever the
items are. -/
theorem writeItemsEffect_otherKind (hne : items ≠ []) {held : Option Entry}
    (h : hashUnder held = none) : writeItemsEffect items held = (.error wrongKind, held) := by
  have hitems : items.isEmpty = false := by simpa using hne
  simp only [writeItemsEffect, hitems, Bool.false_eq_true, if_false]
  cases held with
  | none => cases h
  | some e =>
      have hview : Content.hash? e.content = none := h
      simp [growEffect, hview]

theorem run_hsetAll (hne : items ≠ []) {fields : Dict String String}
    (h : hashUnder (s.live? key) = some fields)
    (hsent : items.mapM encodeItem = .ok entries) :
    (∃ n, (s.run (.hsetAll key items)).1 = .ok (count n)) ∧
      (s.run (.hsetAll key items)).2.live? key =
        some ⟨.hash (Dict.insertAll fields entries),
          (s.live? key).bind (·.deadline)⟩ := by
  have hact := actsOn_run s (c := .hsetAll key items) rfl
  obtain ⟨n, heffect⟩ := writeItemsEffect_of_mapM hne (s.live? key) h hsent
  refine ⟨⟨n, by rw [hact.answer, effect, heffect]⟩, ?_⟩
  rw [hact.here, effect, heffect]
  cases hlive : s.live? key with
  | none => rfl
  | some e =>
      have halive := alive_live? s key
      rw [hlive] at halive
      exact alive_content halive _

theorem of_run_hsetAll_ok {v : Value} (h : (s.run (.hsetAll key items)).1 = .ok v) :
    items ≠ [] ∧ ∃ fields entries, hashUnder (s.live? key) = some fields ∧
      items.mapM encodeItem = .ok entries := by
  rw [(actsOn_run s (c := .hsetAll key items) rfl).answer] at h
  exact of_writeItemsEffect_ok h

theorem run_hsetAll_texts (hne : entries ≠ []) {fields : Dict String String}
    (h : hashUnder (s.live? key) = some fields) :
    (∃ n, (s.run (.hsetAll key (textItems entries))).1 = .ok (count n)) ∧
      (s.run (.hsetAll key (textItems entries))).2.live? key =
        some ⟨.hash (Dict.insertAll fields entries),
          (s.live? key).bind (·.deadline)⟩ :=
  run_hsetAll (textItems_ne_nil hne) h (mapM_textItems entries)

theorem run_hsetAll_otherKind (hne : items ≠ []) (h : hashUnder (s.live? key) = none) :
    (s.run (.hsetAll key items)).1 = .error wrongKind ∧
      Agrees (s.run (.hsetAll key items)).2 s := by
  have hact := actsOn_run s (c := .hsetAll key items) rfl
  have heffect := writeItemsEffect_otherKind hne h
  exact ⟨by rw [hact.answer, effect, heffect],
    .of_unchanged rfl (by rw [effect, heffect])⟩

theorem agrees_of_hsetAll_texts_error (hne : entries ≠ []) {f : Failure}
    (h : (s.run (.hsetAll key (textItems entries))).1 = .error f) :
    Agrees (s.run (.hsetAll key (textItems entries))).2 s := by
  cases hunder : hashUnder (s.live? key) with
  | none => exact (run_hsetAll_otherKind (textItems_ne_nil hne) hunder).2
  | some fields =>
      obtain ⟨n, hn⟩ := (run_hsetAll_texts hne hunder).1
      rw [hn] at h
      cases h

end Write

end Server

end FileStash
