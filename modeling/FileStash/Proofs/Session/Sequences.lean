import FileStash.Proofs.Session.Holding

namespace FileStash

open Server (encode)

theorem Value.int_beq_int (m n : Int) : (Value.int m == .int n) = decide (m = n) := by
  have hscale : (Nat.pow 2 1074 : Int) ≠ 0 := by decide +kernel
  show decide (Binary64.extendedInt m = Binary64.extendedInt n) = _
  simp only [Binary64.extendedInt, Binary64.Extended.mid.injEq, Int.mul_eq_mul_right_iff hscale]

namespace Server

/-- A place as a window names it: from the end where it is negative. -/
def fromEnd (length : Nat) (i : Int) : Int :=
  if i < 0 then i + length else i

/-- The elements at the indices of a window, both of its ends among them. -/
def window (xs : List String) (first last : Int) : List String :=
  let indices := (List.range xs.length).filter fun i : Nat =>
    max 0 (fromEnd xs.length first) ≤ i ∧ i ≤ min (xs.length - 1 : Int) (fromEnd xs.length last)
  indices.filterMap (xs[·]?)

section Window

variable (xs : List String)

theorem take_drop_eq_filterMap (first last : Nat) :
    (xs.drop first).take (last - first) =
      ((List.range xs.length).filter fun i => first ≤ i ∧ i < last).filterMap (xs[·]?) := by
  induction xs generalizing first last with
  | nil => simp
  | cons x xs ih =>
      have hrest := ih (first - 1) (last - 1)
      rw [List.length_cons, List.range_succ_eq_map, List.filter_cons, List.filter_map]
      cases first with
      | zero =>
          cases last with
          | zero => simp
          | succ last => simpa [List.filterMap_map, Function.comp_def] using hrest
      | succ first =>
          cases last with
          | zero => simp
          | succ last => simpa [List.filterMap_map, Function.comp_def] using hrest

theorem windowEnd_int (length : Nat) (last : Int) :
    windowEnd length (.int last) = some (if last = -1 then (length : Int) else last + 1) := by
  rw [windowEnd, Value.int_beq_int]
  by_cases h : last = -1 <;> simp [h, index?]

/-- The end of a window is one behind its last index, and behind the last of all where
this is named by minus one. -/
theorem slice_eq_window (first last : Int) :
    slice xs first (if last = -1 then (xs.length : Int) else last + 1) = window xs first last := by
  have hindices : ∀ i ∈ List.range xs.length,
      decide (clampIndex xs.length first ≤ i ∧
          i < clampIndex xs.length (if last = -1 then (xs.length : Int) else last + 1)) =
        decide (max 0 (fromEnd xs.length first) ≤ i ∧
          i ≤ min (xs.length - 1 : Int) (fromEnd xs.length last)) := by
    intro i hi
    rw [List.mem_range] at hi
    refine decide_eq_decide.mpr ?_
    unfold clampIndex fromEnd
    by_cases hlast : last = -1
    · simp only [hlast, if_true]
      (repeat' split) <;> omega
    · simp only [hlast, if_false]
      (repeat' split) <;> omega
  unfold slice window
  rw [take_drop_eq_filterMap, List.filter_congr hindices]

theorem window_from_zero (i : Nat) : window xs 0 i = xs.take (i + 1) := by
  have hend : (i : Int) ≠ -1 := by omega
  have hclamp : clampIndex xs.length (i + 1) = min (i + 1) xs.length := by
    unfold clampIndex
    split <;> omega
  have hstart : clampIndex xs.length 0 = 0 := by simp [clampIndex]
  rw [← slice_eq_window, if_neg hend, slice, hclamp, hstart, List.drop_zero, Nat.sub_zero]
  exact (List.take_eq_take_min ..).symm

theorem window_to_end (i : Nat) : window xs i (-1) = xs.drop i := by
  have hclamp : clampIndex xs.length i = min i xs.length := by
    unfold clampIndex
    split <;> omega
  have hend : clampIndex xs.length xs.length = xs.length := by
    unfold clampIndex
    split <;> omega
  rw [← slice_eq_window, if_pos rfl, slice, hclamp, hend, List.take_of_length_le (by simp)]
  by_cases h : i ≤ xs.length
  · rw [Nat.min_eq_left h]
  · rw [Nat.min_eq_right (by omega), List.drop_of_length_le (Nat.le_refl _),
      List.drop_of_length_le (by omega)]

theorem effect_lrange (now : Int) (key : String) (first last : Int) :
    effect now (.lrange key (.int first) (.int last)) =
      readEffect Content.sequence? [] fun xs => .ok (.list ((window xs first last).map .text)) := by
  simp only [effect, windowStart, index?, windowEnd_int, slice_eq_window]

end Window

theorem foldl_snoc (xs ys : List String) : ys.foldl (fun xs x => xs ++ [x]) xs = xs ++ ys := by
  induction ys generalizing xs with
  | nil => exact (List.append_nil xs).symm
  | cons y ys ih => rw [List.foldl_cons, ih, List.append_assoc, List.singleton_append]

theorem effect_rpush (now : Int) (key : String) (items : List Value) :
    effect now (.rpush key items) =
      growEffect Content.sequence? [] .sequence fun xs =>
        ((addAll (fun xs x => xs ++ [x]) xs items).1.map fun _ =>
            count (addAll (fun xs x => xs ++ [x]) xs items).2.length,
          (addAll (fun xs x => xs ++ [x]) xs items).2) := rfl

end Server

namespace Store

/-- A push of values that can be sent, with the texts that they are sent as. -/
inductive Operation.Pushes (key : String) : Operation → List String → Prop
  | one {v : Value} {x : String} (sent : encode v = .ok x) :
      Pushes key (.listPush (.text key) v) [x]
  | all {given : Value} {vs : List Value} {xs : List String} (read : given.elements = .ok vs)
      (sent : vs.mapM encode = .ok xs) : Pushes key (.listPushAll (.text key) given) xs

/-- What a push comes to: one command, or no question where nothing is pushed. -/
theorem Operation.Pushes.plan {key : String} {op : Operation} {xs : List String}
    (h : op.Pushes key xs) (hk : requireKey (.text key) = .ok key) :
    (xs = [] ∧ op.plan = .ok (.answer (.int 0))) ∨
      (xs ≠ [] ∧ ∃ vs, vs.mapM encode = .ok xs ∧
        op.plan = .ok (.ask "RPUSH" key (.rpush key vs) asCount)) := by
  cases h with
  | @one v x sent =>
      refine .inr ⟨nofun, [v], ?_, plan_listPush hk v⟩
      rw [List.mapM_cons, sent]
      rfl
  | @all given vs xs read sent =>
      have hplan := plan_listPushAll hk read
      cases vs with
      | nil =>
          cases sent
          exact .inl ⟨rfl, hplan⟩
      | cons v vs =>
          refine .inr ⟨?_, v :: vs, sent, hplan⟩
          rintro rfl
          obtain ⟨y, ys, hempty, -⟩ := Server.of_mapM_encode sent
          cases hempty

end Store

open Store (Operation requireKey requireKey_eq_ok_iff)

/-- A session that changes a key by pushes alone, and all that has been pushed. -/
inductive PushRun (key : String) : List Step → List String → Prop
  | nil : PushRun key [] []
  | push {steps : List Step} {xs ys : List String} {op : Operation}
      (run : PushRun key steps xs) (pushes : op.Pushes key ys) :
      PushRun key (steps ++ [.request (.operate op)]) (xs ++ ys)
  | other {steps : List Step} {xs : List String} {st : Step} (run : PushRun key steps xs)
      (unchanged : ¬st.Changes key) : PushRun key (steps ++ [st]) xs

namespace World

variable {w : World} {key : String} {xs ys : List String} {op : Operation}

theorem Holds.push (h : Holds .sequence key w xs) (hk : requireKey (.text key) = .ok key)
    (hpush : op.Pushes key ys) :
    w.answer (.operate op) = .ok (.int (if ys = [] then 0 else (xs ++ ys).length)) ∧
      Holds .sequence key (w.step (.request (.operate op))) (xs ++ ys) := by
  obtain ⟨rfl, hplan⟩ | ⟨hne, vs, hsent, hplan⟩ := hpush.plan hk
  · rw [List.append_nil]
    exact h.idle hplan
  · rw [if_neg hne]
    refine h.grow hplan rfl (Server.effect_rpush ..) ?_
      (List.append_ne_nil_of_right_ne_nil xs hne)
    rw [Server.addAll_of_mapM hsent, Server.foldl_snoc]
    rfl

theorem Holds.pushRun {steps : List Step} (h : Holds .sequence key w [])
    (hk : requireKey (.text key) = .ok key) (hrun : PushRun key steps xs) :
    Holds .sequence key (w.after steps) xs := by
  induction hrun with
  | nil => exact h
  | push _ hpush ih =>
      rw [after_snoc]
      exact (ih.push hk hpush).2
  | other _ hst ih =>
      rw [after_snoc]
      exact ih.step_unchanged hst

theorem answer_listGet (hplain : w.Plain) (hk : requireKey (.text key) = .ok key)
    (hunder : Kind.sequence.under (w.server.server.live? key) = some xs) (first last : Int) :
    w.answer (.operate (.listGet (.text key) (.int first) (.int last))) =
      .ok (.list ((Server.window xs first last).map .text)) := by
  rw [answer_look hplain hunder (Operation.plan_listGet hk _ _) rfl
    (Server.effect_lrange _ key first last)]
  cases Server.window xs first last <;> rfl

theorem answer_listGetAll (hplain : w.Plain) (hk : requireKey (.text key) = .ok key)
    (hunder : Kind.sequence.under (w.server.server.live? key) = some xs) :
    w.answer (.operate (.listGetAll (.text key))) = .ok (.list (xs.map .text)) := by
  have hplan := (Operation.plan_listGetAll hk).trans (Operation.plan_listGet hk _ _)
  have hwindow : Server.window xs 0 (-1) = xs := Server.window_to_end xs 0
  rw [answer_look hplain hunder hplan rfl (Server.effect_lrange _ key 0 (-1)), hwindow]
  cases xs <;> rfl

/-- What has been pushed under a new key is told in the order in which it came, and
every push tells the length so far, unless it is one of nothing. Whatever sequence lies
under a key, a window shows exactly the elements at its indices, and two windows that
meet show all of them. -/
theorem sequences_keep_order_and_show_windows (hplain : w.Plain)
    (hkey : Text.allBlank key = false) :
    let k := Value.text key
    (w.server.server.live? key = none → ∀ steps xs, PushRun key steps xs →
      let later := w.after steps
      later.answer (.operate (.listGetAll k)) = .ok (.list (xs.map .text)) ∧
        ∀ op ys, op.Pushes key ys →
          later.answer (.operate op) = .ok (.int (if ys = [] then 0 else (xs ++ ys).length)) ∧
          (ys = [] → later.step (.request (.operate op)) = later)) ∧
      ∀ xs, Kind.sequence.under (w.server.server.live? key) = some xs →
        w.answer (.operate (.listGetAll k)) = .ok (.list (xs.map .text)) ∧
          (∀ first last : Int, w.answer (.operate (.listGet k (.int first) (.int last))) =
            .ok (.list ((Server.window xs first last).map .text))) ∧
          ∀ i : Nat, ∃ front back,
            w.answer (.operate (.listGet k (.int 0) (.int i))) = .ok (.list front) ∧
              w.answer (.operate (.listGet k (.int (i + 1 : Nat)) (.int (-1)))) =
                .ok (.list back) ∧
              w.answer (.operate (.listGetAll k)) = .ok (.list (front ++ back)) := by
  intro k
  have hk : requireKey k = .ok key := (requireKey_eq_ok_iff _ _).mpr ⟨rfl, hkey⟩
  constructor
  · intro habsent steps xs hrun later
    have hholds : Holds .sequence key later xs := (Holds.of_absent hplain habsent).pushRun hk hrun
    refine ⟨answer_listGetAll hholds.plain hk hholds.under, ?_⟩
    intro op ys hpush
    refine ⟨(hholds.push hk hpush).1, ?_⟩
    intro hys
    obtain ⟨-, hplan⟩ | ⟨hne, -⟩ := hpush.plan hk
    · exact step_idle hplan
    · exact (hne hys).elim
  · intro xs hunder
    have hwindow := answer_listGet hplain hk hunder
    have hall := answer_listGetAll hplain hk hunder
    refine ⟨hall, hwindow, ?_⟩
    intro i
    refine ⟨_, _, hwindow 0 i, hwindow (i + 1 : Nat) (-1), ?_⟩
    rw [hall, Server.window_from_zero, Server.window_to_end, ← List.map_append,
      List.take_append_drop]

/-- A text, then a text and a number at once; a window with both ends counted from the
end of a longer sequence, one that is crossed, and one that reaches beyond both ends. -/
theorem pushed_text_and_number_are_windowed :
    let k := Value.text "k"
    let push := Step.request (.operate (.listPush k (.text "a")))
    let both := Step.request (.operate (.listPushAll k (.list [.text "b", .int 7])))
    let w : World := ⟨⟨{ entries := [("q", ⟨.sequence ["a", "b", "c"], some 9000⟩)] }, []⟩, {}⟩
    let later := w.after [push, .wait 5000, both]
    let listed (first last : Int) :=
      w.answer (.operate (.listGet (.text "q") (.int first) (.int last)))
    later.answer (.operate (.listGetAll k)) = .ok (.list [.text "a", .text "b", .text "7"]) ∧
      later.answer (.operate (.listPush k (.text ""))) = .ok (.int 4) ∧
      later.answer (.operate (.listPushAll k (.list []))) = .ok (.int 0) ∧
      listed (-2) (-1) = .ok (.list [.text "b", .text "c"]) ∧
      listed 2 1 = .ok (.list []) ∧
      listed (-9) 9 = .ok (.list [.text "a", .text "b", .text "c"]) := by
  intro k push both w later listed
  have hplain : w.Plain := rfl
  have hrun : PushRun "k" [push, .wait 5000, both] ["a", "b", "7"] :=
    .push (.other (.push .nil (.one rfl)) id) (.all rfl rfl)
  obtain ⟨hruns, -⟩ :=
    sequences_keep_order_and_show_windows hplain (by decide : Text.allBlank "k" = false)
  obtain ⟨-, hheld⟩ :=
    sequences_keep_order_and_show_windows hplain (by decide : Text.allBlank "q" = false)
  obtain ⟨hall, hpush⟩ := hruns rfl _ _ hrun
  obtain ⟨-, hwindow, -⟩ := hheld ["a", "b", "c"] rfl
  exact ⟨hall, (hpush _ [""] (.one rfl)).1, (hpush _ [] (.all rfl rfl)).1, hwindow (-2) (-1),
    hwindow 2 1, hwindow (-9) 9⟩

/-- A push of nothing to a sequence of one element does not tell its length. -/
theorem push_of_nothing_tells_no_length :
    let k := Value.text "k"
    let push := Step.request (.operate (.listPush k (.text "a")))
    let nothing := Operation.listPushAll k (.list [])
    let later := ({} : World).after [push]
    PushRun "k" [push] ["a"] ∧ nothing.Pushes "k" [] ∧
      later.answer (.operate nothing) = .ok (.int 0) ∧
      later.answer (.operate nothing) ≠ .ok (.int (["a"] ++ []).length) := by
  intro k push nothing later
  have hrun : PushRun "k" [push] ["a"] := .push .nil (.one rfl)
  have hzero : later.answer (.operate nothing) = .ok (.int 0) := rfl
  refine ⟨hrun, .all rfl rfl, hzero, ?_⟩
  rw [hzero]
  nofun

end World

end FileStash
