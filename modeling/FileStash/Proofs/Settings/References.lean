import Mathlib.Data.List.Basic
import FileStash.Settings.EnvFile

/-!
Files of assignments without references to variables. What is read from such a file does
not depend on the environment: no step of the reading makes a reference out of a text
that has none, since each one either cuts pieces out or puts a character in the place of
others that have no part in a reference.
-/

namespace FileStash.EnvFile

/-- Whether a reference starts somewhere in a text. -/
def refers : List Char → Bool
  | [] => false
  | c :: cs => (reference? (c :: cs)).isSome || refers cs

section Reference

def inName (c : Char) : Bool :=
  c ≠ '\x7d' && c ≠ ':'

/-- Whether a reference whose start has been read comes to its end. -/
def closes : List Char → Bool
  | [] => false
  | c :: cs =>
      if inName c then closes cs else c = '\x7d' || (cs.head? = some '-' && cs.contains '\x7d')

theorem drop_length_takeWhile (p : Char → Bool) (cs : List Char) :
    cs.drop (cs.takeWhile p).length = cs.dropWhile p := by
  calc cs.drop (cs.takeWhile p).length
    _ = (cs.takeWhile p ++ cs.dropWhile p).drop (cs.takeWhile p).length := by
      rw [List.takeWhile_append_dropWhile]
    _ = cs.dropWhile p := List.drop_left

theorem closes_dropWhile (cs : List Char) : closes (cs.dropWhile inName) = closes cs := by
  induction cs with
  | nil => rfl
  | cons c cs ih =>
      by_cases hc : inName c = true
      · rw [List.dropWhile_cons_of_pos hc, ih, closes, if_pos hc]
      · rw [List.dropWhile_cons_of_neg hc]

theorem length_takeWhile_lt_iff (d : Char) (cs : List Char) :
    (cs.takeWhile (· ≠ d)).length < cs.length ↔ d ∈ cs := by
  induction cs with
  | nil => simp
  | cons c cs ih =>
      by_cases hc : c = d
      · simp [hc]
      · simpa [hc, Ne.symm hc] using ih

theorem isSome_reference?_cons (cs : List Char) :
    (reference? ('$' :: '\x7b' :: cs)).isSome = closes cs := by
  have hrest : cs.drop (cs.takeWhile fun c => c ≠ '\x7d' && c ≠ ':').length =
      cs.dropWhile inName := drop_length_takeWhile inName cs
  have hstop : ∀ c, (cs.dropWhile inName).head? = some c → inName c = false := by
    intro c hc
    have hnot := List.head?_dropWhile_not inName cs
    rw [hc] at hnot
    exact hnot
  rw [← closes_dropWhile]
  simp only [reference?, hrest]
  generalize cs.dropWhile inName = rest at hstop
  split
  · rfl
  · rename_i more
    simp only [length_takeWhile_lt_iff]
    by_cases hclosed : '\x7d' ∈ more
    · simp [hclosed, closes, inName]
    · simp [hclosed, closes, inName]
  · rename_i hbrace hcolon
    cases rest with
    | nil => rfl
    | cons c rest =>
        have hc := hstop c rfl
        have hend : c ≠ '\x7d' := fun h => hbrace rest (by rw [h])
        have hcolon' : c = ':' := by simpa [inName, hend] using hc
        subst hcolon'
        have hdash : rest.head? ≠ some '-' := by
          cases rest with
          | nil => simp
          | cons d rest =>
              rw [List.head?_cons, ne_eq, Option.some.injEq]
              exact fun h => hcolon rest (by rw [h])
        simp [closes, inName, hdash]

theorem isSome_reference?_iff (cs : List Char) :
    (reference? cs).isSome = true ↔ ∃ rest, cs = '$' :: '\x7b' :: rest ∧ closes rest = true := by
  constructor
  · intro h
    unfold reference? at h
    split at h
    · rename_i rest
      exact ⟨rest, rfl, by rw [← isSome_reference?_cons]; exact h⟩
    · cases h
  · rintro ⟨rest, rfl, h⟩
    rw [isSome_reference?_cons, h]

theorem refers_iff (cs : List Char) : refers cs = true ↔
    ∃ before rest, cs = before ++ '$' :: '\x7b' :: rest ∧ closes rest = true := by
  induction cs with
  | nil => simp [refers]
  | cons c cs ih =>
      rw [refers, Bool.or_eq_true, isSome_reference?_iff, ih]
      constructor
      · rintro (⟨rest, heq, hrest⟩ | ⟨before, rest, rfl, hrest⟩)
        · exact ⟨[], rest, heq, hrest⟩
        · exact ⟨c :: before, rest, rfl, hrest⟩
      · rintro ⟨before, rest, heq, hrest⟩
        cases before with
        | nil => exact .inl ⟨rest, heq, hrest⟩
        | cons d before =>
            obtain ⟨rfl, rfl⟩ := List.cons.inj heq
            exact .inr ⟨before, rest, rfl, hrest⟩

end Reference

section Pieces

variable {cs ds : List Char}

theorem closes_append (h : closes cs = true) (ds : List Char) : closes (cs ++ ds) = true := by
  induction cs with
  | nil => cases h
  | cons c cs ih =>
      rw [List.cons_append, closes]
      rw [closes] at h
      split at h
      · rename_i hc
        rw [if_pos hc]
        exact ih h
      · rename_i hc
        rw [if_neg hc]
        rcases Bool.or_eq_true_iff.mp h with h | h
        · simp [h]
        · simp only [Bool.and_eq_true, decide_eq_true_eq, List.contains_iff_mem] at h
          simp [List.head?_append, h.1, h.2]

theorem refers_of_infix (hinside : cs <:+: ds) (h : refers cs = true) : refers ds = true := by
  obtain ⟨before, after, rfl⟩ := hinside
  obtain ⟨start, rest, rfl, hrest⟩ := (refers_iff cs).mp h
  refine (refers_iff _).mpr ⟨before ++ start, rest ++ after, ?_, closes_append hrest after⟩
  simp

end Pieces

section Rewriting

/-- Whether a character has no part in where a reference starts and ends. -/
def inert (c : Char) : Bool :=
  c ∉ ['$', '\x7b', '\x7d', ':', '-']

/-- Some pieces of inert characters have been replaced by single ones. -/
inductive Rewritten : List Char → List Char → Prop
  | nil : Rewritten [] []
  | keep {cs ds : List Char} (c : Char) (h : Rewritten cs ds) : Rewritten (c :: cs) (c :: ds)
  | replace {piece cs ds : List Char} {d : Char} (hpiece : ∀ c ∈ piece, inert c = true)
      (hd : inert d = true) (h : Rewritten cs ds) : Rewritten (piece ++ cs) (d :: ds)

variable {cs ds : List Char}

namespace Rewritten

theorem mem (h : Rewritten cs ds) {c : Char} (hc : inert c = false) (hmem : c ∈ ds) : c ∈ cs := by
  induction h with
  | nil => exact hmem
  | keep d h ih =>
      rcases List.mem_cons.mp hmem with rfl | hmem
      · exact List.mem_cons_self
      · exact List.mem_cons_of_mem d (ih hmem)
  | replace hpiece hd h ih =>
      rcases List.mem_cons.mp hmem with rfl | hmem
      · cases hd.symm.trans hc
      · exact List.mem_append_right _ (ih hmem)

theorem head (h : Rewritten cs ds) {c : Char} {rest : List Char} (hc : inert c = false)
    (hds : ds = c :: rest) : ∃ rest', cs = c :: rest' ∧ Rewritten rest' rest := by
  cases h with
  | nil => cases hds
  | keep d h =>
      cases hds
      exact ⟨_, rfl, h⟩
  | replace hpiece hd h =>
      cases hds
      cases hd.symm.trans hc

theorem inName_of_inert {c : Char} (h : inert c = true) : inName c = true := by
  simp only [inert, List.mem_cons, not_or, decide_eq_true_eq] at h
  simp [inName, h.2.2.1, h.2.2.2.1]

theorem closes_piece {piece : List Char} (h : ∀ c ∈ piece, inert c = true) (cs : List Char) :
    closes (piece ++ cs) = closes cs := by
  induction piece with
  | nil => rfl
  | cons c piece ih =>
      rw [List.cons_append, closes, if_pos (inName_of_inert (h c List.mem_cons_self))]
      exact ih fun d hd => h d (List.mem_cons_of_mem c hd)

theorem closes (h : Rewritten cs ds) (hcloses : closes ds = true) : EnvFile.closes cs = true := by
  induction h with
  | nil => cases hcloses
  | @keep cs ds c h ih =>
      rw [EnvFile.closes] at hcloses ⊢
      split at hcloses
      · rename_i hc
        rw [if_pos hc]
        exact ih hcloses
      · rename_i hc
        rw [if_neg hc]
        rcases Bool.or_eq_true_iff.mp hcloses with hend | hdefault
        · simp [hend]
        · simp only [Bool.and_eq_true, decide_eq_true_eq, List.contains_iff_mem] at hdefault
          obtain ⟨rest, hrest⟩ : ∃ rest, ds = '-' :: rest := by
            cases ds with
            | nil => simp at hdefault
            | cons d ds => exact ⟨ds, by simpa using hdefault.1⟩
          obtain ⟨rest', rfl, -⟩ := h.head (by decide) hrest
          simp [h.mem (by decide) hdefault.2]
  | replace hpiece hd h ih =>
      rw [EnvFile.closes, if_pos (inName_of_inert hd)] at hcloses
      rw [closes_piece hpiece]
      exact ih hcloses

theorem refers (h : Rewritten cs ds) (hrefers : refers ds = true) : EnvFile.refers cs = true := by
  induction h with
  | nil => cases hrefers
  | @keep cs ds c h ih =>
      rw [EnvFile.refers, Bool.or_eq_true] at hrefers ⊢
      rcases hrefers with hhere | hlater
      · left
        rw [isSome_reference?_iff] at hhere ⊢
        obtain ⟨rest, heq, hrest⟩ := hhere
        obtain ⟨rfl, hds⟩ := List.cons.inj heq
        obtain ⟨rest', rfl, hrest'⟩ := h.head (by decide) hds
        exact ⟨rest', rfl, hrest'.closes hrest⟩
      · exact .inr (ih hlater)
  | @replace piece cs ds d hpiece hd h ih =>
      rw [EnvFile.refers, Bool.or_eq_true] at hrefers
      rcases hrefers with hhere | hlater
      · rw [isSome_reference?_iff] at hhere
        obtain ⟨rest, heq, -⟩ := hhere
        obtain ⟨rfl, -⟩ := List.cons.inj heq
        cases hd
      · exact refers_of_infix (List.suffix_append piece cs).isInfix (ih hlater)

end Rewritten

theorem rewritten_unifyLineEnds (cs : List Char) : Rewritten cs (unifyLineEnds cs) := by
  fun_induction unifyLineEnds cs with
  | case1 => exact .nil
  | case2 cs ih =>
      have hpiece : ∀ c ∈ ['\r', '\n'], inert c = true := List.all_eq_true.mp (by decide)
      exact .replace hpiece (by decide) ih
  | case3 c cs hc ih =>
      split
      · rename_i hreturn
        subst hreturn
        have hpiece : ∀ c ∈ ['\r'], inert c = true := List.all_eq_true.mp (by decide)
        exact .replace hpiece (by decide) ih
      · exact .keep c ih

/-- Escapes stand for inert characters, and so do the letters behind the backslash. -/
theorem rewritten_unescape {escape? : Char → Option Char}
    (hescape : ∀ c d, escape? c = some d → inert c = true ∧ inert d = true) (cs : List Char) :
    Rewritten cs (unescape escape? cs) := by
  fun_induction unescape escape? cs with
  | case1 => exact .nil
  | case2 c cs d hd ih =>
      obtain ⟨hc, hd⟩ := hescape c d hd
      exact @Rewritten.replace ['\\', c] _ _ _ (by simpa [hc] using by decide) hd ih
  | case3 c cs hnone ih => exact .keep _ ih
  | case4 c cs hc ih => exact .keep c ih

theorem inert_of_singleEscape? {c d : Char} (h : singleEscape? c = some d) :
    inert c = true ∧ inert d = true := by
  unfold singleEscape? at h
  split at h
  · rename_i hc
    cases h
    rcases Bool.or_eq_true_iff.mp hc with hc | hc
    · rw [of_decide_eq_true hc]
      decide
    · rw [of_decide_eq_true hc]
      decide
  · cases h

theorem inert_of_doubleEscape? {c d : Char} (h : doubleEscape? c = some d) :
    inert c = true ∧ inert d = true := by
  unfold doubleEscape? at h
  split at h
  case h_9 => exact inert_of_singleEscape? h
  all_goals
    cases h
    decide

end Rewriting

section Reading

variable {cs rest : List Char}

theorem suffix_skipBlanks (cs : List Char) : skipBlanks cs <:+ cs :=
  List.dropWhile_suffix _

theorem suffix_dropLine (cs : List Char) : dropLine cs <:+ cs :=
  (List.drop_suffix 1 _).trans (List.dropWhile_suffix _)

theorem suffix_skipExport (cs : List Char) : skipExport cs <:+ cs := by
  unfold skipExport
  dsimp only
  split
  · exact (suffix_skipBlanks _).trans (List.drop_suffix _ _)
  · exact List.suffix_rfl

theorem suffix_takeSome {p : Char → Bool} {run : List Char} (h : takeSome p cs = some (run, rest)) :
    rest <:+ cs := by
  unfold takeSome at h
  dsimp only at h
  split at h
  · cases h
  · cases h
    exact List.dropWhile_suffix p

theorem suffix_readName {name : Option (List Char)} (h : readName cs = some (name, rest)) :
    rest <:+ cs := by
  unfold readName at h
  split at h
  · cases h
    exact List.suffix_rfl
  · rename_i quoted
    split at h
    · rename_i word behind hword
      cases h
      exact (List.suffix_cons _ _).trans ((suffix_takeSome hword).trans (List.suffix_cons _ _))
    · cases h
  · obtain ⟨⟨word, behind⟩, hword, heq⟩ := Option.map_eq_some_iff.mp h
    cases heq
    exact suffix_takeSome hword

theorem suffix_endLine? (h : endLine? cs = some rest) : rest <:+ cs := by
  have hblanks := suffix_skipBlanks cs
  unfold endLine? at h
  split at h
  · cases h
    exact List.nil_suffix
  · rename_i heq
    cases h
    rw [heq] at hblanks
    exact (List.suffix_cons _ _).trans hblanks
  · rename_i behind heq
    cases h
    rw [heq] at hblanks
    exact (suffix_dropLine behind).trans ((List.suffix_cons _ _).trans hblanks)
  · cases h

theorem prefix_cutComment (afterBlank : Bool) (cs : List Char) :
    cutComment afterBlank cs <+: cs := by
  induction cs generalizing afterBlank with
  | nil => exact List.prefix_rfl
  | cons c cs ih =>
      unfold cutComment
      split
      · exact List.nil_prefix
      · exact List.cons_prefix_cons.mpr ⟨rfl, ih _⟩

theorem infix_trim (p : Char → Bool) (cs : List Char) : Text.trim p cs <:+: cs := by
  have hfront : cs.dropWhile p <:+ cs := List.dropWhile_suffix p
  have hback : Text.trim p cs <+: cs.dropWhile p := by
    rw [Text.trim, ← List.reverse_suffix, List.reverse_reverse]
    exact List.dropWhile_suffix p
  exact hback.isInfix.trans hfront.isInfix

/-- What stands between quotes is a piece of the text, and has its escapes replaced. -/
theorem of_readQuoted {q : Char} {escape? : Char → Option Char} {value : List Char}
    (hescape : ∀ c d, escape? c = some d → inert c = true ∧ inert d = true)
    (h : ((readQuoted q cs).map fun r => (unescape escape? r.1, r.2)) = some (value, rest)) :
    rest <:+ cs ∧ (refers value = true → refers cs = true) := by
  obtain ⟨⟨body, behind⟩, hbody, heq⟩ := Option.map_eq_some_iff.mp h
  cases heq
  rw [eq_append_of_readQuoted hbody]
  constructor
  · exact (List.suffix_cons q _).trans (List.suffix_append body _)
  · intro hrefers
    exact refers_of_infix (List.prefix_append body _).isInfix
      ((rewritten_unescape hescape body).refers hrefers)

theorem of_readValue {value : List Char} (h : readValue cs = some (value, rest)) :
    rest <:+ cs ∧ (refers value = true → refers cs = true) := by
  have hblanks := suffix_skipBlanks cs
  unfold readValue at h
  split at h
  · rename_i behind heq
    rw [heq] at hblanks
    have hbehind := (List.suffix_cons _ _).trans hblanks
    obtain ⟨hrest, hrefers⟩ := of_readQuoted (fun c d => inert_of_singleEscape?) h
    exact ⟨hrest.trans hbehind, fun hvalue => refers_of_infix hbehind.isInfix (hrefers hvalue)⟩
  · rename_i behind heq
    rw [heq] at hblanks
    have hbehind := (List.suffix_cons _ _).trans hblanks
    obtain ⟨hrest, hrefers⟩ := of_readQuoted (fun c d => inert_of_doubleEscape?) h
    exact ⟨hrest.trans hbehind, fun hvalue => refers_of_infix hbehind.isInfix (hrefers hvalue)⟩
  · cases h
    refine ⟨List.dropWhile_suffix _, refers_of_infix ?_⟩
    exact ((infix_trim _ _).trans (prefix_cutComment _ _).isInfix).trans
      (List.takeWhile_prefix _).isInfix

/-- What an assignment holds refers to nothing where the text does not. -/
def Holds (cs : List Char) (a : Assignment) : Prop :=
  ∀ v, a.value = some v → refers v.toList = true → refers cs = true

theorem of_readAssigned (name : Option (List Char)) (cs : List Char) :
    (readAssigned name cs).2 <:+ cs ∧ ∀ a, (readAssigned name cs).1 = some a → Holds cs a := by
  unfold readAssigned
  split
  · rename_i behind
    have hbehind : behind <:+ '=' :: behind := List.suffix_cons _ _
    split
    · exact ⟨(suffix_dropLine _).trans hbehind, fun a ha => by cases ha⟩
    · rename_i value rest hvalue
      obtain ⟨hrest, hrefers⟩ := of_readValue hvalue
      split
      · exact ⟨(suffix_dropLine _).trans (hrest.trans hbehind), fun a ha => by cases ha⟩
      · rename_i next hnext
        refine ⟨(suffix_endLine? hnext).trans (hrest.trans hbehind), fun a ha v hv hrefer => ?_⟩
        obtain ⟨n, -, rfl⟩ := Option.map_eq_some_iff.mp ha
        cases hv
        rw [String.toList_ofList] at hrefer
        exact refers_of_infix hbehind.isInfix (hrefers hrefer)
  · split
    · exact ⟨suffix_dropLine _, fun a ha => by cases ha⟩
    · rename_i next hnext
      refine ⟨suffix_endLine? hnext, fun a ha v hv => ?_⟩
      obtain ⟨n, -, rfl⟩ := Option.map_eq_some_iff.mp ha
      cases hv

theorem of_readBinding (cs : List Char) :
    (readBinding cs).2 <:+ cs ∧ ∀ a, (readBinding cs).1 = some a → Holds cs a := by
  have hstart : skipExport (cs.dropWhile Text.isBlank) <:+ cs :=
    (suffix_skipExport _).trans (List.dropWhile_suffix _)
  unfold readBinding
  dsimp only
  split
  · exact ⟨(suffix_dropLine _).trans hstart, fun a ha => by cases ha⟩
  · rename_i name rest hname
    have hrest := (suffix_skipBlanks rest).trans ((suffix_readName hname).trans hstart)
    obtain ⟨hnext, hholds⟩ := of_readAssigned name (skipBlanks rest)
    exact ⟨hnext.trans hrest,
      fun a ha v hv hrefers => refers_of_infix hrest.isInfix (hholds a ha v hv hrefers)⟩

theorem holds_of_mem_assignments {a : Assignment} (h : a ∈ assignments cs) : Holds cs a := by
  fun_induction assignments cs with
  | case1 => cases h
  | case2 cs hne first rest hread hless ih =>
      obtain ⟨hrest, hholds⟩ := of_readBinding cs
      rw [hread] at hrest hholds
      rcases List.mem_append.mp h with hmem | hmem
      · exact hholds a (Option.mem_toList.mp hmem)
      · exact fun v hv hrefers => refers_of_infix hrest.isInfix (ih hmem v hv hrefers)
  | case3 cs hne first rest hread hless =>
      obtain ⟨-, hholds⟩ := of_readBinding cs
      rw [hread] at hholds
      exact hholds a (Option.mem_toList.mp h)

end Reading

section Read

theorem expandFrom_of_not_refers (vars : Variables) {cs : List Char} (h : refers cs = false) :
    expandFrom vars 0 cs = cs := by
  induction cs with
  | nil => rfl
  | cons c cs ih =>
      obtain ⟨hhere, hlater⟩ := Bool.or_eq_false_iff.mp h
      have hnone : reference? (c :: cs) = none := by simpa using hhere
      simp only [expandFrom, hnone, ih hlater]

/-- The text of a file as it is read: without a byte order mark, and with line feeds
only. -/
def lines (text : String) : List Char :=
  unifyLineEnds (dropMark text.toList)

theorem refers_lines {text : String} (h : refers (lines text) = true) :
    refers text.toList = true := by
  have hmark : dropMark text.toList <:+ text.toList := by
    unfold dropMark
    split
    · exact List.drop_suffix 1 _
    · exact List.suffix_rfl
  exact refers_of_infix hmark.isInfix ((rewritten_unifyLineEnds _).refers h)

/-- A file without references assigns what stands in it, whatever the environment. -/
theorem read_of_not_refers {text : String} (h : refers text.toList = false)
    (environment : Dict String String) :
    read environment text =
      (assignments (lines text)).foldl (fun d a => Dict.insert d a.name a.value) [] := by
  have hvalue : ∀ a ∈ assignments (lines text), ∀ (vars : Variables),
      a.value.map (expand vars) = a.value := by
    intro a ha vars
    cases hv : a.value with
    | none => rfl
    | some v =>
        have hplain : refers v.toList = false := by
          rw [← Bool.not_eq_true]
          intro hrefers
          rw [refers_lines (holds_of_mem_assignments ha v hv hrefers)] at h
          cases h
        rw [Option.map_some, expand, expandFrom_of_not_refers vars hplain, String.ofList_toList]
  exact List.foldl_ext _ _ _ fun d a ha => by rw [assign, hvalue a ha]

end Read

end FileStash.EnvFile
