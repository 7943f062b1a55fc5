import FileStash.Proofs.Connection.Credentials

/-!
Addresses with an at sign and without a scheme. Nothing of such a text is shown unless
`://` stands somewhere in it. If it does, then all in front of the first `://` is shown
though it is no scheme; and where every at sign stands there, nothing can be shown, and
the search for the last at sign behind it fails in place of the connection.
-/

namespace FileStash.Connection

/-- Letters, digits and the three signs that a scheme is made of. -/
def isSchemeChar (c : Char) : Bool :=
  c.isAlphanum || c = '+' || c = '-' || c = '.'

def isScheme (s : String) : Bool :=
  s ≠ "" && s.toList.all isSchemeChar

/-- Whether a text begins with a scheme and `://`. -/
def hasScheme (address : String) : Bool :=
  isScheme (String.ofList (address.toList.takeWhile isSchemeChar)) &&
    schemeEnd.isPrefixOf (address.toList.dropWhile isSchemeChar)

def Marked (address : String) : Prop :=
  schemeEnd <:+: address.toList

/-- What is shown of a text with an at sign and without a scheme, by how its at signs
stand to the first `://` in it. -/
inductive Shows (address : String) : Except Failure String → Prop
  | stars (h : ¬Marked address) : Shows address (.ok hidden)
  | front {front user place : String} (h : address = addressOf front user place)
      (hfirst : ¬Marked front) (hfront : isScheme front = false)
      (hplace : '@' ∉ place.toList) : Shows address (.ok (addressOf front hidden place))
  | lost {front rest : String} (h : address = front ++ "://" ++ rest) (hfirst : ¬Marked front)
      (hrest : '@' ∉ rest.toList) : Shows address (.error .noElement)

theorem toList_marked (front rest : String) :
    (front ++ "://" ++ rest).toList = front.toList ++ (schemeEnd ++ rest.toList) := by
  simp [schemeEnd, String.toList_append]

theorem addressOf_eq (front user place : String) :
    addressOf front user place = front ++ "://" ++ (user ++ "@" ++ place) := by
  simp [addressOf, String.append_assoc]

theorem marked_append (front rest : String) : Marked (front ++ "://" ++ rest) := by
  rw [Marked, toList_marked]
  exact ⟨front.toList, rest.toList, by rw [List.append_assoc]⟩

theorem hasScheme_of_isScheme {front : String} (h : isScheme front = true) (rest : String) :
    hasScheme (front ++ "://" ++ rest) = true := by
  have hall : ∀ c ∈ front.toList, isSchemeChar c = true := by
    simp only [isScheme, Bool.and_eq_true, List.all_eq_true] at h
    exact h.2
  have hchars : (front ++ "://" ++ rest).toList =
      front.toList ++ ':' :: '/' :: '/' :: rest.toList := toList_marked front rest
  have hstop : ¬isSchemeChar ':' = true := by decide
  have htaken : (front ++ "://" ++ rest).toList.takeWhile isSchemeChar = front.toList := by
    rw [hchars, List.takeWhile_append_of_pos hall, List.takeWhile_cons_of_neg hstop,
      List.append_nil]
  have hdropped : (front ++ "://" ++ rest).toList.dropWhile isSchemeChar =
      ':' :: '/' :: '/' :: rest.toList := by
    rw [hchars, List.dropWhile_append_of_pos hall, List.dropWhile_cons_of_neg hstop]
  rw [hasScheme, htaken, hdropped, String.ofList_toList, h]
  simp [schemeEnd]

section Arrangement

variable {address : String}

theorem redact_of_not_marked (hat : '@' ∈ address.toList) (h : ¬Marked address) :
    redact address = .ok hidden := by
  have hcut : Text.cutAt schemeEnd address.toList = none := Text.cutAt_eq_none_iff.mpr h
  have hcontains : address.toList.contains '@' = true := by simpa using hat
  simp only [redact, hcontains, hcut, Bool.not_true, Bool.false_eq_true, if_false]

theorem redact_of_lost {front rest : String} (hat : '@' ∈ (front ++ "://" ++ rest).toList)
    (hfirst : ¬Marked front) (hrest : '@' ∉ rest.toList) :
    redact (front ++ "://" ++ rest) = .error .noElement := by
  have hcut : Text.cutAt schemeEnd (front ++ "://" ++ rest).toList =
      some (front.toList, rest.toList) := by
    rw [toList_marked]
    exact Text.cutAt_append (by decide) hfirst _
  have hcontains : (front ++ "://" ++ rest).toList.contains '@' = true := by simpa using hat
  simp only [redact, hcontains, hcut, Text.afterLast_of_not_mem hrest, Bool.not_true,
    Bool.false_eq_true, if_false]

theorem redact_of_shows {shown : Except Failure String} (hat : '@' ∈ address.toList)
    (h : Shows address shown) : redact address = shown := by
  cases h with
  | stars hmarked => exact redact_of_not_marked hat hmarked
  | front h hfirst hfront hplace =>
      subst h
      exact redact_of_first hfirst hplace _
  | lost h hfirst hrest =>
      subst h
      exact redact_of_lost hat hfirst hrest

/-- There is no other arrangement: a marked text is cut at the first mark, and the at
signs stand behind it or do not. -/
theorem exists_shows (hscheme : hasScheme address = false) : ∃ shown, Shows address shown := by
  cases hcut : Text.cutAt schemeEnd address.toList with
  | none => exact ⟨_, .stars (Text.cutAt_eq_none_iff.mp hcut)⟩
  | some r =>
      obtain ⟨front, rest⟩ := r
      have hfirst : ¬Marked (String.ofList front) := by
        rw [Marked, String.toList_ofList]
        exact Text.not_infix_of_cutAt (by decide) hcut
      have haddress : address = String.ofList front ++ "://" ++ String.ofList rest := by
        apply String.toList_inj.mp
        rw [toList_marked, String.toList_ofList, String.toList_ofList]
        exact Text.eq_append_of_cutAt hcut
      by_cases hat : '@' ∈ rest
      · obtain ⟨user, place, rfl, hplace⟩ := Text.exists_last_of_mem hat
        have hfront : isScheme (String.ofList front) = false := by
          rw [haddress] at hscheme
          rw [← Bool.not_eq_true]
          intro hfront
          rw [hasScheme_of_isScheme hfront] at hscheme
          cases hscheme
        have hsplit : address =
            addressOf (String.ofList front) (String.ofList user) (String.ofList place) := by
          rw [haddress, addressOf_eq]
          congr 1
          apply String.toList_inj.mp
          simp [String.toList_append]
        exact ⟨_, .front hsplit hfirst hfront (by simpa using hplace)⟩
      · exact ⟨_, .lost haddress hfirst (by simpa using hat)⟩

theorem redact_eq_iff_shows (hat : '@' ∈ address.toList) (hscheme : hasScheme address = false)
    (shown : Except Failure String) : redact address = shown ↔ Shows address shown := by
  constructor
  · rintro rfl
    obtain ⟨shown, h⟩ := exists_shows hscheme
    rw [redact_of_shows hat h]
    exact h
  · exact redact_of_shows hat

theorem redact_eq_hidden_iff (hat : '@' ∈ address.toList) (hscheme : hasScheme address = false) :
    redact address = .ok hidden ↔ ¬Marked address := by
  constructor
  · intro h
    generalize hshown : (.ok hidden : Except Failure String) = shown at h
    cases (redact_eq_iff_shows hat hscheme shown).mp h with
    | stars hmarked => exact hmarked
    | @front front user place _ _ _ _ =>
        have hmark := marked_append front (hidden ++ "@" ++ place)
        rw [← addressOf_eq, ← Except.ok.inj hshown] at hmark
        exact absurd hmark (by unfold Marked; decide)
    | lost _ _ _ => cases hshown
  · exact redact_of_not_marked hat

end Arrangement

/-- What is raised when the server cannot be reached, by what can be shown of its
address. -/
def raised (e : ClientError) : Except Failure String → StoreError
  | .ok shown => .unavailable (.unreachable shown e)
  | .error f => .bare f

def recorded (e : ClientError) : Except Failure String → List Record
  | .ok shown => [⟨.error, logger, "Redis connection failed for " ++ shown ++ ": " ++ e.text⟩]
  | .error _ => []

section Trouble

variable {σ : Type} {client : Client σ} {address : String} {o : Options} {s : σ} {e : ClientError}

/-- Trouble with the server while it is asked whether it is there. -/
structure Troubled (client : Client σ) (address : String) (o : Options) (s : σ) (e : ClientError) :
    Prop where
  opened : ∃ reply, (client s (.connect address o.arguments)).1 = .ok reply
  asked : o.verify.truth = true
  pinged : (client (client s (.connect address o.arguments)).2 (.run .ping)).1 =
    .error (.client e)
  trouble : e.concernsServer = true

theorem Troubled.run_connect (h : Troubled client address o s e) (t : FileTree) :
    let run := (connect address o).run client s t
    run.result = .error (raised e (redact address)) ∧
      run.records = recorded e (redact address) ∧
      run.calls = [.connect address o.arguments, .run .ping] := by
  obtain ⟨reply, hopened⟩ := h.opened
  simp only [connect_eq, calling, Program.andThen, Program.run, hopened, h.asked, if_true, verify,
    h.pinged, unreachable, h.trouble]
  cases redact address with
  | ok shown => exact ⟨rfl, rfl, rfl⟩
  | error f => exact ⟨rfl, rfl, rfl⟩

end Trouble

/-- Nothing of a text with an at sign and without a scheme is shown just where `://` does
not stand in it. Then trouble with the server is raised as such, with its cause, and
neither the message nor the record can tell two such texts apart. Where `://` does stand
in it, the first one counts: with an at sign behind it all up to there is shown, which is
no scheme, and only what follows up to the last at sign is hidden; with none behind it
there is no element to show, which is raised in place of the trouble. -/
theorem schemeless_hidden_unless_marked {address : String} (hat : '@' ∈ address.toList)
    (hscheme : hasScheme address = false) :
    (redact address = .ok hidden ↔ ¬Marked address) ∧
    (∀ shown, redact address = shown ↔ Shows address shown) ∧
    ∀ {σ : Type} (client : Client σ) (o : Options) (s : σ) (t : FileTree) (e : ClientError),
      Troubled client address o s e →
      let run := (connect address o).run client s t
      (¬Marked address → ∃ fault, run.result = .error fault ∧
        fault = .unavailable (.unreachable hidden e) ∧ fault.cause? = some (.client e) ∧
        fault.message = "Redis is unreachable at ***" ∧
        run.records =
          [⟨.error, logger, "Redis connection failed for ***: " ++ e.text⟩]) ∧
      ∀ shown, Shows address shown →
        run.result = .error (raised e shown) ∧ run.records = recorded e shown := by
  refine ⟨redact_eq_hidden_iff hat hscheme, redact_eq_iff_shows hat hscheme, ?_⟩
  intro σ client o s t e htroubled run
  obtain ⟨hresult, hrecords, -⟩ := htroubled.run_connect t
  constructor
  · intro hmarked
    rw [redact_of_not_marked hat hmarked] at hresult hrecords
    exact ⟨_, hresult, rfl, rfl, rfl, hrecords⟩
  · intro shown hshown
    rw [redact_of_shows hat hshown] at hresult hrecords
    exact ⟨hresult, hrecords⟩

/-- A text without `://`, and two with it: the first shows a part of the password, and the
last hides the trouble with the server. -/
theorem schemeless_texts_hidden_shown_and_lost :
    let e := ClientError.ofLibrary "ConnectionError" "Error 111 connecting to cache:6379."
    let s : ScriptedServer := { script := [("ping", .error e)] }
    let run (address : String) := (connect address {}).run ScriptedServer.call s {}
    (∀ address ∈ ["user:secret@cache", "user:p://x@cache", "user:p@ss://cache"],
      '@' ∈ address.toList ∧ hasScheme address = false ∧
        Troubled ScriptedServer.call address {} s e) ∧
    (run "user:secret@cache").result = .error (.unavailable (.unreachable "***" e)) ∧
    (run "user:p://x@cache").result =
      .error (.unavailable (.unreachable "user:p://***@cache" e)) ∧
    redact "user:p@ss://cache" = .error .noElement ∧
    (run "user:p@ss://cache").result = .error (.bare .noElement) ∧
    (run "user:p@ss://cache").records = [] := by
  intro e s run
  have htrouble : e.concernsServer = true := by decide
  have htroubled (address : String) : Troubled ScriptedServer.call address {} s e :=
    ⟨⟨_, rfl⟩, rfl, rfl, htrouble⟩
  have hall : ∀ address ∈ ["user:secret@cache", "user:p://x@cache", "user:p@ss://cache"],
      '@' ∈ address.toList ∧ hasScheme address = false := by decide
  have hfirst : ¬Marked "user:p" ∧ ¬Marked "user:p@ss" ∧ ¬Marked "user:secret@cache" := by
    unfold Marked
    decide +kernel
  obtain ⟨hat, hscheme⟩ := hall "user:secret@cache" (by simp)
  obtain ⟨hat', hscheme'⟩ := hall "user:p://x@cache" (by simp)
  obtain ⟨hat'', hscheme''⟩ := hall "user:p@ss://cache" (by simp)
  obtain ⟨-, -, hstars⟩ := schemeless_hidden_unless_marked hat hscheme
  obtain ⟨-, -, hfront⟩ := schemeless_hidden_unless_marked hat' hscheme'
  obtain ⟨-, hshows, hlost⟩ := schemeless_hidden_unless_marked hat'' hscheme''
  obtain ⟨fault, hresult, rfl, -, -, -⟩ :=
    (hstars ScriptedServer.call {} s {} e (htroubled _)).1 hfirst.2.2
  have hshown : Shows "user:p://x@cache" (.ok "user:p://***@cache") :=
    @Shows.front _ "user:p" "x" "cache" rfl hfirst.1 (by decide) (by decide)
  have hnone : Shows "user:p@ss://cache" (.error .noElement) :=
    @Shows.lost _ "user:p@ss" "cache" rfl hfirst.2.1 (by decide)
  refine ⟨fun address h => ⟨(hall address h).1, (hall address h).2, htroubled address⟩, hresult,
    ?_, (hshows _).mpr hnone, ?_⟩
  · exact ((hfront ScriptedServer.call {} s {} e (htroubled _)).2 _ hshown).1
  · exact (hlost ScriptedServer.call {} s {} e (htroubled _)).2 _ hnone

end FileStash.Connection
