import FileStash.Connection.Basic
import FileStash.Proofs.Program.Effects
import FileStash.Server.Scripted

namespace FileStash.Connection

def addressOf (scheme user place : String) : String :=
  scheme ++ "://" ++ user ++ "@" ++ place

/-- The first `://` ends the front and the last at sign begins the place, so whatever
stands between them is hidden. -/
theorem redact_of_first {front place : String} (hfirst : ¬schemeEnd <:+: front.toList)
    (hplace : '@' ∉ place.toList) (user : String) :
    redact (addressOf front user place) = .ok (addressOf front hidden place) := by
  have hchars : (addressOf front user place).toList =
      front.toList ++ (schemeEnd ++ (user.toList ++ '@' :: place.toList)) := by
    simp [addressOf, schemeEnd, String.toList_append]
  have hcut : Text.cutAt schemeEnd (addressOf front user place).toList =
      some (front.toList, user.toList ++ '@' :: place.toList) := by
    rw [hchars]
    exact Text.cutAt_append (by decide) hfirst _
  have hat : (addressOf front user place).toList.contains '@' = true := by
    simp [hchars]
  simp only [redact, hat, hcut, Text.afterLast_append hplace, Bool.not_true, Bool.false_eq_true,
    if_false, String.ofList_toList]
  rfl

/-- A colon ends the scheme, and what stands behind it up to the last at sign is the
user. -/
theorem redact_addressOf {scheme place : String} (hscheme : ':' ∉ scheme.toList)
    (hplace : '@' ∉ place.toList) (user : String) :
    redact (addressOf scheme user place) = .ok (addressOf scheme hidden place) :=
  redact_of_first (fun h => hscheme (h.subset (by decide))) hplace user

section Run

variable {σ : Type} {address shown : String}

/-- What a caller sees of an answer of the server, with the address that is shown. -/
def report (shown : String) : Except Failure Reply → Except StoreError Unit × List Record
  | .ok _ => (.ok (), [⟨.debug, logger, "Redis connection established"⟩])
  | .error (.client e) =>
      if e.concernsServer then
        (.error (.unavailable (.unreachable shown e)),
          [⟨.error, logger, "Redis connection failed for " ++ shown ++ ": " ++ e.text⟩])
      else (.error (.bare (.client e)), [])
  | .error f => (.error (.bare f), [])

theorem report_trouble {e : ClientError} (h : e.concernsServer = true) (shown : String) :
    report shown (.error (.client e)) =
      (.error (.unavailable (.unreachable shown e)),
        [⟨.error, logger, "Redis connection failed for " ++ shown ++ ": " ++ e.text⟩]) := by
  rw [report, if_pos h]

theorem report_foreign {f : Failure} (h : ∀ e, f = .client e → e.concernsServer = false)
    (shown : String) : report shown (.error f) = (.error (.bare f), []) := by
  cases f with
  | client e =>
      have hoff : ¬e.concernsServer = true := by simp [h e rfl]
      rw [report, if_neg hoff]
  | _ => rfl

/-- What a caller sees of a connection that is opened. -/
def outcome (o : Options) (shown : String) (opened pinged : Except Failure Reply) :
    Except StoreError Unit × List Record :=
  match opened with
  | .error f => (.error (.bare f), [])
  | .ok _ => if o.verify.truth then report shown pinged else (.ok (), [])

def laterCalls (o : Options) : Except Failure Reply → List Call
  | .error _ => []
  | .ok _ => if o.verify.truth then [.run .ping] else []

def verify (address : String) : Program Unit :=
  (calling (.run .ping) (unreachable address)).andThen fun _ =>
    Program.note .debug logger "Redis connection established"

theorem run_verify (client : Client σ) (hshown : redact address = .ok shown) (s : σ)
    (t : FileTree) :
    let run := (verify address).run client s t
    run.result = (report shown (client s (.run .ping)).1).1 ∧
      run.records = (report shown (client s (.run .ping)).1).2 ∧ run.calls = [.run .ping] := by
  simp only [verify, calling, Program.andThen, Program.run]
  cases (client s (.run .ping)).1 with
  | ok r => exact ⟨rfl, rfl, rfl⟩
  | error f =>
      cases f with
      | client e =>
          simp only [unreachable, report, hshown]
          cases e.concernsServer <;> exact ⟨rfl, rfl, rfl⟩
      | _ => exact ⟨rfl, rfl, rfl⟩

theorem connect_eq (address : String) (o : Options) :
    connect address o = (calling (.connect address o.arguments) fun f => .fail (.bare f)).andThen
      fun _ => if o.verify.truth then verify address else .done () := rfl

theorem run_connect (client : Client σ) (o : Options) (hshown : redact address = .ok shown)
    (s : σ) (t : FileTree) :
    let opened := client s (.connect address o.arguments)
    let pinged := client opened.2 (.run .ping)
    let run := (connect address o).run client s t
    run.result = (outcome o shown opened.1 pinged.1).1 ∧
      run.records = (outcome o shown opened.1 pinged.1).2 ∧
      run.calls = .connect address o.arguments :: laterCalls o opened.1 := by
  intro opened pinged run
  have hrun : run = (connect address o).run client s t := rfl
  simp only [connect_eq, calling, Program.andThen, Program.run] at hrun
  cases hopened : opened.1 with
  | error f =>
      rw [show (client s (.connect address o.arguments)).1 = .error f from hopened] at hrun
      rw [hrun]
      exact ⟨rfl, rfl, rfl⟩
  | ok r =>
      rw [show (client s (.connect address o.arguments)).1 = .ok r from hopened] at hrun
      rw [hrun]
      cases hverify : o.verify.truth with
      | false => simp [outcome, laterCalls, hverify, Program.andThen, Program.run]
      | true =>
          obtain ⟨hresult, hrecords, hcalls⟩ := run_verify client hshown opened.2 t
          simp only [outcome, laterCalls, hverify, if_true, Program.andThen]
          exact ⟨hresult, hrecords, by rw [hcalls]⟩

end Run

/-- What stands before the last at sign of an address with a scheme reaches the client,
which gets the whole address and gets it once, but neither the records nor the errors:
for one and the same answer of the server these are what they are with stars in place of
the user. Trouble with the server is recorded and reported with the address so shown;
whatever else is raised is passed on as it is, without a record. -/
theorem credentials_hidden {σ : Type} (client : Client σ) (o : Options) (scheme place : String)
    (hscheme : ':' ∉ scheme.toList) (hplace : '@' ∉ place.toList) (user : String) (s : σ)
    (t : FileTree) :
    let address := addressOf scheme user place
    let shown := addressOf scheme hidden place
    let opened := client s (.connect address o.arguments)
    let pinged := client opened.2 (.run .ping)
    let run := (connect address o).run client s t
    run.calls = .connect address o.arguments :: laterCalls o opened.1 ∧
    (∀ {τ : Type} (client' : Client τ) (user' : String) (s' : τ) (t' : FileTree),
      let address' := addressOf scheme user' place
      let opened' := client' s' (.connect address' o.arguments)
      let pinged' := client' opened'.2 (.run .ping)
      let run' := (connect address' o).run client' s' t'
      opened.1 = opened'.1 → pinged.1 = pinged'.1 →
        run.result = run'.result ∧ run.records = run'.records) ∧
    ∀ r, opened.1 = .ok r → o.verify.truth = true →
      (∀ e, pinged.1 = .error (.client e) → e.concernsServer = true →
        ∃ fault, run.result = .error (.unavailable fault) ∧ fault = .unreachable shown e ∧
          fault.message = "Redis is unreachable at " ++ shown ∧
          run.records =
            [⟨.error, logger, "Redis connection failed for " ++ shown ++ ": " ++ e.text⟩]) ∧
      (∀ f, pinged.1 = .error f → (∀ e, f = .client e → e.concernsServer = false) →
        run.result = .error (.bare f) ∧ run.records = []) ∧
      (∀ reply, pinged.1 = .ok reply → run.result = .ok () ∧
        run.records = [⟨.debug, logger, "Redis connection established"⟩]) := by
  intro address shown opened pinged run
  have hshown : ∀ user, redact (addressOf scheme user place) = .ok shown := fun user =>
    redact_addressOf hscheme hplace user
  obtain ⟨hresult, hrecords, hcalls⟩ := run_connect client o (hshown user) s t
  refine ⟨hcalls, ?_, ?_⟩
  · intro τ client' user' s' t' address' opened' pinged' run' hopened hpinged
    obtain ⟨hresult', hrecords', -⟩ := run_connect client' o (hshown user') s' t'
    constructor
    · calc run.result
        _ = (outcome o shown opened.1 pinged.1).1 := hresult
        _ = (outcome o shown opened'.1 pinged'.1).1 := by rw [hopened, hpinged]
        _ = run'.result := hresult'.symm
    · calc run.records
        _ = (outcome o shown opened.1 pinged.1).2 := hrecords
        _ = (outcome o shown opened'.1 pinged'.1).2 := by rw [hopened, hpinged]
        _ = run'.records := hrecords'.symm
  · intro r hopened hverify
    have houtcome : outcome o shown opened.1 pinged.1 = report shown pinged.1 := by
      rw [hopened, outcome, if_pos hverify]
    rw [houtcome] at hresult hrecords
    rw [hresult, hrecords]
    refine ⟨?_, ?_, ?_⟩
    · intro e hpinged htrouble
      rw [hpinged, report_trouble htrouble]
      exact ⟨_, rfl, rfl, rfl, rfl⟩
    · intro f hpinged hforeign
      rw [hpinged, report_foreign hforeign]
      exact ⟨rfl, rfl⟩
    · intro reply hpinged
      rw [hpinged]
      exact ⟨rfl, rfl⟩

/-- A password with both separators in it, and a server that is not there. -/
theorem password_with_separators_hidden :
    let place := "cache:6379/0"
    let e := ClientError.ofLibrary "ConnectionError" "Error 111 connecting to cache:6379."
    let s : ScriptedServer := { script := [("ping", .error e)] }
    let run (user : String) :=
      (connect (addressOf "redis" user place) {}).run ScriptedServer.call s {}
    let shown := "redis://***@cache:6379/0"
    ':' ∉ "redis".toList ∧ '@' ∉ place.toList ∧ e.concernsServer = true ∧
      (run "user:p://x@y").calls =
        [.connect "redis://user:p://x@y@cache:6379/0" ({} : Options).arguments, .run .ping] ∧
      (run "user:p://x@y").result = .error (.unavailable (.unreachable shown e)) ∧
      (run "user:p://x@y").result = (run hidden).result ∧
      (run "user:p://x@y").records = (run hidden).records := by
  intro place e s run shown
  have hscheme : ':' ∉ "redis".toList := by decide
  have hplace : '@' ∉ place.toList := by decide
  have htrouble : e.concernsServer = true := by decide
  obtain ⟨hcalls, hsame, hverified⟩ :=
    credentials_hidden ScriptedServer.call {} "redis" place hscheme hplace "user:p://x@y" s {}
  obtain ⟨hresult, hrecords⟩ := hsame ScriptedServer.call hidden s {} rfl rfl
  obtain ⟨fault, hfault, rfl, -, -⟩ := (hverified (.value .null) rfl rfl).1 e rfl htrouble
  exact ⟨hscheme, hplace, htrouble, hcalls, hfault, hresult, hrecords⟩

/-- An error of the operating system is passed on as it is. -/
theorem system_error_of_ping_passed_on :
    let e := ClientError.ofGeneral "OSError" (some "raw")
    let s : ScriptedServer := { script := [("ping", .error e)] }
    let run := (connect (addressOf "redis" "user:secret" "cache:6379/0") {}).run
      ScriptedServer.call s {}
    run.result = .error (.bare (.client e)) ∧
      (¬∃ fault, run.result = .error (.unavailable fault)) ∧ run.records = [] := by
  intro e s run
  have hresult : run.result = .error (.bare (.client e)) := rfl
  refine ⟨hresult, ?_, rfl⟩
  rintro ⟨fault, hfault⟩
  cases hresult.symm.trans hfault

end FileStash.Connection
