import FileStash.Proofs.FileCache.Deposits
import FileStash.Proofs.Session.Linearization

/-!
Clients that share a cache. Their requests take their steps in any order, and yet
every one is answered as if the requests had been made one after the other. No client
ever sees half of a record, or the record of a store with a time limit without its
deadline, and nobody can see a store that failed.
-/

namespace FileStash

namespace System

/-- The requests of a system might have been made whole and one after the other, in
the order in which they decided; and each of them returns, whatever the others do. -/
structure Serial (w : World) (S : System) : Prop where
  world : S.world = w.after S.order
  answered : ∀ (n : Nat) a result, S.tasks[n]? = some a → a.returned? = some result →
    Answered w S.order a result
  alone : ∀ (n m j : Nat) a b, S.tasks[n]? = some a → S.tasks[m]? = some b →
    a.place = some j → b.place = some j → n = m
  owned : ∀ (j : Nat) r, S.order[j]? = some (.request r) →
    ∃ (n : Nat) (a : Task), S.tasks[n]? = some a ∧ a.request = r ∧ a.place = some j
  returns : ∀ (n : Nat) a, S.tasks[n]? = some a → ∀ moves : List Move,
    (∀ r, .start r ∈ moves → r.Shares) → 10 < moves.countP (Move.isOf n) →
    ∃ b result, (S.after moves).tasks[n]? = some b ∧ a.Follows b ∧ b.returned? = some result

/-- The requests that fail have no place in the order: without them the world looks the
same, and every other request is answered the same. -/
structure Traceless (w : World) (S : System) : Prop where
  lasts : ∀ before r behind, w.lasting S.order = before ++ .request r :: behind →
    ∃ v, (w.after before).answer r = .ok v
  world : S.world.Agrees (w.after (w.lasting S.order))
  answered : ∀ (n j : Nat) a result, S.tasks[n]? = some a → a.returned? = some result →
    a.place = some j → result = (w.after (w.lasting (S.order.take j))).answer a.request

/-- What is under a key at any time is what one single store has put there, with its
deadline where it had a time limit; and a look at it answers the content of one single
store, or none. -/
structure Deposited (w : World) (S : System) (key : String) : Prop where
  visible : ∀ e, S.world.server.server.live? key = some e →
    ∃ d : FileCache.Deposit w (w.lasting S.order) key, d.Shown e
  content : ∀ (n : Nat) a result c name, S.tasks[n]? = some a → a.returned? = some result →
    a.request = .restoreBytes c (.text name) → name ≠ "" → c.cacheKey (.text name) = .ok key →
    Text.allBlank key = false →
    result = .ok (.bytes []) ∨ ∃ j, a.place = some j ∧
      ∃ d : FileCache.Deposit w (w.lasting (S.order.take j)) key, result = .ok (.bytes d.content)

end System

namespace FileCache

variable {w : World} {S : System}

/-- A look at a record answers its content, whatever name it was stored under. -/
theorem answer_of_shown {steps : List Step} {key : String} {d : Deposit w steps key} {e : Entry}
    (hshown : d.Shown e) {w' : World} (hplain : w'.Plain)
    (hlive : w'.server.server.live? key = some e) {c : FileCache} {name : String}
    (hname : name ≠ "") (hkey : c.cacheKey (.text name) = .ok key)
    (hblank : Text.allBlank key = false) :
    w'.answer (.restoreBytes c (.text name)) = .ok (.bytes d.content) := by
  obtain ⟨fields, hfields, hholds⟩ := hshown.record
  have hunder : Server.hashUnder (w'.server.server.live? key) = some fields := by
    rw [hlive]
    simp [Server.hashUnder, hfields, Server.Content.hash?]
  rw [World.answer_restoreBytes, result_restoreBytes hplain hname hkey hblank hunder,
    decodeContent_fieldOr hholds]
  rfl

/-- The system of some clients in a world, and what is known of it at all times. -/
structure Reached (w : World) (S : System) : Prop where
  linear : S.Linear w
  only : S.Only Request.Shares 10

theorem reached_start (w : World) : Reached w { world := w } where
  linear := System.linear_start w
  only :=
    { kind := fun _ ha => absurd ha List.not_mem_nil
      brief := fun _ ha => absurd ha List.not_mem_nil
      order := fun _ hst => absurd hst List.not_mem_nil }

theorem Reached.after {moves : List Move} (h : Reached w S)
    (hshares : ∀ r, .start r ∈ moves → r.Shares) : Reached w (S.after moves) where
  linear := h.linear.after fun r hr => Request.once_of_shares (hshares r hr)
  only := h.only.after fun r hr => ⟨hshares r hr, Request.endsIn_of_shares (hshares r hr)⟩

namespace Reached

theorem shares (h : Reached w S) {st : Step} (hst : st ∈ S.order) : st.Shares := by
  rcases h.only.order st hst with ⟨r, rfl, hr⟩ | ⟨milliseconds, rfl⟩
  · exact hr
  · trivial

theorem serial (h : Reached w S) : S.Serial w where
  world := h.linear.world
  answered n a result ha hresult := h.linear.answered ha hresult
  alone n m j a b ha hb hj hj' := h.linear.places.alone ha hb hj hj'
  owned j r hj := h.linear.places.owned hj
  returns n a ha moves hshares hmoves := by
    obtain ⟨b, hb, hfollows, hupto⟩ :=
      System.returns ha (h.only.brief a (List.mem_of_getElem? ha)) hmoves
    obtain ⟨k, hk⟩ := Option.isSome_iff_exists.mp hupto
    obtain ⟨hended, -⟩ := ((h.after hshares).linear.sound b (List.mem_of_getElem? hb)).upto k hk
    obtain ⟨result, hresult⟩ := Option.isSome_iff_exists.mp hended
    exact ⟨b, result, hb, hfollows, by simp [Task.returned?, hk, hresult]⟩

theorem agrees_take (h : Reached w S) (hplain : w.Plain) (j : Nat) :
    World.Agrees (w.after (S.order.take j)) (w.after (w.lasting (S.order.take j))) :=
  World.agrees_lasting hplain fun _ hst => h.shares (List.mem_of_mem_take hst)

theorem traceless (h : Reached w S) (hplain : w.Plain) : S.Traceless w where
  lasts before r behind hsplit :=
    World.answered_of_lasting hplain (fun _ hst => h.shares hst) hsplit
  world := by
    rw [h.linear.world]
    exact World.agrees_lasting hplain fun _ hst => h.shares hst
  answered n j a result ha hresult hj := by
    cases h.linear.answered ha hresult with
    | placed j' k place _ _ _ _ answer =>
        cases place.symm.trans hj
        rw [answer]
        exact (h.agrees_take hplain j).answer a.request
    | unplaced e place _ _ => cases place.symm.trans hj

/-- What is under a key that was free, when those requests have been made that have a
place so far. -/
theorem deposit (h : Reached w S) (hplain : w.Plain) {key : String}
    (hfree : w.server.server.live? key = none) {steps : List Step} (hsteps : steps ⊆ S.order)
    {e : Entry} (hlive : (w.after (w.lasting steps)).server.server.live? key = some e) :
    ∃ d : Deposit w (w.lasting steps) key, d.Shown e := by
  have hshares : ∀ st ∈ steps, st.Shares := fun st hst => h.shares (hsteps hst)
  exact deposit_of_live hplain hfree
    (fun st hst => hshares st (World.mem_of_mem_lasting hst))
    (fun _ _ _ hsplit => World.answered_of_lasting hplain hshares hsplit) hlive

theorem deposited (h : Reached w S) (hplain : w.Plain) {key : String}
    (hfree : w.server.server.live? key = none) : S.Deposited w key where
  visible e he := by
    refine h.deposit hplain hfree (List.Subset.refl _) ?_
    rw [← (h.traceless hplain).world.server.server.live key]
    exact he
  content n a result c name ha hresult hrequest hname hkey hblank := by
    cases h.linear.answered ha hresult with
    | placed j k place _ _ _ _ _ =>
        have hanswer := (h.traceless hplain).answered n j a result ha hresult place
        rw [hrequest] at hanswer
        have hplain' := (World.script_after w (w.lasting (S.order.take j))).trans hplain
        cases hlive : (w.after (w.lasting (S.order.take j))).server.server.live? key with
        | none =>
            exact .inl (hanswer.trans (misses_of_live hplain' hname hkey hblank hlive).empty)
        | some e =>
            obtain ⟨d, hd⟩ := h.deposit hplain hfree (List.take_subset j _) hlive
            refine .inr ⟨j, place, d, hanswer.trans ?_⟩
            exact answer_of_shown hd hplain' hlive hname hkey hblank
    | unplaced e _ _ anywhere =>
        -- Such a look fails nowhere, so that it has a place.
        have hfails := (anywhere w ⟨rfl, rfl⟩).1
        rw [hrequest] at hfails
        cases hfails.symm.trans (misses_of_live hplain hname hkey hblank hfree).empty

end Reached

/-- Clients of one server whose requests store files, look them up, ask for them and
delete their keys, and take their steps in any order. Every request returns and is
answered as it would be if they had been made whole and one after the other, in the
order of the calls that write, commit, look or delete; a request that fails has no
place there. A look answers the content of one single store or none, and the record of
a store with a time limit has its deadline as soon as anybody can see it. -/
theorem shared_cache_is_serial (w : World) (moves : List Move)
    (hshares : ∀ r, .start r ∈ moves → r.Shares) :
    let S := System.after { world := w } moves
    S.Serial w ∧
      (w.Plain → S.Traceless w ∧
        ∀ key, w.server.server.live? key = none → S.Deposited w key) := by
  intro S
  have hreached : Reached w S := (reached_start w).after hshares
  exact ⟨hreached.serial, fun hplain =>
    ⟨hreached.traceless hplain, fun key hfree => hreached.deposited hplain hfree⟩⟩

/-- A store within a minute whose transaction is filled while another store writes and
a third client looks, and a file without a name. -/
theorem interleaved_stores_and_look :
    let c (limit : Option Int) : FileCache := ⟨⟨.single, ["scratch"]⟩, defaultPrefix, limit⟩
    let file (b : UInt8) : FileSource := .opened (some (.text "a.txt")) (.ok (.bytes [b]))
    let moves : List Move :=
      [.start (.store (c (some 60)) (file 1) .null), .start (.store (c none) (file 2) .null),
        .start (.restoreBytes (c none) (.text "a.txt")),
        .start (.store (c none) (.opened none (.ok (.bytes [3]))) .null), .act 0, .act 0, .act 1,
        .act 0, .act 2, .wait 1000, .act 0, .act 1, .act 0, .act 2, .act 1, .act 3, .act 0]
    let looked : Option (Except StoreError Value) → Option (List UInt8)
      | some (.ok (.bytes content)) => some content
      | _ => none
    let S := System.after { world := {} } moves
    (∀ r, .start r ∈ moves → r.Shares) ∧
      S.tasks.map (·.place) = [some 3, some 0, some 1, none] ∧
      S.tasks.map (·.returned?.isSome) = [true, true, true, true] ∧
      S.tasks.map (looked ·.returned?) = [none, none, some [2], none] ∧
      S.Serial {} ∧ S.Traceless {} ∧ S.Deposited {} "file:a.txt" := by
  intro c file moves looked S
  have hshares : ∀ r, .start r ∈ moves → r.Shares := by
    simp [moves, Request.Shares]
  have hrun : S.tasks.map (·.place) = [some 3, some 0, some 1, none] ∧
      S.tasks.map (·.returned?.isSome) = [true, true, true, true] ∧
      S.tasks.map (looked ·.returned?) = [none, none, some [2], none] := by
    decide +kernel
  obtain ⟨hserial, hplain⟩ := shared_cache_is_serial {} moves hshares
  obtain ⟨htraceless, hdeposited⟩ := hplain rfl
  exact ⟨hshares, hrun.1, hrun.2.1, hrun.2.2, hserial, htraceless, hdeposited _ rfl⟩

end FileCache

end FileStash
