import FileStash.FileTree.Resolve

/-!
Where a path leads when its links are followed one inside the other, without a
limit on their number and without a look at what is there. The look-up of the
operating system goes the same way as far as it gets.
-/

namespace FileStash.FileTree

variable {t t' : FileTree}

/-- Goes through the names from a place; `lead` says where a link leads. -/
def pass (t : FileTree) (lead : Location → Option Location) :
    Location → List String → Option Location
  | loc, [] => some loc
  | loc, c :: cs =>
      if c = "" ∨ c = "." then pass t lead loc cs
      else if c = ".." then pass t lead loc.dropLast cs
      else
        match t.link? (loc ++ [c]) with
        | none => pass t lead (loc ++ [c]) cs
        | some _ =>
            match lead (loc ++ [c]) with
            | none => none
            | some loc' => pass t lead loc' cs

/-- Where a link leads, through less than so many links one inside the other. -/
def leads (t : FileTree) : Nat → Location → Option Location
  | 0 => fun _ => none
  | n + 1 => fun link =>
      match t.link? link with
      | none => none
      | some target =>
          pass t (leads t n) (startOf target link.dropLast) (Path.pieces target.toList)

/-- The names lead from one place to another. -/
def Reaches (t : FileTree) (loc : Location) (cs : List String) (loc' : Location) :
    Prop :=
  ∃ n, pass t (leads t n) loc cs = some loc'

theorem pass_mono {lead lead' : Location → Option Location}
    (h : ∀ link loc, lead link = some loc → lead' link = some loc)
    {loc loc' : Location} {cs : List String}
    (hpass : pass t lead loc cs = some loc') :
    pass t lead' loc cs = some loc' := by
  induction cs generalizing loc with
  | nil => exact hpass
  | cons c cs ih =>
      unfold pass at hpass ⊢
      split
      · rw [if_pos ‹_›] at hpass
        exact ih hpass
      · rw [if_neg ‹_›] at hpass
        split
        · rw [if_pos ‹_›] at hpass
          exact ih hpass
        · rw [if_neg ‹_›] at hpass
          cases hlink : t.link? (loc ++ [c]) with
          | none =>
              simp only [hlink] at hpass ⊢
              exact ih hpass
          | some target =>
              simp only [hlink] at hpass ⊢
              cases hlead : lead (loc ++ [c]) with
              | none => simp [hlead] at hpass
              | some m =>
                  simp only [hlead] at hpass
                  simp only [h _ _ hlead]
                  exact ih hpass

theorem leads_succ {n : Nat} {link loc : Location}
    (h : leads t n link = some loc) :
    leads t (n + 1) link = some loc := by
  induction n generalizing link loc with
  | zero => cases h
  | succ n ih =>
      unfold leads at h ⊢
      cases hlink : t.link? link with
      | none => simp [hlink] at h
      | some target =>
          simp only [hlink] at h ⊢
          exact pass_mono (fun _ _ => ih) h

theorem leads_mono {n m : Nat} (hnm : n ≤ m) {link loc : Location}
    (h : leads t n link = some loc) : leads t m link = some loc := by
  induction hnm with
  | refl => exact h
  | step _ ih => exact leads_succ ih

theorem pass_leads_mono {n m : Nat} (hnm : n ≤ m) {loc loc' : Location}
    {cs : List String} (h : pass t (leads t n) loc cs = some loc') :
    pass t (leads t m) loc cs = some loc' :=
  pass_mono (fun _ _ => leads_mono hnm) h

theorem pass_append (lead : Location → Option Location) (loc : Location)
    (cs ds : List String) :
    pass t lead loc (cs ++ ds) = (pass t lead loc cs).bind fun m => pass t lead m ds := by
  induction cs generalizing loc with
  | nil => rfl
  | cons c cs ih =>
      simp only [List.cons_append, pass]
      split
      · exact ih loc
      · split
        · exact ih loc.dropLast
        · cases t.link? (loc ++ [c]) with
          | none => exact ih (loc ++ [c])
          | some target =>
              cases lead (loc ++ [c]) with
              | none => rfl
              | some m => exact ih m

theorem Reaches.append {a b d : Location} {cs ds : List String}
    (h : Reaches t a cs b) (h' : Reaches t b ds d) :
    Reaches t a (cs ++ ds) d := by
  obtain ⟨n, hn⟩ := h
  obtain ⟨m, hm⟩ := h'
  refine ⟨max n m, ?_⟩
  rw [pass_append, pass_leads_mono (Nat.le_max_left n m) hn]
  exact pass_leads_mono (Nat.le_max_right n m) hm

theorem pass_congr (h : ∀ loc, t.link? loc = t'.link? loc)
    {lead lead' : Location → Option Location}
    (hlead : ∀ link, lead link = lead' link) (loc : Location) (cs : List String) :
    pass t lead loc cs = pass t' lead' loc cs := by
  induction cs generalizing loc with
  | nil => rfl
  | cons c cs ih =>
      simp only [pass, h, hlead, ih]

theorem leads_congr (h : ∀ loc, t.link? loc = t'.link? loc) (n : Nat)
    (link : Location) :
    leads t n link = leads t' n link := by
  induction n generalizing link with
  | zero => rfl
  | succ n ih =>
      simp only [leads, h]
      cases t'.link? link with
      | none => rfl
      | some target => exact pass_congr h ih _ _

theorem Reaches.congr (h : ∀ loc, t.link? loc = t'.link? loc) {a b : Location}
    {cs : List String} (hr : Reaches t a cs b) : Reaches t' a cs b := by
  obtain ⟨n, hn⟩ := hr
  exact ⟨n, by rw [← hn]; exact (pass_congr h (leads_congr h n) a cs).symm⟩

def Place.loc : Place → Location
  | .found loc _ => loc
  | .vacant loc => loc

/-- What a look-up says about its end is so. -/
def Place.Holds (t : FileTree) : Place → Prop
  | .found loc n => t.get? loc = some n
  | .vacant loc => t.get? loc = none

theorem link?_of_get? {loc : Location} {target : String}
    (h : t.get? loc = some (.link target)) :
    t.link? loc = some target := by
  simp [link?, h]

theorem link?_eq_none_of_get? {loc : Location}
    (h : ∀ target, t.get? loc ≠ some (.link target)) :
    t.link? loc = none := by
  unfold link?
  split
  · rename_i target htarget
    exact absurd htarget (h target)
  · rfl

/-- What a look-up that succeeds has done at its first name: it stayed or went up, it
found nothing there, it came to a link that it followed or did not follow, or it went on
behind what is there. -/
inductive FirstStep (t : FileTree) (follow : Bool) (expand : Location → List String → LookUp)
    (loc : Location) (c : String) (cs : List String) (place : Place) : Prop
  | stay (dot : c = "" ∨ c = ".") (rest : descend t follow expand loc cs = .ok place)
  | up (named : ¬(c = "" ∨ c = ".")) (up : c = "..")
      (rest : descend t follow expand loc.dropLast cs = .ok place)
  | missing (named : ¬(c = "" ∨ c = ".")) (down : c ≠ "..")
      (short : Text.Utf8.size c ≤ maxName) (there : t.get? (loc ++ [c]) = none) (last : cs = [])
      (ends : place = .vacant (loc ++ [c]))
  | followed {target : String} (named : ¬(c = "" ∨ c = ".")) (down : c ≠ "..")
      (short : Text.Utf8.size c ≤ maxName) (there : t.get? (loc ++ [c]) = some (.link target))
      (follows : ¬(cs = [] ∧ !follow))
      (rest : expand (startOf target loc) (Path.pieces target.toList ++ cs) = .ok place)
  | unfollowed {target : String} (named : ¬(c = "" ∨ c = ".")) (down : c ≠ "..")
      (short : Text.Utf8.size c ≤ maxName) (there : t.get? (loc ++ [c]) = some (.link target))
      (stops : cs = [] ∧ !follow) (ends : place = .found (loc ++ [c]) (.link target))
  | down {n : Node} (named : ¬(c = "" ∨ c = ".")) (down : c ≠ "..")
      (short : Text.Utf8.size c ≤ maxName) (there : t.get? (loc ++ [c]) = some n)
      (noLink : ∀ target, n ≠ .link target)
      (rest : descend t follow expand (loc ++ [c]) cs = .ok place)

section FirstStep

variable {follow : Bool} {expand : Location → List String → LookUp} {loc : Location}
  {c : String} {cs : List String} {place : Place}

theorem of_descend_nil (h : descend t follow expand loc [] = .ok place) :
    ∃ n, t.get? loc = some n ∧ place = .found loc n := by
  unfold descend at h
  cases hget : t.get? loc with
  | none => simp [hget] at h
  | some n =>
      simp only [hget, Except.ok.injEq] at h
      exact ⟨n, rfl, h.symm⟩

theorem first_step (h : descend t follow expand loc (c :: cs) = .ok place) :
    t.get? loc = some .directory ∧ FirstStep t follow expand loc c cs place := by
  unfold descend at h
  by_cases hdir : t.get? loc = some .directory
  · refine ⟨hdir, ?_⟩
    rw [if_neg (not_not_intro hdir)] at h
    by_cases hdot : c = "" ∨ c = "."
    · rw [if_pos hdot] at h
      exact .stay hdot h
    · rw [if_neg hdot] at h
      by_cases hup : c = ".."
      · rw [if_pos hup] at h
        exact .up hdot hup h
      · rw [if_neg hup] at h
        by_cases hlong : maxName < Text.Utf8.size c
        · simp [hlong] at h
        · rw [if_neg hlong] at h
          have hshort := Nat.not_lt.mp hlong
          cases hget : t.get? (loc ++ [c]) with
          | none =>
              by_cases hlast : cs = []
              · simp only [hget, if_pos hlast, Except.ok.injEq] at h
                exact .missing hdot hup hshort hget hlast h.symm
              · simp [hget, hlast] at h
          | some n =>
              cases n with
              | link target =>
                  by_cases hstops : cs = [] ∧ !follow
                  · simp only [hget, if_pos hstops, Except.ok.injEq] at h
                    exact .unfollowed hdot hup hshort hget hstops h.symm
                  · simp only [hget, if_neg hstops] at h
                    exact .followed hdot hup hshort hget hstops h
              | file content modified =>
                  simp only [hget] at h
                  exact .down hdot hup hshort hget (by simp) h
              | directory =>
                  simp only [hget] at h
                  exact .down hdot hup hshort hget (by simp) h
  · simp [hdir] at h

theorem FirstStep.descend (hdir : t.get? loc = some .directory)
    (h : FirstStep t follow expand loc c cs place) :
    descend t follow expand loc (c :: cs) = .ok place := by
  unfold FileTree.descend
  rw [if_neg (not_not_intro hdir)]
  cases h with
  | stay dot rest => rw [if_pos dot, rest]
  | up named up rest => rw [if_neg named, if_pos up, rest]
  | missing named down short there last ends =>
      simp only [if_neg named, if_neg down, if_neg (Nat.not_lt.mpr short), there, if_pos last, ends]
  | followed named down short there follows rest =>
      simp only [if_neg named, if_neg down, if_neg (Nat.not_lt.mpr short), there, if_neg follows,
        rest]
  | unfollowed named down short there stops ends =>
      simp only [if_neg named, if_neg down, if_neg (Nat.not_lt.mpr short), there, if_pos stops,
        ends]
  | @down n named down short there noLink rest =>
      simp only [if_neg named, if_neg down, if_neg (Nat.not_lt.mpr short), there]
      cases n with
      | link target => exact absurd rfl (noLink target)
      | file content modified => exact rest
      | directory => exact rest

end FirstStep

theorem pass_of_descend {expand : Location → List String → LookUp}
    {lead : Location → Option Location}
    (hlink : ∀ loc c cs target place, t.link? (loc ++ [c]) = some target →
      expand (startOf target loc) (Path.pieces target.toList ++ cs) = .ok place →
      (∃ m, lead (loc ++ [c]) = some m ∧ pass t lead m cs = some place.loc) ∧
        place.Holds t)
    {loc : Location} {cs : List String} {place : Place}
    (h : descend t true expand loc cs = .ok place) :
    pass t lead loc cs = some place.loc ∧ place.Holds t := by
  induction cs generalizing loc with
  | nil =>
      obtain ⟨n, hget, rfl⟩ := of_descend_nil h
      exact ⟨rfl, hget⟩
  | cons c cs ih =>
      obtain ⟨-, hstep⟩ := first_step h
      unfold pass
      cases hstep with
      | stay dot rest =>
          rw [if_pos dot]
          exact ih rest
      | up named up rest =>
          rw [if_neg named, if_pos up]
          exact ih rest
      | missing named down short there last ends =>
          have hnone : t.link? (loc ++ [c]) = none := link?_eq_none_of_get? (by simp [there])
          subst last ends
          simp only [if_neg named, if_neg down, hnone]
          exact ⟨rfl, there⟩
      | @followed target named down short there follows rest =>
          have hsome := link?_of_get? there
          obtain ⟨⟨m, hlead, hpass⟩, hholds⟩ := hlink loc c cs target place hsome rest
          simp only [if_neg named, if_neg down, hsome, hlead]
          exact ⟨hpass, hholds⟩
      | unfollowed named down short there stops => simp at stops
      | down named down short there noLink rest =>
          have hnone : t.link? (loc ++ [c]) = none :=
            link?_eq_none_of_get? fun target hget =>
              noLink target (Option.some.inj (there.symm.trans hget))
          simp only [if_neg named, if_neg down, hnone]
          exact ih rest

/-- A look-up that succeeds ends where the path leads. The system puts the
target of a link in front of the names that remain; following it first leads to
the same place. -/
theorem pass_of_walk {links : Nat} {loc : Location} {cs : List String}
    {place : Place} (h : walk t true links loc cs = .ok place) :
    pass t (leads t links) loc cs = some place.loc ∧ place.Holds t := by
  induction links generalizing loc cs place with
  | zero =>
      refine pass_of_descend (fun loc c cs target place _ hexpand => ?_) h
      cases hexpand
  | succ links ih =>
      refine pass_of_descend (fun loc c cs target place hlink hexpand => ?_) h
      obtain ⟨hpass, hholds⟩ := ih hexpand
      rw [pass_append, Option.bind_eq_some_iff] at hpass
      obtain ⟨m, hm, hrest⟩ := hpass
      refine ⟨⟨m, ?_, pass_leads_mono (Nat.le_succ links) hrest⟩, hholds⟩
      simp only [leads, hlink, List.dropLast_concat]
      exact hm

def startOfPath (t : FileTree) (p : Path) : Location :=
  if p.isAbsolute then [] else t.home

/-- A path that leads somewhere: it can be given to the system, and it goes
round no links. -/
def Resolves (t : FileTree) (p : Path) (loc : Location) : Prop :=
  p.hasNul = false ∧ Reaches t (t.startOfPath p) p.parts loc

theorem mapError_ok {ε ε' α : Type} (f : ε → ε') (a : α) :
    (Except.ok a : Except ε α).mapError f = .ok a := rfl

theorem mapError_error {ε ε' α : Type} (f : ε → ε') (e : ε) :
    (Except.error e : Except ε α).mapError f = .error (f e) := rfl

theorem walk_of_resolving {follow : Bool} {p : Path} {place : Place}
    (h : t.resolving follow p = .ok place) :
    p.hasNul = false ∧ walk t follow maxLinks (t.startOfPath p) p.parts = .ok place := by
  unfold resolving at h
  split at h
  · cases h
  · rename_i hnul
    cases hlook : t.lookUp follow p with
    | error code => simp [hlook, mapError_error] at h
    | ok place' =>
        simp only [hlook, mapError_ok, Except.ok.injEq] at h
        subst h
        unfold lookUp at hlook
        split at hlook
        · cases hlook
        · exact ⟨by simpa using hnul, hlook⟩

theorem resolves_of_resolving {p : Path} {place : Place}
    (h : t.resolving true p = .ok place) :
    t.Resolves p place.loc ∧ place.Holds t := by
  obtain ⟨hnul, hwalk⟩ := walk_of_resolving h
  obtain ⟨hpass, hholds⟩ := pass_of_walk hwalk
  exact ⟨⟨hnul, _, hpass⟩, hholds⟩

theorem resolving_of_stat {p : Path} {loc : Location} {n : Node}
    (h : t.stat p = .ok (loc, n)) : t.resolving true p = .ok (.found loc n) := by
  unfold stat at h
  cases hplace : t.resolving true p with
  | error f => simp [hplace, bind, Except.bind] at h
  | ok place =>
      cases place with
      | vacant loc' => simp [hplace, bind, Except.bind, failing] at h
      | found loc' n' =>
          simp only [hplace, bind, Except.bind, Except.ok.injEq, Prod.mk.injEq] at h
          rw [h.1, h.2]

theorem resolves_of_stat {p : Path} {loc : Location} {n : Node}
    (h : t.stat p = .ok (loc, n)) :
    t.Resolves p loc ∧ t.get? loc = some n :=
  resolves_of_resolving (resolving_of_stat h)

end FileStash.FileTree
