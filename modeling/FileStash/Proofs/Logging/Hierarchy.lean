import FileStash.Logging.Loggers

namespace FileStash.Loggers

variable {l : Loggers} {name other : String} {g : Logger}

theorem get_put_self (l : Loggers) (name : String) (g : Logger) :
    (l.put name g).get name = g := by
  unfold get put
  split
  · rfl
  · simp [Dict.get?_insert_self]

theorem get_put_of_ne (h : other ≠ name) (hroot : isRoot other = false) :
    (l.put name g).get other = l.get other := by
  unfold get put
  by_cases hname : isRoot name
  · simp only [hname, hroot, if_true, Bool.false_eq_true, if_false]
  · simp only [hname, hroot, Bool.false_eq_true, if_false, Dict.get?_insert_of_ne _ _ h]

theorem get_ensure (l : Loggers) (name other : String) :
    (l.ensure name).get other = l.get other := by
  by_cases h : other = name
  · rw [h]
    exact get_put_self l name _
  · by_cases hroot : isRoot other
    · unfold ensure get put
      by_cases hname : isRoot name
      · simp only [hname, hroot, if_true]
      · simp only [hname, hroot, if_true, Bool.false_eq_true, if_false]
    · exact get_put_of_ne h (by simpa using hroot)

theorem contains_of_get_ne (hroot : isRoot name = false) (h : l.get name ≠ {}) :
    Dict.contains l.named name = true := by
  unfold get at h
  simp only [hroot, Bool.false_eq_true, if_false] at h
  cases hget : Dict.get? l.named name with
  | none => simp [hget] at h
  | some g' => simp [Dict.contains, hget]

/-- The package's own name, and every name that starts with it. -/
def Packaged (name : String) : Prop :=
  packageLogger.toList <+: name.toList

theorem Packaged.ne_root (h : Packaged name) : isRoot name = false := by
  obtain ⟨rest, hrest⟩ := h
  have hempty : name ≠ "" := by
    rintro rfl
    simp [packageLogger] at hrest
  have hroot : name ≠ rootName := by
    rintro rfl
    simp [packageLogger, rootName] at hrest
  simp [isRoot, hempty, hroot]

theorem toList_libraryLogger (tail : String) :
    (libraryLogger tail).toList = packageLogger.toList ++ '.' :: tail.toList := by
  simp [libraryLogger, String.toList_append]

theorem packaged_libraryLogger (tail : String) : Packaged (libraryLogger tail) :=
  ⟨'.' :: tail.toList, (toList_libraryLogger tail).symm⟩

section Dots

theorem dots_append (a b : List Char) :
    dots (a ++ '.' :: b) = (dots b).map (· + (a.length + 1)) ++ a.length :: dots a := by
  have hshift : b.zipIdx (a.length + 1) = b.zipIdx.map fun x => (x.1, x.2 + (a.length + 1)) := by
    rw [List.zipIdx_eq_map_add]
    simp [Nat.add_comm]
  simp [dots, List.zipIdx_append, List.zipIdx_cons, hshift, List.filter_map, Function.comp_def]

theorem mem_dots {cs : List Char} {d : Nat} : d ∈ dots cs ↔ cs[d]? = some '.' := by
  simp [dots, List.mem_zipIdx_iff_getElem?]

end Dots

/-- The part of a name in front of one of its dots. -/
def part (name : List Char) (dot : Nat) : String :=
  String.ofList (name.take dot)

theorem above_split (l : Loggers) (cs : List Char) {e : Nat} (he : 0 < e)
    (hthere : Dict.contains l.named (part cs e) = true)
    (hroot : (part cs e).toList.isPrefixOf rootName.toList = false)
    (front rest : List Nat) (hfront : ∀ d ∈ front, e + 1 < d) (below : String) (limit : Nat)
    (hlimit : e < limit) :
    ∃ between : List Nat, (∀ d ∈ between, d ∈ front) ∧
      l.above cs below limit (front ++ e :: rest) =
        between.map (part cs) ++ part cs e :: l.above cs (part cs e) e rest := by
  induction front generalizing below limit with
  | nil =>
      have hskip : ¬(e = 0 ∨ limit ≤ e) := by omega
      have habove : l.isAbove (part cs e) below = true := by
        simp only [isAbove, hthere, hroot, Bool.false_and, Bool.not_false, Bool.and_self]
      refine ⟨[], by simp, ?_⟩
      simp only [List.nil_append, above, if_neg hskip, List.map_nil]
      exact if_pos habove
  | cons d front ih =>
      have hd := hfront d (List.mem_cons_self ..)
      have hlater : ∀ d' ∈ front, e + 1 < d' := fun d' hd' =>
        hfront d' (List.mem_cons_of_mem d hd')
      simp only [List.cons_append, above]
      split
      · obtain ⟨between, hmem, heq⟩ := ih hlater below limit hlimit
        exact ⟨between, fun x hx => List.mem_cons_of_mem d (hmem x hx), heq⟩
      · split
        · obtain ⟨between, hmem, heq⟩ := ih hlater (part cs d) d (by omega)
          refine ⟨d :: between, fun x hx => ?_, congrArg (part cs d :: ·) heq⟩
          rcases List.mem_cons.mp hx with rfl | hx
          · exact List.mem_cons_self ..
          · exact List.mem_cons_of_mem d (hmem x hx)
        · obtain ⟨between, hmem, heq⟩ := ih hlater below (d - 1) (by omega)
          exact ⟨between, fun x hx => List.mem_cons_of_mem d (hmem x hx), heq⟩

/-- A name that is a dotted part of another. -/
def StandsAbove (name other : String) : Prop :=
  ∃ rest, other = name ++ "." ++ rest

theorem standsAbove_part {d : Nat} (h : name.toList[d]? = some '.') :
    StandsAbove (part name.toList d) name := by
  obtain ⟨hlt, hdot⟩ := List.getElem?_eq_some_iff.mp h
  refine ⟨String.ofList (name.toList.drop (d + 1)), ?_⟩
  apply String.toList_injective
  simp only [part, String.toList_append, String.toList_ofList]
  have hsplit : name.toList = name.toList.take d ++ name.toList[d] :: name.toList.drop (d + 1) := by
    rw [List.getElem_cons_drop, List.take_append_drop]
  rw [hdot] at hsplit
  simpa using hsplit

theorem lineage_of_not_root (h : isRoot name = false) :
    l.lineage name =
      l.get name :: (l.above name.toList name name.toList.length (dots name.toList)).map l.get ++
        [l.root] := by
  simp only [lineage, h, Bool.false_eq_true, if_false]

/-- What lies between a name of the package and one of its dotted parts: names of the
package that are longer than the part. -/
structure Between (upper lower name : String) : Prop where
  packaged : Packaged name
  longer : upper.toList.length < name.toList.length
  onWay : name = lower ∨ StandsAbove name lower

theorem Packaged.eleven_le (h : Packaged name) : 11 ≤ name.toList.length :=
  h.length_le

theorem Packaged.not_root_prefix (h : Packaged name) :
    name.toList.isPrefixOf rootName.toList = false := by
  rw [Bool.eq_false_iff]
  intro hprefix
  have hle := (List.isPrefixOf_iff_prefix.mp hprefix).length_le
  have hfour : rootName.toList.length = 4 := by decide
  have hlong := h.eleven_le
  omega

theorem Packaged.below (h : Packaged name) (rest : String) : Packaged (name ++ "." ++ rest) := by
  obtain ⟨more, hmore⟩ := h
  refine ⟨more ++ '.' :: rest.toList, ?_⟩
  simp [String.toList_append, ← hmore]

theorem toList_below (upper rest : String) :
    (upper ++ "." ++ rest).toList = upper.toList ++ '.' :: rest.toList := by
  simp [String.toList_append]

theorem part_below (upper rest : String) :
    part (upper ++ "." ++ rest).toList upper.toList.length = upper := by
  simp [part]

/-- The dots of a name below another: where the rest does not start with one, the others
of the rest are not next to the one in between. -/
theorem dots_below (upper : String) {rest : String} (hrest : rest.toList.head? ≠ some '.') :
    ∃ front : List Nat, (∀ d ∈ front, upper.toList.length + 1 < d) ∧
      dots (upper ++ "." ++ rest).toList = front ++ upper.toList.length :: dots upper.toList := by
  refine ⟨(dots rest.toList).map (· + (upper.toList.length + 1)), ?_, ?_⟩
  · intro d hd
    obtain ⟨i, hi, rfl⟩ := List.mem_map.mp hd
    have hne : i ≠ 0 := by
      rintro rfl
      rw [mem_dots, ← List.head?_eq_getElem?] at hi
      exact hrest hi
    omega
  · rw [toList_below]
    exact dots_append _ _

theorem between_self {upper rest : String} (hupper : Packaged upper) :
    Between upper (upper ++ "." ++ rest) (upper ++ "." ++ rest) :=
  ⟨hupper.below rest, by simp, .inl rfl⟩

theorem between_part {upper rest : String} (hupper : Packaged upper) {d : Nat}
    (hfar : upper.toList.length + 1 < d) (hd : d ∈ dots (upper ++ "." ++ rest).toList) :
    Between upper (upper ++ "." ++ rest) (part (upper ++ "." ++ rest).toList d) := by
  have hdot := mem_dots.mp hd
  obtain ⟨hlt, -⟩ := List.getElem?_eq_some_iff.mp hdot
  refine ⟨?_, ?_, .inr (standsAbove_part hdot)⟩
  · rw [Packaged, part, String.toList_ofList, List.prefix_take_iff]
    have heleven : packageLogger.toList.length = 11 := by decide
    have hlong := hupper.eleven_le
    exact ⟨hupper.below rest, by omega⟩
  · simp only [part, String.toList_ofList, List.length_take]
    omega

/-- A logger of the package that is there is found above the names below it, behind
longer ones only. -/
theorem lineage_below {upper rest : String} (hupper : Packaged upper)
    (hthere : Dict.contains l.named upper = true) (hrest : rest.toList.head? ≠ some '.') :
    ∃ names : List String, (∀ m ∈ names, Between upper (upper ++ "." ++ rest) m) ∧
      ∃ more : List Logger, l.lineage (upper ++ "." ++ rest) =
          names.map l.get ++ l.get upper :: more ∧
        (upper = packageLogger → more = [l.root]) := by
  have hpart := part_below upper rest
  have hlong := hupper.eleven_le
  obtain ⟨front, hfar, hdots⟩ := dots_below upper hrest
  obtain ⟨between, hbetween, habove⟩ := above_split l (upper ++ "." ++ rest).toList (by omega)
    (by rw [hpart]; exact hthere) (by rw [hpart]; exact hupper.not_root_prefix) front
    (dots upper.toList) hfar (upper ++ "." ++ rest) (upper ++ "." ++ rest).toList.length
    (by simp)
  refine ⟨(upper ++ "." ++ rest) :: between.map (part (upper ++ "." ++ rest).toList), ?_,
    (l.above (upper ++ "." ++ rest).toList upper upper.toList.length (dots upper.toList)).map
      l.get ++ [l.root], ?_, ?_⟩
  · intro m hm
    rcases List.mem_cons.mp hm with rfl | hm
    · exact between_self hupper
    · obtain ⟨d, hd, rfl⟩ := List.mem_map.mp hm
      have hfront := hbetween d hd
      refine between_part hupper (hfar d hfront) ?_
      rw [hdots]
      exact List.mem_append_left _ hfront
  · rw [lineage_of_not_root (hupper.below rest).ne_root, hdots, habove, hpart]
    simp
  · rintro rfl
    have hnone : dots packageLogger.toList = [] := by decide
    rw [hnone]
    rfl

section Reached

variable {front more : List Logger}

theorem reached_append (hfront : ∀ x ∈ front, x.propagate = true) (hg : g.propagate = false) :
    reached (front ++ g :: more) = front ++ [g] := by
  induction front with
  | nil => simp [reached, hg]
  | cons x front ih =>
      have hx := hfront x (List.mem_cons_self ..)
      have hrest := ih fun y hy => hfront y (List.mem_cons_of_mem x hy)
      simp only [List.cons_append, reached, hx, if_true, hrest]

theorem mem_of_mem_reached (hg : g.propagate = false) {x : Logger}
    (hx : x ∈ reached (front ++ g :: more)) : x ∈ front ∨ x = g := by
  induction front with
  | nil => exact .inr (by simpa [reached, hg] using hx)
  | cons y front ih =>
      simp only [List.cons_append, reached] at hx
      split at hx
      · rcases List.mem_cons.mp hx with rfl | hx
        · exact .inl (List.mem_cons_self ..)
        · exact (ih hx).imp (List.mem_cons_of_mem y) id
      · rw [List.mem_singleton.mp hx]
        exact .inl (List.mem_cons_self ..)

theorem effectiveLevel_append (hfront : ∀ x ∈ front, x.level.value = 0)
    (hg : g.level.value ≠ 0) : effectiveLevel (front ++ g :: more) = g.level.value := by
  induction front with
  | nil => simp [effectiveLevel, hg]
  | cons x front ih =>
      have hx := hfront x (List.mem_cons_self ..)
      have hrest := ih fun y hy => hfront y (List.mem_cons_of_mem x hy)
      simpa [effectiveLevel, hx] using hrest

end Reached

/-- The names that records of the package come under: its own, and those behind a dot
of it, unless a second dot follows at once. -/
inductive Member : String → Prop
  | package : Member packageLogger
  | part {tail : String} (h : tail.toList.head? ≠ some '.') : Member (libraryLogger tail)

theorem Member.packaged (h : Member name) : Packaged name := by
  cases h with
  | package => exact List.prefix_rfl
  | part h => exact packaged_libraryLogger _

theorem lineage_package : l.lineage packageLogger = [l.get packageLogger, l.root] := by
  have hpackaged : Packaged packageLogger := Member.package.packaged
  have hnone : dots packageLogger.toList = [] := by decide
  rw [lineage_of_not_root hpackaged.ne_root, hnone]
  rfl

/-- Above a member there are other loggers of the package at most, then the package's, and
then the root. -/
theorem lineage_of_member (hmember : Member name)
    (hthere : Dict.contains l.named packageLogger = true) :
    ∃ names : List String, (∀ m ∈ names, Packaged m ∧ m ≠ packageLogger ∧
        (m = name ∨ StandsAbove m name)) ∧
      l.lineage name = names.map l.get ++ l.get packageLogger :: [l.root] := by
  cases hmember with
  | package => exact ⟨[], by simp, lineage_package⟩
  | @part tail htail =>
      obtain ⟨names, hbetween, more, hlineage, hmore⟩ :=
        lineage_below Member.package.packaged hthere htail
      refine ⟨names, fun m hm => ?_, by rw [libraryLogger, hlineage, hmore rfl]⟩
      have hm' := hbetween m hm
      refine ⟨hm'.packaged, ?_, hm'.onWay⟩
      rintro rfl
      exact absurd hm'.longer (Nat.lt_irrefl _)

theorem contains_of_closed (hroot : isRoot name = false) (h : (l.get name).propagate = false) :
    Dict.contains l.named name = true := by
  refine contains_of_get_ne hroot ?_
  intro hdefault
  rw [hdefault] at h
  cases h

/-- Where no logger of its own stands between, a member's records go where the package's
go, from the package's level on. -/
theorem handlers_of_clear (hmember : Member name)
    (hpackage : (l.get packageLogger).propagate = false)
    (hlevel : (l.get packageLogger).level.value ≠ 0)
    (hclear : ∀ m, Packaged m → m ≠ packageLogger → (m = name ∨ StandsAbove m name) →
      l.get m = {}) :
    l.handlers name = (l.get packageLogger).handlers ∧
      effectiveLevel (l.lineage name) = (l.get packageLogger).level.value := by
  have hthere := contains_of_closed Member.package.packaged.ne_root hpackage
  obtain ⟨names, hnames, hlineage⟩ := lineage_of_member hmember hthere
  have hfront : ∀ x ∈ names.map l.get, x = {} := by
    intro x hx
    obtain ⟨m, hm, rfl⟩ := List.mem_map.mp hx
    obtain ⟨hpackaged, hne, hway⟩ := hnames m hm
    exact hclear m hpackaged hne hway
  constructor
  · have hnothing : (names.map l.get).flatMap (·.handlers) = [] := by
      rw [List.flatMap_eq_nil_iff]
      intro x hx
      rw [hfront x hx]
    rw [handlers, hlineage, reached_append (fun x hx => by rw [hfront x hx]) hpackage,
      List.flatMap_append, hnothing]
    simp
  · rw [hlineage]
    exact effectiveLevel_append (fun x hx => by rw [hfront x hx]; rfl) hlevel

theorem mem_handlers_of_owner {owner : String} (howner : Packaged owner)
    (hne : owner ≠ packageLogger) (hclosed : (l.get owner).propagate = false)
    (hname : name = owner ∨
      ∃ rest, rest.toList.head? ≠ some '.' ∧ name = owner ++ "." ++ rest)
    {h : Handler} (hh : h ∈ l.handlers name) :
    ∃ m, Packaged m ∧ m ≠ packageLogger ∧ h ∈ (l.get m).handlers := by
  obtain ⟨x, hx, hh⟩ := List.mem_flatMap.mp hh
  suffices hfrom : x = l.get owner ∨ ∃ m, Packaged m ∧ m ≠ packageLogger ∧ x = l.get m by
    rcases hfrom with rfl | ⟨m, hm, hne', rfl⟩
    · exact ⟨owner, howner, hne, hh⟩
    · exact ⟨m, hm, hne', hh⟩
  rcases hname with rfl | ⟨rest, hrest, rfl⟩
  · have hfirst : l.lineage name = [] ++ l.get name :: (l.lineage name).tail := by
      rw [lineage_of_not_root howner.ne_root]
      rfl
    rw [hfirst] at hx
    rcases mem_of_mem_reached hclosed hx with hx | rfl
    · cases hx
    · exact .inl rfl
  · have hthere := contains_of_closed howner.ne_root hclosed
    obtain ⟨names, hbetween, more, hlineage, -⟩ := lineage_below howner hthere hrest
    rw [hlineage] at hx
    rcases mem_of_mem_reached hclosed hx with hx | rfl
    · obtain ⟨m, hm, rfl⟩ := List.mem_map.mp hx
      have hm' := hbetween m hm
      refine .inr ⟨m, hm'.packaged, ?_, rfl⟩
      rintro rfl
      have hlong := howner.eleven_le
      have heleven : packageLogger.toList.length = 11 := by decide
      have hlonger := hm'.longer
      omega
    · exact .inl rfl

end FileStash.Loggers
