import FileStash.Proofs.Settings.Precedence

namespace FileStash

namespace Settings

variable {α : Type}

theorem get?_foldl_insert (d : Dict String α) (entries : List (String × α)) (k : String) :
    Dict.get? (entries.foldl (fun d e => Dict.insert d e.1 e.2) d) k =
      ((entries.filter fun e => e.1 = k).getLast?.map (·.2)).or (Dict.get? d k) := by
  induction entries generalizing d with
  | nil => rfl
  | cons e entries ih =>
      rw [List.foldl_cons, ih, Dict.get?_insert]
      by_cases he : e.1 = k
      · rw [List.filter_cons_of_pos (by simpa using he), List.getLast?_cons, if_pos he.symm]
        cases (entries.filter fun e => e.1 = k).getLast? <;> rfl
      · rw [List.filter_cons_of_neg (by simpa using he), if_neg (Ne.symm he)]

theorem get?_folded (entries : List (String × α)) (f : Setting) :
    Dict.get? (folded entries) (foldName f.name) = (entriesOf f entries).getLast?.map (·.2) := by
  unfold folded Dict.ofEntries
  rw [get?_foldl_insert, List.filter_map, List.getLast?_map]
  simp [entriesOf, Function.comp_def, Dict.get?]

theorem given?_eq_none_iff (s : Sources) (f : Setting) :
    given? s f.name = none ↔ entriesOf f s.given = [] := by
  rw [entriesOf, List.filter_eq_nil_iff]
  unfold given?
  cases hexact : Dict.get? s.given f.name with
  | some v =>
      have hmem := Dict.mem_of_get? hexact
      constructor
      · exact nofun
      · intro h
        have hother := h (f.name, v) hmem
        simp at hother
  | none => rw [Option.map_eq_none_iff, List.find?_eq_none]

/-- The loading of settings, taken apart into what it finds and what it makes of it. -/
def loader : Loader (List SettingProblem) where
  given? entries f := given? { given := entries } f.name
  inherited? entries f := (Dict.get? (folded entries) (foldName f.name)).map .text
  parse := EnvFile.read
  assigned? entries f := (Dict.get? (folded entries) (foldName f.name)).join.map .text
  validate := validate
  load := load

theorem loader_inherited? (entries : Dict String String) (f : Setting) :
    loader.inherited? entries f = ((entriesOf f entries).getLast?.map (·.2)).map .text :=
  congrArg (Option.map _) (get?_folded entries f)

theorem loader_assigned? (entries : List (String × Option String)) (f : Setting) :
    loader.assigned? entries f = ((entriesOf f entries).getLast?.map (·.2)).join.map .text :=
  congrArg (fun o => (Option.join o).map _) (get?_folded entries f)

theorem loader_first? (s : Sources) : loader.first? s = sourced? s := by
  funext f
  have hgiven : loader.given? s.given f = given? s f.name := rfl
  have hinherited : loader.inherited? s.environment f =
      (Dict.get? (folded s.environment) (foldName f.name)).map .text := rfl
  have hassigned : loader.assigned? (loader.fileEntries s.environment s) f =
      (assigned? s f.name).map .text := by
    unfold assigned? Loader.fileEntries
    cases s.file <;> rfl
  unfold Loader.first? sourced?
  rw [hgiven, hinherited, hassigned]
  cases given? s f.name with
  | some v => rfl
  | none => cases Dict.get? (folded s.environment) (foldName f.name) <;> rfl

theorem lawful_loader : loader.Lawful where
  given_isSome {entries f} h := by
    rw [Option.isSome_iff_ne_none]
    exact mt (given?_eq_none_iff { given := entries } f).mp h
  inherited_isSome {entries f} h := by
    rw [loader_inherited?]
    simpa [List.getLast?_isSome] using h
  inherited_congr h := by rw [loader_inherited?, loader_inherited?, h]
  assigned_congr h := by rw [loader_assigned?, loader_assigned?, h]
  parse_congr environment environment' h :=
    (EnvFile.read_of_not_refers h environment').trans
      (EnvFile.read_of_not_refers h environment).symm
  load_eq s := by
    rw [loader_first?]
    rfl
  allows {values cfg f} h hsome := by
    obtain ⟨v, hv⟩ := Option.isSome_iff_exists.mp hsome
    exact ensures_read f v _ (read_of_validate h hv)
  default h hnone := get_of_validate h hnone

end Settings

end FileStash
