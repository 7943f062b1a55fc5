import FileStash.Proofs.Base64.Strictness
import FileStash.Proofs.FileCache.Readers

namespace FileStash.FileCache

open Base64 (Canonical WellFormed Overpadded)

/-- Writing and reading are inverse to each other between the contents and the canonical
texts. -/
theorem content_texts_are_canonical :
    (∀ content, decodeContent (.text (encodeContent content)) = .ok content ∧
      (encodeContent content).length = 4 * ((content.length + 2) / 3) ∧
      Canonical (encodeContent content).toList) ∧
    ∀ text : String, Canonical text.toList ↔
      ∃ content, decodeContent (.text text) = .ok content ∧ encodeContent content = text := by
  constructor
  · intro content
    have hchars : (encodeContent content).toList = Base64.encode content :=
      String.toList_ofList
    refine ⟨?_, ?_, ?_⟩
    · rw [decodeContent_text_eq_ok_iff, hchars]
      apply Base64.decode_encode
    · rw [← String.length_toList, hchars]
      apply Base64.length_encode
    · rw [hchars]
      apply Base64.canonical_encode
  · intro text
    have htext : ∀ content, Base64.encode content = text.toList ↔
        encodeContent content = text := by
      intro content
      constructor
      · intro h
        rw [encodeContent, h, String.ofList_toList]
      · rintro rfl
        rw [encodeContent, String.toList_ofList]
    simp only [Base64.canonical_iff, decodeContent_text_eq_ok_iff, htext]

theorem exists_decodeContent_iff (text : String) :
    (∃ content, decodeContent (.text text) = .ok content) ↔
      WellFormed text.toList ∨ Overpadded text.toList := by
  simp only [decodeContent_text_eq_ok_iff]
  apply Base64.exists_decode_iff

theorem exists_fault_iff (text : String) :
    (∃ fault, decodeContent (.text text) = .error (.decode fault)) ↔
      ¬(WellFormed text.toList ∨ Overpadded text.toList) := by
  rw [← exists_decodeContent_iff]
  constructor
  · rintro ⟨fault, hfault⟩ ⟨content, hcontent⟩
    cases hfault.symm.trans hcontent
  · intro hunread
    cases hdecode : decodeContent (.text text) with
    | ok content => exact absurd ⟨content, hdecode⟩ hunread
    | error e =>
        obtain ⟨fault, rfl⟩ := error_of_decodeContent hdecode
        exact ⟨fault, rfl⟩

theorem lookUp_hash {c : FileCache} {name : Value} {s : Server} {key : String}
    {fields : Dict String String} {deadline : Option Int} (htakes : c.Takes name)
    (hkey : c.cacheKey name = .ok key) (hlive : s.live? key = some ⟨.hash fields, deadline⟩) :
    c.lookUp s name = .ok (Server.textItems fields) := by
  obtain ⟨n, rfl, hname, hblank⟩ := htakes
  rw [lookUp_eq_found hname, found_of_notBlank s hkey (hblank key hkey), hlive]
  rfl

/-- A text is read exactly when it is well formed, or else consists of complete groups
with pads to spare; every other text is reported as malformed and as nothing else. So is
every record that holds such a text, by both of its readers. -/
theorem malformed_content_reported (text : String) :
    ((∃ content, decodeContent (.text text) = .ok content) ↔
      WellFormed text.toList ∨ Overpadded text.toList) ∧
    (Overpadded text.toList → ¬WellFormed text.toList) ∧
    (∀ e, decodeContent (.text text) = .error e → ∃ fault, e = .decode fault) ∧
    ∀ (c : FileCache) (name : Value) (s : Server) (t : FileTree) (key : String)
      (fields : Dict String String) (deadline : Option Int), c.Takes name →
      c.cacheKey name = .ok key → s.live? key = some ⟨.hash fields, deadline⟩ →
      (Dict.get? fields contentField).getD "" = text →
      ((∃ fault, ((c.restore name).run ScriptedServer.call ⟨s, []⟩ t).result =
        .error (.decode fault)) ↔ ¬(WellFormed text.toList ∨ Overpadded text.toList)) ∧
      ((∃ fault, ((c.restoreBytes name).run ScriptedServer.call ⟨s, []⟩ t).result =
        .error (.decode fault)) ↔ ¬(WellFormed text.toList ∨ Overpadded text.toList)) := by
  refine ⟨exists_decodeContent_iff text, fun h => h.not_wellFormed,
    fun e => error_of_decodeContent, ?_⟩
  intro c name s t key fields deadline htakes hkey hlive htext
  have hbytes : ((c.restoreBytes name).run ScriptedServer.call ⟨s, []⟩ t).result =
      decodeContent (.text text) := by
    rw [result_restoreBytes_eq rfl, lookUp_hash htakes hkey hlive, ← htext,
      ← fieldOr_textItems_empty]
    rfl
  have hrestored : ∀ fault, ((c.restore name).run ScriptedServer.call ⟨s, []⟩ t).result =
      .error (.decode fault) ↔ decodeContent (.text text) = .error (.decode fault) := by
    intro fault
    rw [← hbytes]
    apply (outcomes ScriptedServer.call c name ⟨s, []⟩ t).error_iff
    nofun
  constructor
  · exact (exists_congr hrestored).trans (exists_fault_iff text)
  · rw [hbytes]
    exact exists_fault_iff text

/-- A text with a pad to spare, and a record whose content has lost its pad. -/
theorem spare_pad_read_and_lost_pad_reported :
    let c : FileCache := ⟨FileTree.pathOf ["scratch"], defaultPrefix, none⟩
    let s : Server := { entries := [("file:m", ⟨.hash [(contentField, "AAA")], none⟩)] }
    (Overpadded "AAAA=".toList ∧ ¬WellFormed "AAAA=".toList ∧
      ∃ content, decodeContent (.text "AAAA=") = .ok content) ∧
    (decodeContent (.text "AAA") = .error (.decode .missingPadding) ∧
      c.Takes (.text "m") ∧ c.cacheKey (.text "m") = .ok "file:m" ∧
      s.live? "file:m" = some ⟨.hash [(contentField, "AAA")], none⟩ ∧
      (∃ fault, ((c.restore (.text "m")).run ScriptedServer.call ⟨s, []⟩ {}).result =
        .error (.decode fault)) ∧
      (∃ fault, ((c.restoreBytes (.text "m")).run ScriptedServer.call ⟨s, []⟩ {}).result =
        .error (.decode fault))) := by
  intro c s
  constructor
  · have hletters : ∀ c ∈ List.replicate 4 'A', c ∈ Base64.alphabet := by
      intro c hc
      rw [List.eq_of_mem_replicate hc]
      decide
    have hspare : Overpadded "AAAA=".toList :=
      ⟨List.replicate 4 'A', 1, rfl, hletters, by decide, by decide, by decide⟩
    obtain ⟨hgrammar, hdisjoint, -⟩ := malformed_content_reported "AAAA="
    exact ⟨hspare, hdisjoint hspare, hgrammar.mpr (.inr hspare)⟩
  · have htakes : c.Takes (.text "m") := takes_of_cacheKey (by decide) rfl (by decide)
    have hdecode : decodeContent (.text "AAA") = .error (.decode .missingPadding) := rfl
    obtain ⟨hgrammar, -, -, hrecord⟩ := malformed_content_reported "AAA"
    have hmalformed : ¬(WellFormed "AAA".toList ∨ Overpadded "AAA".toList) := by
      rw [← hgrammar]
      rintro ⟨content, hcontent⟩
      cases hdecode.symm.trans hcontent
    obtain ⟨hrestored, hbytes⟩ := hrecord c (.text "m") s {} "file:m" _ none htakes rfl rfl rfl
    exact ⟨hdecode, htakes, rfl, rfl, hrestored.mpr hmalformed, hbytes.mpr hmalformed⟩

end FileStash.FileCache
