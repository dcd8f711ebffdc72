import Recurrence.Proofs.Rule.RoundTrips

/-!
Clauses that name a zone. A zone is named by the text of a clause as it stands; no name has a blank
in it, and each has a character that is not a sign.

Main statement: `name_spelling`.
-/

namespace Recurrence

open Token

/-- **The name of a zone has no blank in it and is not all signs.** -/
theorem name_spelling {id : String} (h : Zone.isName id = true) :
    (∀ c ∈ id.toList, Text.isBlank c = false) ∧ ∃ c ∈ id.toList, Scan.isBreaking c = false := by
  obtain ⟨c, cs, hcs, halpha, -⟩ := cons_of_isName h
  refine ⟨fun c hc => Text.isBlank_of_toNat (toNat_of_isName h c hc), c, ?_, ?_⟩
  · rw [hcs]
    exact List.mem_cons_self
  · exact SpecialDay.not_breaking_of_toNat (by have := isAlpha_iff.1 halpha; omega)

lemma mem_sourceText {ts : List Token} {c : Char} (h : c ∈ (sourceText ts).toList) :
    ∃ t ∈ ts, c ∈ t.text.toList := by
  rw [sourceText, Text.trim, String.toList_ofList, String.toList_ofList, Text.trimChars,
    List.mem_reverse] at h
  have hmem := (List.dropWhile_sublist _).mem h
  exact List.mem_flatMap.1 ((List.dropWhile_sublist _).mem (List.mem_reverse.1 hmem))

lemma zone_of_readZone {body : List Token} {rules : List Rule}
    (h : Rule.readZone body = .ok rules) :
    rules = [.zone (sourceText body)] := by
  unfold Rule.readZone at h
  dsimp only at h
  split at h
  · cases h
  · exact (Except.ok.inj h).symm

lemma not_name_of_isBreaking {ts : List Token}
    (h : ∀ t ∈ ts, ∀ c ∈ t.text.toList, Scan.isBreaking c = true) :
    Zone.isName (sourceText ts) = false := by
  rw [← Bool.not_eq_true]
  intro hname
  obtain ⟨c, hc, hletter⟩ := (name_spelling hname).2
  obtain ⟨t, ht, hct⟩ := mem_sourceText hc
  rw [h t ht c hct] at hletter
  cases hletter

end Recurrence
