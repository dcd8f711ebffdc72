import Recurrence.Proofs.Token.Pieces

/-!
Words in another letter case. What a word is and where a scan parts it is the same in every letter
case, but for the names of zones. A keyword is never one word with the digits before it.

Main statements: `wordKind_congr`, `Unparted.respelled` and `not_compound`.
-/

namespace Recurrence

def CaseAlike (v w : List Char) : Prop := v.map Char.toLower = w.map Char.toLower

instance (v w : List Char) : Decidable (CaseAlike v w) := inferInstanceAs (Decidable (_ = _))

namespace CaseAlike

variable {v w : List Char} {p : Char → Bool}

lemma refl (w : List Char) : CaseAlike w w := rfl

lemma symm (h : CaseAlike v w) : CaseAlike w v := Eq.symm h

lemma toLower_eq {v w : String} : v.toLower = w.toLower ↔ CaseAlike v.toList w.toList := by
  rw [← String.toList_inj, toList_toLower, toList_toLower]
  exact Iff.rfl

lemma nil_iff (h : CaseAlike v w) : v = [] ↔ w = [] := by
  have hlength := congrArg List.length h
  rw [List.length_map, List.length_map] at hlength
  rw [← List.length_eq_zero_iff, hlength, List.length_eq_zero_iff]

lemma cons_iff {c : Char} {cs : List Char} : CaseAlike (c :: cs) w
    ↔ ∃ d ds, w = d :: ds ∧ c.toLower = d.toLower ∧ CaseAlike cs ds := by
  cases w with
  | nil => simp [CaseAlike]
  | cons d ds => simp [CaseAlike]

lemma append {v' w' : List Char} (h : CaseAlike v w) (h' : CaseAlike v' w') :
    CaseAlike (v ++ v') (w ++ w') := by
  rw [CaseAlike, List.map_append, List.map_append, h, h']

lemma forall_iff (hp : ∀ c, p c.toLower = p c) (h : CaseAlike v w) {b : Bool} :
    (∀ c ∈ v, p c = b) ↔ ∀ c ∈ w, p c = b := by
  have hmap (u : List Char) : (∀ c ∈ u, p c = b) ↔ ∀ c ∈ u.map Char.toLower, p c = b := by
    simp [hp]
  rw [hmap v, hmap w, h]

lemma split {v₁ v₂ : List Char} (h : CaseAlike (v₁ ++ v₂) w) :
    ∃ w₁ w₂, w = w₁ ++ w₂ ∧ CaseAlike v₁ w₁ ∧ CaseAlike v₂ w₂ := by
  rw [CaseAlike, List.map_append] at h
  obtain ⟨w₁, w₂, rfl, h₁, h₂⟩ := List.map_eq_append_iff.1 h.symm
  exact ⟨w₁, w₂, rfl, h₁.symm, h₂.symm⟩

lemma takeWhile (hp : ∀ c, p c.toLower = p c) (h : CaseAlike v w) :
    CaseAlike (v.takeWhile p) (w.takeWhile p) := by
  have hmap (u : List Char) :
      (u.takeWhile p).map Char.toLower = (u.map Char.toLower).takeWhile p := by
    rw [List.takeWhile_map]
    congr 2
    exact funext fun c => (hp c).symm
  rw [CaseAlike, hmap, hmap, h]

lemma eq_of_fixed (hfix : ∀ c ∈ v, ∀ d : Char, c.toLower = d.toLower → c = d) (h : CaseAlike v w) :
    v = w := by
  induction v generalizing w with
  | nil => exact (h.nil_iff.1 rfl).symm
  | cons c cs ih =>
    obtain ⟨d, ds, rfl, hd, hds⟩ := cons_iff.1 h
    obtain ⟨hc, hcs⟩ := List.forall_mem_cons.1 hfix
    rw [hc d hd, ih hcs hds]

end CaseAlike

/-! ### Characters -/

lemma eq_of_toLower_eq {c d : Char} (hc : ¬ c.isAlpha = true) (h : c.toLower = d.toLower) :
    c = d := by
  have hnat := congrArg Char.toNat h
  rw [toNat_toLower, toNat_toLower] at hnat
  rw [isAlpha_iff] at hc
  refine Char.toNat_inj.1 ?_
  split at hnat <;> split at hnat <;> omega

/-- A class of characters in which the letters of ASCII are all or none does not look at the letter
case. -/
lemma class_toLower {p : Char → Bool} {b : Bool} (hp : ∀ c : Char, c.isAlpha = true → p c = b)
    (c : Char) : p c.toLower = p c := by
  by_cases hc : c.isAlpha = true
  · have hlower : c.toLower.isAlpha = true := by
      rw [isAlpha_iff] at hc ⊢
      rw [toNat_toLower]
      split <;> omega
    rw [hp c hc, hp _ hlower]
  · rw [← eq_of_toLower_eq hc (toLower_toLower c).symm]

namespace CaseAlike

variable {v w : List Char} {c : Char}

lemma mem_of_mem (h : CaseAlike v w) (hc : ¬ c.isAlpha = true) (hv : c ∈ v) : c ∈ w := by
  have hmem : c.toLower ∈ w.map Char.toLower := h ▸ List.mem_map_of_mem hv
  obtain ⟨d, hd, hdc⟩ := List.mem_map.1 hmem
  exact eq_of_toLower_eq hc hdc.symm ▸ hd

lemma mem_iff (h : CaseAlike v w) (hc : ¬ c.isAlpha = true) : c ∈ v ↔ c ∈ w :=
  ⟨h.mem_of_mem hc, h.symm.mem_of_mem hc⟩

lemma head?_of_head? (h : CaseAlike v w) (hc : ¬ c.isAlpha = true) (hv : v.head? = some c) :
    w.head? = some c := by
  obtain ⟨cs, rfl⟩ := List.head?_eq_some_iff.1 hv
  obtain ⟨d, ds, rfl, hd, -⟩ := cons_iff.1 h
  rw [eq_of_toLower_eq hc hd, List.head?_cons]

lemma head?_iff (h : CaseAlike v w) (hc : ¬ c.isAlpha = true) :
    v.head? = some c ↔ w.head? = some c :=
  ⟨h.head?_of_head? hc, h.symm.head?_of_head? hc⟩

end CaseAlike

lemma not_breaking_of_isAlpha {c : Char} (h : c.isAlpha = true) : Scan.isBreaking c = false := by
  rw [isAlpha_iff] at h
  exact SpecialDay.not_breaking_of_toNat (by omega)

lemma isBlank_of_not_breaking {c : Char} (h : Scan.isBreaking c = false) :
    Text.isBlank c = false := by
  rw [Scan.isBreaking, Bool.or_eq_false_iff] at h
  exact h.1

lemma isBreaking_toLower : ∀ c : Char, Scan.isBreaking c.toLower = Scan.isBreaking c :=
  class_toLower fun _ => not_breaking_of_isAlpha

lemma isBlank_toLower : ∀ c : Char, Text.isBlank c.toLower = Text.isBlank c :=
  class_toLower fun _ h => isBlank_of_not_breaking (not_breaking_of_isAlpha h)

lemma isAlphabetic_toLower : ∀ c : Char, Text.isAlphabetic c.toLower = Text.isAlphabetic c :=
  class_toLower fun _ h => by rw [Text.isAlphabetic, h, Bool.true_or]

lemma not_isAlpha_of_isBreaking {c : Char} (h : Scan.isBreaking c = true) : ¬ c.isAlpha = true := by
  intro ha
  rw [not_breaking_of_isAlpha ha] at h
  cases h

lemma not_isAlpha_of_isDigit {c : Char} (h : c.isDigit = true) : ¬ c.isAlpha = true := by
  have h0 : '0'.toNat = 48 := rfl
  have h9 : '9'.toNat = 57 := rfl
  have := Char.isDigit_iff_toNat.1 h
  rw [isAlpha_iff]
  omega

/-! ### Compounds -/

namespace SpecialDay

variable {v w ds k : List Char}

lemma isCompound_congr (h : CaseAlike v w) : isCompound (.ofList v) = isCompound (.ofList w) := by
  have hsmall : (String.ofList v).toLower = (String.ofList w).toLower := by
    rw [CaseAlike.toLower_eq, String.toList_ofList, String.toList_ofList]
    exact h
  rw [isCompound, isCompound, ← ordinalDay?_toLower, ← nthWeekday?_toLower, hsmall,
    ordinalDay?_toLower, nthWeekday?_toLower]

lemma dropFolded?_digit {ws : List Char} {d : Char} (hws : ws.all Char.isLower = true)
    (hne : ws ≠ [])
    (hd : d.isDigit = true) (cs : List Char) : dropFolded? ws (d :: cs) = none := by
  obtain ⟨l, ls, rfl⟩ := List.exists_cons_of_ne_nil hne
  rw [dropFolded?, if_neg]
  rintro rfl
  have hletter : IsLetter d := (Bool.and_eq_true _ _ ▸ hws).1
  rw [hletter.not_digit] at hd
  cases hd

lemma dropEnding?_digit {d : Char} (hd : d.isDigit = true) (cs : List Char) :
    dropEnding? (d :: cs) = none := by
  have hlower : ∀ e ∈ ["st", "nd", "rd", "th"], e.toList.all Char.isLower = true
      ∧ e.toList ≠ [] := by
    decide
  exact List.findSome?_eq_none_iff.2 fun e he => dropFolded?_digit (hlower e he).1 (hlower e he).2
    hd cs

lemma dropOrdinalWord?_digit {d : Char} (hd : d.isDigit = true) (cs : List Char) :
    dropOrdinalWord? (d :: cs) = none := by
  have hlower : ∀ p ∈ ordinalWords, p.1.toList.all Char.isLower = true ∧ p.1.toList ≠ [] := by
    decide
  refine List.findSome?_eq_none_iff.2 fun p hp => ?_
  obtain ⟨word, n⟩ := p
  dsimp only
  rw [dropFolded?_digit (hlower _ hp).1 (hlower _ hp).2 hd cs]
  rfl

lemma dropNth?_digit {d : Char} (hd : d.isDigit = true) {cs : List Char}
    (hcs : dropEnding? cs = none) :
    dropNth? (d :: cs) = none := by
  unfold dropNth?
  split
  all_goals rename_i heq
  all_goals first
    | (obtain ⟨rfl, rfl⟩ := List.cons.inj heq; rw [hcs]; rfl)
    | exact dropOrdinalWord?_digit hd cs

lemma not_compound (hne : ds ≠ []) (hds : ∀ d ∈ ds, d.isDigit = true)
    (hk : ∀ c ∈ k.head?, c.isDigit = false) (hending : dropEnding? k = none) :
    isCompound (.ofList (ds ++ k)) = false := by
  obtain ⟨d, ds, rfl⟩ := List.exists_cons_of_ne_nil hne
  obtain ⟨hd, hds⟩ := List.forall_mem_cons.1 hds
  have hrest : (d :: ds ++ k).dropWhile Char.isDigit = k := by
    rw [List.dropWhile_append_of_pos (List.forall_mem_cons.2 ⟨hd, hds⟩)]
    cases k with
    | nil => rfl
    | cons c k => rw [List.dropWhile_cons, if_neg (by simp [hk c rfl])]
  have hordinal : ordinalDay? (.ofList (d :: ds ++ k)) = none := by
    unfold ordinalDay?
    rw [String.toList_ofList, hrest, hending]
    exact if_neg fun h => by cases h.2.1
  have hnth : dropNth? (d :: ds ++ k) = none := by
    refine dropNth?_digit hd ?_
    cases ds with
    | nil => exact hending
    | cons d' ds => exact dropEnding?_digit (hds d' List.mem_cons_self) _
  have hweekday : nthWeekday? (.ofList (d :: ds ++ k)) = none := by
    have hlast : dropFolded? "last".toList (d :: ds ++ k) = none :=
      dropFolded?_digit (by decide) (by decide) hd (ds ++ k)
    simp only [nthWeekday?, String.toList_ofList, hlast, hnth]
  rw [isCompound, hordinal, hweekday]
  rfl

end SpecialDay

/-! ### What words are -/

namespace Keyword

variable {w : String} {k : Keyword}

lemma ne_empty_of_ofWord? (h : ofWord? w = some k) : w ≠ "" := by
  rintro rfl
  have : ofWord? "" = none := by decide +kernel
  rw [this] at h
  cases h

lemma dropEnding?_words : ∀ p ∈ words, SpecialDay.dropEnding? p.1.toList = none := by decide +kernel

lemma dropEnding?_of_ofWord? {cs : List Char} (h : CaseAlike cs (bare w).toList)
    (hw : ofWord? w = some k) : SpecialDay.dropEnding? cs = none := by
  have hnone := dropEnding?_words ((bare w).toLower, k) (mem_of_lookup hw)
  rw [toList_toLower, ← h, SpecialDay.dropEnding?_toLower, Option.map_eq_none_iff] at hnone
  exact hnone

end Keyword

namespace Token

variable {v w : String} {k : Kind}

/-- A token that no value can use: a zone, or nothing known. -/
def Odd (t : Token) : Prop := t.kind = .zoneId ∨ t.kind = .unknown

/-- What a word is does not depend on the letter case, but for keywords and the names of zones. -/
theorem wordKind_congr (h : v.toLower = w.toLower) (hv : Keyword.ofWord? v = none)
    (hw : Keyword.ofWord? w = none) : wordKind v = wordKind w := by
  have hcase := CaseAlike.toLower_eq.1 h
  have hnumeral : Text.isNumeral v = Text.isNumeral w := by
    rw [Bool.eq_iff_iff, Text.isNumeral, Text.isNumeral, List.all_eq_true, List.all_eq_true]
    exact hcase.forall_iff isDigit_toLower
  have hat : v.toList.head? = some '@' ↔ w.toList.head? = some '@' := hcase.head?_iff (by decide)
  have hv' : Keyword.isRuleWord v = false := by rw [← Keyword.isSome_ofWord?, hv]; rfl
  have hw' : Keyword.isRuleWord w = false := by rw [← Keyword.isSome_ofWord?, hw]; rfl
  simp only [wordKind, classify, hnumeral, hv', hw', hat, h, TimeUnit.ofWord?, MonthName.number?,
    Weekday.ofName?, SpecialDay.ofWord?, Zone.Database.isKnown_empty, Bool.and_false,
    Bool.false_eq_true, dite_false]

end Token

/-! ### Where words are parted -/

namespace Scan

open Token

variable {v w : List Char} {q : Keyword}

lemma Unparted.respelled (hv : Unparted v) (h : CaseAlike v w) : Unparted w := by
  obtain ⟨ds, ls, rfl, hds, hls, hparts⟩ := hv.parts
  obtain ⟨ds', ls', rfl, hd, hl⟩ := h.split
  refine ⟨fun h0 => hv.nonempty (h.nil_iff.2 h0), (h.forall_iff isBreaking_toLower).1 hv.unbroken,
    ds', ls', rfl, (hd.forall_iff isDigit_toLower).1 hds, (hl.forall_iff isDigit_toLower).1 hls,
    hparts.imp hd.nil_iff.1 (Or.imp hl.nil_iff.1 ?_)⟩
  rw [SpecialDay.isCompound_congr (hd.append (hl.takeWhile isAlphabetic_toLower))]
  exact id

lemma unparted_of_solid (h : Solid w) : Unparted w := by
  obtain ⟨ds, ls, rfl, hds, hls, hparts⟩ := h.parts
  refine ⟨h.nonempty, h.unbroken, ds, ls, rfl, hds, hls, hparts.imp_right (Or.imp_right ?_)⟩
  rintro ⟨halpha, hcompound⟩
  rwa [List.takeWhile_eq_self_iff.2 halpha]

end Scan

end Recurrence
