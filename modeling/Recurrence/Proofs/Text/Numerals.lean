import Mathlib.Algebra.Group.Nat.Defs
import Mathlib.Data.List.Induction
import Mathlib.Tactic.Lemma
import Recurrence.Text.Numeral

/-!
Numerals and the numbers they denote. Without its leading zeros a numeral is the decimal spelling of
its number, so a number survives being printed in any of the spellings and read again.

Main statements: `dropZeros_eq` and `word?_toString`.
-/

namespace Recurrence.Text

variable {n : Nat} {s : String}

lemma digitsValue_eq (cs : List Char) : digitsValue cs = Nat.ofDigitChars 10 cs 0 :=
  Nat.ofDigitChars_eq_foldl.symm

lemma digitsValue_toDigits (n : Nat) : digitsValue (Nat.toDigits 10 n) = n := by
  rw [digitsValue_eq, Nat.ofDigitChars_ten_toDigits]

@[simp] lemma toList_toString (n : Nat) : (toString n).toList = Nat.toDigits 10 n := by
  rw [Nat.toString_eq_repr, Nat.toList_repr]

lemma isDigit_of_mem_toString {c : Char} (h : c ∈ (toString n).toList) : c.isDigit = true := by
  rw [toList_toString] at h
  exact Nat.isDigit_of_mem_toDigits (by decide) (by decide) h

@[simp] lemma isNumeral_toString (n : Nat) : isNumeral (toString n) = true :=
  List.all_eq_true.2 fun _ h => isDigit_of_mem_toString h

@[simp] lemma toString_ne_empty (n : Nat) : toString n ≠ "" := by
  rw [Nat.toString_eq_repr]
  exact Nat.repr_ne_empty

@[simp] lemma numeralValue_toString (n : Nat) : numeralValue (toString n) = n := by
  rw [numeralValue, toList_toString, digitsValue_toDigits]

lemma digit_lt_ten {c : Char} (h : c.isDigit = true) : c.toNat - '0'.toNat < 10 := by
  obtain ⟨h₁, h₂⟩ := Char.isDigit_iff_toNat.1 h
  have : '9'.toNat = '0'.toNat + 9 := rfl
  omega

lemma digitChar_value {c : Char} (h : c.isDigit = true) : (c.toNat - '0'.toNat).digitChar = c := by
  have h₁ := (Char.isDigit_iff_toNat.1 h).1
  apply Char.toNat_inj.1
  rw [Nat.toNat_digitChar_of_lt_ten (digit_lt_ten h)]
  have : '0'.toNat = 48 := rfl
  omega

lemma digitsValue_concat (ds : List Char) (c : Char) :
    digitsValue (ds ++ [c]) = 10 * digitsValue ds + (c.toNat - '0'.toNat) := by
  simp [digitsValue]

lemma digitsValue_lt {cs : List Char} (hd : cs.all Char.isDigit = true) :
    digitsValue cs < 10 ^ cs.length := by
  induction cs using List.reverseRecOn with
  | nil => decide
  | append_singleton ds c ih =>
    rw [List.all_append, Bool.and_eq_true] at hd
    have hds := ih hd.1
    have hc := digit_lt_ten (List.all_eq_true.1 hd.2 c (List.mem_singleton_self c))
    rw [digitsValue_concat, List.length_append, List.length_singleton, Nat.pow_succ]
    omega

lemma toDigits_digitsValue {cs : List Char} (hd : ∀ c ∈ cs, c.isDigit = true) (hne : cs ≠ [])
    (hz : cs.head? ≠ some '0' ∨ cs.length = 1) :
    Nat.toDigits 10 (digitsValue cs) = cs := by
  -- by induction from the last digit, which division by ten takes off
  induction cs using List.reverseRecOn with
  | nil => exact absurd rfl hne
  | append_singleton ds c ih =>
    have hc := hd c (by simp)
    have hlt := digit_lt_ten hc
    have hval := digitsValue_concat ds c
    rcases eq_or_ne ds [] with rfl | hds
    · rw [hval, show digitsValue [] = 0 from rfl, Nat.mul_zero, Nat.zero_add,
        Nat.toDigits_of_lt_base hlt, digitChar_value hc]
      rfl
    · have hz' : ds.head? ≠ some '0' := by
        -- the digits before it do not begin with a zero either, for they are some
        rcases hz with hz | hz
        · cases ds with
          | nil => exact absurd rfl hds
          | cons d ds => exact hz
        · have := List.length_pos_iff.2 hds
          rw [List.length_append, List.length_singleton] at hz
          omega
      have hih := ih (fun x hx => hd x (by simp [hx])) hds (Or.inl hz')
      have hpos : 0 < digitsValue ds := by
        rcases Nat.eq_zero_or_pos (digitsValue ds) with h0 | h0
        · rw [h0, Nat.toDigits_zero] at hih
          -- the digits of zero are a lone zero
          exact absurd (by rw [← hih]; rfl) hz'
        · exact h0
      rw [hval, ← Nat.toDigits_append_toDigits (by decide) hpos hlt, hih,
        Nat.toDigits_of_lt_base hlt, digitChar_value hc]

lemma digitsValue_dropWhile (cs : List Char) :
    digitsValue (cs.dropWhile (· = '0')) = digitsValue cs := by
  induction cs with
  | nil => rfl
  | cons c cs ih =>
    rw [List.dropWhile_cons]
    split
    · rename_i h
      rw [ih, of_decide_eq_true h]
      rfl
    · rfl

/-- Without its leading zeros a numeral is the decimal spelling of its number. -/
theorem dropZeros_eq (hs : isNumeral s = true) : dropZeros s = toString (numeralValue s) := by
  have hd : ∀ c ∈ s.toList.dropWhile (· = '0'), c.isDigit = true := fun c hc =>
    List.all_eq_true.1 hs c ((List.dropWhile_sublist _).subset hc)
  have hv := digitsValue_dropWhile s.toList
  apply String.toList_inj.1
  rw [toList_toString, numeralValue, ← hv, dropZeros]
  split
  · rename_i h
    rw [h]
    rfl
  · rename_i cs hcs
    have hhead : (s.toList.dropWhile (· = '0')).head? ≠ some '0' := by
      intro h0
      have hn := List.head?_dropWhile_not (· = '0') s.toList
      rw [h0] at hn
      exact absurd hn (by decide)
    rw [String.toList_ofList, toDigits_digitsValue hd hcs (Or.inl hhead)]

@[simp] lemma dropZeros_toString (n : Nat) : dropZeros (toString n) = toString n := by
  rw [dropZeros_eq (isNumeral_toString n), numeralValue_toString]

/-- A number that is not too large is read off its decimal spelling. -/
theorem word?_toString (n : Nat) : word? (toString n) = if n ≤ wordMax then some n else none := by
  rw [word?, numeralValue_toString, isNumeral_toString, toList_toString]
  simp [Nat.toDigits_ne_nil]

lemma word?_eq_some (h : word? s = some n) :
    isNumeral s = true ∧ s ≠ "" ∧ numeralValue s = n ∧ n ≤ wordMax := by
  unfold word? at h
  split at h
  · rename_i hw
    obtain rfl := Option.some.inj h
    exact ⟨hw.2.1, fun h0 => hw.1 (by rw [h0]; rfl), rfl, hw.2.2⟩
  · cases h

lemma eq_toString_of_length (hs : isNumeral s = true) (hne : s ≠ "")
    (hl : s.length ≤ (toString (numeralValue s)).length) : s = toString (numeralValue s) := by
  have hcs : s.toList ≠ [] := fun h => hne (String.toList_eq_nil_iff.1 h)
  have hz : s.toList.head? ≠ some '0' ∨ s.toList.length = 1 := by
    by_contra h
    obtain ⟨h0, h1⟩ := not_or.1 h
    obtain ⟨cs, hc⟩ := List.head?_eq_some_iff.1 (not_not.1 h0)
    rw [← dropZeros_eq hs, dropZeros, hc, List.dropWhile_cons, if_pos (decide_eq_true rfl),
      ← String.length_toList, hc] at hl
    have hle := (List.dropWhile_sublist (· = '0') (l := cs)).length_le
    rw [hc, List.length_cons] at h1
    split at hl
    · have : "0".length = 1 := rfl
      simp only [List.length_cons] at hl
      omega
    · simp only [String.length_ofList, List.length_cons] at hl
      omega
  apply String.toList_inj.1
  rw [toList_toString, numeralValue, toDigits_digitsValue (List.all_eq_true.1 hs) hcs hz]

lemma isNumeral_append {s t : String} :
    isNumeral (s ++ t) = (isNumeral s && isNumeral t) := by
  simp [isNumeral]

lemma isNumeral_twoDigits (n : Nat) : isNumeral (twoDigits n) = true := by
  unfold twoDigits
  split
  · rw [isNumeral_append, isNumeral_toString]
    rfl
  · exact isNumeral_toString n

lemma twoDigits_ne_empty (n : Nat) : twoDigits n ≠ "" := by
  unfold twoDigits
  split
  · simp
  · exact toString_ne_empty n

lemma numeralValue_twoDigits (n : Nat) : numeralValue (twoDigits n) = n := by
  unfold twoDigits
  split
  · rw [numeralValue, String.toList_append, toList_toString]
    exact digitsValue_toDigits n
  · exact numeralValue_toString n

@[simp] lemma dropZeros_twoDigits (n : Nat) : dropZeros (twoDigits n) = toString n := by
  rw [dropZeros_eq (isNumeral_twoDigits n), numeralValue_twoDigits]

end Recurrence.Text
