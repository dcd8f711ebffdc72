import Recurrence.Proofs.Resolution.Extents
import Recurrence.Proofs.Resolution.Forms

/-!
What offsets mean. An edge is read with an offset in the digits of any script, and those digits
denote a number in each of them. The number counts when the digits are of ASCII; otherwise the edge
stands as if it had no offset.

Main statement: `Resolution.ofText_asDenoted_iff`.
-/

namespace Recurrence

namespace Text

/-- The value of a decimal digit of any script. The digits of a script follow each other from zero
on, and scripts that are listed together follow each other too. -/
def decimalDigitValue (c : Char) : Nat :=
  match decimalDigitRanges.find? fun r => r.1 ≤ c.toNat && c.toNat ≤ r.2 with
  | some r => (c.toNat - r.1) % 10
  | none => 0

def decimalValue (cs : List Char) : Nat := cs.foldl (fun n c => 10 * n + decimalDigitValue c) 0

lemma decimalDigitValue_of_isDigit {c : Char} (h : c.isDigit = true) :
    decimalDigitValue c = c.toNat - '0'.toNat := by
  have h0 : '0'.toNat = 48 := rfl
  have h9 : '9'.toNat = 57 := rfl
  have hc := Char.isDigit_iff_toNat.1 h
  have hfind :
      decimalDigitRanges.find? (fun r => r.1 ≤ c.toNat && c.toNat ≤ r.2) = some (0x30, 0x39) :=
    List.find?_cons_of_pos (by simp; omega)
  rw [decimalDigitValue, hfind]
  dsimp only
  omega

lemma decimalValue_of_isDigit {cs : List Char} (h : cs.all Char.isDigit = true) :
    decimalValue cs = digitsValue cs := by
  unfold decimalValue digitsValue
  refine List.foldl_ext _ _ 0 fun n c hc => ?_
  rw [decimalDigitValue_of_isDigit (List.all_eq_true.1 h c hc)]

end Text

namespace EdgeText

def base (e : EdgeText) (u : TimeUnit) (year month : Int) : Int :=
  match e.edge with
  | .last => u.maxValueIn year month
  | .first => u.minValue

/-- The offset that an edge is written with, in the digits of any script. -/
def denotedShift (e : EdgeText) : Int :=
  match e.offset with
  | none => 0
  | some (.forward, ds) => Text.decimalValue ds
  | some (.backward, ds) => -(Text.decimalValue ds : Int)

end EdgeText

namespace Resolution

open Text

variable {u : TimeUnit} {y m : Int} {text : String} {e : EdgeText} {dir : Direction}
  {ds : List Char}

/-- Whether an edge comes out as it is written, if it comes out at all. -/
def AsDenoted (u : TimeUnit) (year month : Int) (e : EdgeText) (r : Resolution) : Prop :=
  r = invalid ∨ r = value (u.clampIn year month (e.base u year month + e.denotedShift))

lemma ofEdge_eq (hm : m ≠ 0) (h : ¬ (e.ofMonth = true ∧ u ≠ .day)) :
    ofEdge u y m e = value (u.clampIn y m (e.base u y m + e.shift)) := by
  rw [ofEdge, if_neg h, if_neg fun hday => hm hday.2]
  rfl

lemma shift_of_isDigit (ho : e.offset = some (dir, ds)) (h : ds.all Char.isDigit = true) :
    e.shift = e.denotedShift := by
  unfold EdgeText.shift EdgeText.denotedShift
  rw [ho]
  cases dir <;> simp only [EdgeText.amount, if_pos h, decimalValue_of_isDigit h]

lemma shift_of_not_isDigit (ho : e.offset = some (dir, ds)) (h : ¬ ds.all Char.isDigit = true) :
    e.shift = 0 := by
  unfold EdgeText.shift
  rw [ho]
  cases dir <;> simp only [EdgeText.amount, if_neg h, Int.neg_zero]

lemma clampIn_base (hm : 1 ≤ m ∧ m ≤ 12) : u.clampIn y m (e.base u y m) = e.base u y m := by
  have hle := u.minValue_le_maxValueIn y hm
  unfold EdgeText.base
  split
  · exact TimeUnit.clampIn_eq hle (Int.le_refl _)
  · exact TimeUnit.clampIn_eq (Int.le_refl _) hle

/-- **An edge comes out as it is written exactly when its digits are of ASCII**, or when there is
nothing to see of it: when the text has no meaning for the unit, or when the offset written leads
nowhere. With any other digit the edge comes out as if there were no offset. -/
theorem ofText_asDenoted_iff (hm : 1 ≤ m ∧ m ≤ 12)
    (h : EdgeText.ofChars? (smallChars text) = some e)
    (ho : e.offset = some (dir, ds)) :
    (AsDenoted u y m e (ofText u y m text) ↔ (u = .timeZone ∨ e.ofMonth = true ∧ u ≠ .day)
      ∨ ds.all Char.isDigit = true ∨ u.clampIn y m (e.base u y m + e.denotedShift) = e.base u y m)
    ∧ (ofText u y m text = invalid ↔ u = .timeZone ∨ e.ofMonth = true ∧ u ≠ .day)
    ∧ (¬ ds.all Char.isDigit = true → ofText u y m text = invalid
      ∨ ofText u y m text = value (e.base u y m)) := by
  by_cases hinvalid : u = .timeZone ∨ e.ofMonth = true ∧ u ≠ .day
  · have hr : ofText u y m text = invalid := by
      rcases hinvalid with rfl | hmonth
      · unfold ofText
        exact if_pos (Or.inl rfl)
      · by_cases hu : u = .timeZone
        · unfold ofText
          exact if_pos (Or.inl hu)
        · rw [ofText_of_edge hu h, ofEdge, if_pos hmonth]
    exact ⟨iff_of_true (Or.inl hr) (Or.inl hinvalid), iff_of_true hr hinvalid, fun _ => Or.inl hr⟩
  · obtain ⟨hu, hmonth⟩ := not_or.1 hinvalid
    have hr := ofText_of_edge (y := y) (m := m) hu h
    rw [ofEdge_eq (by omega) hmonth] at hr
    by_cases hd : ds.all Char.isDigit = true
    · rw [shift_of_isDigit ho hd] at hr
      exact ⟨iff_of_true (Or.inr hr) (Or.inr (Or.inl hd)), iff_of_false (by simp [hr]) hinvalid,
        fun hn => absurd hd hn⟩
    · rw [shift_of_not_isDigit ho hd, Int.add_zero, clampIn_base hm] at hr
      refine ⟨?_, iff_of_false (by simp [hr]) hinvalid, fun _ => Or.inr hr⟩
      rw [AsDenoted, hr, value.injEq, eq_comm (a := e.base u y m)]
      simp [hinvalid, hd]

/-- Three days before the end of April. -/
theorem ofText_asDenoted_iff_april : ((1 : Int) ≤ 4 ∧ (4 : Int) ≤ 12)
    ∧ ∃ e, EdgeText.ofChars? (smallChars "Last - 3") = some e ∧ e.offset = some (.backward, ['3'])
      ∧ AsDenoted .day 2024 4 e (ofText .day 2024 4 "Last - 3")
      ∧ ofText .day 2024 4 "Last - 3" ≠ invalid := by
  have h : EdgeText.ofChars? (smallChars "Last - 3")
      = some ⟨.last, false, some (.backward, ['3'])⟩ :=
    rfl
  obtain ⟨hiff, hinvalid, -⟩ :=
    ofText_asDenoted_iff (u := .day) (y := 2024) (m := 4) (by decide) h rfl
  exact ⟨by decide, _, h, rfl, hiff.2 (Or.inr (Or.inl (by decide))),
    fun hr => absurd (hinvalid.1 hr) (by decide)⟩

/-- With an Arabic three, three days before the end of April come out as its end. -/
theorem ofText_drops_arabic_offset :
    ∃ e, EdgeText.ofChars? (smallChars "Last-\u0663") = some e
      ∧ e.offset = some (.backward, ['\u0663'])
      ∧ e.denotedShift = -3 ∧ ofText .day 2024 4 "Last-\u0663" = value 30
      ∧ ¬ AsDenoted .day 2024 4 e (ofText .day 2024 4 "Last-\u0663") := by
  have h : EdgeText.ofChars? (smallChars "Last-\u0663")
      = some ⟨.last, false, some (.backward, ['\u0663'])⟩ :=
    rfl
  have hr : ofText .day 2024 4 "Last-\u0663" = value 30 := by decide +kernel
  have hmeant : TimeUnit.day.clampIn 2024 4
      (EdgeText.base ⟨.last, false, some (.backward, ['\u0663'])⟩ .day 2024 4
        + EdgeText.denotedShift ⟨.last, false, some (.backward, ['\u0663'])⟩) = 27 := by
        decide +kernel
  refine ⟨_, h, rfl, by decide, hr, ?_⟩
  rw [AsDenoted, hr, hmeant]
  decide

end Resolution

end Recurrence
