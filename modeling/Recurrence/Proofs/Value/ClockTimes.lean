import Recurrence.Proofs.Text.Numerals
import Recurrence.Proofs.Value.Phrases

/-!
The grammar of clock times. A clock time is one to three numbers with a colon between every two,
then perhaps am or pm after an hour from 1 to 12, and no blank stands at a colon. It stands for an
hour and for as many of minute and second as it gives.

Main statements: `clockNumbers_eq_ok_iff`, `clockHour_eq_ok_iff` and `clock_grammar`.
-/

namespace Recurrence

/-! ### Leading zeros -/

namespace Text

/-- The second text is the first without its leading zeros; of a text of zeros one is left. -/
inductive WithoutZeros (text plain : String) : Prop
  | zeros (k : Nat) (all : text.toList = List.replicate k '0') (one : plain = "0")
  | rest (k : Nat) (front : text.toList = List.replicate k '0' ++ plain.toList)
    (nonempty : plain ≠ "") (first : plain.toList.head? ≠ some '0')

lemma exists_zeros (cs : List Char) : ∃ k, cs = List.replicate k '0' ++ cs.dropWhile (· = '0') := by
  induction cs with
  | nil => exact ⟨0, rfl⟩
  | cons c cs ih =>
    by_cases hc : c = '0'
    · obtain ⟨k, hk⟩ := ih
      refine ⟨k + 1, ?_⟩
      rw [List.dropWhile_cons_of_pos (by simpa using hc), List.replicate_succ, List.cons_append,
        ← hk, hc]
    · exact ⟨0, by rw [List.dropWhile_cons_of_neg (by simpa using hc)]; rfl⟩

/-- Leading zeros are dropped, and nothing else. -/
theorem withoutZeros_dropZeros (text : String) : WithoutZeros text (dropZeros text) := by
  obtain ⟨k, hk⟩ := exists_zeros text.toList
  unfold dropZeros
  split
  · rename_i hnil
    rw [hnil, List.append_nil] at hk
    exact .zeros k hk rfl
  · rename_i hne
    refine .rest k (by rwa [String.toList_ofList]) ?_ ?_
    · rw [Ne, ← String.toList_eq_nil_iff, String.toList_ofList]
      exact hne
    · rw [String.toList_ofList]
      intro hzero
      have hhead := List.head?_dropWhile_not (· = '0') text.toList
      rw [hzero] at hhead
      exact absurd hhead (by decide)

lemma WithoutZeros.eq_dropZeros {text plain : String} (h : WithoutZeros text plain) :
    plain = dropZeros text := by
  have hzeros (k : Nat) (cs : List Char) :
      (List.replicate k '0' ++ cs).dropWhile (· = '0') = cs.dropWhile (· = '0') := by
    rw [List.dropWhile_append, List.dropWhile_replicate]
    simp
  unfold dropZeros
  cases h with
  | zeros k all one =>
    have hnil := hzeros k []
    rw [List.append_nil] at hnil
    rw [all, hnil]
    exact one
  | rest k front nonempty first =>
    have hplain : plain.toList.dropWhile (· = '0') = plain.toList := by
      cases hp : plain.toList with
      | nil => rfl
      | cons c cs =>
        rw [hp] at first
        exact List.dropWhile_cons_of_neg (by simpa using first)
    rw [front, hzeros, hplain]
    split
    · rename_i hnil
      exact absurd (String.toList_eq_nil_iff.mp hnil) nonempty
    · exact String.ofList_toList.symm

lemma isNumeral_dropZeros (text : String) : isNumeral (dropZeros text) = isNumeral text := by
  cases withoutZeros_dropZeros text with
  | zeros k all one => rw [one, isNumeral, isNumeral, all, List.all_replicate]; split <;> rfl
  | rest k front => rw [isNumeral, isNumeral, front, List.all_append, List.all_replicate]; split
    <;> rfl

lemma numeralValue_dropZeros (text : String) :
    numeralValue (dropZeros text) = numeralValue text := by
  rw [numeralValue, numeralValue, ← digitsValue_dropWhile text.toList, dropZeros]
  split
  · rename_i hnil
    rw [hnil]
    rfl
  · rw [String.toList_ofList]

lemma word?_dropZeros {text : String} {n : Nat} : word? (dropZeros text) = some n
    ↔ isNumeral text = true ∧ numeralValue text = n ∧ n ≤ wordMax := by
  have hne : (dropZeros text).toList ≠ [] := by
    cases withoutZeros_dropZeros text with
    | zeros k all one => rw [one]; decide
    | rest k front nonempty => exact fun h => nonempty (String.toList_eq_nil_iff.mp h)
  rw [word?, isNumeral_dropZeros, numeralValue_dropZeros]
  constructor
  · intro h
    split at h
    · rename_i hword
      obtain rfl := Option.some.inj h
      exact ⟨hword.2.1, rfl, hword.2.2⟩
    · cases h
  · rintro ⟨hdigits, rfl, hmax⟩
    rw [if_pos ⟨hne, hdigits, hmax⟩]

end Text

namespace Value

open Token

variable {ts : List Token} {texts : List String} {half : Option Meridiem} {text hour : String}

/-! ### The grammar -/

/-- Numbers with a colon between every two, and their texts. -/
inductive ColonNumbers : List Token → List String → Prop
  | last {n : Token} (number : n.kind = .number) : ColonNumbers [n] [n.text]
  | cons {n c : Token} {ts : List Token} {texts : List String} (number : n.kind = .number)
    (colon : c.kind = .colon) (rest : ColonNumbers ts texts) :
    ColonNumbers (n :: c :: ts) (n.text :: texts)

/-- At most one token, an am or pm. -/
inductive HalfDay : List Token → Option Meridiem → Prop
  | none : HalfDay [] none
  | some {t : Token} {half : Meridiem} (meridiem : t.kind = .meridiem half) :
      HalfDay [t] (some half)

/-- An hour on a twelve-hour clock, and the hour of the day that it is. -/
inductive TwelveHour : Meridiem → Nat → Nat → Prop
  | midnight : TwelveHour .am 12 0
  | morning {h : Nat} (low : 1 ≤ h) (high : h ≤ 11) : TwelveHour .am h h
  | noon : TwelveHour .pm 12 12
  | afternoon {h : Nat} (low : 1 ≤ h) (high : h ≤ 11) : TwelveHour .pm h (h + 12)

/-- The tokens of a clock time, with the texts of its numbers. Its hour is any number or, with am or
pm, one from 1 to 12. -/
structure ClockForm (tokens : List Token) (texts : List String) (half : Option Meridiem) :
    Prop where
  noBlank : ∀ a b, [a, b] <:+: trimTrivia tokens →
    ¬ (a.kind = .colon ∧ b.kind = .blank) ∧ ¬ (a.kind = .blank ∧ b.kind = .colon)
  split : ∃ fields last, significant (trimTrivia tokens) = fields ++ last
    ∧ ColonNumbers fields texts ∧ HalfDay last half
  atMostThree : texts.length ≤ 3
  hour : ∀ h ∈ texts.head?, half.isSome →
    Text.isNumeral h = true ∧ 1 ≤ Text.numeralValue h ∧ Text.numeralValue h ≤ 12

/-- What the text of an hour stands for. -/
inductive HourText (text : String) : Option Meridiem → String → Prop
  | ofDay {plain : String} (plain_eq : Text.WithoutZeros text plain) : HourText text none plain
  | ofHalf {half : Meridiem} {h : Nat} (twelve : TwelveHour half (Text.numeralValue text) h) :
    HourText text (some half) (toString h)

/-- What the texts of a clock time stand for: an hour, then a minute and a second where they are
given. -/
inductive ClockValues (half : Option Meridiem) : List String → Values → Prop
  | hour {h hour : String} (isHour : HourText h half hour) : ClockValues half [h] [(.hour, hour)]
  | minute {h hour m minute : String} (isHour : HourText h half hour)
    (isMinute : Text.WithoutZeros m minute) :
    ClockValues half [h, m] [(.hour, hour), (.minute, minute)]
  | second {h hour m minute s second : String} (isHour : HourText h half hour)
    (isMinute : Text.WithoutZeros m minute) (isSecond : Text.WithoutZeros s second) :
    ClockValues half [h, m, s] [(.hour, hour), (.minute, minute), (.second, second)]

/-! ### Its parts -/

lemma blankAtColon_eq_false : blankAtColon ts = false ↔ ∀ a b, [a, b] <:+: ts →
    ¬ (a.kind = .colon ∧ b.kind = .blank) ∧ ¬ (a.kind = .blank ∧ b.kind = .colon) := by
  have hzip : ∀ a b, (a, b) ∈ ts.zip ts.tail ↔ [a, b] <:+: ts := by
    intro a b
    induction ts with
    | nil => simp
    | cons t ts ih =>
      cases ts with
      | nil =>
        rw [List.infix_cons_iff]
        simp
      | cons u us =>
        rw [List.tail_cons] at ih ⊢
        have hinfix : [a, b] <:+: t :: u :: us ↔ [a, b] <+: t :: u :: us ∨ [a, b] <:+: u :: us :=
          List.infix_cons_iff
        rw [List.zip_cons_cons, List.mem_cons, Prod.mk.injEq, ih, hinfix]
        simp [List.prefix_cons_iff]
  unfold blankAtColon
  rw [List.any_eq_false, Prod.forall]
  simp only [hzip]
  refine forall₂_congr fun a b => imp_congr_right fun _ => ?_
  simp [not_or]

/-- **The numbers of a clock time are read exactly if a colon stands between every two.** -/
theorem clockNumbers_eq_ok_iff {whole : String} :
    clockNumbers whole ts = .ok texts ↔ ColonNumbers ts texts := by
  constructor
  · intro h
    fun_induction clockNumbers whole ts generalizing texts with
    | case1 => cases h
    | case2 n hn =>
      cases h
      exact .last hn
    | case3 => cases h
    | case4 => cases h
    | case5 => cases h
    | case6 n c rest hn hc ih =>
      cases hrest : clockNumbers whole rest with
      | error => rw [hrest] at h; cases h
      | ok others =>
        rw [hrest] at h
        cases h
        exact .cons (not_not.mp hn) (not_not.mp hc) (ih hrest)
  · intro h
    induction h with
    | last number => rw [clockNumbers, if_pos number]
    | cons number colon rest ih =>
      rw [clockNumbers, if_neg (not_not.mpr number), if_neg (not_not.mpr colon), ih]
      rfl

lemma halfDay_of_splitMeridiem {fields : List Token} (h : splitMeridiem ts = (fields, half)) :
    ∃ last, ts = fields ++ last ∧ HalfDay last half := by
  unfold splitMeridiem at h
  split at h
  · rename_i last hlast
    obtain ⟨init, rfl⟩ := List.getLast?_eq_some_iff.mp hlast
    split at h
    · rename_i hk
      cases h
      exact ⟨[last], by rw [List.dropLast_concat], .some hk⟩
    · cases h
      exact ⟨[], by simp, .none⟩
  · cases h
    exact ⟨[], by simp, .none⟩

lemma ColonNumbers.exists_last (h : ColonNumbers ts texts) :
    ∃ n, ts.getLast? = some n ∧ n.kind = .number := by
  induction h with
  | last number => exact ⟨_, rfl, number⟩
  | cons number colon rest ih =>
    obtain ⟨n, hn, hk⟩ := ih
    refine ⟨n, ?_, hk⟩
    rw [List.getLast?_cons, List.getLast?_cons, hn]
    rfl

lemma splitMeridiem_append {last : List Token} (h : ColonNumbers ts texts)
    (hhalf : HalfDay last half) :
    splitMeridiem (ts ++ last) = (ts, half) := by
  unfold splitMeridiem
  cases hhalf with
  | none =>
    obtain ⟨n, hn, hk⟩ := h.exists_last
    rw [List.append_nil, hn]
    simp only [hk]
  | some meridiem =>
    rw [List.getLast?_concat]
    simp only [meridiem, List.dropLast_concat]

lemma twelveHour_iff {half : Meridiem} {h n : Nat} :
    TwelveHour half h n ↔ (1 ≤ h ∧ h ≤ 12) ∧ n = hourOf half h := by
  constructor
  · intro hn
    cases hn with
    | midnight => exact ⟨by decide, rfl⟩
    | morning low high => exact ⟨by omega, (if_neg (by omega)).symm⟩
    | noon => exact ⟨by decide, rfl⟩
    | afternoon low high => exact ⟨by omega, (if_neg (by omega)).symm⟩
  · rintro ⟨⟨low, high⟩, rfl⟩
    by_cases h12 : h = 12
    · subst h12
      cases half
      · exact .midnight
      · exact .noon
    · cases half
      · rw [hourOf, if_neg h12]
        exact .morning low (by omega)
      · rw [hourOf, if_neg h12]
        exact .afternoon low (by omega)

/-- **An hour is read exactly if it is any number, or one from 1 to 12 with am or pm.** -/
theorem exists_clockHour : (∃ hour, clockHour half text = .ok hour) ↔ (half.isSome →
    Text.isNumeral text = true ∧ 1 ≤ Text.numeralValue text ∧ Text.numeralValue text ≤ 12) := by
  unfold clockHour
  cases half with
  | none => simp
  | some half =>
    dsimp only
    cases hw : Text.word? (Text.dropZeros text) with
    | none =>
      refine iff_of_false (by simp) fun hfits => ?_
      obtain ⟨hdigits, -, hhigh⟩ := hfits rfl
      have hmax : 12 ≤ Text.wordMax := by decide
      rw [Text.word?_dropZeros.mpr ⟨hdigits, rfl, by omega⟩] at hw
      cases hw
    | some h =>
      obtain ⟨hdigits, rfl, -⟩ := Text.word?_dropZeros.mp hw
      dsimp only
      split
      · rename_i hfits
        exact iff_of_true ⟨_, rfl⟩ fun _ => ⟨hdigits, hfits⟩
      · rename_i hfits
        exact iff_of_false (by simp) fun h => hfits (h rfl).2

lemma clockHour_of_hourText (hfits : half.isSome →
    Text.isNumeral text = true ∧ 1 ≤ Text.numeralValue text ∧ Text.numeralValue text ≤ 12)
    (h : HourText text half hour) : clockHour half text = .ok hour := by
  unfold clockHour
  cases h with
  | ofDay plain_eq => exact congrArg _ plain_eq.eq_dropZeros.symm
  | ofHalf twelve =>
    obtain ⟨hdigits, hlow, hhigh⟩ := hfits rfl
    have hmax : 12 ≤ Text.wordMax := by decide
    dsimp only
    rw [Text.word?_dropZeros.mpr ⟨hdigits, rfl, by omega⟩]
    dsimp only
    rw [if_pos ⟨hlow, hhigh⟩, (twelveHour_iff.mp twelve).2]

lemma hourText_of_clockHour (h : clockHour half text = .ok hour) : HourText text half hour := by
  unfold clockHour at h
  cases half with
  | none =>
    cases h
    exact .ofDay (Text.withoutZeros_dropZeros text)
  | some half =>
    dsimp only at h
    split at h
    · cases h
    · rename_i hw
      obtain ⟨-, rfl, -⟩ := Text.word?_dropZeros.mp hw
      split at h
      · rename_i hfits
        cases h
        exact .ofHalf (twelveHour_iff.mpr ⟨hfits, rfl⟩)
      · cases h

/-! ### Clock times -/

lemma unit?_of_colonNumbers (h : ColonNumbers ts texts) : ∀ t ∈ ts, t.unit?.isSome = false := by
  have hsign {t : Token} {k : Kind} (hk : t.kind = k) (hu : ∀ u, k ≠ .unit u) :
      t.unit?.isSome = false := by
    unfold Token.unit?
    split
    · rename_i u hunit
      exact absurd (hk.symm.trans hunit) (hu u)
    · rfl
  induction h with
  | last number => simpa using hsign number (by simp)
  | cons number colon rest ih =>
    exact List.forall_mem_cons.mpr
      ⟨hsign number (by simp), List.forall_mem_cons.mpr ⟨hsign colon (by simp), ih⟩⟩

lemma unit?_of_halfDay (h : HalfDay ts half) : ∀ t ∈ ts, t.unit?.isSome = false := by
  cases h with
  | none => simp
  | some meridiem => simp [Token.unit?, meridiem]

lemma ColonNumbers.texts_ne_nil (h : ColonNumbers ts texts) : texts ≠ [] := by
  cases h <;> exact List.cons_ne_nil _ _

variable {tokens : List Token} {vs : Values}

lemma clockForm_of_clock (h : clock tokens = .ok vs) :
    ∃ texts half, ClockForm tokens texts half ∧ ClockValues half texts vs := by
  unfold clock at h
  dsimp only at h
  split at h
  · cases h
  rename_i hblank
  obtain ⟨⟨⟩, -, h⟩ := bind_eq_ok.1 h
  obtain ⟨texts, htexts, h⟩ := bind_eq_ok.1 h
  obtain ⟨last, hsplit, hhalf⟩ := halfDay_of_splitMeridiem
    (Prod.eta (splitMeridiem (significant (trimTrivia tokens)))).symm
  have hnumbers := clockNumbers_eq_ok_iff.mp htexts
  generalize (splitMeridiem (significant (trimTrivia tokens))).2 = half at *
  -- the form is the same for one, two and three numbers
  have hform {h : String} {more : List String} (htexts : texts = h :: more) (hl : more.length ≤ 2)
      {hour : String} (hhour : clockHour half h = .ok hour) : ClockForm tokens texts half := {
    noBlank := blankAtColon_eq_false.mp (Bool.eq_false_iff.mpr hblank)
    split := ⟨_, last, hsplit, hnumbers, hhalf⟩
    atMostThree := by rw [htexts, List.length_cons]; omega
    hour := by
      rw [htexts]
      rintro _ ⟨⟩
      exact exists_clockHour.mp ⟨hour, hhour⟩ }
  refine ⟨texts, half, ?_⟩
  split at h
  · cases h
  · obtain ⟨hour, hhour, heq⟩ := bind_eq_ok.1 h
    cases heq
    exact ⟨hform rfl (by simp) hhour, .hour (hourText_of_clockHour hhour)⟩
  · obtain ⟨hour, hhour, heq⟩ := bind_eq_ok.1 h
    cases heq
    exact ⟨hform rfl (by simp) hhour,
      .minute (hourText_of_clockHour hhour) (Text.withoutZeros_dropZeros _)⟩
  · obtain ⟨hour, hhour, heq⟩ := bind_eq_ok.1 h
    cases heq
    exact ⟨hform rfl (by simp) hhour, .second (hourText_of_clockHour hhour)
      (Text.withoutZeros_dropZeros _) (Text.withoutZeros_dropZeros _)⟩
  · cases h

/-- A clock time is read for what it stands for. -/
lemma clock_of_clockForm (h : ClockForm tokens texts half) (hvs : ClockValues half texts vs) :
    clock tokens = .ok vs := by
  obtain ⟨fields, last, hsplit, hnumbers, hhalf⟩ := h.split
  have hunits : ∀ t ∈ fields ++ last, t.unit?.isSome = false :=
    List.forall_mem_append.mpr ⟨unit?_of_colonNumbers hnumbers, unit?_of_halfDay hhalf⟩
  have hfits := h.hour
  unfold clock
  dsimp only
  rw [blankAtColon_eq_false.mpr h.noBlank, hsplit, rejectUnit_eq_ok hunits,
    splitMeridiem_append hnumbers hhalf]
  simp only [clockNumbers_eq_ok_iff.mpr hnumbers, bind, Except.bind]
  cases hvs with
  | hour isHour =>
    simp only [clockHour_of_hourText (hfits _ rfl) isHour]
    rfl
  | minute isHour isMinute =>
    simp only [clockHour_of_hourText (hfits _ rfl) isHour, isMinute.eq_dropZeros]
    rfl
  | second isHour isMinute isSecond =>
    simp only [clockHour_of_hourText (hfits _ rfl) isHour, isMinute.eq_dropZeros,
      isSecond.eq_dropZeros]
    rfl

lemma exists_clockValues (h : ClockForm tokens texts half) : ∃ vs, ClockValues half texts vs := by
  obtain ⟨fields, last, -, hnumbers, -⟩ := h.split
  have hlength := h.atMostThree
  have hfits := h.hour
  cases texts with
  | nil => exact absurd rfl hnumbers.texts_ne_nil
  | cons first more =>
    obtain ⟨hour, hhour⟩ := exists_clockHour.mpr (hfits first rfl)
    have hour := hourText_of_clockHour hhour
    rcases more with _ | ⟨m, _ | ⟨s, _ | ⟨extra, more⟩⟩⟩
    · exact ⟨_, .hour hour⟩
    · exact ⟨_, .minute hour (Text.withoutZeros_dropZeros m)⟩
    · exact ⟨_, .second hour (Text.withoutZeros_dropZeros m) (Text.withoutZeros_dropZeros s)⟩
    · exact absurd hlength (by simp)

/-- **The grammar of clock times.** Tokens are read as a clock time exactly if they have its form,
and then for the hour, the minute and the second that it stands for. -/
theorem clock_grammar (tokens : List Token) :
    ((∃ vs, clock tokens = .ok vs) ↔ ∃ texts half, ClockForm tokens texts half)
    ∧ ∀ vs, clock tokens = .ok vs
      ↔ ∃ texts half, ClockForm tokens texts half ∧ ClockValues half texts vs := by
  have hread : ∀ vs, clock tokens = .ok vs
      ↔ ∃ texts half, ClockForm tokens texts half ∧ ClockValues half texts vs :=
    fun vs => ⟨clockForm_of_clock, fun ⟨_, _, hform, hvs⟩ => clock_of_clockForm hform hvs⟩
  refine ⟨⟨?_, ?_⟩, hread⟩
  · rintro ⟨vs, h⟩
    obtain ⟨texts, half, hform, -⟩ := (hread vs).mp h
    exact ⟨texts, half, hform⟩
  · rintro ⟨texts, half, hform⟩
    obtain ⟨vs, hvs⟩ := exists_clockValues hform
    exact ⟨vs, (hread vs).mpr ⟨texts, half, hform, hvs⟩⟩

/-- Seconds after noon, with zeros to spare. -/
example : (clock (scan .empty "012:05:007 PM")).toOption
    = some [(.hour, "12"), (.minute, "5"), (.second, "7")] := by decide +kernel

end Value

end Recurrence
