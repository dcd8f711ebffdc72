import Recurrence.Proofs.Resolution.Forms
import Recurrence.Proofs.Value.Composites
import Recurrence.Proofs.Value.UsedTokens

/-!
Special days, from the tokens that they are read from to the days that they stand for. Reading keeps
the words of a special day and puts its number next to them; what comes out is a text that means
something in every month, unless the number is out of reach.

Main statement: `Value.special_days_resolve`.
-/

namespace Recurrence

open Token

/-! ### The texts of special days -/

namespace SpecialDay

/-- The edge that a word means, and whether it is one of the month. -/
def edge? : SpecialDay → Option (Edge × Bool)
  | edge e => some (e, false)
  | edgeDay e => some (e, true)
  | _ => none

lemma edge?_of_takesOffset {day : SpecialDay} (h : day.takesOffset = true) :
    ∃ e ofMonth, day.edge? = some (e, ofMonth) := by
  cases day with
  | edge e => exact ⟨e, false, rfl⟩
  | edgeDay e => exact ⟨e, true, rfl⟩
  | _ => cases h

lemma mem_words {w : String} {day : SpecialDay} (h : ofWord? w = some day)
    (hnth : ∀ n, day ≠ nthWeekday n)
    (hordinal : ∀ n, day ≠ ordinal n) : (w.toLower, day) ∈ words := by
  rcases ofWord?_eq_some h with hd | ⟨n, -, hn⟩ | ⟨n, -, hn⟩
  · exact mem_of_lookup hd
  · exact absurd hn (hnth n)
  · exact absurd hn (hordinal n)

lemma nthWeekday?_of_ofWord? {w : String} {n : NthWeekday} (h : ofWord? w = some (nthWeekday n)) :
    nthWeekday? w = some n := by
  rcases ofWord?_eq_some h with hd | ⟨n', hn, heq⟩ | ⟨n', -, heq⟩
  · have hmem := mem_of_lookup hd
    simp [words] at hmem
  · cases heq
    exact hn
  · cases heq

lemma ofChars?_of_word {w : String} {day : SpecialDay} {e : Edge} {ofMonth : Bool}
    (hw : (w, day) ∈ words)
    (hday : day.edge? = some (e, ofMonth)) {tail : List Char}
    (htail : tail = [] ∨ ∃ ds, tail = '+' :: ds ∨ tail = '-' :: ds) :
    EdgeText.ofChars? (w.toList ++ tail) = (EdgeText.offset? tail).map fun o =>
      ⟨e, ofMonth, o⟩ := by
  simp only [words, List.mem_cons, List.not_mem_nil, or_false, Prod.mk.injEq] at hw
  rcases hw with ⟨rfl, rfl⟩ | ⟨rfl, rfl⟩ | ⟨rfl, rfl⟩ | ⟨rfl, rfl⟩ | ⟨rfl, rfl⟩ | ⟨rfl, rfl⟩
    | ⟨rfl, rfl⟩ | ⟨rfl, rfl⟩
    | ⟨rfl, rfl⟩ | ⟨rfl, rfl⟩ | ⟨rfl, rfl⟩ | ⟨rfl, rfl⟩ <;> cases hday <;>
    rcases htail with rfl | ⟨ds, rfl | rfl⟩ <;> rfl

lemma closestNumber?_of_word {w : String} {day : SpecialDay} (hw : (w, day) ∈ words)
    (hday : day.takesOffset = true)
    (tail : List Char) : Resolution.closestNumber? (w.toList ++ tail) = none := by
  simp only [words, List.mem_cons, List.not_mem_nil, or_false, Prod.mk.injEq] at hw
  rcases hw with ⟨rfl, rfl⟩ | ⟨rfl, rfl⟩ | ⟨rfl, rfl⟩ | ⟨rfl, rfl⟩ | ⟨rfl, rfl⟩ | ⟨rfl, rfl⟩
    | ⟨rfl, rfl⟩ | ⟨rfl, rfl⟩
    | ⟨rfl, rfl⟩ | ⟨rfl, rfl⟩ | ⟨rfl, rfl⟩ | ⟨rfl, rfl⟩ <;> first | rfl | cases hday

lemma smallChars_of_word {w : String} {day : SpecialDay} (hw : ofWord? w = some day) (tail : String)
    (htail : ∀ c ∈ tail.toList.getLast?, Text.isBlank c = false) :
    Text.smallChars (w ++ tail) = w.toLower.toList ++ tail.toList.map Char.toLower := by
  have hsolid : ∀ c ∈ w.toList, Text.isBlank c = false := by
    intro c hc
    rcases digit_or_letter hw c hc with hdigit | hletter
    · exact Text.not_isBlank_of_isDigit hdigit
    · exact isBlank_of_not_breaking hletter.not_breaking
  have hne : w.toList ≠ [] := by
    intro hnil
    have hempty : ofWord? "" = none := by decide +kernel
    rw [String.toList_eq_nil_iff.1 hnil, hempty] at hw
    cases hw
  have htrim : Text.trimChars (w.toList ++ tail.toList) = w.toList ++ tail.toList := by
    refine Text.trimChars_of_ends ?_ ?_
    · rw [List.head?_append_of_ne_nil _ hne]
      exact fun c hc => hsolid c (List.mem_of_mem_head? hc)
    · intro c hc
      rw [List.getLast?_append, Option.mem_def, Option.or_eq_some_iff] at hc
      rcases hc with hc | ⟨-, hc⟩
      · exact htail c hc
      · exact hsolid c (List.mem_of_mem_getLast? hc)
  rw [Text.smallChars, String.toList_append, htrim, List.map_append, toList_toLower]

lemma smallChars_of_number {w : String} {day : SpecialDay} (hw : ofWord? w = some day)
    (sign : String)
    (hsign : sign.toList.map Char.toLower = sign.toList) (n : Nat) :
    Text.smallChars (w ++ sign ++ toString n) = w.toLower.toList
      ++ (sign.toList ++ (toString n).toList) := by
  have hdigits : ∀ c ∈ (toString n).toList, c.isDigit = true :=
    fun c => Text.isDigit_of_mem_toString
  rw [String.append_assoc, smallChars_of_word hw, String.toList_append, List.map_append, hsign,
    Text.map_toLower_of_digits (List.all_eq_true.2 hdigits)]
  intro c hc
  rw [String.toList_append, List.getLast?_append, Option.mem_def, Option.or_eq_some_iff] at hc
  rcases hc with hc | ⟨hnil, -⟩
  · exact Text.not_isBlank_of_isDigit (hdigits c (List.mem_of_mem_getLast? hc))
  · rw [List.getLast?_eq_none_iff, String.toList_eq_nil_iff] at hnil
    exact absurd hnil (Text.toString_ne_empty n)

end SpecialDay

namespace Resolution

open SpecialDay Text

variable {u : TimeUnit} {y m : Int} {w : String} {day : SpecialDay} {e : Edge} {ofMonth : Bool}

lemma ofEdge_ne_invalid {e : EdgeText} (hm : m ≠ 0) (h : ¬ (e.ofMonth = true ∧ u ≠ .day)) :
    ofEdge u y m e ≠ invalid := by
  simp [ofEdge, h, hm]

/-- The unit that a special day is of: days, or for an edge of any unit that it is asked for. -/
def OfUnit (u : TimeUnit) (day : SpecialDay) : Prop := u = .day ∨ u ≠ .timeZone ∧ ∃ e, day = .edge e

lemma OfUnit.ne_timeZone (h : OfUnit u day) : u ≠ .timeZone := by
  rcases h with rfl | h
  · decide
  · exact h.1

lemma OfUnit.of_edge? (h : OfUnit u day) (hday : day.edge? = some (e, ofMonth)) :
    ¬ (ofMonth = true ∧ u ≠ .day) := by
  rintro ⟨rfl, hu⟩
  rcases h with rfl | ⟨-, e', rfl⟩
  · exact hu rfl
  · cases hday

lemma OfUnit.eq_day (h : OfUnit u day) (hday : ∀ e, day ≠ .edge e) : u = .day := by
  rcases h with rfl | ⟨-, e, rfl⟩
  · rfl
  · exact absurd rfl (hday e)

/-- A word by itself, other than an ordinal, has a meaning in every month. -/
theorem ofText_word_ne_invalid (hy : Date.firstYear ≤ y ∧ y ≤ Date.lastYear) (hm : 1 ≤ m ∧ m ≤ 12)
    (hw : ofWord? w = some day) (hday : day.standsAlone = true) (hu : OfUnit u day) :
    ofText u y m w ≠ invalid := by
  have hsmall : smallChars w = w.toLower.toList := by
    simpa using smallChars_of_word hw "" (by simp)
  -- all four words for an edge go through the same reader
  have edge {e : Edge} {ofMonth : Bool} (hmem : (w.toLower, day) ∈ words)
    (hedge : day.edge? = some (e, ofMonth)) :
      ofText u y m w ≠ invalid := by
    have hchars : EdgeText.ofChars? (w.toLower.toList ++ []) = some ⟨e, ofMonth, none⟩ :=
      ofChars?_of_word hmem hedge (Or.inl rfl)
    rw [List.append_nil, ← hsmall] at hchars
    rw [ofText_of_edge hu.ne_timeZone hchars]
    exact ofEdge_ne_invalid (by omega) (hu.of_edge? hedge)
  cases day with
  | edge e => exact edge (mem_words hw (by simp) (by simp)) rfl
  | edgeDay e => exact edge (mem_words hw (by simp) (by simp)) rfl
  | edgeWeekday e =>
    -- the edge of the weekdays has two words, each with a case of its own
    have hwords : ∀ p ∈ words, p.2 = .edgeWeekday e → p.1 = "lastweekday"
        ∨ p.1 = "firstweekday" := by
      cases e <;> decide
    obtain rfl := hu.eq_day (by simp)
    rcases hwords _ (mem_words hw (by simp) (by simp)) rfl with hword | hword
    · rw [ofText_of_lastWeekday hy hm (by rw [hsmall]; exact congrArg String.toList hword)]
      simp
    · rw [ofText_of_firstWeekday hy hm (by rw [hsmall]; exact congrArg String.toList hword)]
      simp
  | closestWeekday => cases hday
  | nthWeekday n =>
    obtain rfl := hu.eq_day (by simp)
    have hn : nthWeekday? (.ofList (smallChars w)) = some n := by
      rw [hsmall, String.ofList_toList, nthWeekday?_toLower]
      exact nthWeekday?_of_ofWord? hw
    rw [ofText_of_nthWeekday hy hm hn]
    exact ofNthWeekday_ne_invalid _ _ n
  | ordinal n => cases hday

lemma length_toString_pos (n : Nat) : 1 ≤ (toString n).toList.length := by
  rw [Nat.one_le_iff_ne_zero, Ne, List.length_eq_zero_iff, String.toList_eq_nil_iff]
  exact toString_ne_empty n

lemma dropWhile_isBlank_toString (n : Nat) :
    (toString n).toList.dropWhile isBlank = (toString n).toList := by
  obtain ⟨d, ds, hds⟩ := List.exists_cons_of_length_pos (length_toString_pos n)
  have hdigit : d.isDigit = true := isDigit_of_mem_toString (by rw [hds]; simp)
  rw [hds, List.dropWhile_cons, not_isBlank_of_isDigit hdigit]
  rfl

lemma digits?_toString (n : Nat) : EdgeText.digits? (toString n).toList
    = if (toString n).length ≤ 6 then some (toString n).toList else none := by
  have hall : (toString n).toList.all isDecimalDigit = true := List.all_eq_true.2 fun c hc => by
    rw [isDecimalDigit, isDigit_of_mem_toString hc, Bool.true_or]
  rw [EdgeText.digits?, dropWhile_isBlank_toString, ← String.length_toList]
  exact if_congr ⟨fun h => h.2.1, fun h => ⟨length_toString_pos n, h, hall⟩⟩ rfl rfl

lemma closestNumber?_toString (hmem : (w, .closestWeekday) ∈ words) (n : Nat) :
    closestNumber? (w.toList ++ (" ".toList ++ (toString n).toList))
      = if (toString n).length ≤ 2 then some (toString n).toList else none := by
  have hall : (toString n).toList.all Char.isDigit = true := isNumeral_toString n
  have hread : closestNumber? (w.toList ++ (" ".toList ++ (toString n).toList))
      = if 1 ≤ ((toString n).toList.dropWhile isBlank).length
        ∧ ((toString n).toList.dropWhile isBlank).length ≤ 2
          ∧ ((toString n).toList.dropWhile isBlank).all Char.isDigit = true
        then some ((toString n).toList.dropWhile isBlank) else none := by
    simp only [words, List.mem_cons, List.not_mem_nil, or_false, Prod.mk.injEq, reduceCtorEq,
      and_false, and_true, false_or] at hmem
    rcases hmem with rfl | rfl <;> rfl
  rw [hread, dropWhile_isBlank_toString, ← String.length_toList]
  exact if_congr ⟨fun h => h.2.1, fun h => ⟨length_toString_pos n, h, hall⟩⟩ rfl rfl

/-- A word with an offset has a meaning when the offset has at most six digits. -/
theorem ofText_offset_invalid_iff (hm : 1 ≤ m ∧ m ≤ 12) (hw : ofWord? w = some day)
    (hday : day.takesOffset = true)
    {sign : String} (hsign : sign = "+" ∨ sign = "-") (hu : OfUnit u day) (n : Nat) :
    ofText u y m (w ++ sign ++ toString n) = invalid ↔ 6 < (toString n).length := by
  obtain ⟨e, ofMonth, hedge⟩ := edge?_of_takesOffset hday
  have hmem := mem_words hw (by rintro n rfl; cases hday) (by rintro n rfl; cases hday)
  have hsmall := smallChars_of_number hw sign (by rcases hsign with rfl | rfl <;> rfl) n
  -- the two signs differ in the direction alone
  obtain ⟨c, dir, hc, hbreaking, hoffset⟩ : ∃ c dir, (sign.toList = [c] ∧ (c = '+' ∨ c = '-'))
      ∧ (c.isDigit = false ∧ (fold c).isLower = false)
      ∧ EdgeText.offset? (sign.toList ++ (toString n).toList)
        = (EdgeText.digits? (toString n).toList).map fun ds => some (dir, ds) := by
    rcases hsign with rfl | rfl
    · exact ⟨'+', .forward, ⟨rfl, Or.inl rfl⟩, ⟨rfl, rfl⟩, rfl⟩
    · exact ⟨'-', .backward, ⟨rfl, Or.inr rfl⟩, ⟨rfl, rfl⟩, rfl⟩
  have hchars : EdgeText.ofChars? (smallChars (w ++ sign ++ toString n))
      = (EdgeText.offset? (sign.toList ++ (toString n).toList)).map fun o => ⟨e, ofMonth, o⟩ := by
    rw [hsmall]
    refine ofChars?_of_word hmem hedge (Or.inr ⟨(toString n).toList, ?_⟩)
    rw [hc.1]
    rcases hc.2 with rfl | rfl
    · exact Or.inl rfl
    · exact Or.inr rfl
  rw [hoffset, digits?_toString] at hchars
  -- six digits are all that an offset may have
  by_cases hlength : (toString n).length ≤ 6
  · rw [if_pos hlength] at hchars
    rw [ofText_of_edge hu.ne_timeZone hchars]
    exact iff_of_false (ofEdge_ne_invalid (by omega) (hu.of_edge? hedge)) (by omega)
  · rw [if_neg hlength] at hchars
    refine iff_of_true
      (ofText_of_sign (c := c) ?_ hbreaking.1 (Bool.eq_false_iff.1 hbreaking.2) hchars ?_)
      (by omega)
    · rw [hsmall, hc.1]
      simp
    · rw [hsmall]
      exact closestNumber?_of_word hmem hday _

/-- The closest-weekday word has a meaning when its number is a day of some month. -/
theorem ofText_closest_invalid_iff (hy : Date.firstYear ≤ y ∧ y ≤ Date.lastYear)
    (hm : 1 ≤ m ∧ m ≤ 12)
    (hw : ofWord? w = some .closestWeekday) (n : Nat) :
    ofText .day y m (w ++ " " ++ toString n) = invalid ↔ ¬ (1 ≤ n ∧ n ≤ 31) := by
  have hmem := mem_words hw (by simp) (by simp)
  have hvalue : digitsValue (toString n).toList = n := numeralValue_toString n
  have hsmall := smallChars_of_number hw " " rfl n
  have hclosest : w.toLower ∈ ["closestweekdayto", "nearestweekdayto"] := by
    simpa [words] using hmem
  have hshort : ∀ n ≤ 31, (toString n).length ≤ 2 := by decide +kernel
  rw [ofText_of_closest hy hm hclosest hsmall, hsmall, closestNumber?_toString hmem]
  by_cases hlength : (toString n).length ≤ 2
  · rw [if_pos hlength]
    dsimp only
    rw [hvalue]
    split_ifs with hn
    · exact iff_of_false (by simp) (by omega)
    · exact iff_of_true rfl (by omega)
  · rw [if_neg hlength]
    exact iff_of_true rfl fun hn => hlength (hshort n hn.2)

end Resolution

namespace Value

open Resolution

variable {ts run : List Token} {vs : Values} {t : Token} {v : TimeUnit × String}

/-- Whether the number of a special day is out of reach: one that is no day of any month, or an
offset of more than six digits, zeros in front not counted. -/
def OutOfReach : List Token → Prop
  | [_, n] => ¬ (1 ≤ Text.numeralValue n.text ∧ Text.numeralValue n.text ≤ 31)
  | [_, _, n] => 6 < (Text.dropZeros n.text).length
  | _ => False

/-- **What genuine tokens of a special day give has a meaning in every month**, unless the number is
out of reach. -/
theorem ofText_special_invalid_iff {u : TimeUnit} {y m : Int}
    (hy : Date.firstYear ≤ y ∧ y ≤ Date.lastYear)
    (hm : 1 ≤ m ∧ m ≤ 12) {day : SpecialDay} {text : String} (hrun : ∀ t ∈ run, t.Genuine)
    (h : special? run = some (day, text)) (hu : OfUnit u day) :
    ofText u y m text = invalid ↔ OutOfReach run := by
  have word {head : Token} {d : SpecialDay} (hmem : head ∈ run) (hhead : head.kind = .special d) :
      SpecialDay.ofWord? head.text = some d := by
    cases means_of_wordKind ((hrun head hmem).wordKind_of_kind hhead rfl nofun) with
    | special hw => exact hw
  cases specialTokens_of_special? h with
  | @ordinal head n hhead =>
    obtain rfl := hu.eq_day (by simp)
    have hn := SpecialDay.ordinal_bounds (word List.mem_cons_self hhead)
    rw [ofText_toString hu.ne_timeZone, ofNumber,
      if_pos ⟨by show (1 : Int) ≤ n; omega, by show (n : Int) ≤ 31; omega⟩]
    exact iff_of_false (by simp) id
  | word hhead hday =>
    exact iff_of_false (ofText_word_ne_invalid hy hm (word List.mem_cons_self hhead) hday hu) id
  | @closest head n hhead hn =>
    obtain rfl := hu.eq_day (by simp)
    rw [dropZeros_of_number (hrun n (by simp)) hn]
    exact ofText_closest_invalid_iff hy hm (word List.mem_cons_self hhead) _
  | @offset head sign n _ hhead hday hsign hn =>
    rw [OutOfReach, dropZeros_of_number (hrun n (by simp)) hn]
    exact ofText_offset_invalid_iff hm (word List.mem_cons_self hhead) hday
      ((hrun sign (by simp)).sign_text hsign) hu _

/-! ### Where special days come from -/

/-- Whether a run of tokens with a special-day word is read as that special day and gives the text
under its unit. -/
def Gives (run : List Token) (v : TimeUnit × String) : Prop :=
  run.any isSpecial = true → ∃ day, special? run = some (day, v.2) ∧ OfUnit v.1 day

/-- Whether texts come from runs of the tokens that hold all their special-day words, each text from
its run. -/
structure ComesFrom (ts : List Token) (runs : List (List Token)) (vs : Values) : Prop where
  subset : ∀ run ∈ runs, run ⊆ ts
  special : runs.flatten.filter isSpecial = ts.filter isSpecial
  gives : List.Forall₂ Gives runs vs

lemma not_isTrivia_of_isSpecial (h : isSpecial t = true) : t.isTrivia = false := by
  unfold isSpecial at h
  split at h
  · rename_i d hk
    rw [isTrivia, hk]
  · cases h

lemma filter_significant (ts : List Token) :
    (significant ts).filter isSpecial = ts.filter isSpecial := by
  rw [significant, List.filter_filter]
  refine List.filter_congr fun t _ => ?_
  cases h : isSpecial t with
  | false => rfl
  | true => rw [not_isTrivia_of_isSpecial h]; rfl

lemma filter_trimTrivia (ts : List Token) :
    (trimTrivia ts).filter isSpecial = ts.filter isSpecial := by
  rw [← filter_significant, significant_trimTrivia, filter_significant]

lemma filter_eq_nil (h : ∀ t ∈ ts, isSpecial t = false) : ts.filter isSpecial = [] :=
  List.filter_eq_nil_iff.2 fun t ht => by simp [h t ht]

lemma comesFrom_nil (h : ts.filter isSpecial = []) (vs : Values) :
    ComesFrom ts (vs.map fun _ => []) vs := by
  refine ⟨?_, ?_, ?_⟩
  · intro run hrun
    obtain ⟨v, -, rfl⟩ := List.mem_map.1 hrun
    exact List.nil_subset _
  · rw [h]
    induction vs with
    | nil => rfl
    | cons v vs ih => exact ih
  · rw [List.forall₂_map_left_iff]
    exact List.forall₂_same.2 fun v _ h => by cases h

lemma ofClock_not_special (h : OfClock t) : isSpecial t = false := by
  cases h with
  | number hk => rw [isSpecial, hk]
  | colon hk => rw [isSpecial, hk]
  | meridiem hk => rw [isSpecial, hk]

lemma filter_clock (h : clock ts = .ok vs) : ts.filter isSpecial = [] := by
  rw [← filter_significant]
  exact filter_eq_nil fun t ht => ofClock_not_special (ofClock_of_clock h t ht)

lemma filter_dateFields (left : Option Token) (ts : List Token) :
    (dateFields left ts).flatten.filter isSpecial = ts.filter isSpecial := by
  induction ts generalizing left with
  | nil => rfl
  | cons t ts ih =>
    rw [dateFields]
    split
    · rename_i hdash
      have hk : t.kind = .dash := by
        rw [isDateDash, Bool.and_eq_true] at hdash
        exact of_decide_eq_true hdash.1
      have ht : isSpecial t = false := by rw [isSpecial, hk]
      rw [List.flatten_cons, List.nil_append, ih, List.filter_cons_of_neg (by simp [ht])]
    · have hflatten := ih (some t)
      split
      · rename_i hnil
        rw [hnil] at hflatten
        rw [List.flatten_singleton, List.filter_cons, List.filter_cons, ← hflatten]
        rfl
      · rename_i field fields hfields
        rw [hfields] at hflatten
        rw [List.flatten_cons, List.cons_append, List.filter_cons, List.filter_cons,
          ← List.flatten_cons, hflatten]

lemma gives_of_dateField {u : TimeUnit} {text : String} (h : dateField u run = .ok text) :
    Gives run (u, text) := by
  intro hspecial
  have single {t : Token} (hrun : run = [t]) (ht : isSpecial t = false) : False := by
    subst hrun
    simp [ht] at hspecial
  rcases special_of_dateField h with ⟨t, hrun, hk, -⟩ | ⟨-, t, hrun, hk, -⟩ | ⟨rfl, e, he⟩
    | ⟨rfl, day, hday⟩
  · exact (single hrun (by rw [isSpecial, hk])).elim
  · exact (single hrun (by rw [isSpecial, hk])).elim
  · exact ⟨_, he, Or.inr ⟨by simp, e, rfl⟩⟩
  · exact ⟨day, hday, Or.inl rfl⟩

lemma comesFrom_date (h : date ts = .ok vs) :
    ComesFrom ts (dateFields none (significant ts)) vs := by
  obtain ⟨units, fields, rfl, hlength, hread, -⟩ := fields_of_date h
  refine ⟨fun field hfield t ht => List.mem_of_mem_filter (mem_of_mem_dateFields hfield ht), ?_, ?_⟩
  · rw [filter_dateFields, filter_significant]
  · rw [← List.map_snd_zip hlength, List.forall₂_map_left_iff]
    exact hread.imp fun p v hp => by
      obtain ⟨u, text⟩ := v
      obtain rfl := hp.2
      exact gives_of_dateField hp.1

/-! ### Runs -/

lemma filter_blank (h : ∀ t ∈ ts, t.kind = .blank) : ts.filter isSpecial = [] :=
  filter_eq_nil fun t ht => by rw [isSpecial, h t ht]

/-- The special-day words of runs are in what the runs mean. -/
lemma filter_all {rs : List Run} (hrs : ∀ r ∈ rs, r ∈ runs ts) :
    (rs.flatMap Run.all).filter isSpecial = (rs.map Run.meaning).flatten.filter isSpecial := by
  induction rs with
  | nil => rfl
  | cons r rs ih =>
    obtain ⟨hr, hrs⟩ := List.forall_mem_cons.1 hrs
    rw [List.flatMap_cons, List.map_cons, List.flatten_cons, List.filter_append, List.filter_append,
      ih hrs, Run.all, Run.meaning, List.filter_append, filter_blank ((splitRuns_blank ts).2 r hr),
      List.append_nil, filter_significant]

lemma filter_runs (ts : List Token) :
    ts.filter isSpecial = ((runs (trimTrivia ts)).map Run.meaning).flatten.filter isSpecial := by
  rw [← filter_all fun r hr => hr, ← filter_trimTrivia]
  conv_lhs => rw [← splitRuns_all (trimTrivia ts)]
  rw [List.filter_append, filter_blank (splitRuns_blank _).1, List.nil_append]
  rfl

lemma comesFrom_dateTime (h : dateTime ts = .ok vs) : ∃ runs, ComesFrom ts runs vs := by
  obtain ⟨run, time, front, back, hfront, hback, rfl, -, hruns⟩ := dateTime_eq_ok h
  have hmem : ∀ r ∈ run :: time, r ∈ runs (trimTrivia ts) := by
    rcases hruns with hruns | hruns
    · exact fun r hr => hruns ▸ hr
    · exact fun r hr => hruns ▸ (List.perm_append_singleton run time).mem_iff.2 hr
  obtain ⟨hrun, htime⟩ := List.forall_mem_cons.1 hmem
  have hdate := comesFrom_date hfront
  have hnil : (time.map Run.meaning).flatten.filter isSpecial = [] := by
    rw [← filter_all htime, filter_clock hback]
  have hclock := comesFrom_nil List.filter_nil back
  refine ⟨_, ?_, ?_, List.rel_append hdate.gives hclock.gives⟩
  · refine List.forall_mem_append.2 ⟨fun field hfield t ht => ?_, fun field hfield => ?_⟩
    · exact mem_of_mem_trimTrivia (mem_of_mem_tokens hrun (hdate.subset field hfield ht))
    · exact List.Subset.trans (hclock.subset field hfield) (List.nil_subset _)
  · rw [List.flatten_append, List.filter_append, hdate.special, hclock.special, filter_runs ts]
    have hmeaning : run.meaning.filter isSpecial = run.tokens.filter isSpecial :=
      filter_significant _
    rcases hruns with hruns | hruns
    · rw [hruns, List.map_cons, List.flatten_cons, List.filter_append, hnil, hmeaning]
      rfl
    · rw [hruns, List.map_append, List.flatten_append, List.filter_append, hnil, List.map_singleton,
        List.flatten_singleton, hmeaning, List.nil_append]
      exact List.append_nil _

/-- What the parts of a day have kept of the tokens they were read from: the one run with a
special-day word. -/
def DayParts.Keeps (p : DayParts) (seen : List Token) : Prop :=
  match p.day with
  | .none => seen.filter isSpecial = []
  | .some text => ∃ run day, run ⊆ seen ∧ special? run = some (day, text)
      ∧ run.filter isSpecial = seen.filter isSpecial

lemma DayParts.Keeps.put {p q : DayParts} {seen : List Token} {whole : String} (hp : p.Keeps seen)
    (hpart : dayPart run = .ok v) (hput : p.put whole v = .ok q) : q.Keeps (seen ++ run) := by
  -- a part that is not the day has no special word and leaves the day as it is
  have other (hday : q.day = p.day) (hrun : run.filter isSpecial = []) : q.Keeps (seen ++ run) := by
    unfold DayParts.Keeps at hp ⊢
    rw [hday, List.filter_append, hrun, List.append_nil]
    split at hp
    · exact hp
    · obtain ⟨first, day, hsub, hspecial, hfilter⟩ := hp
      exact ⟨first, day, List.Subset.trans hsub (List.subset_append_left _ _), hspecial, hfilter⟩
  obtain ⟨u, text⟩ := v
  -- the day is put once, so no special word came before it
  rcases dayPart_eq_ok hpart with ⟨rfl, day, hday⟩ | ⟨rfl, t, rfl, hk, -⟩ | ⟨rfl, t, rfl, hk, -⟩
  · rw [DayParts.put] at hput
    split at hput
    · cases hput
    · rename_i hnone
      cases hput
      unfold DayParts.Keeps at hp
      rw [Option.not_isSome_iff_eq_none.1 hnone] at hp
      exact ⟨run, day, List.subset_append_right _ _, hday,
        by rw [List.filter_append, hp, List.nil_append]⟩
  · rw [DayParts.put] at hput
    split at hput
    · cases hput
    · cases hput
      exact other rfl (filter_eq_nil (List.forall_mem_singleton.2 (by rw [isSpecial, hk])))
  · rw [DayParts.put] at hput
    split at hput
    · cases hput
    · cases hput
      exact other rfl (filter_eq_nil (List.forall_mem_singleton.2 (by rw [isSpecial, hk])))
    · simp
    · simp

lemma DayParts.Keeps.foldlM {p q : DayParts} {seen : List Token} {whole : String}
    {parts : List (List Token)}
    (hp : p.Keeps seen) (h : parts.foldlM (fun p run => do p.put whole (← dayPart run)) p = .ok q) :
    q.Keeps (seen ++ parts.flatten) := by
  induction parts generalizing p seen with
  | nil =>
    cases h
    rwa [List.flatten_nil, List.append_nil]
  | cons run parts ih =>
    rw [List.foldlM_cons] at h
    obtain ⟨p', hp', h⟩ := bind_eq_ok.1 h
    obtain ⟨v, hpart, hput⟩ := bind_eq_ok.1 hp'
    rw [List.flatten_cons, ← List.append_assoc]
    exact ih (hp.put hpart hput) h

lemma comesFrom_dayTime (h : dayTime ts = .ok vs) : ∃ runs, ComesFrom ts runs vs := by
  obtain ⟨before, time, after, back, whole, parts, text, hsplit, hback, hparts, htext, rfl⟩ :=
    dayTime_eq_ok h
  have hmem {r : Run} (hr : r ∈ before ∨ r ∈ time ∨ r ∈ after) : r ∈ runs (trimTrivia ts) :=
    mem_of_mem_splitTime (by rw [hsplit]; exact hr)
  -- the special words outside the time are all in the run of the day
  have hkeeps : parts.Keeps ((before ++ after).map Run.meaning).flatten := by
    rw [← flatten_attachDayNumbers]
    have hstart : DayParts.none.Keeps [] := rfl
    exact hstart.foldlM hparts
  -- and a time of day has none
  have htime : (time.map Run.meaning).flatten.filter isSpecial = [] := by
    rw [← filter_all fun r hr => hmem (Or.inr (Or.inl hr)), filter_clock hback]
  have hfilter :
      ts.filter isSpecial = ((before ++ after).map Run.meaning).flatten.filter isSpecial := by
    have happend := splitTime_append (runs (trimTrivia ts))
    rw [hsplit] at happend
    rw [filter_runs, ← happend]
    simp only [List.map_append, List.flatten_append, List.filter_append, htime, List.nil_append]
  -- the runs are taken from the tokens of the value
  have hsubset : ((before ++ after).map Run.meaning).flatten ⊆ ts := by
    intro t ht
    obtain ⟨field, hfield, ht⟩ := List.mem_flatten.1 ht
    obtain ⟨r, hr, rfl⟩ := List.mem_map.1 hfield
    refine mem_of_mem_trimTrivia (mem_of_mem_tokens (hmem ?_) (List.mem_of_mem_filter ht))
    rcases List.mem_append.1 hr with hr | hr
    · exact Or.inl hr
    · exact Or.inr (Or.inr hr)
  unfold DayParts.Keeps at hkeeps
  rw [htext] at hkeeps
  obtain ⟨run, day, hrun, hspecial, hsame⟩ := hkeeps
  rw [List.cons_append, List.cons_append]
  generalize parts.month.toList.map _ ++ parts.year.toList.map _ ++ back = rest
  have hrest := comesFrom_nil List.filter_nil rest
  refine ⟨run :: rest.map fun _ => [], ?_, ?_, .cons (fun _ => ⟨day, hspecial, Or.inl rfl⟩)
    hrest.gives⟩
  · exact List.forall_mem_cons.2 ⟨List.Subset.trans hrun hsubset, fun field hfield =>
      List.Subset.trans (hrest.subset field hfield) (List.nil_subset _)⟩
  · rw [List.flatten_cons, List.filter_append, hrest.special, hsame, hfilter]
    exact List.append_nil _

/-! ### Every value -/

variable {default : Option TimeUnit}

lemma explicitUnit_keeps {explicit : Option TimeUnit} {rest : List Token}
    (h : explicitUnit ts = .ok (explicit, rest)) :
    rest ⊆ ts ∧ rest.filter isSpecial = ts.filter isSpecial := by
  have hrest : rest = ts.filter fun t => t.unit?.isNone := by
    unfold explicitUnit at h
    dsimp only at h
    split at h <;> cases h <;> rfl
  subst hrest
  refine ⟨List.filter_subset_self _, ?_⟩
  rw [List.filter_filter]
  refine List.filter_congr fun t _ => ?_
  cases ht : isSpecial t with
  | false => rfl
  | true =>
    unfold isSpecial at ht
    split at ht
    · rename_i d hk
      rw [Token.unit?, hk]
      rfl
    · cases ht

lemma comesFrom_specialDay (hts : ∀ t ∈ ts, t.Genuine) (hd : default ≠ some .timeZone)
    (h : specialDay ts default = .ok vs) : ∃ runs, ComesFrom ts runs vs := by
  obtain ⟨⟨explicit, rest⟩, hexplicit, h⟩ := bind_eq_ok.1 h
  obtain ⟨hsub, hfilter⟩ := explicitUnit_keeps hexplicit
  have hfrom {u : TimeUnit} {text : String} {day : SpecialDay}
    (hspecial : special? rest = some (day, text))
      (hu : OfUnit u day) : ComesFrom ts [rest] [(u, text)] :=
    ⟨List.forall_mem_singleton.2 hsub, by rw [List.flatten_singleton, hfilter],
      .cons (fun _ => ⟨day, hspecial, hu⟩) .nil⟩
  dsimp only at h
  split at h
  · cases h
  rename_i day text hspecial
  split at h
  · rename_i u e hu
    cases h
    exact ⟨_, hfrom hspecial
      (Or.inr ⟨or_ne_timeZone (explicitUnit_eq_ok hts hexplicit).1 hd hu, e, rfl⟩)⟩
  · cases h
    exact ⟨_, hfrom hspecial (Or.inl rfl)⟩
  · cases h
    exact ⟨_, hfrom hspecial (Or.inl rfl)⟩
  · cases h

/-- **Every special-day word of a value that is read has gone into one text.** -/
theorem comesFrom_read (hts : ∀ t ∈ ts, t.Genuine) (hd : default ≠ some .timeZone)
    (h : read ts default = .ok vs) :
    ∃ runs, ComesFrom ts runs vs := by
  have hsub : significant (trimTrivia ts) ⊆ ts :=
    fun t ht => mem_of_mem_trimTrivia (List.mem_of_mem_filter ht)
  have hfilter : (significant (trimTrivia ts)).filter isSpecial = ts.filter isSpecial := by
    rw [filter_significant, filter_trimTrivia]
  unfold read at h
  dsimp only at h
  split at h
  · cases h
  split at h
  · exact comesFrom_dateTime h
  · split at h
    · exact comesFrom_dayTime h
    · exact ⟨_, comesFrom_nil (filter_clock h) vs⟩
  · exact ⟨_, comesFrom_date h⟩
  · split at h
    · obtain ⟨runs, hruns⟩ := comesFrom_specialDay (fun t ht => hts t (hsub ht)) hd h
      exact ⟨runs, fun run hrun => List.Subset.trans (hruns.subset run hrun) hsub,
        hruns.special.trans hfilter, hruns.gives⟩
    · rename_i hnone
      refine ⟨_, comesFrom_nil (hfilter ▸ filter_eq_nil fun t ht => ?_) vs⟩
      rw [List.any_eq_true, not_exists] at hnone
      exact Bool.eq_false_iff.2 fun hspecial => hnone t ⟨ht, hspecial⟩

/-- **Whatever is read as a special day stands for one.** The special-day words of a value are
divided among runs of its tokens, and the text that a run with such a word gives has a meaning in
every month of the calendar, unless the number of the run is out of reach. -/
theorem special_days_resolve (hts : ∀ t ∈ ts, t.Genuine) (hd : default ≠ some .timeZone)
    (h : read ts default = .ok vs) : ∃ runs : List (List Token),
      (∀ run ∈ runs, run ⊆ ts) ∧ runs.flatten.filter isSpecial = ts.filter isSpecial
      ∧ List.Forall₂ (fun run v => run.any isSpecial = true → ∃ day, special? run = some (day, v.2)
        ∧ (v.1 = .day ∨ v.1 ≠ .timeZone ∧ ∃ e, day = .edge e)
        ∧ ∀ y m, (Date.firstYear ≤ y ∧ y ≤ Date.lastYear) → (1 ≤ m ∧ m ≤ 12) →
          (ofText v.1 y m v.2 = invalid ↔ OutOfReach run)) runs vs := by
  obtain ⟨runs, hruns⟩ := comesFrom_read hts hd h
  refine ⟨runs, hruns.subset, hruns.special, ?_⟩
  refine ((List.forall₂_and_left _ _).2 ⟨hruns.subset, hruns.gives⟩).imp fun run v hrun hspecial =>
    ?_
  obtain ⟨day, hday, hu⟩ := hrun.2 hspecial
  exact ⟨day, hday, hu, fun y m hy hm =>
    ofText_special_invalid_iff hy hm (fun t ht => hts t (hrun.1 ht)) hday hu⟩

/-- The third to last minute of an hour. -/
theorem special_days_resolve_minute :
    let ts : List Token :=
      [ofText (.special (.edge .last)) "Last" 1 1, ofText .dash "-" 1 5, ofText .number "03" 1 6]
    (∀ t ∈ ts, t.Genuine) ∧ some TimeUnit.minute ≠ some .timeZone
      ∧ read ts (some .minute) = .ok [(.minute, "Last-3")]
      ∧ ∃ runs : List (List Token), (∀ run ∈ runs, run ⊆ ts)
      ∧ runs.flatten.filter isSpecial = ts.filter isSpecial
        ∧ List.Forall₂ (fun run v => run.any isSpecial = true →
          ∃ day, special? run = some (day, v.2)
          ∧ (v.1 = .day ∨ v.1 ≠ .timeZone ∧ ∃ e, day = .edge e)
          ∧ ∀ y m, (Date.firstYear ≤ y ∧ y ≤ Date.lastYear) → (1 ≤ m ∧ m ≤ 12) →
            (ofText v.1 y m v.2 = invalid ↔ OutOfReach run)) runs [(.minute, "Last-3")] := by
  have hgenuine : ∀ t ∈ [ofText (.special (.edge .last)) "Last" 1 1, ofText .dash "-" 1 5,
      ofText .number "03" 1 6], t.Genuine := by
    simp only [List.forall_mem_cons]
    exact ⟨⟨by decide, by decide +kernel⟩, rfl, ⟨by decide, by decide +kernel⟩,
      List.forall_mem_nil _⟩
  have hread : read [ofText (.special (.edge .last)) "Last" 1 1, ofText .dash "-" 1 5,
      ofText .number "03" 1 6] (some .minute) = .ok [(.minute, "Last-3")] := rfl
  exact ⟨hgenuine, by decide, hread, special_days_resolve hgenuine (by decide) hread⟩

end Value

end Recurrence
