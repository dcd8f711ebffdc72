import Recurrence.Proofs.Resolution.LetterCase
import Recurrence.Proofs.Resolution.Months

/-!
Which reading of a text counts. A text is tried as a number, a name, an edge and a day form in turn.
The readings exclude each other, so the one that is possible is the one that counts.

Main statements: `ofText_of_edge`, `ofText_of_nthWeekday`, `ofText_of_firstWeekday`,
`ofText_of_lastWeekday`, `ofText_of_closest` and `ofText_of_sign`.
-/

namespace Recurrence

/-- The characters that are read of a text: small letters, without the blanks at its two ends. -/
def Text.smallChars (text : String) : List Char := (trimChars text.toList).map Char.toLower

/-! ### Edges -/

namespace EdgeText

open SpecialDay

variable {cs : List Char} {e : EdgeText}

lemma dropEdge?_eq_some {edge : Edge} {rest : List Char} (h : dropEdge? cs = some (edge, rest)) :
    ∃ w ∈ ["last", "first"], cs = w.toList ++ rest := by
  unfold dropEdge? at h
  split at h
  · rename_i rest' hlast
    cases h
    exact ⟨"last", by simp, (List.append_eq_of_isPrefixOf?_eq_some hlast).symm⟩
  · obtain ⟨rest', hfirst, heq⟩ := Option.map_eq_some_iff.1 h
    cases heq
    exact ⟨"first", by simp, (List.append_eq_of_isPrefixOf?_eq_some hfirst).symm⟩

lemma ofChars?_eq_some (h : ofChars? cs = some e) :
    ∃ w ∈ ["last", "first"], ∃ d ∈ "" :: dayWords, ∃ tail,
      cs = (w ++ d).toList ++ tail ∧ offset? tail = some e.offset := by
  unfold ofChars? at h
  split at h
  · cases h
  · rename_i edge rest hedge
    obtain ⟨w, hw, rfl⟩ := dropEdge?_eq_some hedge
    split at h
    · rename_i tail htail
      obtain ⟨d, hd, hprefix⟩ := List.exists_of_findSome?_eq_some htail
      obtain ⟨o, ho, rfl⟩ := Option.map_eq_some_iff.1 h
      refine ⟨w, hw, d, List.mem_cons_of_mem _ hd, tail, ?_, ho⟩
      rw [← List.append_eq_of_isPrefixOf?_eq_some hprefix, String.toList_append, List.append_assoc]
    · obtain ⟨o, ho, rfl⟩ := Option.map_eq_some_iff.1 h
      exact ⟨w, hw, "", List.mem_cons_self, rest, by simp, ho⟩

lemma not_letter_of_isBlank {c : Char} (h : Text.isBlank c = true) : ¬ IsLetter c := fun hc => by
  rw [isBlank_of_not_breaking hc.not_breaking] at h
  cases h

lemma not_letter_of_isDecimalDigit {c : Char} (h : Text.isDecimalDigit c = true) :
    ¬ IsLetter c := by
  intro hc
  have hranges : ∀ r ∈ Text.decimalDigitRanges, r.2 ≤ 57 ∨ 384 ≤ r.1 := by decide
  rw [Text.isDecimalDigit, hc.not_digit, Bool.false_or, Text.inRanges_iff] at h
  obtain ⟨r, hr, hlo, hhi⟩ := h
  have := hranges r hr
  rcases hc.toNat with rfl | h | h
  · have : 'ſ'.toNat = 383 := rfl
    omega
  · omega
  · omega

lemma not_letter_of_offset? {o : Option (Direction × List Char)} (h : offset? cs = some o) :
    ∀ c ∈ cs, ¬ IsLetter c := by
  -- digits of any script and the blanks before them are no letters
  have digits {rest ds : List Char} (h : digits? rest = some ds) : ∀ c ∈ rest, ¬ IsLetter c := by
    unfold digits? at h
    dsimp only at h
    split at h
    · rename_i hds
      rw [← List.takeWhile_append_dropWhile (p := Text.isBlank) (l := rest)]
      exact List.forall_mem_append.2 ⟨fun c hc => not_letter_of_isBlank (List.mem_takeWhile_imp hc),
        fun c hc => not_letter_of_isDecimalDigit (List.all_eq_true.1 hds.2.2 c hc)⟩
    · cases h
  have signed {sign : Char} {rest ds : List Char} (hsign : (fold sign).isLower = false)
      (h : digits? rest = some ds) : ∀ c ∈ sign :: rest, ¬ IsLetter c :=
    List.forall_mem_cons.2 ⟨Bool.eq_false_iff.1 hsign, digits h⟩
  -- blanks come first, and then nothing or a sign with digits behind it
  rw [← List.takeWhile_append_dropWhile (p := Text.isBlank) (l := cs)]
  refine List.forall_mem_append.2 ⟨fun c hc => not_letter_of_isBlank (List.mem_takeWhile_imp hc),
    ?_⟩
  unfold offset? at h
  split at h
  · rename_i heq
    rw [heq]
    simp
  · rename_i rest heq
    obtain ⟨ds, hds, -⟩ := Option.map_eq_some_iff.1 h
    exact heq ▸ signed rfl hds
  · rename_i rest heq
    obtain ⟨ds, hds, -⟩ := Option.map_eq_some_iff.1 h
    exact heq ▸ signed rfl hds
  · cases h

lemma not_all_isDigit (h : ofChars? cs = some e) : ¬ cs.all Char.isDigit = true := by
  have hword : ∀ w ∈ ["last", "first"], ¬ w.toList.all Char.isDigit = true := by decide
  obtain ⟨w, hw, d, -, tail, heq, -⟩ := ofChars?_eq_some h
  rw [heq, String.toList_append, List.all_append, List.all_append, Bool.and_eq_true,
    Bool.and_eq_true]
  exact fun hall => hword w hw hall.1.1

lemma mem_words_of_ofChars? (h : ofChars? cs = some e) (hcs : DigitsThenLetters cs) :
    ∃ w ∈ ["last", "first"], ∃ d ∈ "" :: dayWords, cs = (w ++ d).toList := by
  obtain ⟨w, hw, d, hd, tail, rfl, htail⟩ := ofChars?_eq_some h
  refine ⟨w, hw, d, hd, ?_⟩
  obtain ⟨ds, ls, heq, hds, hls⟩ := hcs
  cases tail with
  | nil => exact List.append_nil _
  | cons t tail =>
    -- The word starts with a letter, so there are no digits in it and `t` is a letter.
    obtain ⟨c, rest, hc, hdigit⟩ : ∃ c rest, w.toList = c :: rest ∧ c.isDigit = false := by
      simp only [List.mem_cons, List.not_mem_nil, or_false] at hw
      rcases hw with rfl | rfl
      · exact ⟨'l', "ast".toList, rfl, rfl⟩
      · exact ⟨'f', "irst".toList, rfl, rfl⟩
    obtain rfl : ds = [] := by
      cases ds with
      | nil => rfl
      | cons c' ds =>
        rw [String.toList_append, hc] at heq
        obtain rfl := List.head_eq_of_cons_eq heq
        rw [hds c List.mem_cons_self] at hdigit
        cases hdigit
    refine absurd (hls t ?_) (not_letter_of_offset? htail t List.mem_cons_self)
    rw [List.nil_append] at heq
    rw [← heq]
    simp

lemma ofChars?_of_nthWeekday? {n : NthWeekday} (h : nthWeekday? (.ofList cs) = some n) :
    ofChars? cs = none := by
  have hwords : ∀ w ∈ ["last", "first"], ∀ d ∈ "" :: dayWords, nthWeekday? (w ++ d) = none := by
    decide +kernel
  have hcs := digitsThenLetters_of_nthWeekday? h
  rw [String.toList_ofList] at hcs
  rw [Option.eq_none_iff_forall_not_mem]
  intro e he
  obtain ⟨w, hw, d, hd, rfl⟩ := mem_words_of_ofChars? he hcs
  rw [String.ofList_toList, hwords w hw d hd] at h
  cases h

lemma ofChars?_of_name {u : TimeUnit} {v : Int} (h : Resolution.ofName? u (.ofList cs) = some v) :
    ofChars? (cs.map Char.toLower) = none := by
  have table {α : Type} {names : List (String × α)} {a : α}
      (hnames : ∀ p ∈ names, ofChars? p.1.toList = none)
      (hlookup : names.lookup (String.ofList cs).toLower = some a) :
      ofChars? (cs.map Char.toLower) = none := by
    have hname := hnames _ (mem_of_lookup hlookup)
    rwa [toList_toLower, String.toList_ofList] at hname
  cases u with
  | week =>
    obtain ⟨w, hw, -⟩ := Option.map_eq_some_iff.1 h
    exact table (by decide) hw
  | month => exact table (by decide) h
  | _ => cases h

end EdgeText

lemma SpecialDay.not_all_isDigit_of_nthWeekday? {cs : List Char} {n : NthWeekday}
    (h : nthWeekday? (.ofList cs) = some n) : ¬ cs.all Char.isDigit = true := by
  intro hall
  have hcompound : isCompound (.ofList (cs ++ [])) = false := by
    refine not_compound ?_ (List.all_eq_true.1 hall) (by simp) rfl
    rintro rfl
    have : nthWeekday? (.ofList []) = none := by decide +kernel
    rw [this] at h
    cases h
  rw [List.append_nil, isCompound, h, Option.isSome_some, Bool.or_true] at hcompound
  cases hcompound

namespace Resolution

open SpecialDay Text

variable {u : TimeUnit} {y m : Int} {text : String}

lemma all_isDigit_smallChars (text : String) :
    (smallChars text).all Char.isDigit = (trimChars text.toList).all Char.isDigit := by
  rw [smallChars, List.all_map, show Char.isDigit ∘ Char.toLower = Char.isDigit
    from funext isDigit_toLower]

/-- Past the numbers, a text is read in small letters throughout. -/
lemma ofText_eq (hu : u ≠ .timeZone) (hdigits : ¬ (smallChars text).all Char.isDigit = true) :
    ofText u y m text = match ofName? u (.ofList (smallChars text)) with
      | some v => value v
      | none =>
        match EdgeText.ofChars? (smallChars text) with
        | some e => ofEdge u y m e
        | none => if u = TimeUnit.day then ofDayForm y m (.ofList (smallChars text))
            else invalid := by
  rw [all_isDigit_smallChars] at hdigits
  have hne : trimChars text.toList ≠ [] := fun hnil => hdigits (by rw [hnil]; rfl)
  unfold ofText
  dsimp only
  rw [if_neg (not_or.2 ⟨hu, hne⟩), if_neg hdigits, ← ofName?_toLower]
  rfl

/-- **A text that can be an edge is one.** -/
theorem ofText_of_edge {e : EdgeText} (hu : u ≠ .timeZone)
    (h : EdgeText.ofChars? (smallChars text) = some e) :
    ofText u y m text = ofEdge u y m e := by
  have hname : ofName? u (.ofList (smallChars text)) = none := by
    rw [Option.eq_none_iff_forall_not_mem]
    intro v hv
    have hnone := EdgeText.ofChars?_of_name hv
    rw [smallChars, map_toLower_again, ← smallChars, h] at hnone
    cases hnone
  rw [ofText_eq hu (EdgeText.not_all_isDigit h), hname, h]

lemma ofText_eq_ofDayForm (hdigits : ¬ (smallChars text).all Char.isDigit = true)
    (h : EdgeText.ofChars? (smallChars text) = none) :
    ofText .day y m text = ofDayForm y m (.ofList (smallChars text)) := by
  rw [ofText_eq (by decide) hdigits, h]
  rfl

/-! ### Day forms -/

variable (hy : Date.firstYear ≤ y ∧ y ≤ Date.lastYear) (hm : 1 ≤ m ∧ m ≤ 12)
include hy hm

/-- **A weekday compound is the n-th weekday of the month.** -/
theorem ofText_of_nthWeekday {n : NthWeekday}
    (h : nthWeekday? (.ofList (smallChars text)) = some n) :
    ofText .day y m text
      = ofNthWeekday (Date.ofFields y m 1)
        ⟨(Date.ofFields y m 1).number + (Date.daysInMonth y m - 1)⟩ n := by
  rw [ofText_eq_ofDayForm (not_all_isDigit_of_nthWeekday? h) (EdgeText.ofChars?_of_nthWeekday? h),
    ofDayForm, Date.ofFields?_first hy hm]
  dsimp only
  rw [h]

/-- **The first working day of the month is looked for from its first day on.** -/
theorem ofText_of_firstWeekday (h : smallChars text = "firstweekday".toList) :
    ofText .day y m text = value (workingDayFrom (Date.ofFields y m 1)).dayOfMonth := by
  have hedge : EdgeText.ofChars? "firstweekday".toList = none := by decide
  have hnth : nthWeekday? "firstweekday" = none := by decide +kernel
  rw [ofText_eq_ofDayForm (by rw [h]; decide) (by rw [h]; exact hedge), h, String.ofList_toList,
    ofDayForm, Date.ofFields?_first hy hm]
  dsimp only
  rw [hnth]
  rfl

/-- **The last working day of the month is looked for from its last day back.** -/
theorem ofText_of_lastWeekday (h : smallChars text = "lastweekday".toList) :
    ofText .day y m text = value
      (workingDayUpto ⟨(Date.ofFields y m 1).number + (Date.daysInMonth y m - 1)⟩).dayOfMonth := by
  have hedge : EdgeText.ofChars? "lastweekday".toList = none := by decide
  have hnth : nthWeekday? "lastweekday" = none := by decide +kernel
  rw [ofText_eq_ofDayForm (by rw [h]; decide) (by rw [h]; exact hedge), h, String.ofList_toList,
    ofDayForm, Date.ofFields?_first hy hm]
  dsimp only
  rw [hnth]
  rfl

omit hy hm in
lemma exists_of_closestNumber? {cs ds : List Char} (h : closestNumber? cs = some ds) :
    ∃ w ∈ ["closestweekdayto", "nearestweekdayto"], ∃ rest, cs = w.toList ++ rest := by
  obtain ⟨rest, hrest, -⟩ := Option.bind_eq_some_iff.1 h
  obtain ⟨w, hw, hprefix⟩ := List.exists_of_findSome?_eq_some hrest
  exact ⟨w, hw, rest, (List.append_eq_of_isPrefixOf?_eq_some hprefix).symm⟩

/-- **A text with a closest-weekday word is that word's day number, or nothing.** -/
theorem ofText_of_closest {w : String} {rest : List Char}
    (hw : w ∈ ["closestweekdayto", "nearestweekdayto"])
    (h : smallChars text = w.toList ++ rest) :
    ofText .day y m text = match closestNumber? (smallChars text) with
      | some ds =>
        if 1 ≤ (digitsValue ds : Int) ∧ (digitsValue ds : Int) ≤ 31 then
          value (closestWeekday y m (min (digitsValue ds) (Date.daysInMonth y m)))
        else invalid
      | none => invalid := by
  -- the word is none of the other forms that are tried before it
  have hforms : ¬ (smallChars text).all Char.isDigit = true
      ∧ EdgeText.ofChars? (smallChars text) = none
      ∧ dropFolded? "last".toList (smallChars text) = none ∧ dropNth? (smallChars text) = none
      ∧ (smallChars text).takeWhile Char.isDigit = []
      ∧ smallChars text ≠ "firstweekday".toList ∧ smallChars text ≠ "lastweekday".toList := by
    rw [h]
    simp only [List.mem_cons, List.not_mem_nil, or_false] at hw
    rcases hw with rfl | rfl
    · exact ⟨by simp, rfl, rfl, rfl, rfl, by simp, by simp⟩
    · exact ⟨by simp, rfl, rfl, rfl, rfl, by simp, by simp⟩
  obtain ⟨hdigits, hedge, hlast, hnth, hnumber, hfirst', hlast'⟩ := hforms
  have hweekday : nthWeekday? (.ofList (smallChars text)) = none := by
    simp only [nthWeekday?, String.toList_ofList, hlast, hnth]
  have hordinal : ordinalDay? (.ofList (smallChars text)) = none := by
    rw [ordinalDay?, String.toList_ofList, hnumber]
    exact if_neg fun h => absurd h.2.2.1 (by decide)
  have hne {v : String} (hv : smallChars text ≠ v.toList) :
      String.ofList (smallChars text) ≠ v := by
    rintro rfl
    exact hv String.toList_ofList.symm
  rw [ofText_eq_ofDayForm hdigits hedge, ofDayForm, Date.ofFields?_first hy hm]
  dsimp only
  rw [hweekday]
  dsimp only
  rw [if_neg (hne hfirst'), if_neg (hne hlast'), String.toList_ofList]
  cases closestNumber? (smallChars text) with
  | some ds => rfl
  | none => simp only [hordinal]

omit hy hm in
lemma isLetter_of_ofName? {cs : List Char} {v : Int} (h : ofName? u (.ofList cs) = some v) :
    ∀ c ∈ cs, IsLetter c := by
  cases u with
  | week =>
    obtain ⟨w, hw, -⟩ := Option.map_eq_some_iff.1 h
    exact isLetter_of_weekday hw
  | month => simpa using isLetter_of_monthName h
  | _ => cases h

omit hy hm in
/-- **No reading but those of an edge and of a closest-weekday word takes other characters than
digits and letters.** -/
theorem ofText_of_sign {c : Char} (hc : c ∈ smallChars text) (hdigit : c.isDigit = false)
    (hletter : ¬ IsLetter c)
    (hedge : EdgeText.ofChars? (smallChars text) = none)
    (hclosest : closestNumber? (smallChars text) = none) :
    ofText u y m text = invalid := by
  -- every form but the two that are excluded is made of digits and letters
  have hcompound (h : DigitsThenLetters (smallChars text)) : False := by
    obtain ⟨ds, ls, heq, hds, hls⟩ := h
    rw [heq] at hc
    rcases List.mem_append.1 hc with hc | hc
    · rw [hds c hc] at hdigit
      cases hdigit
    · exact hletter (hls c hc)
  have hname : ofName? u (.ofList (smallChars text)) = none := by
    rw [Option.eq_none_iff_forall_not_mem]
    exact fun v hv => hletter (isLetter_of_ofName? hv c hc)
  have hweekday : nthWeekday? (.ofList (smallChars text)) = none := by
    rw [Option.eq_none_iff_forall_not_mem]
    intro n hn
    exact hcompound (by simpa using digitsThenLetters_of_nthWeekday? hn)
  have hordinal : ordinalDay? (.ofList (smallChars text)) = none := by
    rw [Option.eq_none_iff_forall_not_mem]
    intro n hn
    exact hcompound (by simpa using digitsThenLetters_of_ordinalDay? hn)
  have hword {w : String} (hw : w.toLower.toList.all Char.isLower = true) :
      String.ofList (smallChars text) ≠ w := by
    rintro rfl
    exact hletter (isLetter_of_toLower hw c (by simpa using hc))
  by_cases hu : u = .timeZone
  · unfold ofText
    exact if_pos (Or.inl hu)
  · rw [ofText_eq hu fun hall => by simp [List.all_eq_true.1 hall c hc] at hdigit, hname, hedge]
    dsimp only
    split
    · unfold ofDayForm
      split
      · rfl
      · dsimp only
        rw [hweekday]
        dsimp only
        rw [if_neg (hword (by decide +kernel)), if_neg (hword (by decide +kernel)),
          String.toList_ofList, hclosest, hordinal]
    · rfl

end Resolution

end Recurrence
