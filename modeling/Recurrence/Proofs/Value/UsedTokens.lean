import Recurrence.Proofs.Token.LetterCase
import Recurrence.Proofs.Value.Forms

/-!
The tokens of values. Every reader of a value looks at all its tokens but blanks and punctuation,
and has no use for a zone or for what is not known, so that none is in a value that is read.

Main statement: `not_odd_of_read`.
-/

namespace Recurrence

open Token

variable {ts : List Token} {t : Token}

namespace Token

lemma not_odd_of_kind {k : Kind} (ht : t.kind = k) (hk : k ≠ .zoneId ∧ k ≠ .unknown) : ¬ t.Odd := by
  rintro (h | h)
  · exact hk.1 (ht.symm.trans h)
  · exact hk.2 (ht.symm.trans h)

lemma not_odd_of_isTrivia (h : t.isTrivia = true) : ¬ t.Odd := by
  rintro (hk | hk) <;> rw [isTrivia, hk] at h <;> cases h

lemma not_odd_of_unit? (h : t.unit?.isSome = true) : ¬ t.Odd := by
  rintro (hk | hk) <;> rw [unit?, hk] at h <;> cases h

lemma not_odd_of_significant (h : ∀ t ∈ significant ts, ¬ t.Odd) : ∀ t ∈ ts, ¬ t.Odd := by
  intro t ht
  by_cases htrivia : t.isTrivia = true
  · exact not_odd_of_isTrivia htrivia
  · exact h t (List.mem_filter.2 ⟨ht, by simpa using htrivia⟩)

lemma splitRuns_blank (ts : List Token) : (∀ t ∈ (splitRuns ts).1, t.kind = .blank)
    ∧ ∀ r ∈ (splitRuns ts).2, ∀ t ∈ r.gap, t.kind = .blank := by
  induction ts with
  | nil => exact ⟨by simp [splitRuns], by simp [splitRuns]⟩
  | cons t ts ih =>
    rw [splitRuns]
    rcases hs : splitRuns ts with ⟨lead, runs⟩
    rw [hs] at ih
    dsimp only at ih ⊢
    split_ifs with ht
    · exact ⟨List.forall_mem_cons.2 ⟨ht, ih.1⟩, ih.2⟩
    · cases lead with
      | nil =>
        cases runs with
        | nil => exact ⟨by simp, by simp⟩
        | cons r runs =>
          obtain ⟨hr, hruns⟩ := List.forall_mem_cons.1 ih.2
          exact ⟨by simp, List.forall_mem_cons.2 ⟨hr, hruns⟩⟩
      | cons b lead => exact ⟨by simp, List.forall_mem_cons.2 ⟨ih.1, ih.2⟩⟩

lemma not_odd_of_runs (h : ∀ r ∈ runs ts, ∀ t ∈ r.tokens, ¬ t.Odd) : ∀ t ∈ ts, ¬ t.Odd := by
  obtain ⟨hlead, hgap⟩ := splitRuns_blank ts
  have hblank {t : Token} (ht : t.kind = .blank) : ¬ t.Odd := not_odd_of_kind ht (by decide)
  intro t ht
  rw [← splitRuns_all ts, List.mem_append, List.mem_flatMap] at ht
  rcases ht with ht | ⟨r, hr, ht⟩
  · exact hblank (hlead t ht)
  · rcases List.mem_append.1 ht with ht | ht
    · exact h r hr t ht
    · exact hblank (hgap r hr t ht)

end Token

namespace Value

variable {vs : Values}

lemma not_odd_of_trimTrivia (h : ∀ t ∈ trimTrivia ts, ¬ t.Odd) : ∀ t ∈ ts, ¬ t.Odd := by
  refine not_odd_of_significant fun t ht => ?_
  rw [← significant_trimTrivia] at ht
  exact h t (List.mem_of_mem_filter ht)

/-! ### Clock times -/

/-- What clock times are made of. -/
inductive OfClock (t : Token) : Prop
  | number (hk : t.kind = .number)
  | colon (hk : t.kind = .colon)
  | meridiem {half : Meridiem} (hk : t.kind = .meridiem half)

lemma OfClock.not_odd (h : OfClock t) : ¬ t.Odd := by
  cases h with
  | number hk => exact not_odd_of_kind hk (by decide)
  | colon hk => exact not_odd_of_kind hk (by decide)
  | meridiem hk => exact not_odd_of_kind hk ⟨Kind.noConfusion, Kind.noConfusion⟩

lemma ofClock_of_clockNumbers {whole : String} {texts : List String}
    (h : clockNumbers whole ts = .ok texts) :
    ∀ t ∈ ts, OfClock t := by
  fun_induction clockNumbers whole ts generalizing texts with
  | case1 => cases h
  | case2 n hn => exact List.forall_mem_singleton.2 (.number hn)
  | case3 n hn => cases h
  | case4 n c rest hn => cases h
  | case5 n c rest hn hc => cases h
  | case6 n c rest hn hc ih =>
    rw [not_not] at hn hc
    cases hrest : clockNumbers whole rest with
    | error => rw [hrest] at h; cases h
    | ok texts =>
      exact List.forall_mem_cons.2 ⟨.number hn, List.forall_mem_cons.2 ⟨.colon hc, ih hrest⟩⟩

lemma ofClock_of_splitMeridiem (h : ∀ t ∈ (splitMeridiem ts).1, OfClock t) :
    ∀ t ∈ ts, OfClock t := by
  unfold splitMeridiem at h
  split at h
  · rename_i last hlast
    split at h
    · rename_i half hk
      obtain ⟨init, rfl⟩ := List.getLast?_eq_some_iff.1 hlast
      rw [List.dropLast_concat] at h
      exact List.forall_mem_append.2 ⟨h, List.forall_mem_singleton.2 (.meridiem hk)⟩
    · exact h
  · exact h

/-- **A clock time is made of numbers, colons, am and pm.** -/
theorem ofClock_of_clock (h : clock ts = .ok vs) : ∀ t ∈ significant ts, OfClock t := by
  unfold clock at h
  dsimp only at h
  split at h
  · cases h
  obtain ⟨-, -, h⟩ := bind_eq_ok.1 h
  obtain ⟨texts, htexts, -⟩ := bind_eq_ok.1 h
  rw [significant_trimTrivia] at htexts
  exact ofClock_of_splitMeridiem (ofClock_of_clockNumbers htexts)

theorem not_odd_of_clock (h : clock ts = .ok vs) : ∀ t ∈ ts, ¬ t.Odd :=
  not_odd_of_significant fun t ht => (ofClock_of_clock h t ht).not_odd

/-! ### Dates -/

lemma not_odd_of_special? {p : SpecialDay × String} (h : special? ts = some p) :
    ∀ t ∈ ts, ¬ t.Odd := by
  have hword {head : Token} {day : SpecialDay} (hk : head.kind = .special day) : ¬ head.Odd :=
    not_odd_of_kind hk ⟨Kind.noConfusion, Kind.noConfusion⟩
  have hnumber {n : Token} (hk : n.kind = .number) : ¬ n.Odd := not_odd_of_kind hk (by decide)
  obtain ⟨day, text⟩ := p
  cases specialTokens_of_special? h with
  | ordinal hhead => exact List.forall_mem_singleton.2 (hword hhead)
  | word hhead hday => exact List.forall_mem_singleton.2 (hword hhead)
  | closest hhead hn =>
    exact List.forall_mem_cons.2 ⟨hword hhead, List.forall_mem_singleton.2 (hnumber hn)⟩
  | offset hhead hday hsign hn =>
    refine List.forall_mem_cons.2
      ⟨hword hhead, List.forall_mem_cons.2 ⟨?_, List.forall_mem_singleton.2 (hnumber hn)⟩⟩
    rcases hsign with hsign | hsign
    · exact not_odd_of_kind hsign (by decide)
    · exact not_odd_of_kind hsign (by decide)

lemma mem_dateFields (left : Option Token) (ht : t ∈ ts) :
    t.kind = .dash ∨ ∃ field ∈ dateFields left ts, t ∈ field := by
  -- from the left: a token is dropped only as a dash, and kept in the field it is in
  induction ts generalizing left with
  | nil => cases ht
  | cons a ts ih =>
    rw [dateFields]
    split
    · rename_i hdash
      rcases List.mem_cons.1 ht with rfl | ht
      · rw [isDateDash, Bool.and_eq_true] at hdash
        exact Or.inl (of_decide_eq_true hdash.1)
      · rcases ih (some a) ht with hdash | ⟨field, hf, htf⟩
        · exact Or.inl hdash
        · exact Or.inr ⟨field, List.mem_cons_of_mem _ hf, htf⟩
    · split
      · rename_i hnil
        rcases List.mem_cons.1 ht with rfl | ht
        · exact Or.inr ⟨[t], by simp, by simp⟩
        · rcases ih (some a) ht with hdash | ⟨field, hf, -⟩
          · exact Or.inl hdash
          · rw [hnil] at hf
            cases hf
      · rename_i field fields hfields
        rcases List.mem_cons.1 ht with rfl | ht
        · exact Or.inr ⟨t :: field, by simp, by simp⟩
        · rcases ih (some a) ht with hdash | ⟨field', hf, htf⟩
          · exact Or.inl hdash
          · rw [hfields] at hf
            rcases List.mem_cons.1 hf with rfl | hf
            · exact Or.inr ⟨a :: field', by simp, List.mem_cons_of_mem _ htf⟩
            · exact Or.inr ⟨field', List.mem_cons_of_mem _ hf, htf⟩

lemma not_odd_of_dateField {u : TimeUnit} {field : List Token} {text : String}
    (h : dateField u field = .ok text) : ∀ t ∈ field, ¬ t.Odd := by
  rcases special_of_dateField h with ⟨t, rfl, hk, -⟩ | ⟨-, t, rfl, hk, -⟩ | ⟨-, e, hs⟩
    | ⟨-, day, hs⟩
  · exact List.forall_mem_singleton.2 (not_odd_of_kind hk (by decide))
  · exact List.forall_mem_singleton.2 (not_odd_of_kind hk (by decide))
  · exact not_odd_of_special? hs
  · exact not_odd_of_special? hs

theorem not_odd_of_date (h : date ts = .ok vs) : ∀ t ∈ ts, ¬ t.Odd := by
  obtain ⟨units, fields, hfields, hlength, hread, -⟩ := fields_of_date h
  have hall : ∀ p ∈ units.zip fields, ∀ t ∈ p.2, ¬ t.Odd := by
    clear h hlength hfields
    generalize units.zip fields = ps at hread ⊢
    induction hread with
    | nil => simp
    | cons hfield _ ih => exact List.forall_mem_cons.2 ⟨not_odd_of_dateField hfield.1, ih⟩
  refine not_odd_of_significant fun t ht => ?_
  rcases mem_dateFields none ht with hdash | ⟨field, hf, htf⟩
  · exact not_odd_of_kind hdash (by decide)
  · rw [← hfields, ← List.map_snd_zip hlength] at hf
    obtain ⟨p, hp, rfl⟩ := List.mem_map.1 hf
    exact hall p hp t htf

/-! ### Days and times -/

theorem not_odd_of_dateTime (h : dateTime ts = .ok vs) : ∀ t ∈ ts, ¬ t.Odd := by
  obtain ⟨run, time, front, back, hfront, hback, -, -, hruns⟩ := dateTime_eq_ok h
  have hall : ∀ r ∈ run :: time, ∀ t ∈ r.tokens, ¬ t.Odd := by
    refine List.forall_mem_cons.2 ⟨not_odd_of_date hfront, fun r hr t ht => ?_⟩
    exact not_odd_of_clock hback t (List.mem_flatMap.2 ⟨r, hr, List.mem_append_left _ ht⟩)
  refine not_odd_of_trimTrivia (not_odd_of_runs fun r hr => hall r ?_)
  rcases hruns with hruns | hruns
  · exact hruns ▸ hr
  · exact (List.perm_append_singleton run time).mem_iff.1 (hruns ▸ hr)

lemma splitTime_append (rs : List Run) :
    (splitTime rs).1 ++ ((splitTime rs).2.1 ++ (splitTime rs).2.2) = rs := by
  have hall : rs.takeWhile (fun r => !isTimed r.meaning)
      ++ ((rs.dropWhile fun r => !isTimed r.meaning).takeWhile (fun r => isTimed r.meaning)
        ++ (rs.dropWhile fun r => !isTimed r.meaning).dropWhile fun r => isTimed r.meaning)
      = rs := by
    rw [List.takeWhile_append_dropWhile, List.takeWhile_append_dropWhile]
  unfold splitTime
  dsimp only
  split
  · split
    · rw [List.append_assoc, List.dropLast_eq_take, ← List.append_assoc, List.take_append_drop]
      exact hall
    · exact hall
  · exact hall

lemma flatten_attachDayNumbers (parts : List (List Token)) :
    (attachDayNumbers parts).flatten = parts.flatten := by
  fun_induction attachDayNumbers parts with
  | case1 w n rest hw ih => simp [ih]
  | case2 t n rest h ih => simp [ih]
  | case3 run rest h ih => simp [ih]
  | case4 => rfl

lemma not_odd_of_dayPart {run : List Token} {p : TimeUnit × String} (h : dayPart run = .ok p) :
    ∀ t ∈ run, ¬ t.Odd := by
  rcases dayPart_eq_ok h with ⟨-, day, hday⟩ | ⟨-, t, rfl, hk, -⟩ | ⟨-, t, rfl, hk, -⟩
  · exact not_odd_of_special? hday
  · exact List.forall_mem_singleton.2 (not_odd_of_kind hk (by decide))
  · exact List.forall_mem_singleton.2 (not_odd_of_kind hk (by decide))

lemma forall_of_foldlM {whole : String} {runs : List (List Token)} {p q : DayParts}
    (h : runs.foldlM (fun parts run => do parts.put whole (← dayPart run)) p = .ok q) :
    ∀ run ∈ runs, ∃ part, dayPart run = .ok part := by
  induction runs generalizing p with
  | nil => simp
  | cons run runs ih =>
    rw [List.foldlM_cons] at h
    obtain ⟨parts, hparts, hrest⟩ := bind_eq_ok.1 h
    obtain ⟨part, hpart, -⟩ := bind_eq_ok.1 hparts
    exact List.forall_mem_cons.2 ⟨⟨part, hpart⟩, ih hrest⟩

theorem not_odd_of_dayTime (h : dayTime ts = .ok vs) : ∀ t ∈ ts, ¬ t.Odd := by
  obtain ⟨before, time, after, back, whole, parts, day, hsplit, hback, hparts, -, -⟩ :=
    dayTime_eq_ok h
  have hclock := not_odd_of_clock hback
  have hday : ∀ t ∈ ((before ++ after).map Run.meaning).flatten, ¬ t.Odd := by
    intro t ht
    rw [← flatten_attachDayNumbers, List.mem_flatten] at ht
    obtain ⟨run, hrun, ht⟩ := ht
    obtain ⟨part, hpart⟩ := forall_of_foldlM hparts run hrun
    exact not_odd_of_dayPart hpart t ht
  have hmeaning : ∀ r ∈ before ++ after, ∀ t ∈ r.tokens, ¬ t.Odd := fun r hr =>
    not_odd_of_significant fun t ht =>
      hday t (List.mem_flatten.2 ⟨r.meaning, List.mem_map_of_mem hr, ht⟩)
  have hruns : ∀ r ∈ runs (trimTrivia ts), ∀ t ∈ r.tokens, ¬ t.Odd := by
    intro r hr
    have happend := splitTime_append (runs (trimTrivia ts))
    rw [hsplit] at happend
    rw [← happend, List.mem_append, List.mem_append] at hr
    rcases hr with hr | hr | hr
    · exact hmeaning r (List.mem_append_left _ hr)
    · exact fun t ht => hclock t (List.mem_flatMap.2 ⟨r, hr, List.mem_append_left _ ht⟩)
    · exact hmeaning r (List.mem_append_right _ hr)
  exact not_odd_of_trimTrivia (not_odd_of_runs hruns)

/-! ### Single values -/

lemma not_odd_of_explicitUnit {explicit : Option TimeUnit} {rest : List Token}
    (h : explicitUnit ts = .ok (explicit, rest)) (hrest : ∀ t ∈ rest, ¬ t.Odd) :
    ∀ t ∈ ts, ¬ t.Odd := by
  have hfilter : rest = ts.filter fun t => t.unit?.isNone := by
    unfold explicitUnit at h
    dsimp only at h
    split at h
    · cases h
      rfl
    · cases h
      rfl
    · cases h
  subst hfilter
  intro t ht
  cases hu : t.unit? with
  | none => exact hrest t (List.mem_filter.2 ⟨ht, by rw [hu]; rfl⟩)
  | some u => exact not_odd_of_unit? (by rw [hu]; rfl)

theorem not_odd_of_specialDay {default : Option TimeUnit} (h : specialDay ts default = .ok vs) :
    ∀ t ∈ ts, ¬ t.Odd := by
  obtain ⟨⟨explicit, rest⟩, hexplicit, h⟩ := bind_eq_ok.1 h
  dsimp only at h
  split at h
  · cases h
  · rename_i day value hday
    exact not_odd_of_explicitUnit hexplicit (not_odd_of_special? hday)

theorem not_odd_of_single {default : Option TimeUnit} (h : single ts default = .ok vs) :
    ∀ t ∈ ts, ¬ t.Odd := by
  obtain ⟨⟨explicit, rest⟩, hexplicit, h⟩ := bind_eq_ok.1 h
  refine not_odd_of_explicitUnit hexplicit ?_
  dsimp only at h
  split at h
  · cases h
  · cases h
  · refine List.forall_mem_singleton.2 ?_
    split at h
    · rename_i hk
      exact not_odd_of_kind hk (by decide)
    · rename_i hk
      exact not_odd_of_kind hk (by decide)
    · rename_i hk
      exact not_odd_of_kind hk (by decide)
    · cases h

/-- **A value that is read has no token that is of no use.** -/
theorem not_odd_of_read {default : Option TimeUnit} (h : read ts default = .ok vs) :
    ∀ t ∈ ts, ¬ t.Odd := by
  unfold read at h
  dsimp only at h
  split at h
  · cases h
  · split at h
    · exact not_odd_of_dateTime h
    · split at h
      · exact not_odd_of_dayTime h
      · exact not_odd_of_clock h
    · exact not_odd_of_date h
    · split at h
      · exact not_odd_of_trimTrivia (not_odd_of_significant (not_odd_of_specialDay h))
      · exact not_odd_of_trimTrivia (not_odd_of_significant (not_odd_of_single h))

end Value

end Recurrence
