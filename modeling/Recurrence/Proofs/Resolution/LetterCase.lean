import Recurrence.Proofs.Token.LetterCase
import Recurrence.Resolution.Basic

/-!
What texts stand for in any letter case. Names of weekdays and months, edges and day forms are read
in small letters, and blanks and digits have no letter case.

Main statement: `Resolution.ofText_toLower`.
-/

namespace Recurrence

namespace Text

lemma trimChars_toLower (cs : List Char) :
    trimChars (cs.map Char.toLower) = (trimChars cs).map Char.toLower := by
  have hblank : isBlank ∘ Char.toLower = isBlank := funext isBlank_toLower
  rw [trimChars, trimChars, List.dropWhile_map, hblank, ← List.map_reverse, List.dropWhile_map,
    hblank, List.map_reverse]

lemma map_toLower_of_digits {cs : List Char} (h : cs.all Char.isDigit = true) :
    cs.map Char.toLower = cs := by
  conv_rhs => rw [← List.map_id cs]
  refine List.map_congr_left fun c hc => ?_
  have hdigit := not_isAlpha_of_isDigit (List.all_eq_true.1 h c hc)
  exact (eq_of_toLower_eq hdigit (toLower_toLower c).symm).symm

end Text

namespace Resolution

lemma ofName?_toLower (u : TimeUnit) (cs : List Char) :
    ofName? u (.ofList (cs.map Char.toLower)) = ofName? u (.ofList cs) := by
  have hlower : (String.ofList (cs.map Char.toLower)).toLower = (String.ofList cs).toLower := by
    rw [CaseAlike.toLower_eq, String.toList_ofList, String.toList_ofList]
    exact map_toLower_again cs
  unfold ofName? Weekday.ofName? MonthName.number?
  rw [hlower]

/-- **What a text stands for does not depend on its letter case.** -/
theorem ofText_toLower (u : TimeUnit) (year month : Int) (text : String) :
    ofText u year month (text.map Char.toLower) = ofText u year month text := by
  have hdigits : Char.isDigit ∘ Char.toLower = Char.isDigit := funext isDigit_toLower
  unfold ofText
  dsimp only
  rw [String.toList_map, Text.trimChars_toLower]
  generalize Text.trimChars text.toList = cs
  rw [map_toLower_again, List.all_map, hdigits, ofName?_toLower]
  refine if_congr (or_congr_right List.map_eq_nil_iff) rfl ?_
  split
  · rename_i hd
    rw [Text.map_toLower_of_digits hd]
  · rfl

end Resolution

end Recurrence
