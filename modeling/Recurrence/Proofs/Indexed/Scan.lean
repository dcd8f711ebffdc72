import Recurrence.Proofs.Indexed.Words
import Recurrence.Token.Scan

/-!
The scan of a text by positions. Characters are asked for by number, and a closing bracket takes one
off the count of open ones. The count is never taken below zero, and every number is that of a
character.

Main statement: `scan_eq`.
-/

namespace Recurrence.Indexed

variable (D : Zone.Database)

def wordToken (s : Scan) : Reading Token := do
  let text := String.ofList s.word.reverse
  if s.zoneNext && !Keyword.isRuleWord text then
    return Token.ofText .zoneId text s.wordLine s.wordColumn
  else match ← classify D text with
  | .ok kind => return Token.ofText kind text s.wordLine s.wordColumn
  | .error fault => return (Token.ofText .unknown text s.wordLine s.wordColumn).withFault fault

def flush (s : Scan) : Reading Scan :=
  match s.word with
  | [] => return s
  | _ => do
    let t ← wordToken D s
    return { s with done := t :: s.done, word := [], zoneNext := t.opensZone }

/-- Adds a closing bracket. Unless it has a fault, it closes one that is open. -/
def close (s : Scan) : Reading Scan := do
  if s.depth = 0 then return s.close
  else
    let depth ← sub s.depth 1
    return { s.sign .closeBracket "]" with depth }

def addBreak (s : Scan) (c : Char) : Reading Scan :=
  if c = ']' then close s else return s.addBreak c

/-- Whether the word under way ends before the character at a position. -/
def splitsBefore (chars : List Char) (s : Scan) (i : Nat) : Reading Bool :=
  match s.word with
  | [] => return false
  | prev :: _ => do
    let c ← get chars i
    if prev.isDigit = c.isDigit then return false
    else if !prev.isDigit then return true
    else
      let ahead ← slice chars i chars.length
      let letters := ahead.takeWhile Text.isAlphabetic
      return !(← isCompound (String.ofList (s.word.reverse ++ letters)))

def scanAt (chars : List Char) (s : Scan) (i : Nat) : Reading Scan := do
  let c ← get chars i
  let next ←
    if s.zoneNext && !Text.isBlank c && c != '\x00' then pure (s.push c)
    else if Scan.isBreaking c then addBreak (← flush D s) c
    else if ← splitsBefore chars s i then pure ((← flush D s).push c)
    else pure (s.push c)
  return next.advance c

def scan (text : String) : Reading (List Token) := do
  let chars := text.toList ++ ['\x00']
  let s ← (List.range chars.length).foldlM (scanAt D chars) Scan.start
  return s.done.reverse

variable {s : Scan} {c : Char} {pre rest : List Char}

lemma wordToken_eq (s : Scan) : wordToken D s = .ok (s.wordToken D) := by
  unfold wordToken Scan.wordToken
  simp only [classify_eq, ok_bind]
  refine ok_ite rfl ?_
  rw [Token.ofWord]
  cases Token.classify D (String.ofList s.word.reverse) <;> rfl

lemma flush_eq (s : Scan) : flush D s = .ok (s.flush D) := by
  unfold flush Scan.flush
  simp only [wordToken_eq, ok_bind]
  cases s.word <;> rfl

lemma close_eq (s : Scan) : close s = .ok s.close := by
  unfold close
  split
  · rfl
  · rename_i hdepth
    rw [sub_eq (Nat.one_le_iff_ne_zero.mpr hdepth), Scan.close, if_neg hdepth]
    rfl

lemma addBreak_eq (s : Scan) (c : Char) : addBreak s c = .ok (s.addBreak c) := by
  unfold addBreak
  split
  · rename_i hc
    subst hc
    exact close_eq s
  · rfl

lemma splitsBefore_eq (s : Scan) (pre : List Char) (c : Char) (rest : List Char) :
    splitsBefore (pre ++ c :: rest) s pre.length = .ok (s.splitsBefore c rest) := by
  unfold splitsBefore Scan.splitsBefore
  simp only [get_append, slice_suffix, isCompound_eq, ok_bind]
  cases s.word with
  | nil => rfl
  | cons prev word => exact ok_ite rfl (ok_ite rfl rfl)

lemma scanAt_eq (s : Scan) (pre : List Char) (c : Char) (rest : List Char) :
    scanAt D (pre ++ c :: rest) s pre.length = .ok (s.step D c rest) := by
  unfold scanAt Scan.step
  simp only [get_append, flush_eq, addBreak_eq, splitsBefore_eq, ok_bind]
  split_ifs <;> rfl

lemma foldlM_scanAt (s : Scan) (pre rest : List Char) :
    (List.range' pre.length rest.length).foldlM (scanAt D (pre ++ rest)) s
      = .ok (s.run D rest) := by
  induction rest generalizing s pre with
  | nil => rfl
  | cons c rest ih =>
    have h := ih (s.step D c rest) (pre ++ [c])
    rw [List.append_assoc, List.singleton_append, List.length_append] at h
    rw [List.length_cons, List.range'_succ, List.foldlM_cons, scanAt_eq]
    exact h

/-- **A scan by positions is the scan.** -/
theorem scan_eq (text : String) : scan D text = .ok (Token.scan D text) := by
  have h := foldlM_scanAt D Scan.start [] (text.toList ++ ['\x00'])
  rw [List.nil_append, List.length_nil, ← List.range_eq_range'] at h
  unfold scan
  simp only [h, ok_bind]
  rfl

end Recurrence.Indexed
