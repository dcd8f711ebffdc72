import Mathlib.Data.List.Basic
import Mathlib.Tactic.SplitIfs
import Recurrence.Diagnostic

/-!
Lists by positions. An element, a slice and a difference are asked for by numbers, and each is
checked: a number that is out of range stops the reading, and no cause of a malformed clause stands
for that.

Main statements: `slice_append`, `findIdx?_cases`, `lastIdx?_cases` and `positions_append`.
-/

namespace Recurrence.Indexed

/-- Why a reading by positions has no result. -/
inductive Stop
  /-- A position that the list does not have, or a difference below zero. -/
  | outOfRange
  | malformed (cause : Malformed)
  deriving DecidableEq

abbrev Reading (α : Type) := Except Stop α

variable {α β : Type}

def fail (cause : Malformed) : Reading α := .error (.malformed cause)

def lift (x : Except Malformed α) : Reading α := x.mapError .malformed

def get (xs : List α) (i : Nat) : Reading α :=
  match xs[i]? with
  | some a => .ok a
  | none => .error .outOfRange

def slice (xs : List α) (start stop : Nat) : Reading (List α) :=
  if start ≤ stop ∧ stop ≤ xs.length then .ok ((xs.take stop).drop start) else .error .outOfRange

def sub (m n : Nat) : Reading Nat := if n ≤ m then .ok (m - n) else .error .outOfRange

def lastIdx? (p : α → Bool) : List α → Option Nat
  | [] => none
  | a :: as =>
    match lastIdx? p as with
    | some i => some (i + 1)
    | none => if p a then some 0 else none

/-! ### Readings without positions -/

@[simp] lemma lift_ok (a : α) : lift (.ok a) = .ok a := rfl

@[simp] lemma lift_pure (a : α) : lift (pure a) = pure a := rfl

@[simp] lemma ok_bind {ε : Type} (a : α) (f : α → Except ε β) :
    (Except.ok a : Except ε α) >>= f = f a := rfl

lemma lift_bind (x : Except Malformed α) (f : α → Except Malformed β) :
    lift (x >>= f) = lift x >>= fun a => lift (f a) := by
  cases x <;> rfl

lemma lift_mapM (f : α → Except Malformed β) (xs : List α) :
    xs.mapM (fun a => lift (f a)) = lift (xs.mapM f) := by
  induction xs with
  | nil => rfl
  | cons a xs ih => simp only [List.mapM_cons, ih, lift_bind, lift_pure]

lemma ok_ite {p : Prop} [Decidable p] {x y : Reading α} {a b : α} (hx : x = .ok a)
    (hy : y = .ok b) :
    (if p then x else y) = .ok (if p then a else b) := by
  rw [hx, hy]
  split <;> rfl

lemma ok_dite {p : Prop} [Decidable p] {x : p → Reading α} {y : ¬ p → Reading α} {a : p → α}
    {b : ¬ p → α} (hx : ∀ h, x h = .ok (a h)) (hy : ∀ h, y h = .ok (b h)) :
    (if h : p then x h else y h) = .ok (if h : p then a h else b h) := by
  split
  · exact hx _
  · exact hy _

/-! ### Positions in range -/

lemma sub_eq {m n : Nat} (h : n ≤ m) : sub m n = .ok (m - n) := if_pos h

lemma get_append (pre : List α) (a : α) (post : List α) :
    get (pre ++ a :: post) pre.length = .ok a := by
  simp [get]

lemma get_eq {xs : List α} {i : Nat} {a : α} (h : xs[i]? = some a) : get xs i = .ok a := by
  rw [get, h]

lemma slice_append (pre mid post : List α) :
    slice (pre ++ mid ++ post) pre.length (pre.length + mid.length) = .ok mid := by
  rw [slice, if_pos (by simp)]
  simp [List.take_append]

lemma slice_prefix (pre post : List α) : slice (pre ++ post) 0 pre.length = .ok pre := by
  simpa using slice_append [] pre post

lemma slice_suffix (pre post : List α) :
    slice (pre ++ post) pre.length (pre ++ post).length = .ok post := by
  simpa using slice_append pre post []

lemma slice_after (pre : List α) (a : α) (post : List α) :
    slice (pre ++ a :: post) (pre.length + 1) (pre ++ a :: post).length = .ok post := by
  have h := slice_suffix (pre ++ [a]) post
  simpa using h

/-! ### The first and the last position -/

section Positions

variable (p : α → Bool)

section

variable {p} {pre post : List α} {a : α}

lemma takeWhile_not_append (hpre : ∀ b ∈ pre, p b = false) (ha : p a = true) :
    (pre ++ a :: post).takeWhile (fun b => !p b) = pre := by
  rw [List.takeWhile_append_of_pos (fun b hb => by simp [hpre b hb]),
    List.takeWhile_cons_of_neg (by simp [ha]), List.append_nil]

lemma dropWhile_not_append (hpre : ∀ b ∈ pre, p b = false) (ha : p a = true) :
    (pre ++ a :: post).dropWhile (fun b => !p b) = a :: post := by
  rw [List.dropWhile_append_of_pos (fun b hb => by simp [hpre b hb]),
    List.dropWhile_cons_of_neg (by simp [ha])]

end

lemma findIdx?_cases (xs : List α) :
    (xs.findIdx? p = none ∧ (∀ a ∈ xs, p a = false)
        ∧ xs.takeWhile (fun a => !p a) = xs ∧ xs.dropWhile (fun a => !p a) = [])
      ∨ ∃ pre a post, xs = pre ++ a :: post ∧ p a = true ∧ (∀ b ∈ pre, p b = false)
        ∧ xs.findIdx? p = some pre.length
        ∧ xs.takeWhile (fun a => !p a) = pre ∧ xs.dropWhile (fun a => !p a) = a :: post := by
  induction xs with
  | nil => exact Or.inl ⟨rfl, by simp, rfl, rfl⟩
  | cons a xs ih =>
    cases ha : p a with
    | true => exact Or.inr ⟨[], a, xs, rfl, ha, by simp, by simp [List.findIdx?_cons, ha],
      by simp [ha], by simp [ha]⟩
    | false =>
      rcases ih with ⟨hidx, hall, htake, hdrop⟩ | ⟨pre, b, post, rfl, hb, hpre, hidx, -⟩
      · exact Or.inl ⟨by simp [List.findIdx?_cons, ha, hidx], by simpa [ha] using hall,
          by simp [ha, htake], by simp [ha, hdrop]⟩
      · have hpre : ∀ x ∈ a :: pre, p x = false := List.forall_mem_cons.mpr ⟨ha, hpre⟩
        exact Or.inr ⟨a :: pre, b, post, rfl, hb, hpre, by simp [List.findIdx?_cons, ha, hidx],
          takeWhile_not_append hpre hb, dropWhile_not_append hpre hb⟩

lemma lastIdx?_cases (xs : List α) :
    (lastIdx? p xs = none ∧ ∀ a ∈ xs, p a = false)
      ∨ ∃ pre a post, xs = pre ++ a :: post ∧ p a = true ∧ (∀ b ∈ post, p b = false)
        ∧ lastIdx? p xs = some pre.length := by
  induction xs with
  | nil => exact Or.inl ⟨rfl, by simp⟩
  | cons a xs ih =>
    rcases ih with ⟨hidx, hall⟩ | ⟨pre, b, post, rfl, hb, hpost, hidx⟩
    · cases ha : p a with
      | true => exact Or.inr ⟨[], a, xs, rfl, ha, hall, by simp [lastIdx?, hidx, ha]⟩
      | false => exact Or.inl ⟨by simp [lastIdx?, hidx, ha], by simpa [ha] using hall⟩
    · exact Or.inr ⟨a :: pre, b, post, rfl, hb, hpost, by simp [lastIdx?, hidx]⟩

lemma lastIdx?_append (pre : List α) {xs : List α} {i : Nat} (h : lastIdx? p xs = some i) :
    lastIdx? p (pre ++ xs) = some (pre.length + i) := by
  induction pre with
  | nil => simpa using h
  | cons a pre ih =>
    rw [List.cons_append, lastIdx?, ih, List.length_cons]
    simp only [Option.some.injEq]
    omega

lemma lastIdx?_append_of_not (pre : List α) {xs : List α} (h : ∀ a ∈ xs, p a = false) :
    lastIdx? p (pre ++ xs) = lastIdx? p pre := by
  induction pre with
  | nil =>
    rcases lastIdx?_cases p xs with ⟨hidx, -⟩ | ⟨pre, a, post, rfl, ha, -⟩
    · exact hidx
    · rw [h a (by simp)] at ha
      cases ha
  | cons a pre ih => rw [List.cons_append, lastIdx?, ih, lastIdx?]

lemma lastIdx?_lt {xs : List α} {i : Nat} (h : lastIdx? p xs = some i) : i < xs.length := by
  rcases lastIdx?_cases p xs with ⟨hidx, -⟩ | ⟨pre, a, post, rfl, -, -, hidx⟩
  · rw [hidx] at h
    cases h
  · rw [hidx] at h
    cases h
    simp

end Positions

/-! ### Searching positions -/

def select (f : Nat → Reading Bool) : List Nat → Reading (List Nat)
  | [] => return []
  | i :: is => do
    if ← f i then return i :: (← select f is)
    else select f is

lemma select_eq {f : Nat → Reading Bool} {p : Nat → Bool} {is : List Nat}
    (h : ∀ i ∈ is, f i = .ok (p i)) : select f is = .ok (is.filter p) := by
  induction is with
  | nil => rfl
  | cons i is ih =>
    obtain ⟨hi, his⟩ := List.forall_mem_cons.mp h
    rw [select, hi, ih his, ok_bind, List.filter_cons]
    cases p i <;> rfl

lemma findM?_eq {f : Nat → Reading Bool} {p : Nat → Bool} {is : List Nat}
    (h : ∀ i ∈ is, f i = .ok (p i)) : is.findM? f = .ok (is.find? p) := by
  induction is with
  | nil => rfl
  | cons i is ih =>
    obtain ⟨hi, his⟩ := List.forall_mem_cons.mp h
    rw [List.findM?, hi, ok_bind, List.find?_cons]
    cases p i with
    | true => rfl
    | false => exact ih his

lemma find?_range (p : α → Bool) (xs : List α) :
    (List.range xs.length).find? (fun i => xs[i]?.any p) = xs.findIdx? p := by
  induction xs with
  | nil => rfl
  | cons a xs ih =>
    rw [List.length_cons, List.range_succ_eq_map, List.find?_cons, List.findIdx?_cons,
      List.find?_map]
    have hshift : ((fun i => (a :: xs)[i]?.any p) ∘ Nat.succ) = fun i => xs[i]?.any p := by
      funext i
      simp
    rw [hshift, ih, List.getElem?_cons_zero, Option.any_some]
    cases p a <;> rfl

def positions (p : α → Bool) (xs : List α) : List Nat :=
  (List.range xs.length).filter fun i => xs[i]?.any p

lemma positions_cons (p : α → Bool) (a : α) (xs : List α) : positions p (a :: xs)
    = if p a then 0 :: (positions p xs).map Nat.succ else (positions p xs).map Nat.succ := by
  rw [positions, List.length_cons, List.range_succ_eq_map, List.filter_cons, List.filter_map]
  rfl

lemma isEmpty_positions (p : α → Bool) (xs : List α) : (positions p xs).isEmpty = !xs.any p := by
  induction xs with
  | nil => rfl
  | cons a xs ih =>
    rw [positions_cons, List.any_cons]
    cases p a with
    | true => rfl
    | false => rw [if_neg Bool.false_ne_true, List.isEmpty_map, ih, Bool.false_or]

lemma positions_eq_nil {p : α → Bool} {xs : List α} (h : ∀ a ∈ xs, p a = false) :
    positions p xs = [] := by
  have hany : xs.any p = false := List.any_eq_false.mpr fun a ha => by simp [h a ha]
  rw [← List.isEmpty_iff, isEmpty_positions, hany, Bool.not_false]

lemma positions_append {p : α → Bool} {a : α} {pre : List α} (hpre : ∀ b ∈ pre, p b = false)
    (ha : p a = true) (post : List α) : ∃ more, positions p (pre ++ a :: post) = pre.length :: more
      ∧ post.any p = !more.isEmpty := by
  induction pre with
  | nil =>
    have hany : post.any p = !((positions p post).map Nat.succ).isEmpty := by
      rw [List.isEmpty_map, isEmpty_positions, Bool.not_not]
    exact ⟨_, by rw [List.nil_append, positions_cons, if_pos ha, List.length_nil], hany⟩
  | cons b pre ih =>
    obtain ⟨hb, hpre⟩ := List.forall_mem_cons.mp hpre
    obtain ⟨more, hmore, hany⟩ := ih hpre
    refine ⟨more.map Nat.succ, ?_, by rw [hany, List.isEmpty_map]⟩
    rw [List.cons_append, positions_cons, if_neg (by simp [hb]), hmore]
    rfl

end Recurrence.Indexed
