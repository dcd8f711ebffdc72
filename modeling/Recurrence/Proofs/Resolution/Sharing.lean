import Mathlib.Data.List.Basic
import Recurrence.Proofs.Resolution.Months
import Recurrence.Resolution.Cache

/-!
Resolvers that share a memory. A call looks its key up, computes what it did not find and keeps it;
other calls act in between, the clock moves on and entries are dropped. What is kept under a key is
right for every call with that key, because only days are resolved differently in another month, and
only days have the month in their key.

Main statement: `run_returns`.
-/

namespace Recurrence

/-- A call to a resolver. -/
structure Call where
  /-- Which of the resolvers is called. They have nothing of their own but share the memory. -/
  resolver : Nat
  unit : TimeUnit
  year : Int
  month : Int
  text : String
  deriving DecidableEq

namespace Call

def key (c : Call) : CacheKey := .of c.unit c.year c.month c.text

def uncached (c : Call) : Resolution := .ofText c.unit c.year c.month c.text

end Call

/-- How far a call has come. -/
inductive Stage
  | begun
  | missed
  | computed (value : Resolution)
  | returned (value : Resolution)
  deriving DecidableEq

/-- What happens next. -/
inductive Event
  | call (c : Call)
  /-- The n-th of the calls acts: it looks its key up, computes, or keeps the value and returns. -/
  | act (n : Nat)
  | sweep
  /-- An entry is dropped, as a sweep does while others act. -/
  | drop (key : CacheKey)
  | wait (ms : Nat)
  deriving DecidableEq

def Event.call? : Event → Option Call
  | .call c => some c
  | _ => none

/-- A memory and the calls made so far, in order. -/
structure Resolvers where
  memory : Memory
  calls : List (Call × Stage)

def Memory.change (f : Cache → Cache) : Memory → Memory
  | nothing => nothing
  | cached c => cached (f c)

def Cache.drop (key : CacheKey) (c : Cache) : Cache :=
  { c with entries := c.entries.filter fun p => p.1 ≠ key }

namespace Resolvers

/-- No call yet, and nothing kept: without a cache or with an empty one. -/
def start (config : Option CacheConfig) : Resolvers :=
  ⟨match config with
    | none => .nothing
    | some config => .cached (.new config), []⟩

/-- What a call does to the memory, and where it leaves the call. -/
def act (m : Memory) (c : Call) : Stage → Memory × Stage
  | .begun =>
    match m.get c.key with
    | (some hit, m) => (m, .returned hit)
    | (none, m) => (m, .missed)
  | .missed => (m, .computed c.uncached)
  | .computed value => (m.insert c.key value, .returned value)
  | .returned value => (m, .returned value)

def step (s : Resolvers) : Event → Resolvers
  | .call c => { s with calls := s.calls ++ [(c, .begun)] }
  | .act n =>
    match s.calls[n]? with
    | none => s
    | some (c, stage) =>
      let (memory, stage) := act s.memory c stage
      ⟨memory, s.calls.set n (c, stage)⟩
  | .sweep => { s with memory := s.memory.change fun c => c.sweep.2 }
  | .drop key => { s with memory := s.memory.change (Cache.drop key) }
  | .wait ms => { s with memory := s.memory.change fun c => c.wait ms }

def run (s : Resolvers) (events : List Event) : Resolvers := events.foldl step s

@[simp] lemma run_nil (s : Resolvers) : s.run [] = s := rfl

@[simp] lemma run_cons (s : Resolvers) (e : Event) (events : List Event) :
    s.run (e :: events) = (s.step e).run events := rfl

lemma run_append (s : Resolvers) (events events' : List Event) :
    s.run (events ++ events') = (s.run events).run events' := List.foldl_append ..

end Resolvers

/-! ### What is kept -/

/-- Calls with one key are about the same. -/
theorem Call.uncached_eq_of_key {c d : Call} (h : c.key = d.key) : c.uncached = d.uncached := by
  have hunit : c.unit = d.unit := by
    have hkey (e : Call) : e.key.unit = e.unit := by
      unfold key CacheKey.of
      split <;> rfl
    rw [← hkey, ← hkey, h]
  have htext : c.text = d.text := by
    have hkey (e : Call) : e.key.text = e.text := by
      unfold key CacheKey.of
      split <;> rfl
    rw [← hkey, ← hkey, h]
  unfold uncached
  rw [hunit, htext]
  by_cases hday : d.unit = .day
  · unfold key CacheKey.of at h
    rw [if_pos (hunit.trans hday), if_pos hday] at h
    injection h with _ hyear hmonth _
    rw [hyear, hmonth]
  · exact Resolution.ofText_eq_of_ne_day hday _ _ _ _ _

/-- What is kept under a key is right for every call with the key. -/
def Cache.Right (c : Cache) : Prop :=
  ∀ p ∈ c.entries, ∀ d : Call, d.key = p.1 → p.2.value = d.uncached

def Memory.Right : Memory → Prop
  | nothing => True
  | cached c => c.Right

namespace Memory

variable {m : Memory} {c : Call}

lemma Right.change (h : m.Right) {f : Cache → Cache}
    (hf : ∀ c : Cache, (f c).entries ⊆ c.entries) : (m.change f).Right := by
  cases m with
  | nothing => exact h
  | cached cache => exact fun p hp => h p (hf cache hp)

lemma Right.get (h : m.Right) (c : Call) :
    (m.get c.key).2.Right ∧ ∀ value, (m.get c.key).1 = some value → value = c.uncached := by
  cases m with
  | nothing => exact ⟨h, fun _ hv => (by cases hv)⟩
  | cached cache =>
    have hcache : cache.Right := h
    show (cache.get c.key).2.Right ∧ ∀ value, (cache.get c.key).1 = some value → value = c.uncached
    unfold Cache.get
    cases hlookup : cache.entries.lookup c.key with
    | none => exact ⟨hcache, fun _ hv => (by cases hv)⟩
    | some e =>
      obtain ⟨before, after, hentries, -⟩ := List.lookup_eq_some_iff.1 hlookup
      refine ⟨fun p hp d hd => ?_, ?_⟩
      · -- a hit changes when an entry was used and not what it says
        obtain ⟨q, hq, rfl⟩ := List.mem_map.1 hp
        dsimp only at hd ⊢
        split at hd
        · rename_i hkey
          rw [if_pos hkey]
          exact hcache q hq d hd
        · rename_i hkey
          rw [if_neg hkey]
          exact hcache q hq d hd
      · rintro _ ⟨⟩
        exact hcache (c.key, e) (by rw [hentries]; simp) c rfl

lemma Right.insert (h : m.Right) (c : Call) : (m.insert c.key c.uncached).Right := by
  cases m with
  | nothing => exact h
  | cached cache =>
    intro p hp d hd
    rcases List.mem_cons.1 hp with rfl | hp
    · exact Call.uncached_eq_of_key hd.symm
    · exact h p (List.mem_of_mem_filter hp) d hd

end Memory

/-! ### Calls -/

namespace Stage

def Right (c : Call) : Stage → Prop
  | computed value | returned value => value = c.uncached
  | begun | missed => True

def rank : Stage → Nat
  | begun => 0
  | missed => 1
  | computed _ => 2
  | returned _ => 3

lemma eq_returned {c : Call} {stage : Stage} (h : stage.Right c) (hrank : 3 ≤ stage.rank) :
    stage = returned c.uncached := by
  cases stage with
  | returned value => rw [show value = c.uncached from h]
  | _ => simp [rank] at hrank

end Stage

namespace Resolvers

variable {s : Resolvers} {m : Memory} {c : Call} {stage : Stage} {n : Nat}

lemma right_act (hm : m.Right) (h : stage.Right c) :
    (act m c stage).1.Right ∧ (act m c stage).2.Right c := by
  cases stage with
  | begun =>
    obtain ⟨hafter, hvalue⟩ := hm.get c
    unfold act
    dsimp only
    split
    · rename_i hit m' heq
      rw [heq] at hafter hvalue
      exact ⟨hafter, hvalue hit rfl⟩
    · rename_i m' heq
      rw [heq] at hafter
      exact ⟨hafter, trivial⟩
  | missed => exact ⟨hm, rfl⟩
  | computed value =>
    obtain rfl : value = c.uncached := h
    exact ⟨hm.insert c, rfl⟩
  | returned value => exact ⟨hm, h⟩

lemma rank_act (m : Memory) (c : Call) (stage : Stage) :
    min 3 (stage.rank + 1) ≤ (act m c stage).2.rank := by
  cases stage with
  | begun =>
    unfold act
    dsimp only
    split <;> simp [Stage.rank]
  | _ => simp [act, Stage.rank]

/-- What is kept is right, and so is what the calls have computed. -/
structure Right (s : Resolvers) : Prop where
  memory : s.memory.Right
  calls : ∀ p ∈ s.calls, p.2.Right p.1

lemma right_start (config : Option CacheConfig) : (start config).Right := by
  refine ⟨?_, by simp [start]⟩
  cases config with
  | none => trivial
  | some config => exact fun p hp => absurd hp (by simp [Cache.new])

theorem Right.step (h : s.Right) (e : Event) : (s.step e).Right := by
  cases e with
  | call c =>
    refine ⟨h.memory, List.forall_mem_append.2 ⟨h.calls, ?_⟩⟩
    exact List.forall_mem_singleton.2 trivial
  | act n =>
    unfold Resolvers.step
    dsimp only
    split
    · exact h
    · rename_i c stage hn
      obtain ⟨hmemory, hstage⟩ := right_act h.memory (h.calls _ (List.mem_of_getElem? hn))
      refine ⟨hmemory, fun p hp => ?_⟩
      rcases List.mem_or_eq_of_mem_set hp with hp | rfl
      · exact h.calls p hp
      · exact hstage
  | sweep => exact ⟨h.memory.change fun c => List.filter_sublist.subset, h.calls⟩
  | drop key => exact ⟨h.memory.change fun c => List.filter_sublist.subset, h.calls⟩
  | wait ms => exact ⟨h.memory.change fun c => List.Subset.refl _, h.calls⟩

theorem Right.run (h : s.Right) (events : List Event) : (s.run events).Right := by
  induction events generalizing s with
  | nil => exact h
  | cons e events ih => exact ih (h.step e)

lemma step_act (h : s.calls[n]? = some (c, stage)) : s.step (.act n)
    = ⟨(act s.memory c stage).1, s.calls.set n (c, (act s.memory c stage).2)⟩ := by
  unfold step
  simp only [h]

lemma getElem?_step (h : s.calls[n]? = some (c, stage)) (e : Event) :
    ∃ stage', (s.step e).calls[n]? = some (c, stage')
      ∧ min 3 (stage.rank + if e = .act n then 1 else 0) ≤ stage'.rank := by
  obtain ⟨hn, -⟩ := List.getElem?_eq_some_iff.1 h
  cases e with
  | call d =>
    refine ⟨stage, ?_, by rw [if_neg (by simp)]; omega⟩
    rw [← h]
    exact List.getElem?_append_left hn
  | act k =>
    by_cases hk : k = n
    · subst hk
      refine ⟨(act s.memory c stage).2, ?_, by rw [if_pos rfl]; exact rank_act s.memory c stage⟩
      rw [step_act h]
      exact List.getElem?_set_self hn
    · refine ⟨stage, ?_, by rw [if_neg (by simpa using hk)]; omega⟩
      unfold step
      dsimp only
      split
      · exact h
      · rw [List.getElem?_set_ne hk]
        exact h
  | sweep | drop | wait => exact ⟨stage, h, by rw [if_neg (by simp)]; omega⟩

/-- After three actions a call has returned, whatever happens in between. -/
theorem getElem?_run (h : s.calls[n]? = some (c, stage)) (events : List Event) :
    ∃ stage', (s.run events).calls[n]? = some (c, stage')
      ∧ min 3 (stage.rank + events.count (.act n)) ≤ stage'.rank := by
  induction events generalizing s stage with
  | nil => exact ⟨stage, h, Nat.min_le_right _ _⟩
  | cons e events ih =>
    obtain ⟨stage₁, h₁, hrank⟩ := getElem?_step h e
    obtain ⟨stage₂, h₂, hrank'⟩ := ih h₁
    refine ⟨stage₂, h₂, ?_⟩
    rw [List.count_cons]
    simp only [beq_iff_eq]
    omega

lemma map_calls_run (s : Resolvers) (events : List Event) :
    (s.run events).calls.map Prod.fst = s.calls.map Prod.fst ++ events.filterMap Event.call? := by
  induction events generalizing s with
  | nil => simp
  | cons e events ih =>
    have hstep :
        (s.step e).calls.map Prod.fst = s.calls.map Prod.fst ++ [e].filterMap Event.call? := by
      cases e with
      | call c => simp [step, Event.call?]
      | act n =>
        unfold step
        dsimp only
        split
        · simp [Event.call?]
        · rename_i c stage hn
          obtain ⟨hlt, hget⟩ := List.getElem?_eq_some_iff.1 hn
          have hlt' : n < (s.calls.map Prod.fst).length := by simpa using hlt
          have hsame : (s.calls.map Prod.fst)[n] = c := by rw [List.getElem_map, hget]
          show (s.calls.set n (c, _)).map Prod.fst = s.calls.map Prod.fst ++ []
          rw [List.append_nil, List.map_set]
          exact hsame ▸ List.set_getElem_self hlt'
      | sweep | drop | wait => simp [step, Event.call?]
    rw [run_cons, ih, hstep, List.append_assoc, ← List.filterMap_append, List.singleton_append]

/-- A call that nothing comes between resolves as the memory does. -/
theorem run_alone (s : Resolvers) (c : Call) :
    let alone := s.memory.resolve c.unit c.year c.month c.text
    s.run [.call c, .act s.calls.length, .act s.calls.length, .act s.calls.length]
      = ⟨alone.2, s.calls ++ [(c, .returned alone.1)]⟩ := by
  have hstep (m : Memory) (stage : Stage) :
      (⟨m, s.calls ++ [(c, stage)]⟩ : Resolvers).step (.act s.calls.length)
        = ⟨(act m c stage).1, s.calls ++ [(c, (act m c stage).2)]⟩ := by
    have hlast : (s.calls ++ [(c, stage)])[s.calls.length]? = some (c, stage) :=
      List.getElem?_concat_length
    rw [step_act hlast]
    simp
  have hbegun : s.step (.call c) = ⟨s.memory, s.calls ++ [(c, .begun)]⟩ := rfl
  intro alone
  simp only [run_cons, run_nil, hbegun, hstep, alone]
  unfold Memory.resolve act
  dsimp only
  rw [show CacheKey.of c.unit c.year c.month c.text = c.key from rfl]
  rcases hget : s.memory.get c.key with ⟨_ | hit, m⟩
  · rfl
  · rfl

/-- **A memory is invisible.** Start with an empty cache or with none, and let calls be made and act
in any order, entries be dropped and the clock moved on at any time. What a call returns is what it
is about without a memory, and it does return, as soon as it has acted three times. -/
theorem run_returns (config : Option CacheConfig) (events : List Event) :
    (∀ p ∈ ((start config).run events).calls, ∀ value, p.2 = .returned value → value = p.1.uncached)
      ∧ ∀ before c after, events = before ++ .call c :: after →
        let n := (before.filterMap Event.call?).length
        3 ≤ after.count (.act n) →
          ((start config).run events).calls[n]? = some (c, .returned c.uncached) := by
  have hright := (right_start config).run events
  refine ⟨?_, ?_⟩
  · rintro ⟨c, stage⟩ hp value rfl
    exact hright.calls _ hp
  · rintro before c after rfl n hcount
    have hlength : ((start config).run before).calls.length = n := by
      have hmap := congrArg List.length (map_calls_run (start config) before)
      simpa [start] using hmap
    have hbegun : (((start config).run before).step (.call c)).calls[n]? = some (c, .begun) := by
      rw [← hlength]
      simp [step]
    obtain ⟨stage, hstage, hrank⟩ := getElem?_run hbegun after
    rw [run_append, run_cons] at hright ⊢
    have hrank : min 3 (0 + after.count (.act n)) ≤ stage.rank := hrank
    have hreturned : stage = .returned c.uncached :=
      Stage.eq_returned (hright.calls _ (List.mem_of_getElem? hstage)) (by omega)
    rw [hstage, hreturned]

/-- The last hour of a day, kept by a call about a February and found by one about a July. -/
theorem run_returns_last_hour :
    let february : Call := ⟨0, .hour, 2024, 2, "Last"⟩
    let july : Call := ⟨1, .hour, 1999, 7, "Last"⟩
    let before : List Event := [.call february, .act 0, .act 0]
    let after : List Event := [.act 0, .act 1, .wait 700000, .act 1, .sweep, .act 1]
    3 ≤ after.count (.act 1)
      ∧ ((start (some .standard)).run (before ++ .call july :: after)).calls[1]?
        = some (july, .returned (.value 23)) := by
  intro february july before after
  have hcount : 3 ≤ after.count (.act 1) := by decide
  have hjuly : july.uncached = .value 23 := by decide +kernel
  refine ⟨hcount, ?_⟩
  rw [← hjuly]
  exact (run_returns (some .standard) _).2 before july after rfl hcount

end Resolvers

end Recurrence
