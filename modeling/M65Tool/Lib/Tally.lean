import Mathlib.Algebra.BigOperators.Group.List.Basic
import Mathlib.Algebra.Ring.Int.Defs
import Mathlib.Data.List.Nodup
import Mathlib.Tactic.Ring

/-!
# Tallies

A dictionary of numbers whose absent keys have none, in the order in which the keys came.
After several rounds of additions a number is the sum of what the rounds have added to it.
-/
namespace M65Tool.Lib.Tally

abbrev Counts (κ : Type) := List (κ × Int)

section Numbers
variable {κ : Type} [DecidableEq κ]

/-- The number of a key, zero by default. -/
def get (t : Counts κ) (k : κ) : Int := (t.lookup k).getD 0

def keys (t : Counts κ) : List κ := t.map Prod.fst

/-- `t[k] += n`. -/
def add (t : Counts κ) (k : κ) (n : Int) : Counts κ :=
  match t with
  | [] => [(k, n)]
  | (k', m) :: rest => if k' = k then (k', m + n) :: rest else (k', m) :: add rest k n

/-- The same number added to each of some keys. -/
def addEach (t : Counts κ) (ks : List κ) (n : Int) : Counts κ := ks.foldl (fun t k => add t k n) t

/-- Several rounds of that. -/
def addRounds (t : Counts κ) (rounds : List (List κ × Int)) : Counts κ :=
  rounds.foldl (fun t round => addEach t round.1 round.2) t

/-- How often a key is among some keys. -/
def times (ks : List κ) (k : κ) : Int := (ks.count k : Int)

/-- What the rounds add to a key. -/
def added (rounds : List (List κ × Int)) (k : κ) : Int :=
  (rounds.map fun round => round.2 * times round.1 k).sum

variable (t : Counts κ) (k k' : κ) (n : Int) (ks : List κ) (rounds : List (List κ × Int))

@[simp] theorem get_nil : get ([] : Counts κ) k = 0 := rfl

theorem get_cons (m : Int) : get ((k', m) :: t) k = if k = k' then m else get t k := by
  unfold get
  rw [List.lookup_cons]
  split
  · rename_i h
    rw [if_pos (by simpa using h)]
    rfl
  · rename_i h
    rw [if_neg (by simpa using h)]

theorem get_add : get (add t k' n) k = get t k + if k = k' then n else 0 := by
  induction t with
  | nil =>
    rw [add, get_cons, get_nil, zero_add]
  | cons entry t ih =>
    obtain ⟨k₀, m⟩ := entry
    unfold add
    split
    · rename_i heq
      rw [get_cons, get_cons, heq]
      split
      · rfl
      · exact (add_zero _).symm
    · rename_i hne
      rw [get_cons, get_cons, ih]
      split
      · rename_i heq
        rw [if_neg (heq ▸ hne), add_zero]
      · rfl

theorem mem_keys_add : k ∈ keys (add t k' n) ↔ k ∈ keys t ∨ k = k' := by
  induction t with
  | nil => simp [add, keys]
  | cons entry t ih =>
    obtain ⟨k₀, m⟩ := entry
    unfold add
    split
    · rename_i heq
      simp only [keys, List.map_cons, List.mem_cons, heq]
      tauto
    · have hih : k ∈ (add t k' n).map Prod.fst ↔ k ∈ t.map Prod.fst ∨ k = k' := ih
      simp only [keys, List.map_cons, List.mem_cons, hih, or_assoc]

variable {t} in
theorem nodup_add (h : (keys t).Nodup) : (keys (add t k n)).Nodup := by
  induction t with
  | nil => simp [add, keys]
  | cons entry t ih =>
    obtain ⟨k₀, m⟩ := entry
    obtain ⟨hnot, hrest⟩ := List.nodup_cons.mp h
    unfold add
    split
    · exact h
    · rename_i hne
      refine List.nodup_cons.mpr ⟨?_, ih hrest⟩
      intro hmem
      rcases (mem_keys_add t k₀ k n).mp hmem with hmem | heq
      · exact hnot hmem
      · exact hne heq

section Times
variable {k ks}

theorem times_of_not_mem (h : k ∉ ks) : times ks k = 0 := by
  rw [times, List.count_eq_zero_of_not_mem h]
  rfl

theorem times_of_mem (h : k ∈ ks) : 1 ≤ times ks k := by
  have := List.count_pos_iff.mpr h
  unfold times
  omega

theorem times_of_nodup (h : ks.Nodup) (hmem : k ∈ ks) : times ks k = 1 := by
  rw [times, List.count_eq_one_of_mem h hmem]
  rfl

theorem times_nonneg : 0 ≤ times ks k := Int.natCast_nonneg _

end Times

theorem times_cons : times (k' :: ks) k = times ks k + if k = k' then 1 else 0 := by
  unfold times
  rw [List.count_cons]
  by_cases heq : k = k'
  · rw [if_pos heq, if_pos (by simp [heq])]
    rfl
  · rw [if_neg heq, if_neg (by simpa using Ne.symm heq)]
    rfl

theorem get_addEach : get (addEach t ks n) k = get t k + n * times ks k := by
  induction ks generalizing t with
  | nil => simp [addEach, times]
  | cons k₀ ks ih =>
    rw [addEach, List.foldl_cons, ← addEach, ih, get_add, times_cons]
    split
    · ring
    · ring

theorem mem_keys_addEach : k ∈ keys (addEach t ks n) ↔ k ∈ keys t ∨ k ∈ ks := by
  induction ks generalizing t with
  | nil => simp [addEach]
  | cons k₀ ks ih =>
    rw [addEach, List.foldl_cons, ← addEach, ih, mem_keys_add, List.mem_cons, or_assoc]

variable {t} in
theorem nodup_addEach (h : (keys t).Nodup) : (keys (addEach t ks n)).Nodup := by
  induction ks generalizing t with
  | nil => exact h
  | cons k₀ ks ih => exact ih (nodup_add k₀ n h)

/-! ## Rounds -/

@[simp] theorem added_nil : added ([] : List (List κ × Int)) k = 0 := rfl

theorem added_cons (round : List κ × Int) :
    added (round :: rounds) k = round.2 * times round.1 k + added rounds k := by
  rw [added, List.map_cons, List.sum_cons, added]

theorem get_addRounds : get (addRounds t rounds) k = get t k + added rounds k := by
  induction rounds generalizing t with
  | nil => simp [addRounds]
  | cons round rounds ih =>
    rw [addRounds, List.foldl_cons, ← addRounds, ih, get_addEach, added_cons, add_assoc]

/-- Rounds that add the same to each of several keys. -/
theorem added_map {α : Type} (xs : List α) (ks : α → List κ) (n : α → Int) :
    added (xs.map fun x => (ks x, n x)) k = (xs.map fun x => n x * times (ks x) k).sum := by
  rw [added, List.map_map]
  rfl

variable {rounds k} in
theorem added_eq_zero (h : ∀ round ∈ rounds, round.2 = 0 ∨ k ∉ round.1) : added rounds k = 0 := by
  induction rounds with
  | nil => rfl
  | cons round rounds ih =>
    rw [added_cons, ih fun r hr => h r (List.mem_cons_of_mem round hr), add_zero]
    rcases h round List.mem_cons_self with hzero | hnot
    · rw [hzero, zero_mul]
    · rw [times_of_not_mem hnot, mul_zero]

variable {rounds k} in
/-- Rounds that take one off leave no more than before, and less where a key is met. -/
theorem added_taken (h : ∀ round ∈ rounds, round.2 = -1) :
    added rounds k ≤ 0 ∧ ((∃ round ∈ rounds, k ∈ round.1) → added rounds k ≤ -1) := by
  induction rounds with
  | nil => exact ⟨le_refl _, fun ⟨_, hround, _⟩ => absurd hround List.not_mem_nil⟩
  | cons round rounds ih =>
    obtain ⟨hle, hmet⟩ := ih fun r hr => h r (List.mem_cons_of_mem round hr)
    have hnonneg : 0 ≤ times round.1 k := times_nonneg
    rw [added_cons, h round List.mem_cons_self]
    refine ⟨by omega, ?_⟩
    intro ⟨r, hr, hk⟩
    rcases List.mem_cons.mp hr with rfl | hr
    · have hpos := times_of_mem hk
      omega
    · have := hmet ⟨r, hr, hk⟩
      omega

theorem mem_keys_addRounds :
    k ∈ keys (addRounds t rounds) ↔ k ∈ keys t ∨ ∃ round ∈ rounds, k ∈ round.1 := by
  induction rounds generalizing t with
  | nil => simp [addRounds]
  | cons round rounds ih =>
    rw [addRounds, List.foldl_cons, ← addRounds, ih, mem_keys_addEach, or_assoc]
    simp only [List.mem_cons, exists_eq_or_imp]

variable {t} in
theorem nodup_addRounds (h : (keys t).Nodup) : (keys (addRounds t rounds)).Nodup := by
  induction rounds generalizing t with
  | nil => exact h
  | cons round rounds ih => exact ih (nodup_addEach round.2 round.1 h)

end Numbers

end M65Tool.Lib.Tally
