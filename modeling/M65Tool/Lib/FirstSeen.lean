import Mathlib.Algebra.BigOperators.Group.List.Lemmas
import Mathlib.Algebra.Ring.Nat
import Mathlib.Data.List.Induction
import Mathlib.Data.List.Nodup

/-!
# The values of a list in the order in which they first occur

`firstSeen` keeps the first occurrence of each value. Its positions number the values,
which is what a program does that gives each new value the next free element of an array.
-/
namespace M65Tool.Lib.FirstSeen

variable {α : Type} [DecidableEq α] {l later : List α} {a b : α} {i j : Nat}

def firstSeen (l : List α) : List α :=
  l.foldl (fun seen a => if a ∈ seen then seen else seen ++ [a]) []

theorem firstSeen_append_single (l : List α) (a : α) :
    firstSeen (l ++ [a]) =
      if a ∈ firstSeen l then firstSeen l else firstSeen l ++ [a] := by
  rw [firstSeen, List.foldl_append]
  rfl

@[simp] theorem mem_firstSeen : a ∈ firstSeen l ↔ a ∈ l := by
  induction l using List.reverseRecOn with
  | nil => exact Iff.rfl
  | append_singleton l b ih =>
    rw [firstSeen_append_single, List.mem_append, List.mem_singleton]
    by_cases hb : b ∈ firstSeen l
    · rw [if_pos hb, ih]
      constructor
      · exact Or.inl
      · rintro (h | rfl)
        · exact h
        · exact ih.mp hb
    · rw [if_neg hb, List.mem_append, List.mem_singleton, ih]

theorem firstSeen_old (h : a ∈ l) : firstSeen (l ++ [a]) = firstSeen l := by
  rw [firstSeen_append_single, if_pos (mem_firstSeen.mpr h)]

theorem firstSeen_new (h : a ∉ l) : firstSeen (l ++ [a]) = firstSeen l ++ [a] := by
  rw [firstSeen_append_single, if_neg (fun hm => h (mem_firstSeen.mp hm))]

/-- What is at a position when a new value has come. -/
theorem getElem?_firstSeen_new (h : a ∉ l) (hi : (firstSeen (l ++ [a]))[i]? = some b) :
    (i = (firstSeen l).length ∧ b = a) ∨ (firstSeen l)[i]? = some b := by
  rw [firstSeen_new h] at hi
  rcases Nat.lt_or_ge i (firstSeen l).length with hlt | hge
  · rw [List.getElem?_append_left hlt] at hi
    exact Or.inr hi
  · rw [List.getElem?_append_right hge] at hi
    obtain ⟨hlast, hb⟩ := List.getElem?_eq_some_iff.mp hi
    rw [List.length_singleton] at hlast
    rw [List.getElem_singleton] at hb
    exact Or.inl ⟨by omega, hb.symm⟩

theorem firstSeen_nodup (l : List α) : (firstSeen l).Nodup := by
  induction l using List.reverseRecOn with
  | nil => exact List.nodup_nil
  | append_singleton l b ih =>
    rw [firstSeen_append_single]
    by_cases hb : b ∈ firstSeen l
    · rw [if_pos hb]
      exact ih
    · rw [if_neg hb]
      refine List.nodup_append.mpr ⟨ih, List.nodup_singleton b, ?_⟩
      intro x hx y hy he
      rw [List.mem_singleton.mp hy] at he
      exact hb (he ▸ hx)

/-- A value that has occurred is not seen again. -/
theorem firstSeen_repeat (h : a ∈ l) (later : List α) :
    firstSeen (l ++ a :: later) = firstSeen (l ++ later) := by
  induction later using List.reverseRecOn with
  | nil => rw [firstSeen_old h, List.append_nil]
  | append_singleton later b ih =>
    rw [← List.cons_append, ← List.append_assoc, ← List.append_assoc, firstSeen_append_single,
      firstSeen_append_single, ih]

/-- A longer list has the same values first. -/
theorem firstSeen_extends (l later : List α) : firstSeen l <+: firstSeen (l ++ later) := by
  induction later using List.reverseRecOn with
  | nil =>
    have hsame : firstSeen l = firstSeen (l ++ []) := by rw [List.append_nil]
    exact hsame ▸ List.prefix_rfl
  | append_singleton later b ih =>
    rw [← List.append_assoc, firstSeen_append_single]
    split
    · exact ih
    · exact ih.trans (List.prefix_append _ _)

/-- A list without repetitions is left as it is. -/
theorem firstSeen_of_nodup (h : l.Nodup) : firstSeen l = l := by
  induction l using List.reverseRecOn with
  | nil => rfl
  | append_singleton l b ih =>
    obtain ⟨hl, -, hapart⟩ := List.nodup_append.mp h
    have hb : b ∉ l := fun hm => hapart b hm b (List.mem_singleton.mpr rfl) rfl
    rw [firstSeen_new hb, ih hl]

/-- The positions of two values differ. -/
theorem firstSeen_inj (hi : (firstSeen l)[i]? = some a) (hj : (firstSeen l)[j]? = some a) :
    i = j := by
  obtain ⟨hilt, hia⟩ := List.getElem?_eq_some_iff.mp hi
  obtain ⟨hjlt, hja⟩ := List.getElem?_eq_some_iff.mp hj
  exact (List.Nodup.getElem_inj_iff (firstSeen_nodup l)).mp (hia.trans hja.symm)

/-- Each place of a list is an occurrence of one of its values. -/
theorem sum_count_firstSeen [BEq α] [LawfulBEq α] (l : List α) :
    ((firstSeen l).map fun a => l.count a).sum = l.length := by
  have hperm : (firstSeen l).Perm l.dedup :=
    (List.perm_ext_iff_of_nodup (firstSeen_nodup l) l.nodup_dedup).mpr fun a => by
      rw [mem_firstSeen, List.mem_dedup]
  obtain rfl : ‹BEq α› = instBEqOfDecidableEq := lawful_beq_subsingleton _ _
  rw [(hperm.map fun a => l.count a).sum_nat, List.sum_map_count_dedup_eq_length]

end M65Tool.Lib.FirstSeen
