import Mathlib.Data.List.Lex
import Mathlib.Order.WithBot

/-!
# Three-way comparison

A comparison that answers -1, 0 or 1 is a total order when it compares keys of a linear
order. For lists in the lexicographic order the first position at which they differ
decides, or the end of the shorter one.
-/
namespace M65Tool.Lib.ThreeWay

section Order
variable {α : Type} [LinearOrder α] {a b c : α}

def threeWay (a b : α) : Int := if a < b then -1 else if a = b then 0 else 1

theorem threeWay_of_lt (h : a < b) : threeWay a b = -1 := if_pos h

@[simp] theorem threeWay_self (a : α) : threeWay a a = 0 := by
  rw [threeWay, if_neg (lt_irrefl a), if_pos rfl]

theorem threeWay_of_gt (h : b < a) : threeWay a b = 1 := by
  rw [threeWay, if_neg (lt_asymm h), if_neg (ne_of_gt h)]

theorem threeWay_range (a b : α) : threeWay a b = -1 ∨ threeWay a b = 0 ∨ threeWay a b = 1 := by
  rcases lt_trichotomy a b with h | rfl | h
  · exact Or.inl (threeWay_of_lt h)
  · exact Or.inr (Or.inl (threeWay_self a))
  · exact Or.inr (Or.inr (threeWay_of_gt h))

theorem threeWay_eq_zero : threeWay a b = 0 ↔ a = b := by
  rcases lt_trichotomy a b with h | rfl | h
  · rw [threeWay_of_lt h]
    simp [ne_of_lt h]
  · simp
  · rw [threeWay_of_gt h]
    simp [ne_of_gt h]

theorem threeWay_swap (a b : α) : threeWay b a = -threeWay a b := by
  rcases lt_trichotomy a b with h | rfl | h
  · rw [threeWay_of_lt h, threeWay_of_gt h]
    rfl
  · simp
  · rw [threeWay_of_lt h, threeWay_of_gt h]

theorem threeWay_nonpos : threeWay a b ≤ 0 ↔ a ≤ b := by
  rcases lt_trichotomy a b with h | rfl | h
  · rw [threeWay_of_lt h]
    simp [le_of_lt h]
  · simp
  · rw [threeWay_of_gt h]
    simp [h]

theorem threeWay_trans (hab : threeWay a b ≤ 0) (hbc : threeWay b c ≤ 0) : threeWay a c ≤ 0 :=
  threeWay_nonpos.mpr (le_trans (threeWay_nonpos.mp hab) (threeWay_nonpos.mp hbc))

end Order

section Lists
variable {α : Type} [LinearOrder α] {xs ys : List α} {x y : α} {i : Nat}

theorem lt_of_extension (h : xs <+: ys) (hlen : xs.length < ys.length) : xs < ys := by
  obtain ⟨rest, rfl⟩ := h
  induction xs with
  | nil =>
    cases rest with
    | nil => simp at hlen
    | cons y rest => exact List.Lex.nil
  | cons x xs ih =>
    apply List.Lex.cons
    apply ih
    rw [List.cons_append, List.length_cons, List.length_cons] at hlen
    exact Nat.lt_of_succ_lt_succ hlen

/-- The first position at which two lists differ decides. -/
theorem lt_of_first_difference (same : ∀ k < i, xs[k]? = ys[k]?) (hx : xs[i]? = some x)
    (hy : ys[i]? = some y) (hlt : x < y) : xs < ys := by
  induction i generalizing xs ys with
  | zero =>
    cases xs with
    | nil => cases hx
    | cons x' xs =>
      cases ys with
      | nil => cases hy
      | cons y' ys =>
        cases hx
        cases hy
        exact List.Lex.rel hlt
  | succ i ih =>
    have hhead := same 0 (Nat.succ_pos i)
    cases xs with
    | nil => cases hx
    | cons x' xs =>
      cases ys with
      | nil => cases hy
      | cons y' ys =>
        cases hhead
        exact List.Lex.cons (ih (fun k hk => same (k + 1) (Nat.succ_lt_succ hk)) hx hy)

end Lists
end M65Tool.Lib.ThreeWay
