import Mathlib.Data.List.Basic
import Mathlib.Order.Lattice

/-!
# The first few distinct values

An array of fixed length keeps the values of lowest rank that have come, each once, in
the order of their ranks; behind them it is filled up with blanks. A new value is put in
its place by exchanging it with the cells it comes before, one after the other, and the
last one displaced falls out.
-/
namespace M65Tool.Lib.FirstFew

section Ranks
variable {α β : Type} [DecidableEq α] [LinearOrder β] (rank : α → β)

/-- The exchanges along the cells: a value that is there already goes no further. -/
def insertInto : List α → α → List α
  | [], _ => []
  | cell :: rest, value =>
    if cell = value then cell :: rest
    else if rank value < rank cell then value :: insertInto rest cell
    else cell :: insertInto rest value

/-- A value in its place among all values so far. -/
def sortedInsert (value : α) : List α → List α
  | [] => [value]
  | x :: xs =>
    if x = value then x :: xs
    else if rank value < rank x then value :: x :: xs
    else x :: sortedInsert value xs

end Ranks

/-- The first `few` of the values, filled up with blanks. -/
def firstFew {α : Type} (few : Nat) (blank : α) (values : List α) : List α :=
  (values ++ List.replicate few blank).take few

/-- The values in the strict order of their ranks. -/
def Ranked {α β : Type} [LinearOrder β] (rank : α → β) (values : List α) : Prop :=
  values.Pairwise fun a b => rank a < rank b

section FirstFew
variable {α : Type} {few : Nat} {blank x : α} {values : List α}

@[simp] theorem firstFew_nil : firstFew few blank [] = List.replicate few blank := by
  simp [firstFew]

theorem firstFew_cons : firstFew (few + 1) blank (x :: values) = x :: firstFew few blank values := by
  unfold firstFew
  rw [List.cons_append, List.take_succ_cons, List.replicate_succ', ← List.append_assoc,
    List.take_append_of_le_length]
  simp

theorem map_firstFew {β : Type} (f : α → β) :
    (firstFew few blank values).map f = firstFew few (f blank) (values.map f) := by
  simp [firstFew, List.map_take]

end FirstFew

section Unique
variable {α β : Type} [LinearOrder β] {rank : α → β} {values : List α}

theorem Ranked.nodup (ranked : Ranked rank values) : values.Nodup := by
  refine List.Pairwise.imp ?_ ranked
  rintro a _ hlt rfl
  exact lt_irrefl _ hlt

/-- There is only one way to rank the same values. -/
theorem ranked_unique {others : List α} (ranked : Ranked rank values)
    (ranked' : Ranked rank others) (same : ∀ a, a ∈ values ↔ a ∈ others) : values = others := by
  have perm := (List.perm_ext_iff_of_nodup ranked.nodup ranked'.nodup).mpr same
  refine perm.eq_of_pairwise ?_ ranked ranked'
  intro a b _ _ hab hba
  exact absurd hab (lt_asymm hba)

end Unique

section Insert
variable {α β : Type} [DecidableEq α] [LinearOrder β] {rank : α → β} {few : Nat} {blank value a : α}
  {values cells : List α}

theorem mem_sortedInsert : a ∈ sortedInsert rank value values ↔ a = value ∨ a ∈ values := by
  induction values with
  | nil => simp [sortedInsert]
  | cons x xs ih =>
    rw [sortedInsert]
    by_cases heq : x = value
    · rw [if_pos heq, heq, List.mem_cons]
      exact ⟨Or.inr, fun h => h.elim Or.inl id⟩
    · rw [if_neg heq]
      split
      · rw [List.mem_cons]
      · rw [List.mem_cons, ih, List.mem_cons, or_left_comm]

theorem sortedInsert_ranked (inj : Function.Injective rank) (ranked : Ranked rank values) :
    Ranked rank (sortedInsert rank value values) := by
  induction values with
  | nil => exact List.pairwise_singleton _ _
  | cons x xs ih =>
    obtain ⟨hx, hxs⟩ := List.pairwise_cons.mp ranked
    rw [sortedInsert]
    by_cases heq : x = value
    · rw [if_pos heq]
      exact ranked
    · rw [if_neg heq]
      by_cases hlt : rank value < rank x
      · rw [if_pos hlt]
        refine List.pairwise_cons.mpr ⟨?_, ranked⟩
        intro b hb
        rcases List.mem_cons.mp hb with rfl | hlater
        · exact hlt
        · exact lt_trans hlt (hx b hlater)
      · have hbehind : rank x < rank value :=
          lt_of_le_of_ne (le_of_not_gt hlt) fun he => heq (inj he)
        rw [if_neg hlt]
        refine List.pairwise_cons.mpr ⟨?_, ih hxs⟩
        intro b hb
        rcases mem_sortedInsert.mp hb with rfl | hlater
        · exact hbehind
        · exact hx b hlater

/-- A value that comes before all others is put in front of them. -/
theorem sortedInsert_front (h : ∀ x ∈ values, rank value < rank x) :
    sortedInsert rank value values = value :: values := by
  cases values with
  | nil => rfl
  | cons x xs =>
    have hlt := h x List.mem_cons_self
    have hne : x ≠ value := by
      rintro rfl
      exact lt_irrefl _ hlt
    rw [sortedInsert, if_neg hne, if_pos hlt]

theorem insertInto_blank (few : Nat) :
    insertInto rank (List.replicate few blank) blank = List.replicate few blank := by
  cases few with
  | zero => rfl
  | succ few => rw [List.replicate_succ, insertInto, if_pos rfl]

/-- The exchanges keep the first few values: `blank` comes behind every value. -/
theorem insertInto_firstFew (last : ∀ x, x ≠ blank → rank x < rank blank)
    (ranked : Ranked rank values) (hvalue : value ≠ blank) (hvalues : blank ∉ values) :
    insertInto rank (firstFew few blank values) value =
      firstFew few blank (sortedInsert rank value values) := by
  induction few generalizing values value with
  | zero => rfl
  | succ few ih =>
    cases values with
    | nil =>
      rw [firstFew_nil, List.replicate_succ, insertInto, if_neg (Ne.symm hvalue),
        if_pos (last value hvalue), insertInto_blank, sortedInsert, firstFew_cons, firstFew_nil]
    | cons x xs =>
      obtain ⟨hx, hxs⟩ := List.pairwise_cons.mp ranked
      rw [List.mem_cons, not_or] at hvalues
      rw [firstFew_cons, insertInto, sortedInsert]
      by_cases heq : x = value
      · rw [if_pos heq, if_pos heq, firstFew_cons]
      · rw [if_neg heq, if_neg heq]
        by_cases hlt : rank value < rank x
        · -- the value takes the place of `x`, which goes on and is first among the rest
          rw [if_pos hlt, if_pos hlt, firstFew_cons,
            ih hxs (Ne.symm hvalues.1) hvalues.2, sortedInsert_front hx]
        · rw [if_neg hlt, if_neg hlt, firstFew_cons, ih hxs hvalue hvalues.2]

end Insert
end M65Tool.Lib.FirstFew
