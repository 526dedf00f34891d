import Mathlib.Algebra.Group.Nat.Defs
import Mathlib.Data.List.Basic

/-!
# Blocks that are overwritten and enlarged

A block of memory is the list of its cells. `overwrite` stores a run of cells at an
offset, `resize` is what a reallocation makes of a block: the common prefix stays
and fresh cells follow. A capacity that only ever doubles is a `Doubling` of the
first one.
-/
namespace M65Tool.Lib.Block

section Cells
variable {α : Type} {block cells : List α} {offset size n : Nat} {fresh : α}

/-- The block with the cells stored from the offset on. -/
def overwrite (block : List α) (offset : Nat) (cells : List α) : List α :=
  block.take offset ++ cells ++ block.drop (offset + cells.length)

/-- The block at another size. -/
def resize (block : List α) (size : Nat) (fresh : α) : List α :=
  block.take size ++ List.replicate (size - block.length) fresh

theorem length_overwrite (fits : offset + cells.length ≤ block.length) :
    (overwrite block offset cells).length = block.length := by
  simp only [overwrite, List.length_append, List.length_take, List.length_drop]
  omega

/-- What the block holds up to the end of the stored cells. -/
theorem take_overwrite (cells : List α) (fits : offset ≤ block.length) :
    (overwrite block offset cells).take (offset + cells.length) = block.take offset ++ cells := by
  have hlen : (block.take offset ++ cells).length = offset + cells.length := by
    simp only [List.length_append, List.length_take]
    omega
  rw [overwrite, ← hlen, List.take_left]

/-- What the block holds up to a place in the stored cells. -/
theorem take_overwrite_add (cells : List α) (inside : n ≤ cells.length)
    (fits : offset ≤ block.length) :
    (overwrite block offset cells).take (offset + n) = block.take offset ++ cells.take n := by
  have hlen : (block.take offset).length = offset := by
    rw [List.length_take]
    omega
  have hle : offset + n ≤ offset + cells.length := by omega
  rw [← Nat.min_eq_left hle, ← List.take_take, take_overwrite cells fits, List.take_append, hlen,
    Nat.add_sub_cancel_left, List.take_of_length_le (by omega)]

/-- Behind the stored cells the block is as it was. -/
theorem drop_overwrite (h : offset + cells.length ≤ n) (fits : offset ≤ block.length) :
    (overwrite block offset cells).drop n = block.drop n := by
  have hlen : (block.take offset ++ cells).length = offset + cells.length := by
    simp only [List.length_append, List.length_take]
    omega
  obtain ⟨m, rfl⟩ := Nat.exists_eq_add_of_le h
  rw [overwrite, ← hlen, ← List.drop_drop, List.drop_left, List.drop_drop, hlen]

theorem length_resize : (resize block size fresh).length = size := by
  simp only [resize, List.length_append, List.length_take, List.length_replicate]
  omega

theorem take_resize (before : n ≤ block.length) (after : n ≤ size) :
    (resize block size fresh).take n = block.take n := by
  have hlen : n ≤ (block.take size).length := by
    rw [List.length_take]
    omega
  rw [resize, List.take_append_of_le_length hlen, List.take_take, Nat.min_eq_left after]

end Cells

/-! ## Doubling -/

/-- `n` is reached from `c` by doubling. -/
def Doubling (c n : Nat) : Prop := ∃ k, n = c * 2 ^ k

namespace Doubling
variable {c n m : Nat}

theorem refl (c : Nat) : Doubling c c := ⟨0, by simp⟩

theorem double (h : Doubling c n) : Doubling c (n * 2) := by
  obtain ⟨k, rfl⟩ := h
  exact ⟨k + 1, by rw [Nat.pow_succ, Nat.mul_assoc]⟩

theorem trans (h : Doubling c n) (h' : Doubling n m) : Doubling c m := by
  obtain ⟨k, rfl⟩ := h
  obtain ⟨l, rfl⟩ := h'
  exact ⟨k + l, by rw [Nat.pow_add, Nat.mul_assoc]⟩

theorem le (h : Doubling c n) : c ≤ n := by
  obtain ⟨k, rfl⟩ := h
  exact Nat.le_mul_of_pos_right c (Nat.two_pow_pos k)

end Doubling

/-- `n` is the first doubling of `c` that has room for `need`. -/
def LeastDoubling (c need n : Nat) : Prop :=
  ∃ k, n = c * 2 ^ k ∧ need ≤ c * 2 ^ k ∧ ∀ j < k, c * 2 ^ j < need

namespace LeastDoubling
variable {c need n : Nat}

theorem refl (room : need ≤ c) : LeastDoubling c need c := by
  refine ⟨0, by simp, by simpa using room, ?_⟩
  intro j hj
  omega

theorem double (short : c < need) (h : LeastDoubling (c * 2) need n) :
    LeastDoubling c need n := by
  obtain ⟨k, hn, hroom, hleast⟩ := h
  have hstep : ∀ j, c * 2 * 2 ^ j = c * 2 ^ (j + 1) := by
    intro j
    rw [Nat.pow_succ', Nat.mul_assoc]
  refine ⟨k + 1, by rw [hn, hstep], by rw [← hstep]; exact hroom, ?_⟩
  intro j hj
  cases j with
  | zero => simpa using short
  | succ j =>
    rw [← hstep]
    exact hleast j (by omega)

end LeastDoubling
end M65Tool.Lib.Block
