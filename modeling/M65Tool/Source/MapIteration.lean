import M65Tool.Source.HashMapTable

/-!
# Iterating over a map

Source: src/datastruct/map.c:241-272. Here every slot is read from the block of the
entries, and a read behind its end is a fault. `occupiedFrom` are the positions that an
iteration still has before it: each step takes the first of them.
-/
namespace M65Tool.Source.HashMap
open Mem Lib.Effect

section Iteration
variable {σ : Type} (ops : MemOps σ) (mp : Map)

/-- `*(first + pos)`. -/
def readEntry (pos : Nat) : C σ MapEntry :=
  match mp.entries[pos]? with
  | some entry => pure entry
  | none => throw .outOfBounds

/-- map.c:257-260, for at most the given number of tests of the condition. -/
def scanValues : Nat → Nat → C σ Nat
  | 0, _ => throw .endlessLoop
  | tests + 1, pos =>
    if pos < mp.tableSize then do
      let entry ← readEntry mp pos
      let valuePtr ← ops.memP entry.valueHandle
      if valuePtr = 0 then scanValues tests (incrUint pos) else pure pos
    else pure pos

/-- map.c:252-264. -/
def nextIter (tests : Nat) (it : MapIter) : C σ MapIter := do
  let mapPtr ← ops.memP it.mh
  if mapPtr = 0 then pure .zero
  else
    deref ops mp.entriesMh
    let pos ← scanValues ops mp tests (incrUint it.pos)
    if pos ≥ mp.tableSize then pure .zero
    else
      let entry ← readEntry mp pos
      pure ⟨it.mh, pos, entry.valueHandle⟩

/-- map.c:241-250. -/
def firstIter (tests : Nat) (mh : MemHandle) : C σ MapIter := do
  let mapPtr ← ops.memP mh
  if mapPtr = 0 then pure .zero
  else
    deref ops mp.entriesMh
    let first ← readEntry mp 0
    let valuePtr ← ops.memP first.valueHandle
    if valuePtr = 0 then nextIter ops mp tests ⟨mh, 0, first.valueHandle⟩
    else pure ⟨mh, 0, first.valueHandle⟩

/-- `while (!map_iter_done(it)) it = map_next_value_iter(it);`, for at most the given
number of tests of its condition: the iterators that are not done. -/
def iterLoop (tests : Nat) : Nat → MapIter → C σ (List MapIter)
  | 0, _ => throw .endlessLoop
  | rounds + 1, it => do
    let done ← mapIterDone ops it
    if done then pure []
    else
      let next ← nextIter ops mp tests it
      let later ← iterLoop tests rounds next
      pure (it :: later)

/-- An iteration over the whole map. -/
def iterate (tests rounds : Nat) (mh : MemHandle) : C σ (List MapIter) := do
  let first ← firstIter ops mp tests mh
  iterLoop ops mp tests rounds first

end Iteration

/-! ## The positions an iteration has before it -/

section Positions
variable {mp : Map} {pos p : Nat} {later : List Nat}

/-- The occupied slots from a position on. -/
def occupiedFrom (mp : Map) (pos : Nat) : List Nat :=
  (List.range' pos (mp.tableSize - pos)).filter fun p => (mp.slot p).keyHash ≠ 0

theorem occupiedFrom_end (h : mp.tableSize ≤ pos) : occupiedFrom mp pos = [] := by
  rw [occupiedFrom, Nat.sub_eq_zero_of_le h]
  rfl

theorem occupiedFrom_lt (h : pos < mp.tableSize) : occupiedFrom mp pos =
    if (mp.slot pos).keyHash ≠ 0 then pos :: occupiedFrom mp (pos + 1)
    else occupiedFrom mp (pos + 1) := by
  have hsize : mp.tableSize - pos = mp.tableSize - (pos + 1) + 1 := by omega
  rw [occupiedFrom, hsize, List.range'_succ, List.filter_cons, occupiedFrom]
  simp only [decide_eq_true_eq]

theorem mem_occupiedFrom :
    p ∈ occupiedFrom mp pos ↔ pos ≤ p ∧ p < mp.tableSize ∧ (mp.slot p).keyHash ≠ 0 := by
  rw [occupiedFrom, List.mem_filter, List.mem_range'_1]
  simp only [decide_eq_true_eq]
  constructor
  · rintro ⟨⟨hpos, hlt⟩, hocc⟩
    exact ⟨hpos, by omega, hocc⟩
  · rintro ⟨hpos, hlt, hocc⟩
    exact ⟨⟨hpos, by omega⟩, hocc⟩

theorem occupiedFrom_pairwise (mp : Map) (pos : Nat) :
    (occupiedFrom mp pos).Pairwise (· < ·) :=
  List.Pairwise.filter _ List.pairwise_lt_range'

/-- Behind the first occupied slot are those from the next position on. -/
theorem occupiedFrom_tail (h : occupiedFrom mp pos = p :: later) :
    later = occupiedFrom mp (p + 1) := by
  generalize hleft : mp.tableSize - pos = left
  induction left generalizing pos with
  | zero =>
    rw [occupiedFrom_end (by omega)] at h
    cases h
  | succ left ih =>
    rw [occupiedFrom_lt (by omega)] at h
    split at h
    · cases h
      rfl
    · exact ih h (by omega)

end Positions
end M65Tool.Source.HashMap
