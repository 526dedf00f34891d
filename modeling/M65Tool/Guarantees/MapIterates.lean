import M65Tool.Source.MapIteration
import M65Tool.Guarantees.MapSizing

/-!
# MAP-ITERATES: an iteration visits every entry once

Over a table of any size and any pattern of occupied slots the loop over the iterators
ends. It visits the occupied slots in increasing order and no others, reads no slot
outside of the table, and yields the stored values; on an empty map the first iterator
is done. Every table that a map comes to is of such a size.
-/
namespace M65Tool.Guarantees.MapIterates
open Source Source.Mem Source.HashMap Lib.Effect MapSizing

/-- The map struct and its table can be read. The slots with a hash have a value with a
pointer, the others the zero handle. -/
structure TableAt {σ : Type} (ops : MemOps σ) (s : σ) (mh : MemHandle) (mp : Map) : Prop where
  map_at : ∃ ptr, ops.memP mh s = .ok ptr s ∧ ptr ≠ 0
  entries_at : ∃ ptr, ops.memP mp.entriesMh s = .ok ptr s ∧ ptr ≠ 0
  shaped : mp.Shaped
  size_pos : 0 < mp.tableSize
  size_fits : mp.tableSize < 2 ^ 32
  value_at : ∀ pos < mp.tableSize, (mp.slot pos).keyHash ≠ 0 →
    ∃ ptr, ops.memP (mp.slot pos).valueHandle s = .ok ptr s ∧ ptr ≠ 0
  empty_zero : ∀ pos < mp.tableSize, (mp.slot pos).keyHash = 0 →
    (mp.slot pos).valueHandle = .zero

/-- What the iterators of a loop went over. -/
structure Enumerates (mh : MemHandle) (mp : Map) (its : List MapIter) : Prop where
  visits : ∀ pos, pos ∈ its.map MapIter.pos ↔ pos < mp.tableSize ∧ (mp.slot pos).keyHash ≠ 0
  increasing : (its.map MapIter.pos).Pairwise (· < ·)
  values : its.map mapIterValue =
    (mp.entries.filter fun entry => entry.keyHash ≠ 0).map MapEntry.valueHandle

section Table
variable {σ : Type} {libc : Libc σ} {spec : MemAllocator → Option (MemAllocatorSpec σ)} {s : σ}
  {mh : MemHandle} {mp : Map} {pos p tests : Nat}

/-- The iterator at the first of these positions. -/
def iterOf (mh : MemHandle) (mp : Map) : List Nat → MapIter
  | [] => .zero
  | pos :: _ => ⟨mh, pos, (mp.slot pos).valueHandle⟩

theorem memP_zero : (memOps libc spec).memP .zero s = .ok 0 s := rfl

theorem incrUint_lt (h : pos < mp.tableSize) (fits : mp.tableSize < 2 ^ 32) :
    incrUint pos = pos + 1 := incrUint_eq (by omega)

namespace TableAt
variable (hat : TableAt (memOps libc spec) s mh mp)
include hat

theorem deref_entries : deref (memOps libc spec) mp.entriesMh s = .ok () s := by
  obtain ⟨ptr, hptr, hne⟩ := hat.entries_at
  rw [deref, bind_of_ok hptr, if_neg hne]
  rfl

/-- The slots of the table are those of its block. -/
theorem readEntry_ok (h : pos < mp.tableSize) :
    (readEntry mp pos : C σ MapEntry) s = .ok (mp.slot pos) s := by
  have hlt : pos < mp.entries.length := by
    rw [hat.shaped]
    exact h
  rw [readEntry, Map.slot, List.getD_eq_getElem?_getD, List.getElem?_eq_getElem hlt]
  rfl

/-- `mem_p` tells the occupied slots from the others. -/
theorem value_ptr (h : pos < mp.tableSize) :
    ∃ ptr, (memOps libc spec).memP (mp.slot pos).valueHandle s = .ok ptr s ∧
      (ptr = 0 ↔ (mp.slot pos).keyHash = 0) := by
  by_cases hocc : (mp.slot pos).keyHash = 0
  · rw [hat.empty_zero pos h hocc]
    exact ⟨0, memP_zero, iff_of_true rfl hocc⟩
  · obtain ⟨ptr, hptr, hne⟩ := hat.value_at pos h hocc
    exact ⟨ptr, hptr, iff_of_false hne hocc⟩

/-- The scan stops at the first occupied slot, or at the end of the table. -/
theorem scanValues_ok (hpos : pos ≤ mp.tableSize) (htests : mp.tableSize < pos + tests) :
    ∃ q ≤ mp.tableSize, scanValues (memOps libc spec) mp tests pos s = .ok q s ∧
      occupiedFrom mp pos = occupiedFrom mp q ∧
      (q < mp.tableSize → (mp.slot q).keyHash ≠ 0) := by
  induction tests generalizing pos with
  | zero => omega
  | succ tests ih =>
    rw [scanValues]
    by_cases hlt : pos < mp.tableSize
    · obtain ⟨ptr, hptr, hiff⟩ := hat.value_ptr hlt
      rw [if_pos hlt, bind_of_ok (hat.readEntry_ok hlt), bind_of_ok hptr]
      by_cases hzero : ptr = 0
      · obtain ⟨q, hq, hrun, hsame, hocc⟩ := ih (show pos + 1 ≤ mp.tableSize by omega) (by omega)
        rw [if_pos hzero, incrUint_lt hlt hat.size_fits]
        refine ⟨q, hq, hrun, ?_, hocc⟩
        rw [← hsame, occupiedFrom_lt hlt, if_neg (not_not_intro (hiff.mp hzero))]
      · rw [if_neg hzero]
        exact ⟨pos, hpos, rfl, rfl, fun _ hempty => hzero (hiff.mpr hempty)⟩
    · rw [if_neg hlt]
      exact ⟨pos, hpos, rfl, rfl, fun h => absurd h hlt⟩

theorem nextIter_ok (hpos : p < mp.tableSize) (htests : mp.tableSize < tests)
    (valueHandle : MemHandle) :
    nextIter (memOps libc spec) mp tests ⟨mh, p, valueHandle⟩ s =
      .ok (iterOf mh mp (occupiedFrom mp (p + 1))) s := by
  obtain ⟨ptr, hptr, hne⟩ := hat.map_at
  obtain ⟨q, hq, hrun, hsame, hocc⟩ := hat.scanValues_ok (show p + 1 ≤ mp.tableSize by omega)
    (show mp.tableSize < p + 1 + tests by omega)
  rw [nextIter, bind_of_ok hptr, if_neg hne, bind_of_ok hat.deref_entries,
    incrUint_lt hpos hat.size_fits, bind_of_ok hrun, hsame]
  rcases Nat.lt_or_ge q mp.tableSize with hlt | hge
  · rw [if_neg (by omega), bind_of_ok (hat.readEntry_ok hlt), occupiedFrom_lt hlt,
      if_pos (hocc hlt)]
    rfl
  · rw [if_pos hge, occupiedFrom_end hge]
    rfl

theorem firstIter_ok (htests : mp.tableSize < tests) :
    firstIter (memOps libc spec) mp tests mh s = .ok (iterOf mh mp (occupiedFrom mp 0)) s := by
  obtain ⟨ptr, hptr, hne⟩ := hat.map_at
  obtain ⟨valuePtr, hvalue, hiff⟩ := hat.value_ptr hat.size_pos
  rw [firstIter, bind_of_ok hptr, if_neg hne, bind_of_ok hat.deref_entries,
    bind_of_ok (hat.readEntry_ok hat.size_pos), bind_of_ok hvalue, occupiedFrom_lt hat.size_pos]
  by_cases hzero : valuePtr = 0
  · rw [if_pos hzero, if_neg (not_not_intro (hiff.mp hzero))]
    exact hat.nextIter_ok hat.size_pos htests _
  · rw [if_neg hzero, if_pos fun hempty => hzero (hiff.mpr hempty)]
    rfl

/-! The functions of the map's model, which tell nothing of reads outside of the table,
answer the same. -/

theorem nextValuePos_ok {left : Nat} (hleft : mp.tableSize - pos = left) :
    nextValuePos (memOps libc spec) mp left pos s = .ok (occupiedFrom mp pos).head? s := by
  induction left generalizing pos with
  | zero =>
    rw [occupiedFrom_end (by omega)]
    rfl
  | succ left ih =>
    obtain ⟨ptr, hptr, hiff⟩ := hat.value_ptr (show pos < mp.tableSize by omega)
    rw [nextValuePos, bind_of_ok hptr, occupiedFrom_lt (by omega)]
    by_cases hzero : ptr = 0
    · rw [if_pos hzero, if_neg (not_not_intro (hiff.mp hzero)), ih (by omega)]
    · rw [if_neg hzero, if_pos fun hempty => hzero (hiff.mpr hempty)]
      rfl

theorem mapNextValueIter_eq (hpos : p < mp.tableSize) (htests : mp.tableSize < tests)
    (valueHandle : MemHandle) :
    mapNextValueIter (memOps libc spec) mp ⟨mh, p, valueHandle⟩ s =
      nextIter (memOps libc spec) mp tests ⟨mh, p, valueHandle⟩ s := by
  obtain ⟨ptr, hptr, hne⟩ := hat.map_at
  rw [hat.nextIter_ok hpos htests, mapNextValueIter, bind_of_ok hptr, if_neg hne,
    bind_of_ok hat.deref_entries, bind_of_ok (hat.nextValuePos_ok rfl)]
  cases occupiedFrom mp (p + 1) <;> rfl

theorem mapFirstValueIter_eq (htests : mp.tableSize < tests) :
    mapFirstValueIter (memOps libc spec) mh mp s = firstIter (memOps libc spec) mp tests mh s := by
  obtain ⟨ptr, hptr, hne⟩ := hat.map_at
  obtain ⟨valuePtr, hvalue, -⟩ := hat.value_ptr hat.size_pos
  rw [mapFirstValueIter, firstIter, bind_of_ok hptr, bind_of_ok hptr, if_neg hne, if_neg hne,
    bind_of_ok hat.deref_entries, bind_of_ok hat.deref_entries,
    bind_of_ok (hat.readEntry_ok hat.size_pos)]
  dsimp only
  rw [bind_of_ok hvalue, bind_of_ok hvalue]
  by_cases hzero : valuePtr = 0
  · rw [if_pos hzero, if_pos hzero, hat.mapNextValueIter_eq hat.size_pos htests]
  · rw [if_neg hzero, if_neg hzero]

/-- An iterator is done when no occupied slot is left. -/
theorem iterDone_ok (pos : Nat) :
    mapIterDone (memOps libc spec) (iterOf mh mp (occupiedFrom mp pos)) s =
      .ok (occupiedFrom mp pos).isEmpty s := by
  cases hleft : occupiedFrom mp pos with
  | nil => rfl
  | cons p later =>
    have hmem : p ∈ occupiedFrom mp pos := hleft ▸ List.mem_cons_self
    obtain ⟨-, hlt, hocc⟩ := mem_occupiedFrom.mp hmem
    obtain ⟨ptr, hptr, hne⟩ := hat.value_at p hlt hocc
    rw [mapIterDone, iterOf, bind_of_ok hptr]
    simp [hne]

/-- The loop goes through the occupied slots that are left. -/
theorem iterLoop_ok (htests : mp.tableSize < tests) {rounds : Nat} (left : List Nat)
    (hleft : left = occupiedFrom mp pos) (hrounds : left.length < rounds) :
    iterLoop (memOps libc spec) mp tests rounds (iterOf mh mp left) s =
      .ok (left.map fun p => ⟨mh, p, (mp.slot p).valueHandle⟩) s := by
  induction left generalizing pos rounds with
  | nil =>
    obtain ⟨r, rfl⟩ : ∃ r, rounds = r + 1 := ⟨rounds - 1, by omega⟩
    rfl
  | cons p later ih =>
    obtain ⟨r, rfl⟩ : ∃ r, rounds = r + 1 := ⟨rounds - 1, by omega⟩
    have hmem : p ∈ occupiedFrom mp pos := hleft ▸ List.mem_cons_self
    obtain ⟨-, hlt, -⟩ := mem_occupiedFrom.mp hmem
    have hdone := hat.iterDone_ok pos
    have hnext := hat.nextIter_ok hlt htests (mp.slot p).valueHandle
    rw [← hleft] at hdone
    rw [← occupiedFrom_tail hleft.symm] at hnext
    rw [iterLoop, bind_of_ok hdone, List.isEmpty_cons, if_neg Bool.false_ne_true]
    rw [List.length_cons] at hrounds
    rw [iterOf, bind_of_ok hnext, bind_of_ok (ih (occupiedFrom_tail hleft.symm) (by omega))]
    rfl

end TableAt

/-- The slots from the first position on are the entries of the block. -/
theorem map_slot_range (shaped : mp.Shaped) :
    (List.range mp.tableSize).map mp.slot = mp.entries := by
  apply List.ext_getElem?
  intro i
  rw [List.getElem?_map]
  rcases Nat.lt_or_ge i mp.tableSize with hlt | hge
  · have hentry := List.getElem?_eq_getElem (show i < mp.entries.length by rwa [shaped])
    rw [List.getElem?_range hlt, Option.map_some, Map.slot, List.getD_eq_getElem?_getD, hentry]
    rfl
  · rw [List.getElem?_eq_none (by rwa [List.length_range]),
      List.getElem?_eq_none (by rwa [shaped])]
    rfl

theorem enumerates_occupied (shaped : mp.Shaped) :
    Enumerates mh mp ((occupiedFrom mp 0).map fun p => ⟨mh, p, (mp.slot p).valueHandle⟩) := by
  have hpos : ((occupiedFrom mp 0).map fun p => (⟨mh, p, (mp.slot p).valueHandle⟩ : MapIter)).map
      MapIter.pos = occupiedFrom mp 0 := by
    rw [List.map_map]
    exact List.map_id _
  refine ⟨?_, ?_, ?_⟩
  · intro pos
    rw [hpos, mem_occupiedFrom]
    exact ⟨fun h => h.2, fun h => ⟨Nat.zero_le pos, h⟩⟩
  · rw [hpos]
    exact occupiedFrom_pairwise mp 0
  · rw [List.map_map, occupiedFrom, Nat.sub_zero, ← List.range_eq_range', ← map_slot_range shaped,
      List.filter_map, List.map_map]
    rfl

/-- The loop over the iterators of a map ends after it has visited each occupied slot of
the table once, in increasing order, and yielded the stored values; on an empty map the
first iterator is done. The functions of the map's model answer as these do. -/
theorem iterate_enumerates (hat : TableAt (memOps libc spec) s mh mp) :
    (∃ its, Enumerates mh mp its ∧ ∃ enough, ∀ tests ≥ enough, ∀ rounds ≥ enough,
      iterate (memOps libc spec) mp tests rounds mh s = .ok its s) ∧
    ((∀ pos < mp.tableSize, (mp.slot pos).keyHash = 0) → ∃ first enough, ∀ tests ≥ enough,
      firstIter (memOps libc spec) mp tests mh s = .ok first s ∧
      mapIterDone (memOps libc spec) first s = .ok true s) ∧
    ∀ tests > mp.tableSize,
      mapFirstValueIter (memOps libc spec) mh mp s = firstIter (memOps libc spec) mp tests mh s ∧
      ∀ pos < mp.tableSize, ∀ valueHandle,
        mapNextValueIter (memOps libc spec) mp ⟨mh, pos, valueHandle⟩ s =
          nextIter (memOps libc spec) mp tests ⟨mh, pos, valueHandle⟩ s := by
  have hlen : (occupiedFrom mp 0).length ≤ mp.tableSize := by
    have hle := List.length_filter_le (fun p => decide ((mp.slot p).keyHash ≠ 0))
      (List.range' 0 (mp.tableSize - 0))
    rw [List.length_range'] at hle
    exact hle
  refine ⟨⟨_, enumerates_occupied hat.shaped, mp.tableSize + 1, ?_⟩, ?_,
    fun tests htests => ⟨hat.mapFirstValueIter_eq htests, fun pos hpos valueHandle =>
      hat.mapNextValueIter_eq hpos htests valueHandle⟩⟩
  · intro tests htests rounds hrounds
    rw [iterate, bind_of_ok (hat.firstIter_ok (by omega))]
    exact hat.iterLoop_ok (by omega) _ rfl (by omega)
  · intro empty
    have hnone : occupiedFrom mp 0 = [] := by
      rw [occupiedFrom, List.filter_eq_nil_iff]
      intro p hp
      have hlt := List.mem_range'_1.mp hp
      simpa using empty p (by omega)
    refine ⟨iterOf mh mp (occupiedFrom mp 0), mp.tableSize + 1, ?_⟩
    intro tests htests
    refine ⟨hat.firstIter_ok (by omega), ?_⟩
    rw [hat.iterDone_ok 0, hnone]
    rfl

end Table

/-- A table of two slots, with one value at the last one. -/
def lastSlotMap : Map :=
  ⟨⟨8192, 80, .notAllocated⟩, [.empty, ⟨7, ⟨4096, 8, .notAllocated⟩⟩], 1, 2⟩

def lastSlotMh : MemHandle := ⟨12288, 40, .notAllocated⟩

theorem lastSlot_tableAt : TableAt scriptedOps [] lastSlotMh lastSlotMap where
  map_at := ⟨12288, rfl, by decide⟩
  entries_at := ⟨8192, rfl, by decide⟩
  shaped := rfl
  size_pos := by decide
  size_fits := by decide
  value_at
    | 0, _, hocc => absurd rfl hocc
    | 1, _, _ => ⟨4096, rfl, by decide⟩
  empty_zero
    | 0, _, _ => rfl
    | 1, _, hempty => absurd hempty (by decide)

theorem iterate_enumerates_last :
    (∃ its, Enumerates lastSlotMh lastSlotMap its ∧ ∃ enough, ∀ tests ≥ enough, ∀ rounds ≥ enough,
      iterate scriptedOps lastSlotMap tests rounds lastSlotMh [] = .ok its []) ∧
    ((∀ pos < lastSlotMap.tableSize, (lastSlotMap.slot pos).keyHash = 0) →
      ∃ first enough, ∀ tests ≥ enough,
        firstIter scriptedOps lastSlotMap tests lastSlotMh [] = .ok first [] ∧
        mapIterDone scriptedOps first [] = .ok true []) ∧
    ∀ tests > lastSlotMap.tableSize,
      mapFirstValueIter scriptedOps lastSlotMh lastSlotMap [] =
        firstIter scriptedOps lastSlotMap tests lastSlotMh [] ∧
      ∀ pos < lastSlotMap.tableSize, ∀ valueHandle,
        mapNextValueIter scriptedOps lastSlotMap ⟨lastSlotMh, pos, valueHandle⟩ [] =
          nextIter scriptedOps lastSlotMap tests ⟨lastSlotMh, pos, valueHandle⟩ [] :=
  iterate_enumerates lastSlot_tableAt

end M65Tool.Guarantees.MapIterates
