import M65Tool.Source.HashMapRun
import M65Tool.Source.HeapBlocks

/-!
# The blocks of a map

A map over the plain allocator owns two blocks, its struct and its entries. A call of
map.c leaves it with two, whatever requests are refused: a resize takes the new entries
block before it frees the old one. The exception is a set that is granted a larger table:
it stores through the pointer to the block that the resize has freed, and nothing is
promised of it.
-/
namespace M65Tool.Source.HashMap
open Mem MapHash Lib.Effect Lib.Ownership

/-- The entries block and the map struct. -/
def mapBlocks (mh : MemHandle) (mp : Map) : List Addr := [mp.entriesMh.data, mh.data]

section Blocks
variable {σ : Type} {libc : Libc σ} {live : σ → Addr → Prop} {rest : Set Addr} {target : Target}
  {mh : MemHandle} {mp : Map} {h : UInt32}

/-- The map is in its two blocks. -/
structure Housed (live : σ → Addr → Prop) (rest : Set Addr) (mh : MemHandle) (mp : Map) (s : σ) :
    Prop where
  attached : Attached .plain mh mp
  owns : Owns live rest (mapBlocks mh mp) s

/-- The hash of the key can be computed. -/
structure Hashed (ops : MemOps σ) (target : Target) (key : MapKey) (h : UInt32) : Prop where
  readable : key.Readable ops
  hash : key.hash target = some h

/-- A set of the hash needs a free slot of a table that is half full, and is granted a
larger table. -/
structure Enlarges (libc : Libc σ) (mh : MemHandle) (mp : Map) (h : UInt32) (s : σ) : Prop where
  free : ∃ pos, findEntryPos mp h = some pos ∧ (mp.slot pos).keyHash = 0
  crowded : mp.counted.entryCount > mp.counted.tableSize / 2
  granted : ∃ resized s',
    resizeEntriesTable (baseOps libc) mh mp.counted true s = .ok (true, resized) s'

theorem baseOps_reads (libc : Libc σ) : PointerReads (baseOps libc) :=
  memOps_pointerReads (baseSpec_keeps libc)

theorem baseOps_serves (libc : Libc σ) : PlainServes (baseOps libc) := memOps_plainServes rfl

variable (blocks : BlockHeap libc live)
include blocks

theorem mapCreate_owns : Triple (Owns live rest []) (mapCreate (baseOps libc) .plain)
    (fun result s => match result.2 with
      | some mp => mp = .created mp.entriesMh ∧ Housed live rest result.1 mp s
      | none => Owns live rest [] s) fun _ _ => False := by
  refine .seq (blocks.memAlloc_owns sizeofMap) fun mh => Allocated.cases ?_ ?_
  · intro hplain _ hdata
    rw [if_pos (memIsValid_eq_true.mpr hdata)]
    refine .past (fun s _ => baseOps_deref hplain hdata s) ?_
    refine .seq (blocks.memAllocClear_owns _) fun entriesMh => Allocated.cases ?_ ?_
    · intro hplain' _ hdata'
      rw [if_pos (memIsValid_eq_true.mpr hdata')]
      exact .ret fun s howns => ⟨rfl, ⟨hplain, hdata, hplain', hdata'⟩, howns⟩
    · intro _ _ hnull
      rw [if_neg (by simpa using hnull)]
      exact .seq (blocks.memFree_owns hplain hdata) fun _ => .ret fun s h => h.2
  · intro _ _ hnull
    rw [if_neg (by simpa using hnull)]
    exact .ret fun s howns => howns

/-- The map and its two blocks after a resize, whether it is granted or not. -/
theorem resize_owns (hat : Attached .plain mh mp) (isGrow : Bool) :
    Triple (Owns live rest (mapBlocks mh mp)) (resizeEntriesTable (baseOps libc) mh mp isGrow)
      (fun result => Housed live rest mh result.2)
      fun _ _ => isGrow = true ∧ 2 ^ 32 ≤ mp.tableSize * 2 := by
  refine .seq (Q := fun _ => Owns live rest (mapBlocks mh mp)) ?_ fun n => ?_
  · cases isGrow with
    | true =>
      rw [resizedTableSize, if_pos rfl]
      exact .cond (fun _ => .ret fun _ h => h) fun full =>
        .stop fun _ _ => ⟨rfl, Nat.le_of_not_lt full⟩
    | false => exact .ret fun _ h => h
  · rw [hat.map_allocator]
    refine .seq (blocks.memAllocClear_owns _) fun newMh => Allocated.cases ?_ ?_
    · intro hplain _ hdata
      refine .past (fun s _ => plain_memP rfl hplain) ?_
      rw [if_neg hdata]
      refine .past (fun s _ => baseOps_deref hat.entries_allocator hat.entries_data s) ?_
      refine .seq ((blocks.memFree_owns hat.entries_allocator hat.entries_data).weaken
        (fun s h => h.swap) fun _ _ h => h) fun _ => .ret fun s h => ?_
      exact ⟨⟨hat.map_allocator, hat.map_data, hplain, hdata⟩, h.2⟩
    · intro hplain _ hnull
      refine .past (fun s _ => plain_memP rfl hplain) ?_
      rw [if_pos hnull]
      exact .ret fun s h => ⟨hat, h⟩

/-- A set that leaves the size of the table leaves the map its two blocks. -/
theorem doSet_owns (hat : Attached .plain mh mp) (v : MemHandle) :
    Triple (Owns live rest (mapBlocks mh mp)) (doSet (baseOps libc) mh mp h v)
      (fun result s => result.2.tableSize = mp.tableSize → Housed live rest mh result.2 s)
      fun _ _ => True := by
  refine .past (fun s _ => hat.derefTable_run (baseOps_serves libc) s) ?_
  cases found : findEntryPos mp h with
  | none => exact .stop fun _ _ => trivial
  | some pos =>
    have hp : pos < mp.tableSize := findEntryPos_lt found
    refine .past (fun _ _ => rfl) (.cond (fun _ => .cond (fun _ => ?_) fun _ => ?_) fun _ => ?_)
    · have hcounted : Attached .plain mh mp.counted := hat.congr rfl
      refine .seq (((resize_owns blocks hcounted true).stops fun _ _ _ => trivial).knowing
        fun s result s' => resizeEntriesTable_ok) fun result => .given fun hcases =>
          .cond (fun hgrown => ?_) fun _ => .ret fun s h _ => h
      refine .seq .any fun _ => .seq .any fun _ => .seq .any fun _ => .ret fun s _ hsame => ?_
      rcases hcases with ⟨hno, -⟩ | ⟨-, -, newMh, hnew⟩
      · exact absurd (hno.symm.trans hgrown) Bool.false_ne_true
      · simp only [hnew, Map.resized_tableSize, if_true, Map.counted_tableSize] at hsame
        omega
    · exact .ret fun s hown _ => ⟨hat.congr rfl, hown⟩
    · exact .ret fun s hown _ => ⟨hat.congr rfl, hown⟩

/-- Unless it is granted a larger table a set returns, and leaves the size as it is. -/
theorem doSet_returns (hat : Attached .plain mh mp) {pos : Nat}
    (found : findEntryPos mp h = some pos) (fits : mp.tableSize * 2 < 2 ^ 32) (v : MemHandle)
    {s : σ} (hown : Owns live rest (mapBlocks mh mp) s) (spared : ¬ Enlarges libc mh mp h s) :
    ∃ b mp' s', doSet (baseOps libc) mh mp h v s = .ok (b, mp') s' ∧
      mp'.tableSize = mp.tableSize := by
  rw [doSet, bind_of_ok (hat.derefTable_run (baseOps_serves libc) s), found]
  by_cases free : (mp.slot pos).keyHash = 0
  · by_cases crowded : mp.counted.entryCount > mp.counted.tableSize / 2
    · have hcounted : Attached .plain mh mp.counted := hat.congr rfl
      have hnot : ∀ (e : Fault) (s : σ), true = true ∧ 2 ^ 32 ≤ mp.counted.tableSize * 2 → False :=
        fun _ _ full => absurd full.2 (Nat.not_le_of_gt fits)
      obtain ⟨⟨grown, resized⟩, s', hrun, -⟩ :=
        ((resize_owns blocks hcounted true).stops hnot).returns hown
      cases grown with
      | true => exact absurd ⟨⟨pos, found, free⟩, crowded, resized, s', hrun⟩ spared
      | false =>
        rcases resizeEntriesTable_ok hrun with ⟨-, rfl⟩ | ⟨hno, -⟩
        · refine ⟨false, mp.counted, s', ?_, rfl⟩
          simp only [orNoEntryPos, pure_bind_run, if_pos free, if_pos crowded]
          rw [bind_of_ok hrun]
          rfl
        · cases hno
    · refine ⟨true, mp.counted.store pos ⟨h, v⟩, s, ?_, rfl⟩
      simp only [orNoEntryPos, pure_bind_run, if_pos free, if_neg crowded]
      rfl
  · refine ⟨true, mp.store pos ⟨h, v⟩, s, ?_, rfl⟩
    simp only [orNoEntryPos, pure_bind_run, if_neg free]
    rfl

theorem doDelete_owns (hat : Attached .plain mh mp) {pos : Nat}
    (found : findEntryPos mp h = some pos) :
    Triple (Owns live rest (mapBlocks mh mp)) (doDelete (baseOps libc) mh mp h)
      (fun result => Housed live rest mh result.2) fun _ _ => False := by
  refine .past (fun s _ => hat.derefTable_run (baseOps_serves libc) s) ?_
  rw [found]
  refine .past (fun _ _ => rfl) (.cond (fun _ => .ret fun s hown => ⟨hat, hown⟩) fun _ =>
    .cond (fun _ => ?_) fun _ => .ret fun s hown => ⟨hat.congr rfl, hown⟩)
  have hemptied : Attached .plain mh (mp.emptied pos) := hat.congr rfl
  exact (resize_owns blocks hemptied false).stops fun _ _ h => Bool.false_ne_true h.1

theorem mapDestroy_owns (hat : Attached .plain mh mp) :
    Triple (Owns live rest (mapBlocks mh mp)) (mapDestroy (baseOps libc) mh mp)
      (fun _ => Owns live rest []) fun _ _ => False := by
  refine .past (fun s _ => hat.mapIsValid_run (baseOps_serves libc) s) ?_
  rw [if_pos rfl]
  refine .past (fun s _ => baseOps_deref hat.map_allocator hat.map_data s) ?_
  refine .seq (blocks.memFree_owns hat.entries_allocator hat.entries_data) fun _ =>
    .given fun _ => ?_
  exact .seq (blocks.memFree_owns hat.map_allocator hat.map_data) fun _ => .ret fun s h => h.2

/-! ## The calls by key -/

theorem mapSet_returns {key : MapKey} (hat : Attached .plain mh mp)
    (hashed : Hashed (baseOps libc) target key h) {pos : Nat}
    (found : findEntryPos mp h = some pos) (fits : mp.tableSize * 2 < 2 ^ 32) (v : MemHandle)
    {s : σ} (hown : Owns live rest (mapBlocks mh mp) s) (spared : ¬ Enlarges libc mh mp h s) :
    ∃ b mp' s', mapSet (baseOps libc) target mh mp key v s = .ok (b, mp') s' ∧
      mp'.tableSize = mp.tableSize := by
  have hset := doSet_returns blocks hat found fits v hown spared
  have hvalid : mapIsValid (baseOps libc) mh mp s = .ok true s := hat.mapIsValid_run (baseOps_serves libc) s
  cases key with
  | str key =>
    obtain ⟨valuePtr, hptr⟩ : ∃ a, ∀ s, (baseOps libc).memP v s = .ok a s := baseOps_memP v
    rw [mapSet, mapSetStr, bind_of_ok hvalid, if_pos rfl, bind_of_ok (hptr s)]
    by_cases hnull : valuePtr = 0
    · rw [if_pos hnull]
      exact ⟨false, mp, s, rfl, rfl⟩
    · rw [if_neg hnull, bind_of_ok (hashStr_returns (hashed.readable s) hashed.hash)]
      exact hset
  | ptr key =>
    obtain rfl : hashPtr target key = h := Option.some.inj hashed.hash
    rw [mapSet, mapSetPtr, bind_of_ok hvalid, if_pos rfl]
    by_cases hv : memIsValid v = true
    · rw [if_pos hv]
      exact hset
    · rw [if_neg hv]
      exact ⟨false, mp, s, rfl, rfl⟩

end Blocks

end M65Tool.Source.HashMap
