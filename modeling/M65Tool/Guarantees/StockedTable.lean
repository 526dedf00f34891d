import M65Tool.Guarantees.HomedMap
import M65Tool.Source.HashMapBlocks
import M65Tool.Source.MemtblRelease

/-!
# STOCKED-TABLE: a memory table and its blocks

A memory table over the plain allocator owns its struct, the two blocks of its map, and
the blocks that the map records. While each recorded address has a home of its own in the
first table, the calls of memtbl.c change what is recorded and what is owned in step,
whatever requests are refused.
-/
namespace M65Tool.Guarantees.StockedTable
open Source.Mem Source.MapHash Source.HashMap Source.Memtbl Source.Machine
open Lib.Effect Lib.HomeTable Lib.Ownership HomedMap

/-- The addresses that the finite map records. -/
def recordedBlocks (m : Store UInt32 MemHandle) : List Addr :=
  m.entries.map fun entry => entry.2.data

/-- The live blocks of the machine are those of its C heap. -/
def heapLive {τ : Type} (live : τ → Addr → Prop) (w : World τ) : Addr → Prop := live w.heap

/-- An address whose hash has a home of its own beside these blocks. -/
structure Spaced (target : Target) (blocks : List Addr) (a : Addr) : Prop where
  hash_ne : hashPtr target a ≠ 0
  apart : ∀ b ∈ blocks, homeOf (hashPtr target b) ≠ homeOf (hashPtr target a)
  room : blocks.length < initialTableSize / 2

section Recorded
variable {m : Store UInt32 MemHandle} {h : UInt32} {v : MemHandle} {a : Addr}

theorem mem_recordedBlocks : a ∈ recordedBlocks m ↔ ∃ h v, m.lookup h = some v ∧ v.data = a := by
  rw [recordedBlocks, List.mem_map]
  constructor
  · rintro ⟨entry, hentry, rfl⟩
    exact ⟨entry.1, entry.2, List.mem_dlookup m.nodupKeys hentry, rfl⟩
  · rintro ⟨h, v, hl, rfl⟩
    exact ⟨⟨h, v⟩, List.of_mem_dlookup hl, rfl⟩

theorem length_recordedBlocks : (recordedBlocks m).length = m.keys.length := by
  rw [recordedBlocks, List.length_map, AList.keys, List.keys, List.length_map]

theorem recordedBlocks_insert (hk : h ∉ m) :
    recordedBlocks (m.insert h v) = v.data :: recordedBlocks m := by
  rw [recordedBlocks, AList.entries_insert_of_notMem hk]
  rfl

theorem recordedBlocks_erase (hl : m.lookup h = some v) :
    (recordedBlocks m).Perm (v.data :: recordedBlocks (m.erase h)) := by
  have hk : h ∈ m.entries.keys := AList.mem_keys.mp (AList.lookup_isSome.mp (by rw [hl]; rfl))
  obtain ⟨u, front, back, hfront, hsplit, herase⟩ := List.exists_of_kerase hk
  have hu : m.lookup h = some u := List.mem_dlookup m.nodupKeys (by rw [hsplit]; simp)
  obtain rfl : v = u := Option.some.inj (hl.symm.trans hu)
  have hleft : (m.erase h).entries = front ++ back := herase
  rw [recordedBlocks, recordedBlocks, hsplit, hleft, List.map_append, List.map_append,
    List.map_cons]
  exact List.perm_middle

end Recorded

section Table
variable {τ : Type} {heap : HeapOps τ} {live : τ → Addr → Prop} {target : Target}
  {rest : Set Addr} {mth mh handle : MemHandle} {mp : Map} {m : Store UInt32 MemHandle}
  {blocks : List Addr} {w w' : World τ} {a : Addr} {n : Nat}

/-- The laws of the C heap hold in the machine. -/
theorem machine_blocks (laws : Heap live 0 heap.malloc heap.realloc heap.free) :
    BlockHeap (machineLibc heap) (heapLive live) where
  signal handler w := ⟨_, _, rfl, fun _ => Iff.rfl⟩
  heap.malloc n w := by
    obtain ⟨a, t', hrun, answer⟩ := laws.malloc n w.heap
    exact ⟨a, { w with heap := t' }, onHeap_ok hrun, answer.lift World.heap⟩
  heap.realloc old n w hn hlive := by
    obtain ⟨a, t', hrun, moved⟩ := laws.realloc old n w.heap hn hlive
    exact ⟨a, { w with heap := t' }, onHeap_ok hrun, moved.lift World.heap⟩
  heap.free a w hlive := by
    obtain ⟨t', hrun, live_iff⟩ := laws.free a w.heap hlive
    exact ⟨_, onHeap_ok hrun, live_iff⟩

/-- Under the hash of each of these addresses, and under no other, is a handle of the table. -/
structure Records (target : Target) (mth : MemHandle) (m : Store UInt32 MemHandle)
    (blocks : List Addr) : Prop where
  entry : ∀ h v, m.lookup h = some v →
    v.data ≠ 0 ∧ v.allocator = .memtbl mth.data ∧ hashPtr target v.data = h
  stock : (recordedBlocks m).Perm blocks

namespace Records
variable (records : Records target mth m blocks)
include records

theorem lookup_block (ha : a ∈ blocks) :
    ∃ v, m.lookup (hashPtr target a) = some v ∧ v.data = a ∧ a ≠ 0 := by
  obtain ⟨h, v, hl, rfl⟩ := mem_recordedBlocks.mp (records.stock.mem_iff.mpr ha)
  obtain ⟨hd, -, hh⟩ := records.entry h v hl
  exact ⟨v, by rw [hh, hl], rfl, hd⟩

theorem block_of_mem {h : UInt32} (hk : h ∈ m) : ∃ b ∈ blocks, hashPtr target b = h := by
  obtain ⟨v, hl⟩ := Option.isSome_iff_exists.mp (AList.lookup_isSome.mpr hk)
  exact ⟨v.data, records.stock.mem_iff.mp (mem_recordedBlocks.mpr ⟨h, v, hl, rfl⟩),
    (records.entry h v hl).2.2⟩

theorem mem_of_block (ha : a ∈ blocks) : hashPtr target a ∈ m := by
  obtain ⟨v, hl, -⟩ := records.lookup_block ha
  exact AList.lookup_isSome.mp (by rw [hl]; rfl)

theorem absent (spaced : Spaced target blocks a) : hashPtr target a ∉ m := by
  intro hk
  obtain ⟨b, hb, hh⟩ := records.block_of_mem hk
  exact spaced.apart b hb (by rw [hh])

theorem fits (spaced : Spaced target blocks a) : Fits m (hashPtr target a) where
  hash_ne := spaced.hash_ne
  apart k hk hsame := by
    obtain ⟨b, hb, rfl⟩ := records.block_of_mem hk
    exact absurd hsame (spaced.apart b hb)
  room := by
    refine Or.inr ?_
    rw [← length_recordedBlocks, records.stock.length_eq]
    exact spaced.room

theorem perm {blocks' : List Addr} (p : blocks.Perm blocks') : Records target mth m blocks' :=
  ⟨records.entry, records.stock.trans p⟩

/-- A new block is recorded. -/
theorem insert (spaced : Spaced target blocks a) (ha : a ≠ 0) (n : Nat) :
    Records target mth (m.insert (hashPtr target a) ⟨a, n, .memtbl mth.data⟩) (a :: blocks) where
  entry h v hl := by
    by_cases hh : h = hashPtr target a
    · subst hh
      rw [AList.lookup_insert] at hl
      obtain rfl := Option.some.inj hl
      exact ⟨ha, rfl, rfl⟩
    · rw [AList.lookup_insert_ne hh] at hl
      exact records.entry h v hl
  stock := by
    rw [recordedBlocks_insert (records.absent spaced)]
    exact records.stock.cons a

/-- A block is recorded no more. -/
theorem erase (hb : a ∈ blocks) :
    Records target mth (m.erase (hashPtr target a)) (blocks.erase a) where
  entry h v hl := by
    by_cases hh : h = hashPtr target a
    · subst hh
      rw [AList.lookup_erase] at hl
      cases hl
    · rw [AList.lookup_erase_ne hh] at hl
      exact records.entry h v hl
  stock := by
    obtain ⟨v, hl, rfl, -⟩ := records.lookup_block hb
    have hleft := (recordedBlocks_erase hl).symm.trans records.stock
    exact (List.cons_perm_iff_perm_erase.mp hleft).2

end Records

/-! ## The updates of the map -/

/-- The machine when an update of the map has begun. -/
def begun (w : World τ) (mh : MemHandle) : World τ :=
  { w with history := .updateBegin mh.data :: w.history }

section Updates
variable (hat : TableAt w mth mh mp) (homed : Homed mp m)
include hat

theorem updateMap_ok {α : Type} {r : α} {mp' : Map} {call : Map → C (World τ) (α × Map)}
    (hcall : call mp (begun w mh) = .ok (r, mp') (begun w mh))
    (same : mp'.entriesMh = mp.entriesMh) :
    ∃ w', updateMap mh call w = .ok r w' ∧ TableAt w' mth mh mp' ∧ w'.heap = w.heap := by
  have hat1 : TableAt (begun w mh) mth mh mp := hat.congr rfl rfl
  refine ⟨{ w with
    maps := fun b => if b = mh.data then some mp' else w.maps b
    history := .updateEnd mh.data :: .updateBegin mh.data :: w.history }, ?_, ?_, rfl⟩
  · have hbegin : (record (.updateBegin mh.data) : C (World τ) Unit) w = .ok () (begun w mh) := rfl
    rw [updateMap, bind_of_ok hbegin, bind_of_ok hat1.readMap_ok, bind_of_ok hcall]
    rfl
  · exact hat.replaced rfl rfl (same ▸ hat.entries_plain) (same ▸ hat.entries_data)

include homed

theorem mapSet_ok {v : MemHandle} (fits : Fits m (hashPtr target a)) (hv : v.data ≠ 0) :
    ∃ mp' w', (tableEnv heap target (chainOps heap target [])).mapSet mh a v w = .ok true w' ∧
      TableAt w' mth mh mp' ∧ Homed mp' (m.insert (hashPtr target a) v) ∧
      mp'.entriesMh = mp.entriesMh ∧ w'.heap = w.heap := by
  have hat1 : TableAt (begun w mh) mth mh mp := hat.congr rfl rfl
  have stands : Standing (chainOps heap target []) mh mp (begun w mh) := ⟨_, hat1.derefTable_ok⟩
  obtain ⟨mp', hset, homed', same⟩ := homed.doSet_ok stands fits v
  have hcall : mapSetPtr (chainOps heap target []) target mh mp a v (begun w mh) =
      .ok (true, mp') (begun w mh) := by
    rw [mapSetPtr, bind_of_ok hat1.mapIsValid_ok, if_pos rfl, if_pos (memIsValid_eq_true.mpr hv)]
    exact hset
  obtain ⟨w', hrun, hat', hheap⟩ : ∃ w', updateMap mh (fun mp =>
      mapSetPtr (chainOps heap target []) target mh mp a v) w = .ok true w' ∧ _ ∧ _ :=
    updateMap_ok hat hcall same
  exact ⟨mp', w', hrun, hat', homed', same, hheap⟩

theorem mapDelete_ok (a : Addr) :
    ∃ mp' w', (tableEnv heap target (chainOps heap target [])).mapDelete mh a w =
        .ok (decide (hashPtr target a ∈ m)) w' ∧
      TableAt w' mth mh mp' ∧ Homed mp' (m.erase (hashPtr target a)) ∧
      mp'.entriesMh = mp.entriesMh ∧ w'.heap = w.heap := by
  have hat1 : TableAt (begun w mh) mth mh mp := hat.congr rfl rfl
  have stands : Standing (chainOps heap target []) mh mp (begun w mh) := ⟨_, hat1.derefTable_ok⟩
  obtain ⟨mp', hdelete, homed', same⟩ := homed.doDelete_ok stands (hashPtr target a)
  have hcall : mapDeletePtr (chainOps heap target []) target mh mp a (begun w mh) =
      .ok (decide (hashPtr target a ∈ m), mp') (begun w mh) := hdelete
  obtain ⟨w', hrun, hat', hheap⟩ : ∃ w', updateMap mh (fun mp =>
      mapDeletePtr (chainOps heap target []) target mh mp a) w = .ok _ w' ∧ _ ∧ _ :=
    updateMap_ok hat hcall same
  exact ⟨mp', w', hrun, hat', homed', same, hheap⟩

end Updates

/-! ## The calls on the table -/

/-- The blocks that are recorded are owned with those of the table itself. -/
structure Stocked (live : τ → Addr → Prop) (target : Target) (rest : Set Addr)
    (mth mh : MemHandle) (mp : Map) (m : Store UInt32 MemHandle) (blocks : List Addr)
    (w : World τ) : Prop where
  table : TableAt w mth mh mp
  homed : Homed mp m
  records : Records target mth m blocks
  owns : Owns (heapLive live) rest (blocks ++ [mp.entriesMh.data, mh.data, mth.data]) w

/-- Some map and finite map are behind the table. -/
def InUse (live : τ → Addr → Prop) (target : Target) (rest : Set Addr) (mth mh : MemHandle)
    (blocks : List Addr) (w : World τ) : Prop :=
  ∃ mp m, Stocked live target rest mth mh mp m blocks w

/-- A property of the tables, the maps and the heap of the machine. -/
def Framed (P : World τ → Prop) : Prop :=
  ∀ w w' : World τ, w'.memtbls = w.memtbls → w'.maps = w.maps → w'.heap = w.heap → P w → P w'

theorem Stocked.framed : Framed (Stocked live target rest mth mh mp m blocks) :=
  fun _ _ hm hmaps hheap stocked => ⟨stocked.table.congr hm hmaps, stocked.homed, stocked.records,
    stocked.owns.congr fun b => by rw [heapLive, heapLive, hheap]⟩

theorem InUse.framed : Framed (InUse live target rest mth mh blocks) := by
  rintro w w' hm hmaps hheap ⟨mp, m, stocked⟩
  exact ⟨mp, m, Stocked.framed w w' hm hmaps hheap stocked⟩

/-- What a guarded block comes to, the call does. -/
theorem guard_ok {α : Type} {x : C (World τ) α} {r : α} {P : World τ → Prop} (framed : Framed P)
    (hx : ∀ w1 : World τ, w1.memtbls = w.memtbls → w1.maps = w.maps → w1.heap = w.heap →
      ∃ w2, x w1 = .ok r w2 ∧ P w2) :
    ∃ w', sigintGuard (machineLibc heap) x w = .ok r w' ∧ P w' := by
  obtain ⟨w', hrun, hp⟩ := sigintGuard_ok (fun memtbls maps t =>
    P ⟨.dfl, [], memtbls, maps, t⟩) fun w1 hm hmaps hheap => by
      obtain ⟨w2, hrun, hp⟩ := hx w1 hm hmaps hheap
      exact ⟨w2, hrun, framed w2 _ rfl rfl rfl hp⟩
  exact ⟨w', hrun, framed ⟨.dfl, [], w'.memtbls, w'.maps, w'.heap⟩ w' rfl rfl rfl hp⟩

namespace Stocked
variable (stocked : Stocked live target rest mth mh mp m blocks w)
include stocked

/-- `mem_p` inside the table answers what the finite map has. -/
theorem memtblP_eq (ha : handle.allocator = .memtbl mth.data) (hd : handle.data ≠ 0) :
    memtblP (tableEnv heap target (chainOps heap target [])) handle w =
      .ok ((m.lookup (hashPtr target handle.data)).getD .zero).data w :=
  stocked.table.memtblP_ok ha hd (stocked.homed.lookup_eq _)

theorem memtblP_block (ha : handle.allocator = .memtbl mth.data) (hb : handle.data ∈ blocks) :
    memtblP (tableEnv heap target (chainOps heap target [])) handle w = .ok handle.data w := by
  obtain ⟨v, hl, hv, hd⟩ := stocked.records.lookup_block hb
  rw [stocked.memtblP_eq ha hd, hl, Option.getD_some, hv]

/-- A block in use is owned first. -/
theorem owns_block (hb : a ∈ blocks) : Owns (heapLive live) rest
    (a :: (blocks.erase a ++ [mp.entriesMh.data, mh.data, mth.data])) w :=
  stocked.owns.perm ((List.perm_cons_erase hb).append_right _)

theorem memtblAlloc_ok {t' : τ} (hmalloc : heap.malloc n w.heap = .ok a t')
    (answer : Answer live 0 w.heap t' a) (spaced : a ≠ 0 → Spaced target blocks a) :
    ∃ w', memtblAlloc (tableEnv heap target (chainOps heap target [])) (.memtbl mth.data) n w =
        .ok (if a = 0 then .zero else ⟨a, n, .memtbl mth.data⟩) w' ∧
      InUse live target rest mth mh (if a = 0 then blocks else a :: blocks) w' := by
  obtain ⟨w1, hw1⟩ : ∃ w1, w1 = { w with heap := t' } := ⟨_, rfl⟩
  have hcall : (tableEnv heap target (chainOps heap target [])).libc.malloc n w = .ok a w1 :=
    hw1 ▸ onHeap_ok hmalloc
  have hat1 : TableAt w1 mth mh mp := stocked.table.congr (by rw [hw1]) (by rw [hw1])
  have hanswer : Answer (heapLive live) 0 w w1 a := by
    subst hw1
    exact answer.lift World.heap
  have hrun : memtblAlloc (tableEnv heap target (chainOps heap target [])) (.memtbl mth.data) n w =
      (if a = 0 then pure .zero
      else do
        let mapsetSuccess ← (tableEnv heap target (chainOps heap target [])).mapSet mh a
          ⟨a, n, .memtbl mth.data⟩
        if mapsetSuccess then pure ⟨a, n, .memtbl mth.data⟩
        else
          (tableEnv heap target (chainOps heap target [])).libc.free a
          pure .zero : C (World τ) MemHandle) w1 := by
    rw [memtblAlloc, bind_of_ok stocked.table.memtblMap_ok]
    change ((tableEnv heap target (chainOps heap target [])).libc.malloc n >>= _) w = _
    rw [bind_of_ok hcall]
  rw [hrun]
  rcases stocked.owns.answered hanswer with ⟨hnull, howns⟩ | ⟨hne, howns⟩
  · simp only [if_pos hnull]
    exact ⟨w1, rfl, mp, m, hat1, stocked.homed, stocked.records, howns⟩
  · simp only [if_neg hne]
    obtain ⟨mp', w2, hset, hat2, homed2, same, hheap⟩ := mapSet_ok hat1 stocked.homed
      (stocked.records.fits (spaced hne)) (v := ⟨a, n, .memtbl mth.data⟩) hne
    refine ⟨w2, by rw [bind_of_ok hset]; rfl, mp', _, hat2, homed2,
      stocked.records.insert (spaced hne) hne n, ?_⟩
    rw [same]
    exact howns.congr fun b => by rw [heapLive, heapLive, hheap]

theorem memtblRealloc_ok {t' : τ} (ha : handle.allocator = .memtbl mth.data)
    (hb : handle.data ∈ blocks) (hrealloc : heap.realloc handle.data n w.heap = .ok a t')
    (moved : Moved live 0 handle.data w.heap t' a)
    (spaced : a ≠ 0 → a ≠ handle.data → Spaced target blocks a) :
    ∃ w', memtblRealloc (tableEnv heap target (chainOps heap target [])) handle n w =
        .ok (if a = 0 then .zero else ⟨a, n, .memtbl mth.data⟩) w' ∧
      InUse live target rest mth mh (if a = 0 then blocks else a :: blocks.erase handle.data)
        w' := by
  obtain ⟨-, -, -, hd⟩ := stocked.records.lookup_block hb
  obtain ⟨w1, hw1⟩ : ∃ w1, w1 = { w with heap := t' } := ⟨_, rfl⟩
  have hcall : (tableEnv heap target (chainOps heap target [])).libc.realloc handle.data n w =
      .ok a w1 := hw1 ▸ onHeap_ok hrealloc
  have hat1 : TableAt w1 mth mh mp := stocked.table.congr (by rw [hw1]) (by rw [hw1])
  have hmoved : Moved (heapLive live) 0 handle.data w w1 a := by
    subst hw1
    exact moved.lift World.heap
  have hrun : memtblRealloc (tableEnv heap target (chainOps heap target [])) handle n w =
      (if a = 0 then pure .zero
      else if a = handle.data then pure ⟨a, n, .memtbl mth.data⟩
      else do
        let moved ← memtblMove (tableEnv heap target (chainOps heap target [])) mh handle.data
          ⟨a, n, .memtbl mth.data⟩
        if moved then pure ⟨a, n, .memtbl mth.data⟩
        else
          (tableEnv heap target (chainOps heap target [])).libc.free a
          pure .zero : C (World τ) MemHandle) w1 := by
    rw [memtblRealloc, if_pos (memIsValid_eq_true.mpr hd), ha,
      bind_of_ok stocked.table.memtblMap_ok]
    change (memtblP (tableEnv heap target (chainOps heap target [])) handle >>= _) w = _
    rw [bind_of_ok (stocked.memtblP_block ha hb), bind_of_ok hcall]
  rw [hrun]
  rcases (stocked.owns_block hb).answered_move hmoved with ⟨hnull, howns⟩ | ⟨hne, howns⟩
  · simp only [if_pos hnull]
    exact ⟨w1, rfl, mp, m, hat1, stocked.homed, stocked.records,
      howns.perm ((List.perm_cons_erase hb).symm.append_right _)⟩
  · simp only [if_neg hne]
    by_cases hsame : a = handle.data
    · simp only [if_pos hsame]
      refine ⟨w1, rfl, mp, m, hat1, stocked.homed, stocked.records.perm ?_, howns⟩
      rw [hsame]
      exact List.perm_cons_erase hb
    · simp only [if_neg hsame]
      have hspaced := spaced hne hsame
      obtain ⟨mp2, w2, hset, hat2, homed2, same2, hheap2⟩ := mapSet_ok hat1 stocked.homed
        (stocked.records.fits hspaced) (v := ⟨a, n, .memtbl mth.data⟩) hne
      obtain ⟨mp', w', hdelete, hat', homed', same', hheap'⟩ := mapDelete_ok hat2 homed2 handle.data
      rw [decide_eq_true (AList.mem_insert _ |>.mpr (Or.inr (stocked.records.mem_of_block hb)))]
        at hdelete
      have hmove : memtblMove (tableEnv heap target (chainOps heap target [])) mh handle.data
          ⟨a, n, .memtbl mth.data⟩ w1 = .ok true w' := by
        rw [memtblMove, bind_of_ok hset, if_pos rfl, hdelete]
      have hrecords := (stocked.records.insert hspaced hne n).erase (List.mem_cons_of_mem a hb)
      rw [List.erase_cons_tail (by simpa using hsame)] at hrecords
      refine ⟨w', by rw [bind_of_ok hmove]; rfl, mp', _, hat', homed', hrecords, ?_⟩
      rw [same', same2]
      exact howns.congr fun b => by rw [heapLive, heapLive, hheap', hheap2]

theorem memtblFree_ok (laws : Heap live 0 heap.malloc heap.realloc heap.free)
    (ha : handle.allocator = .memtbl mth.data) (hb : handle.data ∈ blocks) :
    ∃ mp' w', memtblFree (tableEnv heap target (chainOps heap target [])) handle w =
        .ok .zero w' ∧ Stocked live target rest mth mh mp'
          (m.erase (hashPtr target handle.data)) (blocks.erase handle.data) w' := by
  obtain ⟨-, -, -, hd⟩ := stocked.records.lookup_block hb
  obtain ⟨mp', w2, hdelete, hat2, homed2, same, hheap2⟩ :=
    mapDelete_ok stocked.table stocked.homed handle.data
  have howns : Owns (heapLive live) rest (handle.data :: (blocks.erase handle.data ++
      [mp'.entriesMh.data, mh.data, mth.data])) w2 := by
    rw [same]
    exact (stocked.owns_block hb).congr fun b => by rw [heapLive, heapLive, hheap2]
  obtain ⟨t', hfree, live_iff⟩ := laws.free handle.data w2.heap (howns.live_own List.mem_cons_self)
  have hcall : (tableEnv heap target (chainOps heap target [])).libc.free handle.data w2 =
      .ok () { w2 with heap := t' } := onHeap_ok hfree
  refine ⟨mp', { w2 with heap := t' }, ?_, hat2.congr rfl rfl, homed2, stocked.records.erase hb,
    howns.release live_iff⟩
  rw [memtblFree, if_pos (memIsValid_eq_true.mpr hd), ha, bind_of_ok stocked.table.memtblMap_ok]
  change (memtblP (tableEnv heap target (chainOps heap target [])) handle >>= _) w = _
  rw [bind_of_ok (stocked.memtblP_block ha hb), bind_of_ok hdelete, bind_of_ok hcall]
  rfl

/-! ## Through mem.h -/

theorem memAlloc_ok {t' : τ} (hmalloc : heap.malloc n w.heap = .ok a t')
    (answer : Answer live 0 w.heap t' a) (spaced : a ≠ 0 → Spaced target blocks a) :
    ∃ w', (chainOps heap target [mth.data]).memAlloc (.memtbl mth.data) n w =
        .ok (if a = 0 then .zero else ⟨a, n, .memtbl mth.data⟩) w' ∧
      InUse live target rest mth mh (if a = 0 then blocks else a :: blocks) w' := by
  change ∃ w', memAlloc (machineLibc heap) (chainSpec heap target [mth.data]) _ n w = _ ∧ _
  rw [memAlloc, TableAt.chainSpec_self]
  refine guard_ok InUse.framed fun w1 hm hmaps hheap => ?_
  rw [← hheap] at hmalloc answer
  exact (Stocked.framed w w1 hm hmaps hheap stocked).memtblAlloc_ok hmalloc answer spaced

theorem memRealloc_ok {t' : τ} (ha : handle.allocator = .memtbl mth.data)
    (hb : handle.data ∈ blocks) (hrealloc : heap.realloc handle.data n w.heap = .ok a t')
    (moved : Moved live 0 handle.data w.heap t' a)
    (spaced : a ≠ 0 → a ≠ handle.data → Spaced target blocks a) :
    ∃ w', (chainOps heap target [mth.data]).memRealloc handle n w =
        .ok (if a = 0 then .zero else ⟨a, n, .memtbl mth.data⟩) w' ∧
      InUse live target rest mth mh (if a = 0 then blocks else a :: blocks.erase handle.data)
        w' := by
  obtain ⟨-, -, -, hd⟩ := stocked.records.lookup_block hb
  change ∃ w', memRealloc (machineLibc heap) (chainSpec heap target [mth.data]) _ n w = _ ∧ _
  rw [memRealloc, if_pos (memIsValid_eq_true.mpr hd), ha, TableAt.chainSpec_self]
  refine guard_ok InUse.framed fun w1 hm hmaps hheap => ?_
  rw [← hheap] at hrealloc moved
  exact (Stocked.framed w w1 hm hmaps hheap stocked).memtblRealloc_ok ha hb hrealloc moved spaced

theorem memFree_ok (laws : Heap live 0 heap.malloc heap.realloc heap.free)
    (ha : handle.allocator = .memtbl mth.data) (hb : handle.data ∈ blocks) :
    ∃ w', (chainOps heap target [mth.data]).memFree handle w = .ok .zero w' ∧
      ∃ mp', Stocked live target rest mth mh mp' (m.erase (hashPtr target handle.data))
        (blocks.erase handle.data) w' := by
  obtain ⟨-, -, -, hd⟩ := stocked.records.lookup_block hb
  change ∃ w', memFree (machineLibc heap) (chainSpec heap target [mth.data]) _ w = _ ∧ _
  rw [memFree, if_pos (memIsValid_eq_true.mpr hd), ha, TableAt.chainSpec_self]
  refine guard_ok ?_ fun w1 hm hmaps hheap => ?_
  · rintro w2 w3 hm hmaps hheap ⟨mp', stocked'⟩
    exact ⟨mp', Stocked.framed w2 w3 hm hmaps hheap stocked'⟩
  · obtain ⟨mp', w2, hrun, stocked'⟩ :=
      (Stocked.framed w w1 hm hmaps hheap stocked).memtblFree_ok laws ha hb
    exact ⟨w2, hrun, mp', stocked'⟩

theorem memP_eq (ha : handle.allocator = .memtbl mth.data) (hd : handle.data ≠ 0) :
    (chainOps heap target [mth.data]).memP handle w =
      .ok ((m.lookup (hashPtr target handle.data)).getD .zero).data w :=
  stocked.table.memP_value ha hd (stocked.homed.lookup_eq _)

/-! ## Destroying the table -/

theorem entered : Entered target mth.data mp := by
  intro pos hpos
  rw [stocked.homed.tableSize] at hpos
  by_cases hzero : (mp.slot pos).keyHash = 0
  · refine Or.inl ⟨hzero, ?_⟩
    rw [stocked.homed.cleared pos hzero]
    rfl
  · have hentry : entryAt mp pos = some ((mp.slot pos).keyHash, (mp.slot pos).valueHandle) :=
      if_neg hzero
    exact Or.inr (stocked.records.entry _ _
      ((stocked.homed.homes.slot_iff pos hpos _ _).mp hentry).2)

theorem loaded : mp.Loaded where
  shaped := stocked.homed.shaped
  power := ⟨0, stocked.homed.tableSize⟩
  occupied_le := by rw [stocked.homed.occupied_eq, stocked.homed.entryCount]
  room := by
    have hfew := stocked.homed.few
    rw [stocked.homed.occupied_eq, stocked.homed.tableSize]
    unfold initialTableSize at *
    omega
  count_lt := by
    have hfew := stocked.homed.few
    rw [stocked.homed.entryCount]
    unfold initialTableSize at hfew
    omega

theorem once : mp.Once := Map.WellPlaced.once stocked.homed.atHome.wellPlaced

/-- A key is found at its home. -/
theorem foundAt {h : UInt32} (hk : h ∈ m) : mp.FoundAt (homeOf h) := by
  obtain ⟨v, hl⟩ := Option.isSome_iff_exists.mp (AList.lookup_isSome.mpr hk)
  obtain ⟨hs, hne⟩ := stocked.homed.slot_of_mem hl
  exact ⟨h, Map.keyAt_eq_some.mpr ⟨by rw [hs], hne⟩,
    stocked.homed.finds (stocked.homed.homes.apart_of_mem hk)⟩

theorem of_foundAt {pos : Nat} (hf : mp.FoundAt pos) :
    ∃ h v, mp.slot pos = ⟨h, v⟩ ∧ homeOf h = pos ∧ m.lookup h = some v := by
  obtain ⟨h, hk, hpos⟩ := hf
  have hlt := findEntryPos_lt hpos
  rw [stocked.homed.tableSize] at hlt
  obtain ⟨hh, hne⟩ := Map.keyAt_eq_some.mp hk
  have hentry : entryAt mp pos = some (h, (mp.slot pos).valueHandle) :=
    entryAt_eq_some.mpr ⟨by rw [← hh], hne⟩
  obtain ⟨hhome, hl⟩ := (stocked.homed.homes.slot_iff pos hlt _ _).mp hentry
  exact ⟨h, _, by rw [← hh], hhome, hl⟩

/-- No key is left when none is found. -/
theorem nothing_left {start : Nat} (ahead : ∀ h ∈ m, start ≤ homeOf h)
    (none_found : ∀ pos, start ≤ pos → ¬ mp.FoundAt pos) : m = ∅ ∧ blocks = [] := by
  have hnone : m.entries = [] := by
    refine List.eq_nil_iff_forall_not_mem.mpr fun entry hentry => ?_
    have hk : entry.1 ∈ m := AList.mem_keys.mpr (List.mem_map_of_mem hentry)
    exact none_found _ (ahead _ hk) (stocked.foundAt hk)
  have hm : m = ∅ := AList.ext hnone
  subst hm
  exact ⟨rfl, List.perm_nil.mp stocked.records.stock.symm⟩

end Stocked

variable (heap) in
/-- The loop frees what is recorded, one block in each round. -/
theorem destroyLoop_ok (laws : Heap live 0 heap.malloc heap.realloc heap.free) {rounds start : Nat}
    {next : Option Nat} (stocked : Stocked live target rest mth mh mp m blocks w)
    (ahead : ∀ h ∈ m, start ≤ homeOf h) (hrounds : blocks.length < rounds)
    (hnext : NextFound mp start next) :
    ∃ mp' w', destroyLoop (chainOps heap target [mth.data]) rounds (iterAt mp mh next) w =
      .ok () w' ∧ Stocked live target rest mth mh mp' ∅ [] w' := by
  induction rounds generalizing w mp m blocks start next with
  | zero => omega
  | succ rounds ih =>
    rw [destroyLoop, bind_of_ok
      (stocked.table.mapIterDone_ok heap stocked.entered stocked.loaded stocked.once hnext)]
    cases next with
    | none =>
      obtain ⟨rfl, rfl⟩ := stocked.nothing_left ahead hnext
      exact ⟨mp, w, rfl, stocked⟩
    | some pos =>
      obtain ⟨hle, hfound, hfirst⟩ := hnext
      obtain ⟨h, v, hs, hhome, hl⟩ := stocked.of_foundAt hfound
      obtain ⟨hd, ha, hh⟩ := stocked.records.entry h v hl
      have hb : v.data ∈ blocks :=
        stocked.records.stock.mem_iff.mp (mem_recordedBlocks.mpr ⟨h, v, hl, rfl⟩)
      obtain ⟨w1, hfree, mp1, stocked1⟩ := stocked.memFree_ok laws ha hb
      rw [hh] at stocked1
      have hiter : ∀ v', ∃ next', nextValueIter (chainOps heap target [mth.data]) ⟨mh, pos, v'⟩ w1 =
          .ok (iterAt mp1 mh next') w1 ∧ NextFound mp1 (pos + 1) next' := fun v' =>
        stocked1.table.nextValueIter_ok heap stocked1.entered stocked1.loaded stocked1.once pos v'
      obtain ⟨next', hrun, hnext'⟩ := hiter v
      have ahead' : ∀ k ∈ m.erase h, pos + 1 ≤ homeOf k := by
        intro k hk
        obtain ⟨hkh, hkm⟩ := AList.mem_erase.mp hk
        have hge : pos ≤ homeOf k := by
          by_contra hlt
          exact hfirst _ (ahead k hkm) (Nat.lt_of_not_le hlt) (stocked.foundAt hkm)
        refine Nat.lt_of_le_of_ne hge fun hsame => hkh ?_
        have hapart := stocked.homed.homes.apart_of_mem (AList.lookup_isSome.mp (by rw [hl]; rfl))
        exact hapart k hkm (hsame.symm.trans hhome.symm)
      have hlen : (blocks.erase v.data).length < rounds := by
        rw [List.length_erase_of_mem hb]
        have hpos := List.length_pos_of_mem hb
        omega
      obtain ⟨mp', w', hloop, stocked'⟩ := ih stocked1 ahead' hlen hnext'
      refine ⟨mp', w', ?_, stocked'⟩
      rw [iterAt, hs]
      change ((chainOps heap target [mth.data]).memFree v >>= _) w = _
      rw [bind_of_ok hfree]
      change (nextValueIter (chainOps heap target [mth.data]) ⟨mh, pos, v⟩ >>= _) w1 = _
      rw [bind_of_ok hrun, hloop]

/-- `memtbl_destroy` frees what is recorded and what the table owns. -/
theorem memtblDestroy_ok (laws : Heap live 0 heap.malloc heap.realloc heap.free) {rounds : Nat}
    (stocked : Stocked live target rest mth mh mp m blocks w) (hrounds : blocks.length < rounds) :
    ∃ w', memtblDestroy (chainOps heap target [mth.data]) rounds mth w = .ok () w' ∧
      ∀ a, live w'.heap a ↔ a ∈ rest := by
  have hat := stocked.table
  obtain ⟨next, hfirst, hnext⟩ :=
    hat.firstValueIter_ok heap stocked.entered stocked.loaded stocked.once
  obtain ⟨mp1, w1, hloop, stocked1⟩ := destroyLoop_ok heap laws stocked
    (fun h _ => Nat.zero_le (homeOf h)) hrounds hnext
  have hat1 := stocked1.table
  have hstart : memtblDestroy (chainOps heap target [mth.data]) rounds mth w =
      (do
        mapDestroy (chainOps heap target [mth.data]) mh mp1
        let _ ← (chainOps heap target [mth.data]).memFree mth
        pure () : C (World τ) Unit) w1 := by
    have hderef : deref (chainOps heap target [mth.data]) mth w = .ok () w :=
      chain_deref hat.memtbl_plain hat.memtbl_data
    have hvalid : memtblIsValid (chainOps heap target [mth.data]) mth w = .ok true w := by
      rw [memtblIsValid, if_pos (memIsValid_eq_true.mpr hat.memtbl_data), bind_of_ok hderef,
        bind_of_ok hat.readMemMapHandle_ok, if_pos (memIsValid_eq_true.mpr hat.map_data),
        bind_of_ok hat.readMap_ok, hat.mapIsValid_ok]
    rw [memtblDestroy, bind_of_ok hvalid, if_pos rfl, bind_of_ok hderef,
      bind_of_ok hat.readMemMapHandle_ok, bind_of_ok hfirst, bind_of_ok hloop,
      bind_of_ok hat1.readMemMapHandle_ok, bind_of_ok hat1.readMap_ok]
  have hfrees : Triple (Owns (heapLive live) rest [mp1.entriesMh.data, mh.data, mth.data])
      (do
        let _ ← (chainOps heap target [mth.data]).memFree mp1.entriesMh
        let _ ← (chainOps heap target [mth.data]).memFree mh
        let _ ← (chainOps heap target [mth.data]).memFree mth
        pure () : C (World τ) Unit) (fun _ => Owns (heapLive live) rest []) fun _ _ => False := by
    have free : ∀ {handle : MemHandle} {own : List Addr}, handle.allocator = .plain →
        handle.data ≠ 0 → Triple (Owns (heapLive live) rest (handle.data :: own))
          ((chainOps heap target [mth.data]).memFree handle)
          (fun _ => Owns (heapLive live) rest own) fun _ _ => False := fun ha hd =>
      ((machine_blocks laws).memFree_plain_owns (chainSpec_plain [mth.data]) ha hd).weaken
        (fun _ h => h) fun _ _ h => h.2
    exact .seq (free hat1.entries_plain hat1.entries_data) fun _ =>
      .seq (free hat1.map_plain hat1.map_data) fun _ =>
        .seq (free hat1.memtbl_plain hat1.memtbl_data) fun _ => .ret fun _ h => h
  have hrun : memtblDestroy (chainOps heap target [mth.data]) rounds mth w =
      (do
        let _ ← (chainOps heap target [mth.data]).memFree mp1.entriesMh
        let _ ← (chainOps heap target [mth.data]).memFree mh
        let _ ← (chainOps heap target [mth.data]).memFree mth
        pure () : C (World τ) Unit) w1 := by
    rw [hstart, mapDestroy]
    simp only [bind_assoc]
    rw [bind_of_ok hat1.mapIsValid_ok, if_pos rfl]
    simp only [bind_assoc]
    rw [bind_of_ok (chain_deref hat1.map_plain hat1.map_data)]
    rfl
  obtain ⟨u, w', hfreed, howns⟩ := hfrees.returns stocked1.owns
  exact ⟨w', hrun.trans hfreed, fun a => Owns.nothing.mp howns a⟩

/-! ## Creating it -/

/-- `memtbl_create` makes a table with nothing recorded, or leaves nothing behind. -/
theorem memtblCreate_owns (laws : Heap live 0 heap.malloc heap.realloc heap.free) :
    Triple (Owns (heapLive live) rest []) (memtblCreate (chainOps heap target []) .plain)
      (fun mth w => (mth.data ≠ 0 ∧ ∃ mh, InUse live target rest mth mh [] w) ∨
        (mth.data = 0 ∧ Owns (heapLive live) rest [] w)) fun _ _ => False := by
  have blocks := machine_blocks laws
  refine .seq (blocks.memAlloc_owns sizeofMemtbl) fun mth => Allocated.cases ?_ ?_
  · intro hplain _ hdata
    rw [if_pos (memIsValid_eq_true.mpr hdata)]
    refine .past (fun w _ => baseOps_deref hplain hdata w) ?_
    intro w howns
    have hcreate := (mapCreate_owns blocks).returns howns.lose
    obtain ⟨⟨mh, created⟩, w1, hrun, hpost⟩ := hcreate
    have hmap : mapCreate (chainOps heap target []) .plain w = .ok (mh, created) w1 := hrun
    rw [bind_of_ok hmap]
    have happart := howns.apart _ List.mem_cons_self
    cases created with
    | some mp =>
      obtain ⟨hcreated, attached, hhoused⟩ := hpost
      refine Or.inl ⟨hdata, mh, mp, ∅, ?_, ?_, ?_, ?_⟩
      · exact ⟨hplain, hdata, if_pos rfl, attached.map_allocator, attached.map_data, if_pos rfl,
          attached.entries_allocator, attached.entries_data⟩
      · rw [hcreated]
        exact created_homed _
      · refine ⟨fun h v hl => ?_, .refl _⟩
        rw [AList.lookup_empty] at hl
        cases hl
      · have howns1 := (hhoused.regain happart).perm
          (List.perm_append_comm : List.Perm ([mth.data] ++ _) _)
        exact howns1.congr fun b => Iff.rfl
    | none =>
      have howns1 : Owns (heapLive live) rest [mth.data] w1 := hpost.regain happart
      have hfree : Triple (Owns (heapLive live) rest [mth.data])
          (do
            let _ ← (chainOps heap target []).memFree mth
            pure .zero : C (World τ) MemHandle)
          (fun mth w => (mth.data ≠ 0 ∧ ∃ mh, InUse live target rest mth mh [] w) ∨
            (mth.data = 0 ∧ Owns (heapLive live) rest [] w)) fun _ _ => False :=
        .seq ((blocks.memFree_owns hplain hdata).weaken (fun _ h => h) fun _ _ h => h.2) fun _ =>
          .ret fun _ h => Or.inr ⟨rfl, h⟩
      exact hfree _ (howns1.congr fun b => Iff.rfl)
  · intro _ _ hnull
    rw [if_neg (by simpa using hnull)]
    exact .ret fun w howns => Or.inr ⟨rfl, howns⟩

end Table
end M65Tool.Guarantees.StockedTable
