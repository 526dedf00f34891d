import M65Tool.Source.MemtblRelease

/-!
# MEMTBL-DESTROY: when the destruction of a table frees every block

`memtbl_destroy` always returns. Where no allocation fails and every entry is the
findable entry of a live block, it frees every block exactly if the hashes drain: a
deletion empties a slot of a probe chain, so an entry that was displaced past the
cursor's slot is not found any more, is skipped, and its block is lost with the table.
-/
namespace M65Tool.Guarantees.MemtblDestroy
open Source.Mem Source.MapHash Source.HashMap Source.Memtbl Source.Machine Lib.Effect

section Destroy
variable {τ : Type} {heap : HeapOps τ} {live : τ → Addr → Prop} {freed : τ → List Addr}
  {refused : τ → Nat} {target : Target} {w : World τ} {mth mh : MemHandle} {mp : Map}
  {blocks : Set Addr}

/-- A memory table over the plain allocator and the blocks of it that are still live,
each of which `map_get` finds. -/
structure LiveTable (heap : HeapOps τ) (live : τ → Addr → Prop) (target : Target) (w : World τ)
    (mth mh : MemHandle) (mp : Map) (blocks : Set Addr) : Prop where
  table : TableAt w mth mh mp
  loaded : mp.Loaded
  entered : Entered target mth.data mp
  structs_live : live w.heap mth.data ∧ live w.heap mh.data ∧ live w.heap mp.entriesMh.data
  structs_apart : mth.data ≠ mh.data ∧ mth.data ≠ mp.entriesMh.data ∧ mh.data ≠ mp.entriesMh.data
  blocks_live : ∀ a ∈ blocks, a ≠ 0 ∧ live w.heap a
  blocks_apart : ∀ a ∈ blocks, a ≠ mth.data ∧ a ≠ mh.data ∧ a ≠ mp.entriesMh.data
  get_finds : ∀ a ∈ blocks, ∃ r,
    mapGetPtr (chainOps heap target []) target mh mp a w = .ok r w ∧ r.data = a

/-- No entry is left of a block that is gone: each is the one that a lookup of its hash
answers with, and its block is live. -/
def NoStale (mp : Map) (blocks : Set Addr) : Prop :=
  ∀ pos < mp.tableSize, (mp.slot pos).keyHash ≠ 0 →
    findEntryPos mp (mp.slot pos).keyHash = some pos ∧ (mp.slot pos).valueHandle.data ∈ blocks

/-- All the blocks have been freed, then the entries table, the map and the `memtbl`
struct, and nothing else is gone. That none is freed twice is the heap's: it stops the
run at a block that is not live. -/
def FreesAll (live : τ → Addr → Prop) (freed : τ → List Addr) (w w' : World τ)
    (mth mh : MemHandle) (mp : Map) (blocks : Set Addr) : Prop :=
  (∃ entries log, freed w'.heap = mth.data :: mh.data :: entries :: (log ++ freed w.heap) ∧
    ∀ a ∈ blocks, a ∈ log) ∧
  ∀ a, live w'.heap a ↔ live w.heap a ∧ a ∉ blocks ∧ a ≠ mth.data ∧ a ≠ mh.data ∧
    a ≠ mp.entriesMh.data

theorem NoStale.wellPlaced (hn : NoStale mp blocks) : mp.WellPlaced := by
  intro pos hp h hk
  obtain ⟨hh, hne⟩ := Map.keyAt_eq_some.mp hk
  have hfound := (hn pos hp (by rw [hh]; exact hne)).1
  rw [hh] at hfound
  exact findEntryPos_eq_some.mp hfound

theorem NoStale.mem_of_holds (hn : NoStale mp blocks) {h : UInt32} {v : MemHandle}
    (hh : mp.Holds h v) : v.data ∈ blocks := by
  obtain ⟨hne, pos, hp, hslot⟩ := hh
  have hmem := (hn pos hp (by rw [hslot]; exact hne)).2
  rwa [hslot] at hmem

theorem LiveTable.holds_of_mem (ht : LiveTable heap live target w mth mh mp blocks) {a : Addr}
    (ha : a ∈ blocks) : ∃ v, mp.Holds (hashPtr target a) v ∧ v.data = a := by
  obtain ⟨r, hget, hr⟩ := ht.get_finds a ha
  rw [ht.table.mapGetPtr_eq] at hget
  obtain ⟨hl, -⟩ := orNoEntryPos_ok hget
  obtain ⟨pos, hf, hvalue⟩ := lookup_eq_some.mp hl
  rcases hf.stops with hempty | hk
  · rw [if_pos (Map.keyAt_eq_none.mp hempty)] at hvalue
    rw [hvalue] at hr
    exact absurd hr.symm (ht.blocks_live a ha).1
  · rw [if_neg (by rw [(Map.keyAt_eq_some.mp hk).1]; exact (Map.keyAt_eq_some.mp hk).2)] at hvalue
    exact ⟨r, Map.holds_iff.mpr ⟨pos, hf.lt, hk, hvalue.symm⟩, hr⟩

theorem LiveTable.holding (ht : LiveTable heap live target w mth mh mp blocks)
    (hn : NoStale mp blocks) : Holding live target w mth mh mp where
  table := ht.table
  loaded := ht.loaded
  once := Map.WellPlaced.once hn.wellPlaced
  entered := ht.entered
  entries_live := ht.structs_live.2.2
  structs_live a ha := by
    rcases ha with rfl | rfl
    · exact ⟨ht.structs_live.1, ht.structs_apart.2.1⟩
    · exact ⟨ht.structs_live.2.1, ht.structs_apart.2.2⟩
  values_live h v hh := by
    have hmem := hn.mem_of_holds hh
    obtain ⟨hmth, hmh, hentries⟩ := ht.blocks_apart _ hmem
    exact ⟨(ht.blocks_live _ hmem).2, hentries, hmth, hmh⟩

/-- The blocks that the walk passes are all of them exactly if it passes every hash. -/
theorem visited_iff (ht : LiveTable heap live target w mth mh mp blocks)
    (hn : NoStale mp blocks) (hs : List UInt32) :
    (∀ a, a ∈ recordedUnder mp hs ↔ a ∈ blocks) ↔ ∀ h, mp.ring.Stored h → h ∈ hs := by
  constructor
  · intro hall h hst
    obtain ⟨v, hv⟩ := Map.stored_iff_holds.mp hst
    obtain ⟨g, hg, u, hu, huv⟩ := (hall v.data).mpr (hn.mem_of_holds hv)
    have hgh : g = h := by
      rw [← (ht.entered.of_holds hu).2.2, ← (ht.entered.of_holds hv).2.2, huv]
    rwa [← hgh]
  · intro hall a
    constructor
    · intro ⟨h, _, v, hv, hva⟩
      rw [← hva]
      exact hn.mem_of_holds hv
    · intro ha
      obtain ⟨v, hv, hva⟩ := ht.holds_of_mem ha
      exact ⟨_, hall _ (Map.stored_iff_holds.mpr ⟨v, hv⟩), v, hv, hva⟩

/-- `memtbl_destroy` returns on every table without stale entries, also when allocations
fail; and when none fails it frees every block, each once, and then the blocks of the
table, exactly if the table drains. -/
theorem memtblDestroy_frees_iff (serves : ServesBlocks heap live freed refused) {rounds : Nat}
    (ht : LiveTable heap live target w mth mh mp blocks) (hn : NoStale mp blocks)
    (hrounds : mp.occupied < rounds) :
    ∃ w', memtblDestroy (chainOps heap target [mth.data]) rounds mth w = .ok () w' ∧
      (refused w'.heap = refused w.heap →
        (FreesAll live freed w w' mth mh mp blocks ↔ Drains mp)) := by
  obtain ⟨w', hrun, hwalks⟩ := memtblDestroy_walks heap serves (ht.holding hn)
    ht.structs_apart.1 hrounds
  refine ⟨w', hrun, ?_⟩
  intro hnone
  obtain ⟨hs, mp', log, hwalk, hfreed, hlog, hlive⟩ := hwalks hnone
  rw [← hwalk.visits_all_iff ht.loaded hn.wellPlaced, ← visited_iff ht hn hs]
  constructor
  · intro ⟨_, hleft⟩ a
    constructor
    · intro ⟨h, _, v, hv, hva⟩
      rw [← hva]
      exact hn.mem_of_holds hv
    · intro ha
      -- a block that is not passed is still live at the end
      by_contra hmissed
      obtain ⟨hmth, hmh, hentries⟩ := ht.blocks_apart a ha
      have hstill := (hlive a).mpr ⟨hmth, hmh, hentries, hmissed, (ht.blocks_live a ha).2⟩
      exact ((hleft a).mp hstill).2.1 ha
  · intro hall
    refine ⟨⟨_, log, hfreed, fun a ha => hlog a ((hall a).mpr ha)⟩, ?_⟩
    intro a
    rw [hlive, hall]
    constructor
    · intro ⟨hmth, hmh, hentries, hmem, ha⟩
      exact ⟨ha, hmem, hmth, hmh, hentries⟩
    · intro ⟨ha, hmem, hmth, hmh, hentries⟩
      exact ⟨hmth, hmh, hentries, hmem, ha⟩

end Destroy

/-! ## A heap that follows a script -/

/-- What `malloc` is to answer, and the blocks. -/
structure ScriptHeap where
  script : List Addr
  live : List Addr
  freed : List Addr
  refused : Nat
  deriving DecidableEq

/-- The next address of the script, if it is one of a new block. -/
def scriptMalloc : C ScriptHeap Addr := fun t =>
  match t.script with
  | [] => .ok 0 { t with refused := t.refused + 1 }
  | a :: rest =>
    if a ≠ 0 ∧ a ∉ t.live then .ok a { t with script := rest, live := a :: t.live }
    else .ok 0 { t with script := rest, refused := t.refused + 1 }

def scriptFree (ptr : Addr) : C ScriptHeap Unit := fun t =>
  if ptr = 0 then .ok () t
  else if ptr ∈ t.live then
    .ok () { t with live := t.live.filter (· != ptr), freed := ptr :: t.freed }
  else .error .deadBlock t

/-- `realloc` is not called here. -/
def scriptHeap : HeapOps ScriptHeap :=
  ⟨fun _ => scriptMalloc, fun _ _ => pure 0, scriptFree, fun _ _ => throw .deadBlock⟩

def ScriptHeap.Live (t : ScriptHeap) (a : Addr) : Prop := a ≠ 0 ∧ a ∈ t.live

theorem scriptHeap_serves :
    ServesBlocks scriptHeap ScriptHeap.Live ScriptHeap.freed ScriptHeap.refused where
  malloc n t := by
    change ∃ a t', scriptMalloc t = .ok a t' ∧ _
    unfold scriptMalloc
    split
    · exact ⟨_, _, rfl, rfl, Or.inr ⟨rfl, fun b => Iff.rfl, rfl⟩⟩
    · rename_i a rest _
      split
      · rename_i hnew
        refine ⟨_, _, rfl, rfl, Or.inl ⟨hnew.1, fun hlive => hnew.2 hlive.2, ?_, rfl⟩⟩
        intro b
        unfold ScriptHeap.Live
        rw [List.mem_cons]
        constructor
        · intro ⟨hb, hor⟩
          exact hor.imp_right fun h => ⟨hb, h⟩
        · intro h
          rcases h with hba | ⟨hb, hmem⟩
          · exact ⟨by rw [hba]; exact hnew.1, Or.inl hba⟩
          · exact ⟨hb, Or.inr hmem⟩
      · exact ⟨_, _, rfl, rfl, Or.inr ⟨rfl, fun b => Iff.rfl, rfl⟩⟩
  free a t hlive := by
    change ∃ t', scriptFree a t = .ok () t' ∧ _
    unfold scriptFree
    rw [if_neg hlive.1, if_pos hlive.2]
    refine ⟨_, rfl, ?_, rfl, rfl⟩
    intro b
    simp only [ScriptHeap.Live, List.mem_filter, bne_iff_ne]
    constructor
    · intro ⟨hb, hmem, hne⟩
      exact ⟨hne, hb, hmem⟩
    · intro ⟨hne, hb, hmem⟩
      exact ⟨hb, hmem, hne⟩
  free_dead a t hne hdead := by
    refine ⟨t, ?_⟩
    change scriptFree a t = _
    unfold scriptFree
    rw [if_neg hne, if_neg fun hmem => hdead ⟨hne, hmem⟩]

/-- A memory table with a block of 8 bytes for each of these addresses. -/
def createWith (addrs : List Addr) : C (World ScriptHeap) MemHandle := do
  let mth ← memtblCreate (chainOps scriptHeap ⟨true⟩ []) .plain
  addrs.forM fun _ => do
    let _ ← (chainOps scriptHeap ⟨true⟩ [mth.data]).memAlloc (memAllocatorMemtbl mth) 8
  pure mth

/-- The machine after that. The table is at 16, its map at 32, the entries at 64. -/
def worldWith (addrs : List Addr) : World ScriptHeap :=
  match createWith addrs ⟨.dfl, [], fun _ => none, fun _ => none,
    ⟨[16, 32, 64] ++ addrs, [], [], 0⟩⟩ with
  | .ok _ w => w
  | .error _ w => w

def mapWith (addrs : List Addr) : Map := ((worldWith addrs).maps 32).getD (.created .zero)

theorem tableAt_with {addrs : List Addr}
    (hmap : (worldWith addrs).memtbls 16 = some ⟨32, 40, .plain⟩)
    (hstruct : ((worldWith addrs).maps 32).isSome)
    (hplain : (mapWith addrs).entriesMh.allocator = .plain)
    (hdata : (mapWith addrs).entriesMh.data ≠ 0) :
    TableAt (worldWith addrs) ⟨16, 32, .plain⟩ ⟨32, 40, .plain⟩ (mapWith addrs) where
  memtbl_plain := rfl
  memtbl_data := by decide
  map_at := hmap
  map_plain := rfl
  map_data := by decide
  struct_at := by
    obtain ⟨mp, hmp⟩ := Option.isSome_iff_exists.mp hstruct
    unfold mapWith
    rw [hmp]
    rfl
  entries_plain := hplain
  entries_data := hdata

/-- Three blocks whose hashes have homes of their own. -/
def threeBlocks : List Addr := [4096, 4112, 4352]

theorem each_block {P : Addr → Prop} (first : P 4096) (second : P 4112) (third : P 4352) :
    ∀ a ∈ threeBlocks, P a :=
  List.forall_mem_cons.mpr ⟨first,
    List.forall_mem_cons.mpr ⟨second, List.forall_mem_singleton.mpr third⟩⟩

theorem threeBlocks_table : TableAt (worldWith threeBlocks) ⟨16, 32, .plain⟩ ⟨32, 40, .plain⟩
    (mapWith threeBlocks) :=
  tableAt_with (by decide +kernel) (by decide +kernel) (by decide +kernel) (by decide +kernel)

theorem threeBlocks_live : LiveTable scriptHeap ScriptHeap.Live ⟨true⟩ (worldWith threeBlocks)
    ⟨16, 32, .plain⟩ ⟨32, 40, .plain⟩ (mapWith threeBlocks) {a | a ∈ threeBlocks} where
  table := threeBlocks_table
  loaded := {
    shaped := show (mapWith threeBlocks).entries.length = (mapWith threeBlocks).tableSize by
      decide +kernel
    power := ⟨0, by decide +kernel⟩
    occupied_le := by decide +kernel
    room := by decide +kernel
    count_lt := by decide +kernel }
  entered := by
    unfold Entered
    decide +kernel
  structs_live := by
    unfold ScriptHeap.Live
    decide +kernel
  structs_apart := by decide +kernel
  blocks_live := by
    unfold ScriptHeap.Live
    exact each_block (by decide +kernel) (by decide +kernel) (by decide +kernel)
  blocks_apart := each_block (by decide +kernel) (by decide +kernel) (by decide +kernel)
  get_finds a ha := by
    have hlookup : ∀ a ∈ threeBlocks,
        lookup (mapWith threeBlocks) (hashPtr ⟨true⟩ a) = some ⟨a, 8, .memtbl 16⟩ :=
      each_block (by decide +kernel) (by decide +kernel) (by decide +kernel)
    refine ⟨⟨a, 8, .memtbl 16⟩, ?_, rfl⟩
    rw [threeBlocks_table.mapGetPtr_eq, hlookup a ha]
    rfl

theorem threeBlocks_noStale : NoStale (mapWith threeBlocks) {a | a ∈ threeBlocks} := by
  unfold NoStale
  simp only [Set.mem_ofPred_eq]
  decide +kernel

/-- The hashes drain if those behind the lowest occupied slot are in order. -/
theorem drains_of_slots {mp : Map} {low : Nat} {first : UInt32} (rest : List UInt32)
    (hfirst : mp.keyAt low = some first)
    (slots : ∀ pos < mp.tableSize, mp.keyAt pos = none ∨ pos = low ∨
      low < pos ∧ mp.keyAt pos ∈ rest.map some)
    (stored : ∀ h ∈ rest, ∃ pos < mp.tableSize, mp.keyAt pos = some h) (apart : first ∉ rest)
    (orderly : Orderly (shrunkSize (decrUint mp.entryCount) mp.tableSize)
      (decrUint mp.entryCount) (low + 1) rest) : Drains mp := by
  have hslot : ∀ pos < mp.tableSize, ∀ h, mp.keyAt pos = some h →
      pos = low ∧ h = first ∨ low < pos ∧ h ∈ rest := by
    intro pos hpos h hkey
    rcases slots pos hpos with hnone | rfl | ⟨hlt, hmem⟩
    · rw [hnone] at hkey
      cases hkey
    · exact .inl ⟨rfl, Option.some.inj (hkey.symm.trans hfirst)⟩
    · obtain ⟨g, hg, hstored⟩ := List.mem_map.mp hmem
      exact .inr ⟨hlt, Option.some.inj (hstored.trans hkey) ▸ hg⟩
  intro pos h hpos hkey hnone
  have hlowest : pos = low ∧ h = first := by
    rcases hslot pos hpos h hkey with hsame | ⟨hlt, -⟩
    · exact hsame
    · rw [hnone low hlt] at hfirst
      cases hfirst
  obtain ⟨rfl, rfl⟩ := hlowest
  refine ⟨rest, fun g => ⟨fun hg => ⟨fun heq => apart (heq ▸ hg), stored g hg⟩, ?_⟩, orderly⟩
  rintro ⟨hne, q, hq, hkeyed⟩
  rcases hslot q hq g hkeyed with ⟨-, heq⟩ | ⟨-, hg⟩
  · exact absurd heq hne
  · exact hg

/-- The hash of 4112 comes first, those of 4352 and 4096 follow in the order of their homes. -/
theorem threeBlocks_drains : Drains (mapWith threeBlocks) := by
  have hfirst : (mapWith threeBlocks).keyAt 12 = some (hashPtr ⟨true⟩ 4112) := by decide +kernel
  have hstored : ∀ h ∈ [hashPtr ⟨true⟩ 4352, hashPtr ⟨true⟩ 4096],
      ∃ pos < (mapWith threeBlocks).tableSize, (mapWith threeBlocks).keyAt pos = some h :=
    List.forall_mem_cons.mpr ⟨by decide +kernel, List.forall_mem_singleton.mpr (by decide +kernel)⟩
  refine drains_of_slots [hashPtr ⟨true⟩ 4352, hashPtr ⟨true⟩ 4096] hfirst (by decide +kernel)
    hstored (by decide +kernel) ?_
  unfold Orderly Orderly Orderly
  exact ⟨by decide +kernel, List.forall_mem_singleton.mpr (by decide +kernel), by decide +kernel,
    List.forall_mem_nil _, trivial⟩

/-- The heap at the end of a call that returned. -/
def heapAfter {α : Type} : EStateM.Result Fault (World ScriptHeap) α → Option ScriptHeap
  | .ok _ w => some w.heap
  | .error _ _ => none

theorem memtblDestroy_frees_iff_threeBlocks :
    ∃ w', memtblDestroy (chainOps scriptHeap ⟨true⟩ [16]) 4 ⟨16, 32, .plain⟩
        (worldWith threeBlocks) = .ok () w' ∧
      FreesAll ScriptHeap.Live ScriptHeap.freed (worldWith threeBlocks) w' ⟨16, 32, .plain⟩
        ⟨32, 40, .plain⟩ (mapWith threeBlocks) {a | a ∈ threeBlocks} := by
  have hrounds : (mapWith threeBlocks).occupied < 4 := by decide +kernel
  obtain ⟨w', hrun, hiff⟩ :=
    memtblDestroy_frees_iff scriptHeap_serves threeBlocks_live threeBlocks_noStale hrounds
  have hheap : (heapAfter (memtblDestroy (chainOps scriptHeap ⟨true⟩ [16]) 4 ⟨16, 32, .plain⟩
      (worldWith threeBlocks))).map ScriptHeap.refused =
        some (worldWith threeBlocks).heap.refused := by
    decide +kernel
  rw [hrun] at hheap
  exact ⟨w', hrun, (hiff (Option.some.inj hheap)).mpr threeBlocks_drains⟩

/-- The blocks at 4096 and 4128 have the same home. Freeing the first empties it, so
that the second is not found and never freed. -/
theorem memtblDestroy_leaks :
    (∀ a ∈ [4096, 4128], a ∈ (worldWith [4096, 4128]).heap.live ∧ ∃ r,
      mapGetPtr (chainOps scriptHeap ⟨true⟩ []) ⟨true⟩ ⟨32, 40, .plain⟩ (mapWith [4096, 4128]) a
        (worldWith [4096, 4128]) = .ok r (worldWith [4096, 4128]) ∧ r.data = a) ∧
    ∃ w', memtblDestroy (chainOps scriptHeap ⟨true⟩ [16]) 3 ⟨16, 32, .plain⟩
        (worldWith [4096, 4128]) = .ok () w' ∧ w'.heap.refused = 0 ∧
      w'.heap.freed = [16, 32, 64, 4096] ∧ w'.heap.live = [4128] := by
  have htable : TableAt (worldWith [4096, 4128]) ⟨16, 32, .plain⟩ ⟨32, 40, .plain⟩
      (mapWith [4096, 4128]) :=
    tableAt_with (by decide +kernel) (by decide +kernel) (by decide +kernel) (by decide +kernel)
  have hfirst : 4096 ∈ (worldWith [4096, 4128]).heap.live ∧
      lookup (mapWith [4096, 4128]) (hashPtr ⟨true⟩ 4096) = some ⟨4096, 8, .memtbl 16⟩ := by
    decide +kernel
  have hsecond : 4128 ∈ (worldWith [4096, 4128]).heap.live ∧
      lookup (mapWith [4096, 4128]) (hashPtr ⟨true⟩ 4128) = some ⟨4128, 8, .memtbl 16⟩ := by
    decide +kernel
  have hlookup : ∀ a ∈ [4096, 4128], a ∈ (worldWith [4096, 4128]).heap.live ∧
      lookup (mapWith [4096, 4128]) (hashPtr ⟨true⟩ a) = some ⟨a, 8, .memtbl 16⟩ := by
    intro a ha
    obtain rfl | ha := List.mem_cons.mp ha
    · exact hfirst
    · rw [List.mem_singleton.mp ha]
      exact hsecond
  have hrun : heapAfter (memtblDestroy (chainOps scriptHeap ⟨true⟩ [16]) 3 ⟨16, 32, .plain⟩
      (worldWith [4096, 4128])) = some ⟨[], [4128], [16, 32, 64, 4096], 0⟩ := by
    decide +kernel
  constructor
  · intro a ha
    obtain ⟨hlive, hl⟩ := hlookup a ha
    refine ⟨hlive, ⟨a, 8, .memtbl 16⟩, ?_, rfl⟩
    rw [htable.mapGetPtr_eq, hl]
    rfl
  · revert hrun
    generalize memtblDestroy (chainOps scriptHeap ⟨true⟩ [16]) 3 ⟨16, 32, .plain⟩
      (worldWith [4096, 4128]) = run
    intro hrun
    cases run with
    | ok _ w' =>
      have hheap : w'.heap = ⟨[], [4128], [16, 32, 64, 4096], 0⟩ := Option.some.inj hrun
      exact ⟨w', rfl, by rw [hheap], by rw [hheap], by rw [hheap]⟩
    | error _ _ => cases hrun

end M65Tool.Guarantees.MemtblDestroy
