import M65Tool.Source.MemtblDestroy
import Mathlib.Data.Set.Insert

/-!
# Destroying a memory table, block by block

Over a heap that answers every call, what the loop of `memtbl_destroy` visits is freed,
the entries block may be replaced on the way, and the rest of the heap is left alone.
Where no request is refused the loop is a walk over the table.
-/
namespace M65Tool.Source.Machine
open Mem MapHash HashMap Memtbl Lib.Effect

/-- A request is answered with a block that was not live. -/
structure Granted {τ : Type} (live : τ → Addr → Prop) (refused : τ → Nat) (t t' : τ) (a : Addr) :
    Prop where
  ne_null : a ≠ 0
  fresh : ¬ live t a
  live_iff : ∀ b, live t' b ↔ b = a ∨ live t b
  none_refused : refused t' = refused t

/-- A request is answered with null, and counted. -/
structure Refused {τ : Type} (live : τ → Addr → Prop) (refused : τ → Nat) (t t' : τ) (a : Addr) :
    Prop where
  null : a = 0
  live_iff : ∀ b, live t' b ↔ live t b
  one_refused : refused t' = refused t + 1

/-- The allocation functions over the live blocks, with the freed ones and the number of
refusals. Only a live block can be freed. -/
structure ServesBlocks {τ : Type} (heap : HeapOps τ) (live : τ → Addr → Prop)
    (freed : τ → List Addr) (refused : τ → Nat) : Prop where
  malloc : ∀ n t, ∃ a t', heap.malloc n t = .ok a t' ∧ freed t' = freed t ∧
    (Granted live refused t t' a ∨ Refused live refused t t' a)
  free : ∀ a t, live t a → ∃ t', heap.free a t = .ok () t' ∧
    (∀ b, live t' b ↔ b ≠ a ∧ live t b) ∧ freed t' = a :: freed t ∧ refused t' = refused t
  free_dead : ∀ a t, a ≠ 0 → ¬ live t a → ∃ t', heap.free a t = .error .deadBlock t'

section Release
variable {τ : Type} {heap : HeapOps τ} {live : τ → Addr → Prop} {freed : τ → List Addr}
  {refused : τ → Nat} {target : Target} {w : World τ} {mth mh : MemHandle} {mp mp' : Map}
  {v : MemHandle} {chain : List Addr}

/-- Between the two heaps these blocks have been freed, and the block at `old` has been
replaced by the one at `new`, or kept. The new one may be where a freed block was. -/
structure Released (live : τ → Addr → Prop) (freed : τ → List Addr) (t t' : τ)
    (old new : Addr) (blocks : Set Addr) : Prop where
  live_iff : ∀ b, live t' b ↔ b = new ∨ (b ≠ old ∧ b ∉ blocks ∧ live t b)
  new_fresh : live t new → new = old ∨ new ∈ blocks
  log : ∃ log, freed t' = log ++ freed t ∧ ∀ b ∈ blocks, b ∈ log

namespace Released
variable {t t₁ t' : τ} {old mid new e : Addr} {blocks more : Set Addr}

theorem same (hlive : live t e) (hsame : ∀ b, live t' b ↔ live t b) (hfreed : freed t' = freed t) :
    Released live freed t t' e e ∅ where
  live_iff b := by
    rw [hsame]
    constructor
    · intro hb
      by_cases he : b = e
      · exact Or.inl he
      · exact Or.inr ⟨he, Set.notMem_empty b, hb⟩
    · intro h
      rcases h with he | ⟨-, -, hb⟩
      · rw [he]
        exact hlive
      · exact hb
  new_fresh _ := Or.inl rfl
  log := ⟨[], hfreed, fun b hb => absurd hb (Set.notMem_empty b)⟩

theorem refl (hlive : live t e) : Released live freed t t e e ∅ :=
  same hlive (fun _ => Iff.rfl) rfl

theorem trans (h₁ : Released live freed t t₁ old mid blocks)
    (h₂ : Released live freed t₁ t' mid new more) :
    Released live freed t t' old new (blocks ∪ more) where
  live_iff b := by
    rw [h₂.live_iff, h₁.live_iff, Set.mem_union]
    constructor
    · intro h
      rcases h with hb | ⟨hmid, hmore, hb | ⟨hold, hblocks, hlive⟩⟩
      · exact Or.inl hb
      · exact absurd hb hmid
      · exact Or.inr ⟨hold, not_or.mpr ⟨hblocks, hmore⟩, hlive⟩
    · intro h
      rcases h with hb | ⟨hold, hnot, hlive⟩
      · exact Or.inl hb
      · obtain ⟨hblocks, hmore⟩ := not_or.mp hnot
        have hmid : b ≠ mid := by
          intro he
          subst he
          exact (h₁.new_fresh hlive).elim hold hblocks
        exact Or.inr ⟨hmid, hmore, Or.inr ⟨hold, hblocks, hlive⟩⟩
  new_fresh hlive := by
    by_cases hold : new = old
    · exact Or.inl hold
    · right
      by_cases hblocks : new ∈ blocks
      · exact Or.inl hblocks
      · have hnew := h₂.new_fresh ((h₁.live_iff new).mpr (Or.inr ⟨hold, hblocks, hlive⟩))
        rcases hnew with hmid | hmore
        · rw [hmid] at hlive hold hblocks
          exact absurd (h₁.new_fresh hlive) (not_or.mpr ⟨hold, hblocks⟩)
        · exact Or.inr hmore
  log := by
    obtain ⟨log₁, hlog₁, hmem₁⟩ := h₁.log
    obtain ⟨log₂, hlog₂, hmem₂⟩ := h₂.log
    refine ⟨log₂ ++ log₁, ?_, ?_⟩
    · rw [hlog₂, hlog₁, List.append_assoc]
    · intro b hb
      rcases hb with hb | hb
      · exact List.mem_append_right _ (hmem₁ b hb)
      · exact List.mem_append_left _ (hmem₂ b hb)

/-- What is left without the new block. -/
theorem live_without_new (h : Released live freed t t' old new blocks) (b : Addr) :
    (b ≠ new ∧ live t' b) ↔ b ≠ old ∧ b ∉ blocks ∧ live t b := by
  rw [h.live_iff]
  constructor
  · intro ⟨hne, hor⟩
    exact hor.resolve_left hne
  · intro hb
    refine ⟨?_, Or.inr hb⟩
    intro he
    obtain ⟨hold, hblocks, hlive⟩ := hb
    subst he
    exact (h.new_fresh hlive).elim hold hblocks

/-- One block has been freed. -/
theorem single {a : Addr} (hlive : live t e) (hne : a ≠ e)
    (hfree : ∀ b, live t' b ↔ b ≠ a ∧ live t b) (hfreed : freed t' = a :: freed t) :
    Released live freed t t' e e {a} where
  live_iff b := by
    rw [hfree, Set.mem_singleton_iff]
    constructor
    · intro ⟨hba, hb⟩
      by_cases he : b = e
      · exact Or.inl he
      · exact Or.inr ⟨he, hba, hb⟩
    · intro h
      rcases h with he | ⟨-, hba, hb⟩
      · rw [he]
        exact ⟨Ne.symm hne, hlive⟩
      · exact ⟨hba, hb⟩
  new_fresh _ := Or.inl rfl
  log := ⟨[a], hfreed, fun b hb => by simpa using hb⟩

end Released

/-- What a guarded block does to the tables, the maps and the heap, the call does. -/
theorem sigintGuard_ok {α : Type} {x : C (World τ) α} {a : α}
    (Q : (Addr → Option MemHandle) → (Addr → Option Map) → τ → Prop)
    (hx : ∀ w1 : World τ, w1.memtbls = w.memtbls → w1.maps = w.maps → w1.heap = w.heap →
      ∃ w2, x w1 = .ok a w2 ∧ Q w2.memtbls w2.maps w2.heap) :
    ∃ w', sigintGuard (machineLibc heap) x w = .ok a w' ∧ Q w'.memtbls w'.maps w'.heap := by
  obtain ⟨w2, hrun, hq⟩ := hx
    { w with sigint := .ign, history := .signal .ign :: w.history } rfl rfl rfl
  refine ⟨{ w2 with sigint := w.sigint, history := .signal w.sigint :: w2.history }, ?_, hq⟩
  have hsignal : (machineLibc heap).signal .ign w =
      .ok w.sigint { w with sigint := .ign, history := .signal .ign :: w.history } := rfl
  rw [sigintGuard, bind_of_ok hsignal, bind_of_ok hrun]
  rfl

theorem onHeap_ok {α : Type} {x : C τ α} {a : α} {t' : τ} (hx : x w.heap = .ok a t') :
    onHeap x w = .ok a { w with heap := t' } := by
  unfold onHeap
  rw [hx]

variable (target chain)

theorem memFree_plain (serves : ServesBlocks heap live freed refused) (ha : v.allocator = .plain)
    (hd : v.data ≠ 0) (hlive : live w.heap v.data) :
    ∃ w', (chainOps heap target chain).memFree v w = .ok .zero w' ∧
      w'.memtbls = w.memtbls ∧ w'.maps = w.maps ∧
      (∀ b, live w'.heap b ↔ b ≠ v.data ∧ live w.heap b) ∧
      freed w'.heap = v.data :: freed w.heap ∧ refused w'.heap = refused w.heap := by
  obtain ⟨t', hfree, hout⟩ := serves.free v.data w.heap hlive
  change ∃ w', memFree (machineLibc heap) (chainSpec heap target chain) v w = .ok .zero w' ∧ _
  rw [memFree, if_pos (memIsValid_eq_true.mpr hd), ha, chainSpec_plain]
  refine sigintGuard_ok (fun memtbls maps t => memtbls = w.memtbls ∧ maps = w.maps ∧
    (∀ b, live t b ↔ b ≠ v.data ∧ live w.heap b) ∧ freed t = v.data :: freed w.heap ∧
    refused t = refused w.heap) ?_
  intro w1 hm hmaps hheap
  rw [← hheap] at hfree
  have hcall : (machineLibc heap).free v.data w1 = .ok () { w1 with heap := t' } := onHeap_ok hfree
  refine ⟨{ w1 with heap := t' }, ?_, hm, hmaps, hout⟩
  rw [plainFree, bind_of_ok hcall]
  rfl

theorem memAlloc_plain (serves : ServesBlocks heap live freed refused) (n : Nat) :
    ∃ a w', (chainOps heap target chain).memAlloc .plain n w = .ok ⟨a, n, .plain⟩ w' ∧
      w'.memtbls = w.memtbls ∧ w'.maps = w.maps ∧ freed w'.heap = freed w.heap ∧
      (Granted live refused w.heap w'.heap a ∨ Refused live refused w.heap w'.heap a) := by
  obtain ⟨a, t', hmalloc, hout⟩ := serves.malloc n w.heap
  have hguarded : ∃ w', sigintGuard (machineLibc heap) (plainAlloc (machineLibc heap) .plain n) w =
      .ok ⟨a, n, .plain⟩ w' ∧ w'.memtbls = w.memtbls ∧ w'.maps = w.maps ∧ w'.heap = t' := by
    refine sigintGuard_ok (fun memtbls maps t => memtbls = w.memtbls ∧ maps = w.maps ∧ t = t') ?_
    intro w1 hm hmaps hheap
    rw [← hheap] at hmalloc
    have hcall : (machineLibc heap).malloc n w1 = .ok a { w1 with heap := t' } :=
      onHeap_ok hmalloc
    refine ⟨{ w1 with heap := t' }, ?_, hm, hmaps, rfl⟩
    rw [plainAlloc, bind_of_ok hcall]
    rfl
  obtain ⟨w', hrun, hm, hmaps, rfl⟩ := hguarded
  refine ⟨a, w', ?_, hm, hmaps, hout⟩
  change memAlloc (machineLibc heap) (chainSpec heap target chain) .plain n w = _
  rw [memAlloc, chainSpec_plain]
  exact hrun

/-- A shrinking resize replaces the entries block, or is refused the new one. -/
theorem resize_released (serves : ServesBlocks heap live freed refused)
    (hmh : mh.allocator = .plain) (hplain : mp.entriesMh.allocator = .plain)
    (hdata : mp.entriesMh.data ≠ 0) (hlive : live w.heap mp.entriesMh.data) :
    ∃ granted mp' w', resizeEntriesTable (chainOps heap target chain) mh mp false w =
        .ok (granted, mp') w' ∧
      (granted = true ∧ (∃ newMh, mp' = mp.resized newMh (mp.tableSize / 2)) ∨
        granted = false ∧ mp' = mp) ∧
      mp'.entriesMh.allocator = .plain ∧ mp'.entriesMh.data ≠ 0 ∧
      w'.memtbls = w.memtbls ∧ w'.maps = w.maps ∧
      Released live freed w.heap w'.heap mp.entriesMh.data mp'.entriesMh.data ∅ ∧
      refused w'.heap = refused w.heap + (!granted).toNat := by
  obtain ⟨a, w1, halloc, hm1, hmaps1, hfreed1, hout⟩ :=
    memAlloc_plain target chain serves (sizeofMapEntry * (mp.tableSize / 2))
  have hsize : (resizedTableSize mp.tableSize false : C (World τ) Nat) w =
      .ok (mp.tableSize / 2) w := rfl
  rcases hout with hgrant | hrefuse
  · have hne := hgrant.ne_null
    have hfresh : mp.entriesMh.data ≠ a := by
      intro he
      rw [he] at hlive
      exact hgrant.fresh hlive
    obtain ⟨w2, hfree, hm2, hmaps2, hlive2, hfreed2, hrefused2⟩ :=
      memFree_plain target chain serves hplain hdata ((hgrant.live_iff _).mpr (Or.inr hlive))
    refine ⟨true, mp.resized ⟨a, sizeofMapEntry * (mp.tableSize / 2), .plain⟩ (mp.tableSize / 2),
      w2, ?_, Or.inl ⟨rfl, _, rfl⟩, rfl, hne, hm2.trans hm1, hmaps2.trans hmaps1,
      ⟨?_, fun h => absurd h hgrant.fresh, [mp.entriesMh.data], ?_,
        fun b hb => absurd hb (Set.notMem_empty b)⟩, ?_⟩
    · have hclear : memAllocClear (chainOps heap target chain) .plain
          (sizeofMapEntry * (mp.tableSize / 2)) w =
          .ok ⟨a, sizeofMapEntry * (mp.tableSize / 2), .plain⟩ w1 := by
        rw [memAllocClear, bind_of_ok halloc, if_pos (memIsValid_eq_true.mpr hne),
          bind_of_ok (chain_deref rfl hne)]
        rfl
      rw [resizeEntriesTable, bind_of_ok hsize, hmh, bind_of_ok hclear,
        bind_of_ok (chain_memP rfl), if_neg hne, bind_of_ok (chain_deref hplain hdata),
        bind_of_ok hfree]
      rfl
    · intro b
      rw [hlive2, hgrant.live_iff]
      constructor
      · intro ⟨hb, hor⟩
        exact hor.imp_right fun h => ⟨hb, Set.notMem_empty b, h⟩
      · intro h
        rcases h with hba | ⟨hb, -, hlb⟩
        · exact ⟨fun he => hfresh (he.symm.trans hba), Or.inl hba⟩
        · exact ⟨hb, Or.inr hlb⟩
    · rw [hfreed2, hfreed1]
      rfl
    · rw [hrefused2, hgrant.none_refused]
      rfl
  · refine ⟨false, mp, w1, ?_, Or.inr ⟨rfl, rfl⟩, hplain, hdata, hm1, hmaps1,
      .same hlive hrefuse.live_iff hfreed1, hrefuse.one_refused⟩
    have hnull := hrefuse.null
    have hclear : memAllocClear (chainOps heap target chain) .plain
        (sizeofMapEntry * (mp.tableSize / 2)) w =
        .ok ⟨a, sizeofMapEntry * (mp.tableSize / 2), .plain⟩ w1 := by
      rw [memAllocClear, bind_of_ok halloc, if_neg (by simp [hnull])]
      rfl
    rw [resizeEntriesTable, bind_of_ok hsize, hmh, bind_of_ok hclear, bind_of_ok (chain_memP rfl),
      if_pos hnull]
    rfl

/-- `do_delete` of a hash that is found drains its position. -/
theorem doDelete_drains (serves : ServesBlocks heap live freed refused)
    (hat : TableAt w mth mh mp) (hlive : live w.heap mp.entriesMh.data) {pos : Nat} {h : UInt32}
    (hk : mp.keyAt pos = some h) (hf : findEntryPos mp h = some pos) :
    ∃ granted mp' w', doDelete (chainOps heap target chain) mh mp h w = .ok (granted, mp') w' ∧
      Drain mp pos granted mp' ∧ mp'.entriesMh.allocator = .plain ∧ mp'.entriesMh.data ≠ 0 ∧
      w'.memtbls = w.memtbls ∧ w'.maps = w.maps ∧
      Released live freed w.heap w'.heap mp.entriesMh.data mp'.entriesMh.data ∅ ∧
      refused w'.heap = refused w.heap + (!granted).toNat := by
  have hne : (mp.slot pos).keyHash ≠ 0 := by
    obtain ⟨hh, hne⟩ := Map.keyAt_eq_some.mp hk
    rw [hh]
    exact hne
  have hdelete : doDelete (chainOps heap target chain) mh mp h w =
      (if Shrinks (mp.emptied pos) then
        resizeEntriesTable (chainOps heap target chain) mh (mp.emptied pos) false w
      else .ok (true, mp.emptied pos) w) := by
    rw [doDelete, bind_of_ok hat.derefTable_ok, hf]
    simp only [orNoEntryPos, pure_bind_run]
    rw [if_neg hne]
    split <;> rfl
  rw [hdelete]
  by_cases shrinks : Shrinks (mp.emptied pos)
  · rw [if_pos shrinks]
    obtain ⟨granted, mp', w', hrun, houtcome, hplain, hdata, hm, hmaps, hreleased, hrefused⟩ :=
      resize_released target chain serves hat.map_plain
        (show (mp.emptied pos).entriesMh.allocator = .plain from hat.entries_plain)
        hat.entries_data hlive
    refine ⟨granted, mp', w', hrun, ?_, hplain, hdata, hm, hmaps, hreleased, hrefused⟩
    rcases houtcome with ⟨rfl, newMh, rfl⟩ | ⟨rfl, rfl⟩
    · exact .shrink shrinks newMh
    · exact .refused shrinks
  · rw [if_neg shrinks]
    exact ⟨true, _, w, rfl, .remove shrinks, hat.entries_plain, hat.entries_data, rfl, rfl,
      .refl hlive, rfl⟩

/-! ## Freeing one block of the table -/

theorem TableAt.congr (hat : TableAt w mth mh mp) {w' : World τ} (hm : w'.memtbls = w.memtbls)
    (hmaps : w'.maps = w.maps) : TableAt w' mth mh mp where
  memtbl_plain := hat.memtbl_plain
  memtbl_data := hat.memtbl_data
  map_at := by
    rw [hm]
    exact hat.map_at
  map_plain := hat.map_plain
  map_data := hat.map_data
  struct_at := by
    rw [hmaps]
    exact hat.struct_at
  entries_plain := hat.entries_plain
  entries_data := hat.entries_data

/-- `map_delete` of an address that is found, in the memory of the table. -/
theorem mapDelete_drains (serves : ServesBlocks heap live freed refused)
    (hat : TableAt w mth mh mp) (hlive : live w.heap mp.entriesMh.data) {pos : Nat} {h : UInt32}
    {a : Addr}
    (hk : mp.keyAt pos = some h) (hf : findEntryPos mp h = some pos) (ha : hashPtr target a = h) :
    ∃ granted mp' w',
      (tableEnv heap target (chainOps heap target [])).mapDelete mh a w = .ok granted w' ∧
      Drain mp pos granted mp' ∧ mp'.entriesMh.allocator = .plain ∧ mp'.entriesMh.data ≠ 0 ∧
      w'.memtbls = w.memtbls ∧
      w'.maps = (fun b => if b = mh.data then some mp' else w.maps b) ∧
      Released live freed w.heap w'.heap mp.entriesMh.data mp'.entriesMh.data ∅ ∧
      refused w'.heap = refused w.heap + (!granted).toNat := by
  have hat1 : TableAt { w with history := .updateBegin mh.data :: w.history } mth mh mp :=
    hat.congr rfl rfl
  obtain ⟨granted, mp', w2, hrun, hdrain, hplain, hdata, hm, hmaps, hreleased⟩ :=
    doDelete_drains target [] serves hat1 hlive hk hf
  refine ⟨granted, mp', { w2 with
    maps := fun b => if b = mh.data then some mp' else w2.maps b
    history := .updateEnd mh.data :: w2.history }, ?_, hdrain, hplain, hdata, hm, ?_, hreleased⟩
  · have hbegin : (record (.updateBegin mh.data) : C (World τ) Unit) w =
        .ok () { w with history := .updateBegin mh.data :: w.history } := rfl
    have hcall : mapDeletePtr (chainOps heap target []) target mh mp a
        { w with history := .updateBegin mh.data :: w.history } = .ok (granted, mp') w2 := by
      rw [mapDeletePtr, ha]
      exact hrun
    change updateMap mh (fun mp => mapDeletePtr (chainOps heap target []) target mh mp a) w = _
    rw [updateMap, bind_of_ok hbegin, bind_of_ok hat1.readMap_ok, bind_of_ok hcall]
    rfl
  · dsimp only
    rw [hmaps]

/-- The map struct is replaced, and the table's handle stays. -/
theorem TableAt.replaced (hat : TableAt w mth mh mp) {w' : World τ} {mp' : Map}
    (hm : w'.memtbls = w.memtbls)
    (hmaps : w'.maps = fun b => if b = mh.data then some mp' else w.maps b)
    (hplain : mp'.entriesMh.allocator = .plain) (hdata : mp'.entriesMh.data ≠ 0) :
    TableAt w' mth mh mp' where
  memtbl_plain := hat.memtbl_plain
  memtbl_data := hat.memtbl_data
  map_at := by
    rw [hm]
    exact hat.map_at
  map_plain := hat.map_plain
  map_data := hat.map_data
  struct_at := by
    rw [hmaps]
    exact if_pos rfl
  entries_plain := hplain
  entries_data := hdata

/-- `memtbl_free` of a value of the table that is found: the entry is deleted before the block
is freed. -/
theorem memtblFree_value (serves : ServesBlocks heap live freed refused)
    (hat : TableAt w mth mh mp) (hlive : live w.heap mp.entriesMh.data) {pos : Nat} {h : UInt32}
    (hk : mp.keyAt pos = some h) (hf : findEntryPos mp h = some pos)
    (hlookup : lookup mp (hashPtr target v.data) = some v)
    (ha : v.allocator = .memtbl mth.data) (hd : v.data ≠ 0)
    (hhash : hashPtr target v.data = h) (hblock : live w.heap v.data)
    (hne : v.data ≠ mp.entriesMh.data) :
    ∃ w', memtblFree (tableEnv heap target (chainOps heap target [])) v w = .ok .zero w' ∧
      ∃ granted mp', (w'.memtbls = w.memtbls ∧
          w'.maps = (fun b => if b = mh.data then some mp' else w.maps b)) ∧
        (mp'.entriesMh.allocator = .plain ∧ mp'.entriesMh.data ≠ 0) ∧ Drain mp pos granted mp' ∧
        Released live freed w.heap w'.heap mp.entriesMh.data mp'.entriesMh.data {v.data} ∧
        refused w'.heap = refused w.heap + (!granted).toNat := by
  obtain ⟨granted, mp', w2, hdelete, hdrain, hplain, hdata, hm2, hmaps2, hreleased, hrefused⟩ :=
    mapDelete_drains target serves hat hlive hk hf hhash
  have hblock2 : live w2.heap v.data :=
    (hreleased.live_iff _).mpr (Or.inr ⟨hne, Set.notMem_empty _, hblock⟩)
  have hentries2 : live w2.heap mp'.entriesMh.data := (hreleased.live_iff _).mpr (Or.inl rfl)
  have hne2 : v.data ≠ mp'.entriesMh.data := by
    intro he
    rw [he] at hne hblock
    exact (hreleased.new_fresh hblock).elim hne (Set.notMem_empty _)
  obtain ⟨t', hfree, hfreelive, hfreed, hfreerefused⟩ := serves.free v.data w2.heap hblock2
  have hcall : (tableEnv heap target (chainOps heap target [])).libc.free v.data w2 =
      .ok () { w2 with heap := t' } := onHeap_ok hfree
  refine ⟨{ w2 with heap := t' }, ?_, granted, mp', ⟨hm2, hmaps2⟩, ⟨hplain, hdata⟩, hdrain, ?_,
    hfreerefused.trans hrefused⟩
  · rw [memtblFree, if_pos (memIsValid_eq_true.mpr hd), ha, bind_of_ok hat.memtblMap_ok]
    change (memtblP (tableEnv heap target (chainOps heap target [])) v >>= _) w = _
    rw [bind_of_ok (hat.memtblP_ok ha hd hlookup), bind_of_ok hdelete, bind_of_ok hcall]
    rfl
  · rw [← Set.empty_union {v.data}]
    exact hreleased.trans (.single hentries2 hne2 hfreelive hfreed)

/-- `mem_free` of a value of the table that is found. -/
theorem memFree_value (serves : ServesBlocks heap live freed refused)
    (hat : TableAt w mth mh mp) (hlive : live w.heap mp.entriesMh.data) {pos : Nat} {h : UInt32}
    (hk : mp.keyAt pos = some h) (hf : findEntryPos mp h = some pos)
    (hv : (mp.slot pos).valueHandle = v) (ha : v.allocator = .memtbl mth.data) (hd : v.data ≠ 0)
    (hhash : hashPtr target v.data = h) (hblock : live w.heap v.data)
    (hne : v.data ≠ mp.entriesMh.data) :
    ∃ w', (chainOps heap target [mth.data]).memFree v w = .ok .zero w' ∧
      ∃ granted mp', TableAt w' mth mh mp' ∧ Drain mp pos granted mp' ∧
        Released live freed w.heap w'.heap mp.entriesMh.data mp'.entriesMh.data {v.data} ∧
        refused w'.heap = refused w.heap + (!granted).toNat := by
  have hlookup : lookup mp (hashPtr target v.data) = some v := by
    rw [hhash]
    refine lookup_eq_some.mpr ⟨pos, findEntryPos_eq_some.mp hf, ?_⟩
    obtain ⟨hh, hnz⟩ := Map.keyAt_eq_some.mp hk
    rw [if_neg (by rw [hh]; exact hnz), hv]
  change ∃ w', memFree (machineLibc heap) (chainSpec heap target [mth.data]) v w = _ ∧ _
  rw [memFree, if_pos (memIsValid_eq_true.mpr hd), ha, TableAt.chainSpec_self]
  obtain ⟨w', hrun, granted, mp', ⟨hm, hmaps⟩, ⟨hplain, hdata⟩, hdrain, hreleased⟩ :=
    sigintGuard_ok
      (fun memtbls maps t => ∃ granted mp', (memtbls = w.memtbls ∧
        maps = (fun b => if b = mh.data then some mp' else w.maps b)) ∧
        (mp'.entriesMh.allocator = .plain ∧ mp'.entriesMh.data ≠ 0) ∧ Drain mp pos granted mp' ∧
        Released live freed w.heap t mp.entriesMh.data mp'.entriesMh.data {v.data} ∧
        refused t = refused w.heap + (!granted).toNat)
      (by
        intro w1 hm hmaps hheap
        rw [← hheap] at hlive hblock ⊢
        rw [← hm, ← hmaps]
        exact memtblFree_value target serves (hat.congr hm hmaps) hlive hk hf hlookup ha hd hhash
          hblock hne)
  exact ⟨w', hrun, granted, mp', hat.replaced hm hmaps hplain hdata, hdrain, hreleased⟩

/-! ## The whole loop -/

variable {target}

theorem Entered.of_holds (he : Entered target mth.data mp) {h : UInt32}
    (hh : mp.Holds h v) : v.data ≠ 0 ∧ v.allocator = .memtbl mth.data ∧
      hashPtr target v.data = h := by
  obtain ⟨hne, pos, hp, hslot⟩ := hh
  have hentry := he pos hp
  rw [hslot] at hentry
  exact hentry.resolve_left fun hz => hne hz.1

theorem Entered.drain (he : Entered target mth.data mp) (hs : mp.Shaped) {pos : Nat}
    {granted : Bool} (hp : pos < mp.tableSize) (step : Drain mp pos granted mp') : Entered target mth.data mp' := by
  intro q hq
  rcases step.slot_cases hs hp hq with hempty | ⟨r, hr, hslot⟩
  · rw [hempty]
    exact Or.inl ⟨rfl, rfl⟩
  · rw [hslot]
    exact he r hr

/-- The table with its own blocks and those it records: all of them live, the entries
block and the two structs apart from the others. -/
structure Holding (live : τ → Addr → Prop) (target : Target) (w : World τ) (mth mh : MemHandle)
    (mp : Map) : Prop where
  table : TableAt w mth mh mp
  loaded : mp.Loaded
  once : mp.Once
  entered : Entered target mth.data mp
  entries_live : live w.heap mp.entriesMh.data
  structs_live : ∀ a, a = mth.data ∨ a = mh.data → live w.heap a ∧ a ≠ mp.entriesMh.data
  values_live : ∀ h v, mp.Holds h v → live w.heap v.data ∧ v.data ≠ mp.entriesMh.data ∧
    v.data ≠ mth.data ∧ v.data ≠ mh.data

theorem Holding.drain {w' : World τ} {pos : Nat} {h : UInt32} {a : Addr} {granted : Bool}
    (hh : Holding live target w mth mh mp) (hat : TableAt w' mth mh mp')
    (step : Drain mp pos granted mp')
    (hk : mp.keyAt pos = some h) (hp : pos < mp.tableSize) (hhash : hashPtr target a = h)
    (ha : a ≠ mth.data ∧ a ≠ mh.data)
    (released : Released live freed w.heap w'.heap mp.entriesMh.data mp'.entriesMh.data {a}) :
    Holding live target w' mth mh mp' := by
  -- what is live, is not the entries block and is not freed, is still live and apart
  have kept : ∀ b, live w.heap b → b ≠ mp.entriesMh.data → b ≠ a →
      live w'.heap b ∧ b ≠ mp'.entriesMh.data := by
    intro b hb he hba
    refine ⟨(released.live_iff b).mpr (Or.inr ⟨he, hba, hb⟩), ?_⟩
    intro hnew
    rw [hnew] at hb he hba
    exact (released.new_fresh hb).elim he hba
  refine ⟨hat, step.loaded hh.loaded hp hk, step.once hh.loaded.shaped hh.once hp,
    hh.entered.drain hh.loaded.shaped hp step, (released.live_iff _).mpr (Or.inl rfl), ?_, ?_⟩
  · intro b hb
    obtain ⟨hlive, hne⟩ := hh.structs_live b hb
    refine kept b hlive hne ?_
    rcases hb with hb | hb
    · rw [hb]
      exact Ne.symm ha.1
    · rw [hb]
      exact Ne.symm ha.2
  · intro g u hg
    have hstored := (step.stored_of hh.loaded.shaped hh.once hp hk
      (Map.stored_iff_holds.mpr ⟨u, hg⟩)).1
    have hold := step.holds_of hh.loaded.shaped hp hg
    obtain ⟨hlive, hne, hmth, hmh⟩ := hh.values_live g u hold
    have hua : u.data ≠ a := by
      intro he
      rw [← he, (hh.entered.of_holds hold).2.2] at hhash
      exact hstored hhash
    exact ⟨(kept u.data hlive hne hua).1, (kept u.data hlive hne hua).2, hmth, hmh⟩

/-- The blocks recorded under these hashes. -/
def recordedUnder (mp : Map) (hs : List UInt32) : Set Addr :=
  {a | ∃ h ∈ hs, ∃ v, mp.Holds h v ∧ v.data = a}

theorem recordedUnder_nil : recordedUnder mp [] = ∅ := by
  simp [recordedUnder]

/-- The first visit and those after it. -/
theorem recordedUnder_cons {pos : Nat} {h : UInt32} {rest : List UInt32} {mp'' : Map}
    (hl : mp.Loaded) (once : mp.Once) (hk : mp.keyAt pos = some h) (hp : pos < mp.tableSize)
    (hv : (mp.slot pos).valueHandle = v) (step : Drain mp pos true mp')
    (walk : Walk mp' (pos + 1) rest mp'') :
    {v.data} ∪ recordedUnder mp' rest = recordedUnder mp (h :: rest) := by
  have hholds : mp.Holds h v := Map.holds_iff.mpr ⟨pos, hp, hk, hv⟩
  ext a
  simp only [Set.mem_union, Set.mem_singleton_iff, recordedUnder, Set.mem_ofPred_eq, List.mem_cons]
  constructor
  · intro ha
    rcases ha with rfl | ⟨g, hg, u, hu, rfl⟩
    · exact ⟨h, Or.inl rfl, v, hholds, rfl⟩
    · exact ⟨g, Or.inr hg, u, step.holds_of hl.shaped hp hu, rfl⟩
  · intro ⟨g, hg, u, hu, hua⟩
    rcases hg with rfl | hg
    · exact Or.inl (by rw [← hua, once.holds_unique hu hholds])
    · have hstored := (walk.stored_beyond (step.loaded hl hp hk) (step.once hl.shaped once hp)
        (step.clearedTo hl.shaped hp) hg).1
      obtain ⟨u', hu'⟩ := Map.stored_iff_holds.mp hstored
      have heq := once.holds_unique (step.holds_of hl.shaped hp hu') hu
      exact Or.inr ⟨g, hg, u', hu', by rw [heq, hua]⟩

variable (heap)

/-- The loop ends. If nothing was refused it was a walk over the table, and has freed
what it visited. -/
theorem destroyLoop_walks (serves : ServesBlocks heap live freed refused) {rounds start : Nat}
    {next : Option Nat} (hh : Holding live target w mth mh mp) (hrounds : mp.occupied < rounds)
    (hnext : NextFound mp start next) :
    ∃ mp' w', destroyLoop (chainOps heap target [mth.data]) rounds (iterAt mp mh next) w =
        .ok () w' ∧ Holding live target w' mth mh mp' ∧ refused w.heap ≤ refused w'.heap ∧
      (refused w'.heap = refused w.heap → ∃ hs, Walk mp start hs mp' ∧
        Released live freed w.heap w'.heap mp.entriesMh.data mp'.entriesMh.data
          (recordedUnder mp hs)) := by
  induction rounds generalizing w mp start next with
  | zero => omega
  | succ rounds ih =>
    rw [destroyLoop, bind_of_ok (hh.table.mapIterDone_ok heap hh.entered hh.loaded hh.once hnext)]
    cases next with
    | none =>
      refine ⟨mp, w, rfl, hh, Nat.le_refl _, fun _ => ⟨[], .done hnext, ?_⟩⟩
      rw [recordedUnder_nil]
      exact .refl hh.entries_live
    | some pos =>
      obtain ⟨hle, ⟨h, hk, hf⟩, hfirst⟩ := hnext
      have hp := findEntryPos_lt hf
      have hholds : mp.Holds h (mp.slot pos).valueHandle := Map.holds_iff.mpr ⟨pos, hp, hk, rfl⟩
      obtain ⟨hd, ha, hhash⟩ := hh.entered.of_holds hholds
      obtain ⟨hblock, hne, happart⟩ := hh.values_live h _ hholds
      obtain ⟨w₁, hfree, granted, mp₁, hat₁, hdrain, hreleased, hrefused₁⟩ :=
        memFree_value target serves hh.table hh.entries_live hk hf rfl ha hd hhash hblock hne
      have hh₁ := hh.drain hat₁ hdrain hk hp hhash happart hreleased
      have hlt := hdrain.occupied_lt hh.loaded.shaped hp hk
      obtain ⟨next₁, hiter, hnext₁⟩ := hat₁.nextValueIter_ok heap hh₁.entered hh₁.loaded hh₁.once
        pos (mp.slot pos).valueHandle
      obtain ⟨mp', w', hloop, hh', hrefused', hwalks⟩ := ih hh₁ (by omega) hnext₁
      refine ⟨mp', w', ?_, hh', by omega, ?_⟩
      · change ((chainOps heap target [mth.data]).memFree (mp.slot pos).valueHandle >>= _) w = _
        rw [bind_of_ok hfree]
        change (nextValueIter (chainOps heap target [mth.data])
          ⟨mh, pos, (mp.slot pos).valueHandle⟩ >>= _) w₁ = _
        rw [bind_of_ok hiter, hloop]
      · intro hnone
        cases granted with
        | false =>
          simp only [Bool.not_false, Bool.toNat_true] at hrefused₁
          omega
        | true =>
          simp only [Bool.not_true, Bool.toNat_false, Nat.add_zero] at hrefused₁
          obtain ⟨hs, hwalk, hrest⟩ := hwalks (by omega)
          refine ⟨h :: hs, .visit hle hk hf hfirst hdrain hwalk, ?_⟩
          rw [← recordedUnder_cons hh.loaded hh.once hk hp rfl hdrain hwalk]
          exact hreleased.trans hrest

/-- The three calls after the loop. -/
theorem freeTable_ok (serves : ServesBlocks heap live freed refused)
    (hh : Holding live target w mth mh mp) (happart : mth.data ≠ mh.data) :
    ∃ w', (do
        let mapHandle ← readMemMapHandle mth.data
        let mp ← readMap mapHandle
        mapDestroy (chainOps heap target [mth.data]) mapHandle mp
        let _ ← (chainOps heap target [mth.data]).memFree mth
        pure ()) w = .ok () w' ∧
      freed w'.heap = mth.data :: mh.data :: mp.entriesMh.data :: freed w.heap ∧
      (∀ b, live w'.heap b ↔ b ≠ mth.data ∧ b ≠ mh.data ∧ b ≠ mp.entriesMh.data ∧
        live w.heap b) ∧ refused w'.heap = refused w.heap := by
  obtain ⟨hmh, hmhe⟩ := hh.structs_live mh.data (Or.inr rfl)
  obtain ⟨hmth, hmthe⟩ := hh.structs_live mth.data (Or.inl rfl)
  obtain ⟨w₁, hfree₁, -, -, hlive₁, hfreed₁, hrefused₁⟩ := memFree_plain target [mth.data] serves
    hh.table.entries_plain hh.table.entries_data hh.entries_live
  obtain ⟨w₂, hfree₂, -, -, hlive₂, hfreed₂, hrefused₂⟩ := memFree_plain target [mth.data] serves
    hh.table.map_plain hh.table.map_data ((hlive₁ _).mpr ⟨hmhe, hmh⟩)
  obtain ⟨w₃, hfree₃, -, -, hlive₃, hfreed₃, hrefused₃⟩ := memFree_plain target [mth.data] serves
    hh.table.memtbl_plain hh.table.memtbl_data
    ((hlive₂ _).mpr ⟨happart, (hlive₁ _).mpr ⟨hmthe, hmth⟩⟩)
  refine ⟨w₃, ?_, ?_, ?_, ?_⟩
  · have hdestroy : mapDestroy (chainOps heap target [mth.data]) mh mp w = .ok () w₂ := by
      rw [mapDestroy, bind_of_ok hh.table.mapIsValid_ok, if_pos rfl,
        bind_of_ok (chain_deref hh.table.map_plain hh.table.map_data), bind_of_ok hfree₁,
        bind_of_ok hfree₂]
      rfl
    rw [bind_of_ok hh.table.readMemMapHandle_ok, bind_of_ok hh.table.readMap_ok,
      bind_of_ok hdestroy, bind_of_ok hfree₃]
    rfl
  · rw [hfreed₃, hfreed₂, hfreed₁]
  · intro b
    rw [hlive₃, hlive₂, hlive₁]
  · rw [hrefused₃, hrefused₂, hrefused₁]

/-- `memtbl_destroy` returns. If nothing was refused it has freed what the walk over the
table visits, then the blocks of the table itself, and nothing else. -/
theorem memtblDestroy_walks (serves : ServesBlocks heap live freed refused) {rounds : Nat}
    (hh : Holding live target w mth mh mp) (happart : mth.data ≠ mh.data)
    (hrounds : mp.occupied < rounds) :
    ∃ w', memtblDestroy (chainOps heap target [mth.data]) rounds mth w = .ok () w' ∧
      (refused w'.heap = refused w.heap → ∃ hs mp' log, Walk mp 0 hs mp' ∧
        freed w'.heap = mth.data :: mh.data :: mp'.entriesMh.data :: (log ++ freed w.heap) ∧
        (∀ b ∈ recordedUnder mp hs, b ∈ log) ∧
        ∀ b, live w'.heap b ↔ b ≠ mth.data ∧ b ≠ mh.data ∧ b ≠ mp.entriesMh.data ∧
          b ∉ recordedUnder mp hs ∧ live w.heap b) := by
  obtain ⟨next, hfirst, hnext⟩ := hh.table.firstValueIter_ok heap hh.entered hh.loaded hh.once
  obtain ⟨mp', w₁, hloop, hh', hle, hwalks⟩ := destroyLoop_walks heap serves hh hrounds hnext
  obtain ⟨w', hfree, hfreed, hlive, hrefused⟩ := freeTable_ok heap serves hh' happart
  refine ⟨w', ?_, ?_⟩
  · have hderef : deref (chainOps heap target [mth.data]) mth w = .ok () w :=
      chain_deref hh.table.memtbl_plain hh.table.memtbl_data
    have hvalid : memtblIsValid (chainOps heap target [mth.data]) mth w = .ok true w := by
      rw [memtblIsValid, if_pos (memIsValid_eq_true.mpr hh.table.memtbl_data), bind_of_ok hderef,
        bind_of_ok hh.table.readMemMapHandle_ok,
        if_pos (memIsValid_eq_true.mpr hh.table.map_data), bind_of_ok hh.table.readMap_ok,
        hh.table.mapIsValid_ok]
    rw [memtblDestroy, bind_of_ok hvalid, if_pos rfl, bind_of_ok hderef,
      bind_of_ok hh.table.readMemMapHandle_ok, bind_of_ok hfirst, bind_of_ok hloop, hfree]
  · intro hnone
    obtain ⟨hs, hwalk, hreleased⟩ := hwalks (by omega)
    obtain ⟨log, hlog, hmem⟩ := hreleased.log
    refine ⟨hs, mp', log, hwalk, by rw [hfreed, hlog], hmem, ?_⟩
    intro b
    rw [hlive, hreleased.live_without_new]

end Release
end M65Tool.Source.Machine
