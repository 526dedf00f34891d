import M65Tool.Source.HashMapDrain
import M65Tool.Source.Machine

/-!
# Creating and destroying a memory table

Source: src/datastruct/memtbl.c. `memtbl_destroy` iterates over the map of the table
and frees each value with `mem_free`, whose allocator functions delete the value from
that map. The iterator functions read the map as it is at each call.
-/
namespace M65Tool.Source.Machine
open Mem MapHash HashMap Memtbl Lib.Effect

/-- `sizeof(memtbl)` on the 64-bit target. -/
def sizeofMemtbl : Nat := 32

section Lifetime
variable {τ : Type} (ops : MemOps (World τ))

def writeMemMapHandle (tblp : Addr) (mapHandle : MemHandle) : C (World τ) Unit :=
  modify fun w => { w with memtbls := fun a => if a = tblp then some mapHandle else w.memtbls a }

/-- memtbl.c:6-16. -/
def memtblCreate (allocator : MemAllocator) : C (World τ) MemHandle := do
  let mthandle ← ops.memAlloc allocator sizeofMemtbl
  if memIsValid mthandle then
    deref ops mthandle
    let (mapHandle, mp) ← mapCreate ops allocator
    writeMemMapHandle mthandle.data mapHandle
    match mp with
    | some mp =>
      writeMap mapHandle mp
      pure mthandle
    | none =>
      let _ ← ops.memFree mthandle
      pure .zero
  else pure .zero

/-- `memtbl_is_valid`. -/
def memtblIsValid (mthandle : MemHandle) : C (World τ) Bool :=
  if memIsValid mthandle then do
    deref ops mthandle
    let mapHandle ← readMemMapHandle mthandle.data
    if memIsValid mapHandle then
      let mp ← readMap mapHandle
      mapIsValid ops mapHandle mp
    else pure false
  else pure false

/-- `map_first_value_iter`, which reads the map only through a handle with a pointer. -/
def firstValueIter (mh : MemHandle) : C (World τ) MapIter := do
  let mapPtr ← ops.memP mh
  if mapPtr = 0 then pure .zero
  else
    let mp ← readMap mh
    mapFirstValueIter ops mh mp

/-- `map_next_value_iter`, likewise. -/
def nextValueIter (it : MapIter) : C (World τ) MapIter := do
  let mapPtr ← ops.memP it.mh
  if mapPtr = 0 then pure .zero
  else
    let mp ← readMap it.mh
    mapNextValueIter ops mp it

/-- The loop of `memtbl_destroy`, for at most the given number of rounds. -/
def destroyLoop : Nat → MapIter → C (World τ) Unit
  | 0, _ => throw .endlessLoop
  | rounds + 1, it => do
    let done ← mapIterDone ops it
    if done then pure ()
    else
      let _ ← ops.memFree (mapIterValue it)
      let next ← nextValueIter ops it
      destroyLoop rounds next

/-- memtbl.c:23-33. -/
def memtblDestroy (rounds : Nat) (mthandle : MemHandle) : C (World τ) Unit := do
  let valid ← memtblIsValid ops mthandle
  if valid then
    deref ops mthandle
    let mapHandle ← readMemMapHandle mthandle.data
    let it ← firstValueIter ops mapHandle
    destroyLoop ops rounds it
    let mapHandle ← readMemMapHandle mthandle.data
    let mp ← readMap mapHandle
    mapDestroy ops mapHandle mp
    let _ ← ops.memFree mthandle
    pure ()
  else pure ()

end Lifetime

/-! ## What the calls do to a table over the plain allocator -/

/-- The table at `mth` has the map `mp` at `mh`; all its blocks are plain ones. -/
structure TableAt {τ : Type} (w : World τ) (mth mh : MemHandle) (mp : Map) : Prop where
  memtbl_plain : mth.allocator = .plain
  memtbl_data : mth.data ≠ 0
  map_at : w.memtbls mth.data = some mh
  map_plain : mh.allocator = .plain
  map_data : mh.data ≠ 0
  struct_at : w.maps mh.data = some mp
  entries_plain : mp.entriesMh.allocator = .plain
  entries_data : mp.entriesMh.data ≠ 0

/-- A non-zero hash in the table is that of a handle of the table; a slot without one
has the zero handle, or one whose hash is 0. -/
def Entered (target : Target) (tblp : Addr) (mp : Map) : Prop :=
  ∀ pos < mp.tableSize,
    ((mp.slot pos).keyHash = 0 ∧ (mp.slot pos).valueHandle.data = 0) ∨
    ((mp.slot pos).valueHandle.data ≠ 0 ∧ (mp.slot pos).valueHandle.allocator = .memtbl tblp ∧
      hashPtr target (mp.slot pos).valueHandle.data = (mp.slot pos).keyHash)

section Reads
variable {τ : Type} {heap : HeapOps τ} {target : Target} {w : World τ} {mth mh : MemHandle}
  {mp : Map} {v r : MemHandle} {chain : List Addr}

theorem chainSpec_plain (chain : List Addr) :
    chainSpec heap target chain .plain = some (plainSpec (machineLibc heap)) := by
  induction chain with
  | nil => rfl
  | cons tblp below ih =>
    rw [chainSpec, if_neg (by simp)]
    exact ih

theorem chain_memP (ha : v.allocator = .plain) :
    (chainOps heap target chain).memP v w = .ok v.data w :=
  plain_memP (chainSpec_plain chain) ha

theorem chain_deref (ha : v.allocator = .plain) (hd : v.data ≠ 0) :
    deref (chainOps heap target chain) v w = .ok () w :=
  plain_deref (chainSpec_plain chain) ha hd

namespace TableAt

theorem readMap_ok (hat : TableAt w mth mh mp) : readMap mh w = .ok mp w := by
  unfold readMap
  rw [hat.struct_at]

theorem readMemMapHandle_ok (hat : TableAt w mth mh mp) :
    readMemMapHandle mth.data w = .ok mh w := by
  unfold readMemMapHandle
  rw [hat.map_at]

theorem mapIsValid_ok (hat : TableAt w mth mh mp) :
    mapIsValid (chainOps heap target chain) mh mp w = .ok true w := by
  rw [mapIsValid, if_pos (memIsValid_eq_true.mpr hat.map_data),
    bind_of_ok (chain_deref hat.map_plain hat.map_data), memIsValid_eq_true.mpr hat.entries_data]
  rfl

theorem derefTable_ok (hat : TableAt w mth mh mp) :
    derefTable (chainOps heap target chain) mh mp w = .ok mp.entriesMh.data w := by
  rw [derefTable, bind_of_ok (chain_deref hat.map_plain hat.map_data),
    bind_of_ok (chain_memP hat.entries_plain), if_neg hat.entries_data]
  rfl

/-- `map_get` is a lookup of the hash of the address. -/
theorem mapGetPtr_eq (hat : TableAt w mth mh mp) (a : Addr) :
    mapGetPtr (chainOps heap target chain) target mh mp a w =
      orNoEntryPos (lookup mp (hashPtr target a)) w := by
  rw [mapGetPtr, bind_of_ok hat.mapIsValid_ok, if_pos rfl, doGet, bind_of_ok hat.derefTable_ok]

theorem memtblMap_ok (hat : TableAt w mth mh mp) :
    memtblMap (tableEnv heap target (chainOps heap target [])) (.memtbl mth.data) w =
      .ok (some mh) w := by
  have hread : (tableEnv heap target (chainOps heap target [])).memMapHandle mth.data w =
      .ok mh w := hat.readMemMapHandle_ok
  have hne : allocatorData (.memtbl mth.data) ≠ 0 := hat.memtbl_data
  rw [memtblMap, if_neg hne]
  change ((tableEnv heap target (chainOps heap target [])).memMapHandle mth.data >>= _) w = _
  rw [bind_of_ok hread, if_pos (memIsValid_eq_true.mpr hat.map_data)]
  rfl

theorem memtblP_ok (hat : TableAt w mth mh mp) (ha : v.allocator = .memtbl mth.data)
    (hd : v.data ≠ 0) (hl : lookup mp (hashPtr target v.data) = some r) :
    memtblP (tableEnv heap target (chainOps heap target [])) v w = .ok r.data w := by
  have hget : (tableEnv heap target (chainOps heap target [])).mapGet mh v.data w = .ok r w := by
    change (readMap mh >>= fun mp => mapGetPtr (chainOps heap target []) target mh mp v.data) w = _
    rw [bind_of_ok hat.readMap_ok, hat.mapGetPtr_eq, hl]
    rfl
  rw [memtblP, if_pos (memIsValid_eq_true.mpr hd), ha, bind_of_ok hat.memtblMap_ok]
  change ((tableEnv heap target (chainOps heap target [])).mapGet mh v.data >>= _) w = _
  rw [bind_of_ok hget]
  rfl

theorem chainSpec_self :
    chainSpec heap target [mth.data] (.memtbl mth.data) =
      some (memtblSpec (tableEnv heap target (chainOps heap target []))) := by
  rw [chainSpec, if_pos rfl]
  rfl

/-- `mem_p` of a handle of the table is what the lookup of its address answers. -/
theorem memP_value (hat : TableAt w mth mh mp) (ha : v.allocator = .memtbl mth.data)
    (hd : v.data ≠ 0) (hl : lookup mp (hashPtr target v.data) = some r) :
    (chainOps heap target [mth.data]).memP v w = .ok r.data w := by
  change memP (chainSpec heap target [mth.data]) v w = _
  rw [memP, if_pos (memIsValid_eq_true.mpr hd), ha, chainSpec_self]
  exact hat.memtblP_ok ha hd hl

variable (heap)

/-- The iterator's test: the value of a slot has a pointer exactly if its lookup ends there. -/
theorem memP_slot (hat : TableAt w mth mh mp) (he : Entered target mth.data mp) (hl : mp.Loaded)
    (once : mp.Once) {pos : Nat} (hp : pos < mp.tableSize) :
    ∃ a, (chainOps heap target [mth.data]).memP (mp.slot pos).valueHandle w = .ok a w ∧
      (a ≠ 0 ↔ mp.FoundAt pos) := by
  rcases he pos hp with ⟨hkey, hdata⟩ | ⟨hdata, halloc, hhash⟩
  · refine ⟨0, ?_, ?_⟩
    · change memP (chainSpec heap target [mth.data]) (mp.slot pos).valueHandle w = _
      rw [memP, if_neg (by simpa using hdata)]
      rfl
    · constructor
      · intro h0
        exact absurd rfl h0
      · intro ⟨h, hk, _⟩
        rw [Map.keyAt_eq_none.mpr hkey] at hk
        cases hk
  · obtain ⟨e, hen, hempty⟩ := Map.exists_empty hl.shaped hl.room
    obtain ⟨r, hr⟩ := lookup_isSome (hashPtr target (mp.slot pos).valueHandle.data) hen hempty
    refine ⟨r.data, hat.memP_value halloc hdata hr, ?_⟩
    rw [hhash] at hr
    constructor
    · intro hrd
      have hne : (mp.slot pos).keyHash ≠ 0 := by
        intro hz
        rw [hz] at hr
        rw [lookup_zero hr] at hrd
        exact hrd rfl
      have hk : mp.keyAt pos = some (mp.slot pos).keyHash := Map.keyAt_eq_some.mpr ⟨rfl, hne⟩
      obtain ⟨q, hf, rfl⟩ := lookup_eq_some.mp hr
      rcases hf.stops with hq | hq
      · rw [if_pos (Map.keyAt_eq_none.mp hq)] at hrd
        exact absurd rfl hrd
      · rw [once q hf.lt pos hp _ hq hk] at hf
        exact ⟨_, hk, findEntryPos_eq_some.mpr hf⟩
    · intro ⟨h, hk, hf⟩
      obtain ⟨hh, hne⟩ := Map.keyAt_eq_some.mp hk
      have hfound : lookup mp (mp.slot pos).keyHash = some (mp.slot pos).valueHandle := by
        refine lookup_eq_some.mpr ⟨pos, ?_, ?_⟩
        · rw [hh]
          exact findEntryPos_eq_some.mp hf
        · rw [if_neg (by rw [hh]; exact hne)]
      rw [hr] at hfound
      rw [Option.some.inj hfound]
      exact hdata

end TableAt

/-- The first position from `start` on that an iterator stops at, if there is one. -/
def NextFound (mp : Map) (start : Nat) : Option Nat → Prop
  | none => ∀ q, start ≤ q → ¬ mp.FoundAt q
  | some pos => start ≤ pos ∧ mp.FoundAt pos ∧ ∀ q, start ≤ q → q < pos → ¬ mp.FoundAt q

/-- The iterator at that position; the zero iterator when there is none. -/
def iterAt (mp : Map) (mh : MemHandle) : Option Nat → MapIter
  | none => .zero
  | some pos => ⟨mh, pos, (mp.slot pos).valueHandle⟩

theorem foundAt_lt {pos : Nat} (hf : mp.FoundAt pos) : pos < mp.tableSize := by
  obtain ⟨h, -, hpos⟩ := hf
  exact findEntryPos_lt hpos

theorem NextFound.succ {start : Nat} {next : Option Nat} (h : NextFound mp (start + 1) next)
    (hn : ¬ mp.FoundAt start) : NextFound mp start next := by
  cases next with
  | none =>
    intro q hq
    rcases Nat.eq_or_lt_of_le hq with rfl | hlt
    · exact hn
    · exact h q hlt
  | some pos =>
    refine ⟨Nat.le_of_succ_le h.1, h.2.1, ?_⟩
    intro q hq hqp
    rcases Nat.eq_or_lt_of_le hq with rfl | hlt
    · exact hn
    · exact h.2.2 q hlt hqp

namespace TableAt
variable (heap)

theorem nextValuePos_ok (hat : TableAt w mth mh mp) (he : Entered target mth.data mp)
    (hl : mp.Loaded) (once : mp.Once) {left start : Nat} (hleft : left = mp.tableSize - start) :
    ∃ next, nextValuePos (chainOps heap target [mth.data]) mp left start w = .ok next w ∧
      NextFound mp start next := by
  induction left generalizing start with
  | zero =>
    refine ⟨none, rfl, ?_⟩
    intro q hq hf
    have := foundAt_lt hf
    omega
  | succ left ih =>
    obtain ⟨a, hptr, hiff⟩ := hat.memP_slot heap he hl once (show start < mp.tableSize by omega)
    rw [nextValuePos, bind_of_ok hptr]
    by_cases hz : a = 0
    · obtain ⟨next, hrun, hnext⟩ := ih (show left = mp.tableSize - (start + 1) by omega)
      rw [if_pos hz]
      exact ⟨next, hrun, hnext.succ fun hf => hiff.mpr hf hz⟩
    · rw [if_neg hz]
      refine ⟨some start, rfl, Nat.le_refl _, hiff.mp hz, ?_⟩
      intro q hq hqs
      omega

theorem mapNextValueIter_ok (hat : TableAt w mth mh mp) (he : Entered target mth.data mp)
    (hl : mp.Loaded) (once : mp.Once) (pos : Nat) (v : MemHandle) :
    ∃ next, mapNextValueIter (chainOps heap target [mth.data]) mp ⟨mh, pos, v⟩ w =
      .ok (iterAt mp mh next) w ∧ NextFound mp (pos + 1) next := by
  obtain ⟨next, hrun, hnext⟩ := hat.nextValuePos_ok heap he hl once
    (show mp.tableSize - (pos + 1) = mp.tableSize - (pos + 1) from rfl)
  refine ⟨next, ?_, hnext⟩
  rw [mapNextValueIter, bind_of_ok (chain_memP hat.map_plain), if_neg hat.map_data,
    bind_of_ok (chain_deref hat.entries_plain hat.entries_data), bind_of_ok hrun]
  cases next <;> rfl

theorem nextValueIter_ok (hat : TableAt w mth mh mp) (he : Entered target mth.data mp)
    (hl : mp.Loaded) (once : mp.Once) (pos : Nat) (v : MemHandle) :
    ∃ next, nextValueIter (chainOps heap target [mth.data]) ⟨mh, pos, v⟩ w =
      .ok (iterAt mp mh next) w ∧ NextFound mp (pos + 1) next := by
  obtain ⟨next, hrun, hnext⟩ := hat.mapNextValueIter_ok heap he hl once pos v
  refine ⟨next, ?_, hnext⟩
  rw [nextValueIter, bind_of_ok (chain_memP hat.map_plain), if_neg hat.map_data,
    bind_of_ok hat.readMap_ok, hrun]

theorem firstValueIter_ok (hat : TableAt w mth mh mp) (he : Entered target mth.data mp)
    (hl : mp.Loaded) (once : mp.Once) :
    ∃ next, firstValueIter (chainOps heap target [mth.data]) mh w = .ok (iterAt mp mh next) w ∧
      NextFound mp 0 next := by
  have hpos : 0 < mp.tableSize := Nat.lt_of_le_of_lt (Nat.zero_le _) hl.room
  obtain ⟨a, hptr, hiff⟩ := hat.memP_slot heap he hl once hpos
  have hstart : firstValueIter (chainOps heap target [mth.data]) mh w =
      (if a = 0 then mapNextValueIter (chainOps heap target [mth.data]) mp
        ⟨mh, 0, (mp.slot 0).valueHandle⟩ w
      else .ok ⟨mh, 0, (mp.slot 0).valueHandle⟩ w) := by
    rw [firstValueIter, bind_of_ok (chain_memP hat.map_plain), if_neg hat.map_data,
      bind_of_ok hat.readMap_ok, mapFirstValueIter, bind_of_ok (chain_memP hat.map_plain),
      if_neg hat.map_data, bind_of_ok (chain_deref hat.entries_plain hat.entries_data)]
    dsimp only
    rw [bind_of_ok hptr]
    split <;> rfl
  rw [hstart]
  by_cases hz : a = 0
  · obtain ⟨next, hrun, hnext⟩ := hat.mapNextValueIter_ok heap he hl once 0
      (mp.slot 0).valueHandle
    rw [if_pos hz]
    exact ⟨next, hrun, hnext.succ fun hf => hiff.mpr hf hz⟩
  · rw [if_neg hz]
    exact ⟨some 0, rfl, Nat.le_refl 0, hiff.mp hz, fun q _ hq => absurd hq (Nat.not_lt_zero q)⟩

/-- `map_iter_done` at the first position found. -/
theorem mapIterDone_ok (hat : TableAt w mth mh mp) (he : Entered target mth.data mp)
    (hl : mp.Loaded) (once : mp.Once) {start : Nat} {next : Option Nat}
    (hnext : NextFound mp start next) :
    mapIterDone (chainOps heap target [mth.data]) (iterAt mp mh next) w = .ok next.isNone w := by
  cases next with
  | none => rfl
  | some pos =>
    obtain ⟨a, hptr, hiff⟩ := hat.memP_slot heap he hl once (foundAt_lt hnext.2.1)
    rw [mapIterDone]
    change ((chainOps heap target [mth.data]).memP (mp.slot pos).valueHandle >>= _) w = _
    rw [bind_of_ok hptr]
    simp [hiff.mpr hnext.2.1]

end TableAt
end Reads
end M65Tool.Source.Machine
