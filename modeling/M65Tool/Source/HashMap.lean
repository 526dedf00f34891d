import M65Tool.Source.MapHash

/-!
# The map

Source: src/datastruct/map.c. A map struct is kept with the entries block that its
`entries_mh` refers to. `find_entry_pos` and `do_get` only read, so they are
functions of that pair; what allocates, frees or follows a handle runs in `C`.

A growing `do_set` reads the entries pointer before the resize and stores through
it after the resize has freed that block, at a position in the doubled table: in the
freed block or up to as many bytes behind it. What that store does is the memory's
affair; the table that the map has from then on is not written.
-/
namespace M65Tool.Source.HashMap
open Mem MapHash

def initialTableSize : Nat := 32

/-- `sizeof(map)` and `sizeof(map_entry)` on the 64-bit target. -/
def sizeofMap : Nat := 40
def sizeofMapEntry : Nat := 40

structure MapEntry where
  keyHash : UInt32
  valueHandle : MemHandle
  deriving DecidableEq, Repr

/-- An entry of cleared memory: hash 0 marks an empty slot. -/
def MapEntry.empty : MapEntry := ⟨0, .zero⟩

/-- `struct map`, with the block of its entries. -/
structure Map where
  entriesMh : MemHandle
  entries : List MapEntry
  entryCount : Nat
  tableSize : Nat
  deriving DecidableEq, Repr

/-- `++` and `--` of an `unsigned int`. -/
def incrUint (n : Nat) : Nat := (n + 1) % 2 ^ 32
def decrUint (n : Nat) : Nat := (n + (2 ^ 32 - 1)) % 2 ^ 32

namespace Map

/-- The map struct that `map_create` fills in. -/
def created (entriesMh : MemHandle) : Map :=
  ⟨entriesMh, List.replicate initialTableSize .empty, 0, initialTableSize⟩

/-- `*(entries + pos)`. -/
def slot (mp : Map) (pos : Nat) : MapEntry := mp.entries.getD pos .empty

/-- `(entries + pos)->key_hash = ...; (entries + pos)->value_handle = ...`. -/
def store (mp : Map) (pos : Nat) (entry : MapEntry) : Map :=
  { mp with entries := mp.entries.set pos entry }

/-- `++mp->entry_count`. -/
def counted (mp : Map) : Map := { mp with entryCount := incrUint mp.entryCount }

/-- map.c:197-199: the slot is emptied and the entry counted off. -/
def emptied (mp : Map) (pos : Nat) : Map :=
  { mp.store pos .empty with entryCount := decrUint mp.entryCount }

end Map

/-- The loop of `find_entry_pos`, for at most the given number of rounds. -/
def findEntryPosLoop (mp : Map) (keyHash : UInt32) (startPos : Nat) : Nat → Nat → Option Nat
  | 0, _ => none
  | rounds + 1, pos =>
    if (mp.slot pos).keyHash = keyHash ∨ (mp.slot pos).keyHash = 0 then some pos
    else
      let next := if pos + 1 ≥ mp.tableSize then 0 else pos + 1
      if next ≠ startPos then findEntryPosLoop mp keyHash startPos rounds next else none

/-- `find_entry_pos`; `none` is the fall-through to the assert. The position is back
at its start after `table_size` rounds. -/
def findEntryPos (mp : Map) (keyHash : UInt32) : Option Nat :=
  let startPos := keyHash.toNat % mp.tableSize
  findEntryPosLoop mp keyHash startPos mp.tableSize startPos

/-- `do_get` on the table, `none` where the lookup falls through. -/
def lookup (mp : Map) (keyHash : UInt32) : Option MemHandle :=
  (findEntryPos mp keyHash).map fun pos =>
    if (mp.slot pos).keyHash = 0 then .zero else (mp.slot pos).valueHandle

/-- The copy loop of `resize_entries_table`: every entry goes to its home slot in
the cleared new block, whatever is there. -/
def rehash (oldEntries : List MapEntry) (newTableSize : Nat) : List MapEntry :=
  oldEntries.foldl
    (fun newEntries entry =>
      if entry.keyHash = 0 then newEntries
      else newEntries.set (entry.keyHash.toNat % newTableSize) entry)
    (List.replicate newTableSize .empty)

section Functions
variable {σ : Type} (ops : MemOps σ)

/-- Turns the fall-through of a lookup into the failed assert. -/
def orNoEntryPos {α : Type} : Option α → C σ α
  | some a => pure a
  | none => throw .noEntryPos

/-- map.c:17-29. The map is absent from the result when the handle is invalid. -/
def mapCreate (ma : MemAllocator) : C σ (MemHandle × Option Map) := do
  let mh ← ops.memAlloc ma sizeofMap
  if memIsValid mh then
    deref ops mh
    let entriesMh ← memAllocClear ops ma (sizeofMapEntry * initialTableSize)
    if memIsValid entriesMh then
      pure (mh, some (.created entriesMh))
    else
      let _ ← ops.memFree mh
      pure (.zero, none)
  else pure (.zero, none)

/-- `map_is_valid`, for the map struct `mp` at `mh`. -/
def mapIsValid (mh : MemHandle) (mp : Map) : C σ Bool :=
  if memIsValid mh then do
    deref ops mh
    pure (memIsValid mp.entriesMh)
  else pure false

def mapDestroy (mh : MemHandle) (mp : Map) : C σ Unit := do
  let valid ← mapIsValid ops mh mp
  if valid then
    deref ops mh
    let _ ← ops.memFree mp.entriesMh
    let _ ← ops.memFree mh
    pure ()
  else pure ()

/-- `map *mp = mem_p(mh); map_entry *entries = mem_p(mp->entries_mh);` and the
first access through both. The result is `entries`. -/
def derefTable (mh : MemHandle) (mp : Map) : C σ Addr := do
  deref ops mh
  let entries ← ops.memP mp.entriesMh
  if entries = 0 then throw .nullDereference else pure entries

/-- `mp->table_size * (is_grow ? 2 : 0.5)`: a double, converted to unsigned int. -/
def resizedTableSize (tableSize : Nat) (isGrow : Bool) : C σ Nat :=
  if isGrow then
    if tableSize * 2 < 2 ^ 32 then pure (tableSize * 2) else throw .conversionRange
  else pure (tableSize / 2)

/-- map.c:116-135. -/
def resizeEntriesTable (mh : MemHandle) (mp : Map) (isGrow : Bool) : C σ (Bool × Map) := do
  let newTableSize ← resizedTableSize mp.tableSize isGrow
  let newEntriesMh ← memAllocClear ops mh.allocator (sizeofMapEntry * newTableSize)
  let newEntries ← ops.memP newEntriesMh
  if newEntries = 0 then pure (false, mp)
  else
    deref ops mp.entriesMh
    let _ ← ops.memFree mp.entriesMh
    pure (true, { mp with
      entriesMh := newEntriesMh
      entries := rehash mp.entries newTableSize
      tableSize := newTableSize })

/-- map.c:164-181. -/
def doSet (mh : MemHandle) (mp : Map) (keyHash : UInt32) (value : MemHandle) :
    C σ (Bool × Map) := do
  let entries ← derefTable ops mh mp
  let pos ← orNoEntryPos (findEntryPos mp keyHash)
  if (mp.slot pos).keyHash = 0 then
    if mp.counted.entryCount > mp.counted.tableSize / 2 then
      let (grown, resized) ← resizeEntriesTable ops mh mp.counted true
      if grown then
        let _ ← derefTable ops mh resized
        let pos ← orNoEntryPos (findEntryPos resized keyHash)
        -- `entries` still points to the block that the resize has freed
        ops.staleStore (entries + UInt64.ofNat (sizeofMapEntry * pos)) sizeofMapEntry
        pure (true, resized)
      else pure (false, resized)
    else pure (true, mp.counted.store pos ⟨keyHash, value⟩)
  else pure (true, mp.store pos ⟨keyHash, value⟩)

/-- map.c:183-189. -/
def doGet (mh : MemHandle) (mp : Map) (keyHash : UInt32) : C σ MemHandle := do
  let _ ← derefTable ops mh mp
  orNoEntryPos (lookup mp keyHash)

/-- map.c:191-209. -/
def doDelete (mh : MemHandle) (mp : Map) (keyHash : UInt32) : C σ (Bool × Map) := do
  let _ ← derefTable ops mh mp
  let pos ← orNoEntryPos (findEntryPos mp keyHash)
  if (mp.slot pos).keyHash = 0 then pure (false, mp)
  else
    if (mp.emptied pos).entryCount < (mp.emptied pos).tableSize / 4 ∧
        (mp.emptied pos).tableSize > initialTableSize then
      resizeEntriesTable ops mh (mp.emptied pos) false
    else pure (true, mp.emptied pos)

variable (target : Target)

def mapSetStr (mh : MemHandle) (mp : Map) (key : Str) (value : MemHandle) :
    C σ (Bool × Map) := do
  let valid ← mapIsValid ops mh mp
  if valid then
    let valuePtr ← ops.memP value
    if valuePtr = 0 then pure (false, mp)
    else
      let keyHash ← hashStr ops target key
      doSet ops mh mp keyHash value
  else pure (false, mp)

def mapSetPtr (mh : MemHandle) (mp : Map) (key : Addr) (value : MemHandle) :
    C σ (Bool × Map) := do
  let valid ← mapIsValid ops mh mp
  if valid then
    if memIsValid value then doSet ops mh mp (hashPtr target key) value
    else pure (false, mp)
  else pure (false, mp)

def mapGetStr (mh : MemHandle) (mp : Map) (key : Str) : C σ MemHandle := do
  let valid ← mapIsValid ops mh mp
  if valid then
    let keyHash ← hashStr ops target key
    doGet ops mh mp keyHash
  else pure .zero

def mapGetPtr (mh : MemHandle) (mp : Map) (key : Addr) : C σ MemHandle := do
  let valid ← mapIsValid ops mh mp
  if valid then doGet ops mh mp (hashPtr target key) else pure .zero

/-- `map_delete_str` and `map_delete_ptr` do not ask `map_is_valid`. -/
def mapDeleteStr (mh : MemHandle) (mp : Map) (key : Str) : C σ (Bool × Map) := do
  let keyHash ← hashStr ops target key
  doDelete ops mh mp keyHash

def mapDeletePtr (mh : MemHandle) (mp : Map) (key : Addr) : C σ (Bool × Map) :=
  doDelete ops mh mp (hashPtr target key)

end Functions

/-! ## The generic macros of map.h -/

inductive MapKey where
  | str (key : Str)
  | ptr (key : Addr)

section Macros
variable {σ : Type} (ops : MemOps σ) (target : Target)

def mapSet (mh : MemHandle) (mp : Map) : MapKey → MemHandle → C σ (Bool × Map)
  | .str key, value => mapSetStr ops target mh mp key value
  | .ptr key, value => mapSetPtr ops target mh mp key value

def mapGet (mh : MemHandle) (mp : Map) : MapKey → C σ MemHandle
  | .str key => mapGetStr ops target mh mp key
  | .ptr key => mapGetPtr ops target mh mp key

def mapDelete (mh : MemHandle) (mp : Map) : MapKey → C σ (Bool × Map)
  | .str key => mapDeleteStr ops target mh mp key
  | .ptr key => mapDeletePtr ops target mh mp key

end Macros

/-! ## Iterators -/

structure MapIter where
  mh : MemHandle
  pos : Nat
  valueHandle : MemHandle

/-- `(map_iter){0}`. -/
def MapIter.zero : MapIter := ⟨.zero, 0, .zero⟩

section Iteration
variable {σ : Type} (ops : MemOps σ)

/-- The loop of `map_next_value_iter`: the first position from `pos` on, of the
`left` positions before `table_size`, whose value has a pointer. -/
def nextValuePos (mp : Map) : Nat → Nat → C σ (Option Nat)
  | 0, _ => pure none
  | left + 1, pos => do
    let valuePtr ← ops.memP (mp.slot pos).valueHandle
    if valuePtr = 0 then nextValuePos mp left (pos + 1) else pure (some pos)

/-- map.c:252-264. -/
def mapNextValueIter (mp : Map) (it : MapIter) : C σ MapIter := do
  let mapPtr ← ops.memP it.mh
  if mapPtr = 0 then pure .zero
  else
    deref ops mp.entriesMh
    let next ← nextValuePos ops mp (mp.tableSize - (it.pos + 1)) (it.pos + 1)
    match next with
    | none => pure .zero
    | some pos => pure ⟨it.mh, pos, (mp.slot pos).valueHandle⟩

/-- map.c:241-250. -/
def mapFirstValueIter (mh : MemHandle) (mp : Map) : C σ MapIter := do
  let mapPtr ← ops.memP mh
  if mapPtr = 0 then pure .zero
  else
    deref ops mp.entriesMh
    let it : MapIter := ⟨mh, 0, (mp.slot 0).valueHandle⟩
    let valuePtr ← ops.memP it.valueHandle
    if valuePtr = 0 then mapNextValueIter ops mp it else pure it

def mapIterDone (it : MapIter) : C σ Bool := do
  let valuePtr ← ops.memP it.valueHandle
  pure (valuePtr = 0)

def mapIterValue (it : MapIter) : MemHandle := it.valueHandle

end Iteration
end M65Tool.Source.HashMap
