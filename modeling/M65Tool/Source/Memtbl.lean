import M65Tool.Source.HashMap

/-!
# Memory tables

Source: src/datastruct/memtbl.c, src/datastruct/memtbl.h. An allocator of a memory
table carries the address of a `memtbl` struct, whose one field is the handle of a
map from block addresses to block handles. `MemtblEnv` is what the four allocator
functions use: the C library, the read of that field, and map.h on pointer keys.
-/
namespace M65Tool.Source.Memtbl
open Mem HashMap

structure MemtblEnv (σ : Type) where
  libc : Libc σ
  /-- `tblp->mem_map_handle` -/
  memMapHandle : Addr → C σ MemHandle
  mapSet : MemHandle → Addr → MemHandle → C σ Bool
  mapGet : MemHandle → Addr → C σ MemHandle
  mapDelete : MemHandle → Addr → C σ Bool

/-- `allocator_data`; null in the allocators of mem.c. -/
def allocatorData : MemAllocator → Addr
  | .memtbl allocatorData => allocatorData
  | _ => 0

section AllocatorFunctions
variable {σ : Type} (env : MemtblEnv σ)

/-- The test that opens each allocator function, and the map handle where it passes:
`!tblp || !mem_is_valid(tblp->mem_map_handle)` is the other case. -/
def memtblMap (allocator : MemAllocator) : C σ (Option MemHandle) :=
  if allocatorData allocator = 0 then pure none
  else do
    let mapHandle ← env.memMapHandle (allocatorData allocator)
    if memIsValid mapHandle then pure (some mapHandle) else pure none

/-- memtbl.c:35-47. -/
def memtblAlloc (allocator : MemAllocator) (size : Nat) : C σ MemHandle := do
  let mapHandle ← memtblMap env allocator
  match mapHandle with
  | none => pure .zero
  | some mapHandle =>
    let data ← env.libc.malloc size
    if data = 0 then pure .zero
    else
      let mapsetSuccess ← env.mapSet mapHandle data ⟨data, size, allocator⟩
      if mapsetSuccess then pure ⟨data, size, allocator⟩
      else
        env.libc.free data
        pure .zero

/-- memtbl.c:80-88. -/
def memtblP (handle : MemHandle) : C σ Addr :=
  if memIsValid handle then do
    let mapHandle ← memtblMap env handle.allocator
    match mapHandle with
    | none => pure 0
    | some mapHandle =>
      let result ← env.mapGet mapHandle handle.data
      pure result.data
  else pure 0

/-- `map_set(new_data) && map_delete(old_data)`, in that order. -/
def memtblMove (mapHandle : MemHandle) (oldData : Addr) (result : MemHandle) : C σ Bool := do
  let wasSet ← env.mapSet mapHandle result.data result
  if wasSet then env.mapDelete mapHandle oldData else pure false

/-- memtbl.c:49-68. `mem_p` of a handle of this allocator is `memtbl_p`; it is 0 for a
handle that is not in the table, and `realloc` of a null pointer allocates. -/
def memtblRealloc (handle : MemHandle) (size : Nat) : C σ MemHandle :=
  if memIsValid handle then do
    let mapHandle ← memtblMap env handle.allocator
    match mapHandle with
    | none => pure .zero
    | some mapHandle =>
      let oldData ← memtblP env handle
      let newData ← env.libc.realloc oldData size
      if newData = 0 then pure .zero
      else if newData = oldData then pure ⟨newData, size, handle.allocator⟩
      else
        let moved ← memtblMove env mapHandle oldData ⟨newData, size, handle.allocator⟩
        if moved then pure ⟨newData, size, handle.allocator⟩
        else
          env.libc.free newData
          pure .zero
  else pure .zero

/-- memtbl.c:70-78. The result of `map_delete` is not looked at. -/
def memtblFree (handle : MemHandle) : C σ MemHandle :=
  if memIsValid handle then do
    let mapHandle ← memtblMap env handle.allocator
    match mapHandle with
    | none => pure .zero
    | some mapHandle =>
      let data ← memtblP env handle
      let _ ← env.mapDelete mapHandle data
      env.libc.free data
      pure .zero
  else pure .zero

/-- `MEMTBL_ALLOCATOR_SPEC`. -/
def memtblSpec : MemAllocatorSpec σ :=
  ⟨some (memtblAlloc env), some (memtblRealloc env), some (memtblFree env), some (memtblP env)⟩

end AllocatorFunctions

/-- `mem_allocator_memtbl`. -/
def memAllocatorMemtbl (mth : MemHandle) : MemAllocator := .memtbl mth.data

end M65Tool.Source.Memtbl
