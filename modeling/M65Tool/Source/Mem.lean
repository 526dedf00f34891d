import M65Tool.Lib.Effect

/-!
# Memory handles, allocators and the guarded entry points

Source: src/datastruct/mem.h, src/datastruct/mem.c. A handle carries the
allocator that made it, and an allocator points to a record of four function
pointers, any of which may be null. `mem_alloc`, `mem_realloc` and `mem_free`
call through that record inside `sigint_guard`; `mem_p` calls without a guard.
The C library is a parameter. The bytes of a block are kept by the data
structure that owns the block, not here.
-/
namespace M65Tool.Source.Mem
open Lib.Effect

/-- A machine address of the 64-bit target; 0 is the null pointer. -/
abbrev Addr := UInt64

/-- Where a call does not come back: the run stops with the state it had. -/
inductive Fault where
  /-- a null pointer is dereferenced, or passed to memset or memcpy -/
  | nullDereference
  /-- an allocator or a table pointer that leads nowhere is followed -/
  | strayPointer
  /-- free or realloc of an address that is not a live block -/
  | deadBlock
  /-- `find_entry_pos` ran through the table: the assert, or index -1 under NDEBUG -/
  | noEntryPos
  /-- a double that no unsigned int holds is converted to one -/
  | conversionRange
  /-- an `int` sum that no int holds -/
  | signedOverflow
  /-- a read or write past the end of a block -/
  | outOfBounds
  /-- a memcpy between regions that overlap -/
  | overlappingCopy
  /-- a loop that never ends, or one that is still going after the rounds it was given -/
  | endlessLoop
  /-- no stop of the program: a request fails in a run in which none is to fail -/
  | requestFailed
  deriving DecidableEq, Repr

/-- C code over an allocator world `σ`. -/
abbrev C (σ α : Type) := EStateM Fault σ α

/-- `mem_allocator`: the record `allocator_spec` points to, with `allocator_data`.
`zero` is `(mem_allocator){0}`, whose spec is null. -/
inductive MemAllocator where
  | zero
  | notAllocated
  | plain
  | memtbl (allocatorData : Addr)
  deriving DecidableEq, Repr

structure MemHandle where
  data : Addr
  size : Nat
  allocator : MemAllocator
  deriving DecidableEq, Repr

/-- `(mem_handle){0}`. -/
def MemHandle.zero : MemHandle := ⟨0, 0, .zero⟩

/-- `mem_is_valid`. -/
def memIsValid (handle : MemHandle) : Bool := handle.data != 0

@[simp] theorem memIsValid_eq_true {handle : MemHandle} :
    memIsValid handle = true ↔ handle.data ≠ 0 := by simp [memIsValid]

@[simp] theorem memIsValid_eq_false {handle : MemHandle} :
    memIsValid handle = false ↔ handle.data = 0 := by simp [memIsValid]

@[simp] theorem memIsValid_zero : memIsValid .zero = false := rfl

/-- `mem_size`. -/
def memSize (handle : MemHandle) : Nat := handle.size

/-- `mem_handle_from_ptr`. -/
def memHandleFromPtr (ptr : Addr) (size : Nat) : MemHandle := ⟨ptr, size, .notAllocated⟩

/-- What `signal` installs for SIGINT; `user` stands for a handler of the program. -/
inductive SigHandler where
  | dfl
  | ign
  | user (handler : Nat)
  deriving DecidableEq, Repr

/-- The C library calls of the module. -/
structure Libc (σ : Type) where
  malloc : Nat → C σ Addr
  realloc : Addr → Nat → C σ Addr
  free : Addr → C σ Unit
  /-- `signal(SIGINT, h)` returns the handler it replaces -/
  signal : SigHandler → C σ SigHandler
  /-- a store of that many bytes through a pointer that has outlived its block; what it
  does is up to the memory behind it -/
  staleStore : Addr → Nat → C σ Unit

structure MemAllocatorSpec (σ : Type) where
  allocFunc : Option (MemAllocator → Nat → C σ MemHandle)
  reallocFunc : Option (MemHandle → Nat → C σ MemHandle)
  freeFunc : Option (MemHandle → C σ MemHandle)
  pFunc : Option (MemHandle → C σ Addr)

/-- `mem_handle_data`. -/
def memHandleData {σ : Type} (handle : MemHandle) : C σ Addr := pure handle.data

/-- `MEM_ALLOCATOR_NOT_ALLOCATED_SPEC`. -/
def notAllocatedSpec {σ : Type} : MemAllocatorSpec σ := ⟨none, none, none, some memHandleData⟩

section LibraryCalls
variable {σ : Type} (libc : Libc σ)

/-- mem.c:20-23. -/
def plainAlloc (allocator : MemAllocator) (size : Nat) : C σ MemHandle := do
  let data ← libc.malloc size
  pure ⟨data, size, allocator⟩

/-- mem.c:25-30. -/
def plainRealloc (handle : MemHandle) (size : Nat) : C σ MemHandle :=
  if memIsValid handle then do
    let data ← libc.realloc handle.data size
    pure ⟨data, size, handle.allocator⟩
  else pure .zero

/-- mem.c:32-35. -/
def plainFree (handle : MemHandle) : C σ MemHandle := do
  libc.free handle.data
  pure .zero

/-- `MEM_ALLOCATOR_PLAIN_SPEC`. -/
def plainSpec : MemAllocatorSpec σ :=
  ⟨some (plainAlloc libc), some (plainRealloc libc), some (plainFree libc), some memHandleData⟩

/-- The records of mem.c, by allocator; a memory table's record is memtbl.c's. -/
def baseSpec : MemAllocator → Option (MemAllocatorSpec σ)
  | .zero => none
  | .notAllocated => some notAllocatedSpec
  | .plain => some (plainSpec libc)
  | .memtbl _ => none

/-- mem.c:52-71: the block runs once between `signal(SIGINT, SIG_IGN)` and the
call that puts back the handler it returned. -/
def sigintGuard {α : Type} (block : C σ α) : C σ α := do
  let sigintHandler ← libc.signal .ign
  let result ← block
  let _ ← libc.signal sigintHandler
  pure result

variable (spec : MemAllocator → Option (MemAllocatorSpec σ))

/-- mem.c:73-81. -/
def memAlloc (allocator : MemAllocator) (size : Nat) : C σ MemHandle :=
  match (spec allocator).bind (·.allocFunc) with
  | none => pure .zero
  | some allocFunc => sigintGuard libc (allocFunc allocator size)

/-- mem.c:91-100. -/
def memRealloc (handle : MemHandle) (size : Nat) : C σ MemHandle :=
  if memIsValid handle then
    match (spec handle.allocator).bind (·.reallocFunc) with
    | none => pure .zero
    | some reallocFunc => sigintGuard libc (reallocFunc handle size)
  else pure .zero

/-- mem.c:102-111. -/
def memFree (handle : MemHandle) : C σ MemHandle :=
  if memIsValid handle then
    match (spec handle.allocator).bind (·.freeFunc) with
    | none => pure .zero
    | some freeFunc => sigintGuard libc (freeFunc handle)
  else pure .zero

/-- mem.c:113-118. -/
def memP (handle : MemHandle) : C σ Addr :=
  if memIsValid handle then
    match (spec handle.allocator).bind (·.pFunc) with
    | none => pure 0
    | some pFunc => pFunc handle
  else pure 0

end LibraryCalls

/-- mem.h as the other modules call it, and what a pointer that they keep too long does. -/
structure MemOps (σ : Type) where
  memAlloc : MemAllocator → Nat → C σ MemHandle
  memRealloc : MemHandle → Nat → C σ MemHandle
  memFree : MemHandle → C σ MemHandle
  memP : MemHandle → C σ Addr
  staleStore : Addr → Nat → C σ Unit

def memOps {σ : Type} (libc : Libc σ) (spec : MemAllocator → Option (MemAllocatorSpec σ)) :
    MemOps σ :=
  ⟨memAlloc libc spec, memRealloc libc spec, memFree libc spec, memP spec, libc.staleStore⟩

section Callers
variable {σ : Type} (ops : MemOps σ)

/-- An access through `mem_p(handle)`: a null pointer does not survive it. -/
def deref (handle : MemHandle) : C σ Unit := do
  let ptr ← ops.memP handle
  if ptr = 0 then throw .nullDereference else pure ()

/-- mem.c:83-89. The memset goes through `mem_p`. -/
def memAllocClear (allocator : MemAllocator) (size : Nat) : C σ MemHandle := do
  let handle ← ops.memAlloc allocator size
  if memIsValid handle then
    deref ops handle
    pure handle
  else pure handle

/-- mem.c:128-135. -/
def memDuplicateWithAllocator (allocator : MemAllocator) (handle : MemHandle) :
    C σ MemHandle :=
  if memIsValid handle then do
    let newHandle ← ops.memAlloc allocator handle.size
    if memIsValid newHandle then
      deref ops newHandle
      deref ops handle
      pure newHandle
    else pure .zero
  else pure .zero

/-- mem.c:137-139. -/
def memDuplicate (handle : MemHandle) : C σ MemHandle :=
  memDuplicateWithAllocator ops handle.allocator handle

end Callers

/-- A C library whose allocations are answered from a script, and with null behind its
end. -/
def scriptedLibc : Libc (List Addr) where
  malloc _ := modifyGet fun script => (script.headD 0, script.tail)
  realloc _ _ := modifyGet fun script => (script.headD 0, script.tail)
  free _ := pure ()
  signal _ := pure .dfl
  staleStore _ _ := pure ()

def scriptedOps : MemOps (List Addr) := memOps scriptedLibc (baseSpec scriptedLibc)

/-! ## Handles of the plain allocator -/

section Plain
variable {σ : Type} {libc : Libc σ} {spec : MemAllocator → Option (MemAllocatorSpec σ)} {s : σ}

theorem plain_memP (plain : spec .plain = some (plainSpec libc)) {handle : MemHandle}
    (ha : handle.allocator = .plain) : (memOps libc spec).memP handle s = .ok handle.data s := by
  unfold memOps memP
  by_cases hv : memIsValid handle = true
  · simp only [hv, if_true, ha, plain]
    rfl
  · have hz : handle.data = 0 := by simpa using hv
    simp only [hv, hz]
    rfl

theorem plain_deref (plain : spec .plain = some (plainSpec libc)) {handle : MemHandle}
    (ha : handle.allocator = .plain) (hd : handle.data ≠ 0) :
    deref (memOps libc spec) handle s = .ok () s := by
  rw [deref, bind_of_ok (plain_memP plain ha), if_neg hd]
  rfl

variable {n : Nat} {handle result : MemHandle} {s' : σ}

theorem memAlloc_inv (plain : spec .plain = some (plainSpec libc))
    (hrun : (memOps libc spec).memAlloc .plain n s = .ok result s') :
    ∃ a s1 s2, libc.malloc n s1 = .ok a s2 ∧ result = ⟨a, n, .plain⟩ := by
  change memAlloc libc spec .plain n s = _ at hrun
  rw [memAlloc, plain] at hrun
  obtain ⟨_, s1, -, hrun⟩ := bind_ok_inv hrun
  obtain ⟨_, s2, halloc, hrun⟩ := bind_ok_inv hrun
  obtain ⟨_, _, -, hrun⟩ := bind_ok_inv hrun
  obtain ⟨a, s3, hmalloc, halloc⟩ := bind_ok_inv halloc
  cases hrun
  cases halloc
  exact ⟨a, s1, s2, hmalloc, rfl⟩

theorem memRealloc_inv (plain : spec .plain = some (plainSpec libc))
    (ha : handle.allocator = .plain) (hd : handle.data ≠ 0)
    (hrun : (memOps libc spec).memRealloc handle n s = .ok result s') :
    ∃ a s1 s2, libc.realloc handle.data n s1 = .ok a s2 ∧ result = ⟨a, n, .plain⟩ := by
  have hvalid := memIsValid_eq_true.mpr hd
  change memRealloc libc spec handle n s = _ at hrun
  rw [memRealloc, if_pos hvalid, ha, plain] at hrun
  obtain ⟨_, s1, -, hrun⟩ := bind_ok_inv hrun
  obtain ⟨_, s2, hre, hrun⟩ := bind_ok_inv hrun
  obtain ⟨_, _, -, hrun⟩ := bind_ok_inv hrun
  rw [plainRealloc, if_pos hvalid] at hre
  obtain ⟨a, s3, hrealloc, hre⟩ := bind_ok_inv hre
  cases hrun
  cases hre
  exact ⟨a, s1, s2, hrealloc, by rw [ha]⟩

end Plain
end M65Tool.Source.Mem
