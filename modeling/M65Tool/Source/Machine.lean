import M65Tool.Source.Memtbl

/-!
# Chains of memory tables in one machine

A machine state has the disposition of SIGINT, the `memtbl` structs and the map
structs by address, a C heap, and the history of `signal` calls and table updates,
newest first. A chain of memory tables is the list of the addresses of their
`memtbl` structs from the topmost allocator down; the map of a table allocates
through the allocators below it, which is the recursion of `chainSpec`.
-/
namespace M65Tool.Source.Machine
open Mem MapHash HashMap Memtbl

inductive Event where
  | signal (handler : SigHandler)
  /-- a `map_set` or `map_delete` of memtbl.c on the map at this address starts -/
  | updateBegin (mapData : Addr)
  | updateEnd (mapData : Addr)
  deriving DecidableEq, Repr

structure World (τ : Type) where
  sigint : SigHandler
  history : List Event
  /-- `mem_map_handle` of the `memtbl` struct at an address -/
  memtbls : Addr → Option MemHandle
  /-- the `map` struct at an address -/
  maps : Addr → Option Map
  heap : τ

/-- malloc, realloc and free over a heap `τ`, and a store into a block that is not there. -/
structure HeapOps (τ : Type) where
  malloc : Nat → C τ Addr
  realloc : Addr → Nat → C τ Addr
  free : Addr → C τ Unit
  staleStore : Addr → Nat → C τ Unit

section Calls
variable {τ : Type}

def onHeap {α : Type} (x : C τ α) : C (World τ) α := fun w =>
  match x w.heap with
  | .ok a heap => .ok a { w with heap := heap }
  | .error e heap => .error e { w with heap := heap }

def record (event : Event) : C (World τ) Unit :=
  modify fun w => { w with history := event :: w.history }

def setSignal (handler : SigHandler) : C (World τ) SigHandler :=
  modifyGet fun w =>
    (w.sigint, { w with sigint := handler, history := .signal handler :: w.history })

def machineLibc (heap : HeapOps τ) : Libc (World τ) where
  malloc size := onHeap (heap.malloc size)
  realloc ptr size := onHeap (heap.realloc ptr size)
  free ptr := onHeap (heap.free ptr)
  signal := setSignal
  staleStore ptr size := onHeap (heap.staleStore ptr size)

def readMemMapHandle (tblp : Addr) : C (World τ) MemHandle := fun w =>
  match w.memtbls tblp with
  | some mapHandle => .ok mapHandle w
  | none => .error .strayPointer w

def readMap (mh : MemHandle) : C (World τ) Map := fun w =>
  match w.maps mh.data with
  | some mp => .ok mp w
  | none => .error .strayPointer w

def writeMap (mh : MemHandle) (mp : Map) : C (World τ) Unit :=
  modify fun w => { w with maps := fun a => if a = mh.data then some mp else w.maps a }

/-- A call that changes the map at `mh`, from the first access to the last. -/
def updateMap {α : Type} (mh : MemHandle) (call : Map → C (World τ) (α × Map)) :
    C (World τ) α := do
  record (.updateBegin mh.data)
  let mp ← readMap mh
  let (result, mp') ← call mp
  writeMap mh mp'
  record (.updateEnd mh.data)
  pure result

variable (heap : HeapOps τ) (target : Target)

/-- A memory table whose map works with the memory functions `ops`. -/
def tableEnv (ops : MemOps (World τ)) : MemtblEnv (World τ) where
  libc := machineLibc heap
  memMapHandle := readMemMapHandle
  mapSet mh key value := updateMap mh fun mp => mapSetPtr ops target mh mp key value
  mapGet mh key := do
    let mp ← readMap mh
    mapGetPtr ops target mh mp key
  mapDelete mh key := updateMap mh fun mp => mapDeletePtr ops target mh mp key

/-- The allocator records when these tables exist over the allocators of mem.c. -/
def chainSpec : List Addr → MemAllocator → Option (MemAllocatorSpec (World τ))
  | [], allocator => baseSpec (machineLibc heap) allocator
  | tblp :: below, allocator =>
    if allocator = .memtbl tblp then
      some (memtblSpec (tableEnv heap target (memOps (machineLibc heap) (chainSpec below))))
    else chainSpec below allocator

def chainOps (chain : List Addr) : MemOps (World τ) :=
  memOps (machineLibc heap) (chainSpec heap target chain)

end Calls

/-! ## The calls of mem.h that change an allocator -/

inductive MemCall where
  | alloc (allocator : MemAllocator) (size : Nat)
  | realloc (handle : MemHandle) (size : Nat)
  | free (handle : MemHandle)

/-- The allocator that a call is made on. -/
def MemCall.allocator : MemCall → MemAllocator
  | .alloc allocator _ => allocator
  | .realloc handle _ => handle.allocator
  | .free handle => handle.allocator

/-- The size that a call asks for. -/
def MemCall.size : MemCall → Nat
  | .alloc _ size => size
  | .realloc _ size => size
  | .free _ => 0

def MemCall.run {σ : Type} (ops : MemOps σ) : MemCall → C σ MemHandle
  | .alloc allocator size => ops.memAlloc allocator size
  | .realloc handle size => ops.memRealloc handle size
  | .free handle => ops.memFree handle

end M65Tool.Source.Machine
