import M65Tool.Lib.Block
import M65Tool.Source.Str

/-!
# String buffers

Source: src/datastruct/str.c. A strbuf struct is kept with the block of memory that
its `data` handle refers to; a byte that nothing has been stored in yet is absent.
The appending functions share the loop that doubles the block; a doubled block keeps
its bytes and may lie at another address.

What a caller passes by pointer is a `Region`, with its bytes as they are at the
call. It can lie in the buffer's own block, and is gone when the block has moved.
-/
namespace M65Tool.Source.StringBuffer
open Mem Lib.Block

/-- `sizeof(strbuf)` on the 64-bit target. -/
def sizeofStrbuf : Nat := 40

def sizeMod : Nat := 2 ^ 64
def ptrdiffMax : Nat := 2 ^ 63 - 1
def intMax : Nat := 2 ^ 31 - 1

/-- `+` and the conversion of an int, in `size_t`. -/
def addSize (m n : Nat) : Nat := (m + n) % sizeMod
def intToSize (i : Int) : Nat := (i % sizeMod).toNat

/-- `i + 1` for an int. -/
def incrInt {σ : Type} (i : Int) : C σ Int :=
  if i = intMax then throw .signedOverflow else pure (i + 1)

abbrev Cells := List (Option UInt8)

/-- `struct strbuf`, with the block of its data. -/
structure Strbuf where
  data : MemHandle
  block : Cells
  length : Nat

/-- The struct once `data` has been assigned what `mem_realloc` returned. -/
def Strbuf.moved (bufp : Strbuf) (data : MemHandle) : Strbuf :=
  { bufp with
    data := data
    block := if memIsValid data then resize bufp.block data.size none else [] }

structure Region where
  ptr : Addr
  bytes : Cells

/-- The address lies in the data block of the buffer. -/
def Strbuf.Spans (bufp : Strbuf) (ptr : Addr) : Prop :=
  bufp.data.data.toNat ≤ ptr.toNat ∧ ptr.toNat < bufp.data.data.toNat + bufp.data.size

instance (bufp : Strbuf) (ptr : Addr) : Decidable (bufp.Spans ptr) :=
  inferInstanceAs (Decidable (_ ∧ _))

/-- A C string, by the bytes before its terminator. -/
structure CStr where
  ptr : Addr
  bytes : List UInt8
  nul_free : 0 ∉ bytes

/-- A `vsnprintf` call of one format with its arguments, by the size it is given: the
value it returns and the bytes it writes. -/
abbrev Vsnprintf := Nat → Int × List UInt8

section Functions
variable {σ : Type} (ops : MemOps σ)

/-- str.c:175-188. The strbuf is absent from the result when the handle is invalid. -/
def strbufCreate (allocator : MemAllocator) (size : Nat) : C σ (MemHandle × Option Strbuf) := do
  let bufhdl ← ops.memAlloc allocator sizeofStrbuf
  if memIsValid bufhdl then
    let data ← memAllocClear ops allocator size
    if memIsValid data then
      deref ops bufhdl
      pure (bufhdl, some ⟨data, List.replicate size (some 0), 0⟩)
    else
      let _ ← ops.memFree bufhdl
      pure (.zero, none)
  else pure (.zero, none)

/-- `strbuf_is_valid`, for the struct `bufp` at `bufHandle`. -/
def strbufIsValid (bufHandle : MemHandle) (bufp : Strbuf) : C σ Bool :=
  if memIsValid bufHandle then do
    deref ops bufHandle
    pure (memIsValid bufp.data)
  else pure false

/-- str.c:190-195. -/
def strbufDestroy (bufHandle : MemHandle) (bufp : Strbuf) : C σ Unit := do
  let valid ← strbufIsValid ops bufHandle bufp
  if valid then
    deref ops bufHandle
    let _ ← ops.memFree bufp.data
    let _ ← ops.memFree bufHandle
    pure ()
  else pure ()

/-- str.c:202-209. -/
def strbufStr (bufHandle : MemHandle) (bufp : Strbuf) : C σ MemHandle :=
  if memIsValid bufHandle then do
    deref ops bufHandle
    pure ⟨bufp.data.data, bufp.length, .notAllocated⟩
  else pure .zero

/-- str.c:211-215. -/
def strbufReset (bufHandle : MemHandle) (bufp : Strbuf) : C σ Strbuf :=
  if memIsValid bufHandle then do
    deref ops bufHandle
    pure { bufp with length := 0 }
  else pure bufp

/-- str.c:217-222. -/
def growStrbuf (bufHandle : MemHandle) (bufp : Strbuf) : C σ (Bool × Strbuf) := do
  deref ops bufHandle
  let newsize := bufp.data.size * 2 % sizeMod
  let data ← ops.memRealloc bufp.data newsize
  pure (memIsValid data, bufp.moved data)

/-- The growth loop of the appending functions, for at most the given number of
rounds. It reports false when a reallocation fails. -/
def growLoop (bufHandle : MemHandle) (length : Nat) : Nat → Strbuf → C σ (Bool × Strbuf)
  | 0, _ => throw .endlessLoop
  | rounds + 1, bufp =>
    if addSize bufp.length length > bufp.data.size then do
      let (grown, bufp') ← growStrbuf ops bufHandle bufp
      if grown then growLoop bufHandle length rounds bufp' else pure (false, bufp')
    else pure (true, bufp)

/-- What is stored through `mem_p(bufp->data) + bufp->length`. -/
def storeAtEnd (bufp : Strbuf) (bytes : Cells) : C σ Strbuf := do
  deref ops bufp.data
  if bufp.length + bytes.length ≤ bufp.block.length then
    pure { bufp with block := overwrite bufp.block bufp.length bytes }
  else throw .outOfBounds

/-- The bytes that `memcpy` reads after `bufp` has grown to `grownBufp`. -/
def readRegion (bufp grownBufp : Strbuf) (cstr : Region) (length : Nat) : C σ Cells :=
  if cstr.ptr = 0 then throw .nullDereference
  else if bufp.Spans cstr.ptr ∧ grownBufp.data.data ≠ bufp.data.data then throw .deadBlock
  else if cstr.bytes.length < length then throw .outOfBounds
  else pure (cstr.bytes.take length)

variable (rounds : Nat)

/-- str.c:224-236. -/
def doStrbufConcatenate (bufHandle : MemHandle) (bufp : Strbuf) (cstr : Region) (length : Nat) :
    C σ (Bool × Strbuf) := do
  let valid ← strbufIsValid ops bufHandle bufp
  if valid then
    deref ops bufHandle
    let (grown, bufp') ← growLoop ops bufHandle length rounds bufp
    if grown then
      let bytes ← readRegion bufp bufp' cstr length
      let bufp'' ← storeAtEnd ops bufp' bytes
      pure (true, { bufp'' with length := addSize bufp''.length length })
    else pure (false, bufp')
  else pure (false, bufp)

/-- str.c:238-240; `cPtr` is the address of the parameter. -/
def strbufConcatenateChar (bufHandle : MemHandle) (bufp : Strbuf) (c : UInt8) (cPtr : Addr) :
    C σ (Bool × Strbuf) :=
  doStrbufConcatenate ops rounds bufHandle bufp ⟨cPtr, [some c]⟩ 1

/-- str.c:242-245. -/
def strbufConcatenateCstr (bufHandle : MemHandle) (bufp : Strbuf) (cstr : CStr) :
    C σ (Bool × Strbuf) :=
  if cstr.ptr = 0 then pure (false, bufp)
  else doStrbufConcatenate ops rounds bufHandle bufp ⟨cstr.ptr, cstr.bytes.map some⟩
    cstr.bytes.length

/-- str.c:247-250. -/
def strbufConcatenateStr (bufHandle : MemHandle) (bufp : Strbuf) (strval : Str) :
    C σ (Bool × Strbuf) :=
  if strIsValid strval then do
    let ptr ← ops.memP strval.handle
    doStrbufConcatenate ops rounds bufHandle bufp ⟨ptr, strval.bytes.map some⟩
      strval.handle.size
  else pure (false, bufp)

/-- str.c:252-258. -/
def strbufConcatenateStrbuf (bufHandle : MemHandle) (bufp : Strbuf)
    (sourcebufHandle : MemHandle) (sourcebufp : Strbuf) : C σ (Bool × Strbuf) := do
  let valid ← strbufIsValid ops sourcebufHandle sourcebufp
  if valid then
    deref ops sourcebufHandle
    let ptr ← ops.memP sourcebufp.data
    doStrbufConcatenate ops rounds bufHandle bufp ⟨ptr, sourcebufp.block⟩ sourcebufp.length
  else pure (false, bufp)

/-- str.c:260-280. The sum `vsnprintf(NULL, 0, fmt, v) + 1` is one of ints. -/
def strbufConcatenatePrintf (bufHandle : MemHandle) (bufp : Strbuf) (fmt : Addr)
    (vsnprintf : Vsnprintf) : C σ (Bool × Strbuf) := do
  let valid ← strbufIsValid ops bufHandle bufp
  if valid ∧ fmt ≠ 0 then
    deref ops bufHandle
    let needed ← incrInt (vsnprintf 0).1
    let length := intToSize needed
    let (grown, bufp') ← growLoop ops bufHandle length rounds bufp
    if grown then
      let bufp'' ← storeAtEnd ops bufp' ((vsnprintf length).2.map some)
      pure (true, { bufp'' with length := addSize bufp''.length (length + (sizeMod - 1)) })
    else pure (false, bufp')
  else pure (false, bufp)

end Functions
end M65Tool.Source.StringBuffer
