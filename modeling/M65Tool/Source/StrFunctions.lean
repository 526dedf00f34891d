import M65Tool.Source.MapHash
import M65Tool.Source.StringBuffer
import Mathlib.Algebra.Group.Int.Defs

/-!
# Searching, comparing, splitting, copying and duplicating strs

Source: src/datastruct/str.c. These functions read through the pointers that `mem_p`
answers with; memory is a partial function, and what it lacks may not be read. A str
is here its handle alone. Sizes are of `size_t`, indices of `unsigned int`, a position
that `str_find` reports of `int`, each converted as the 64-bit target does.
-/
namespace M65Tool.Source.StrFunctions
open Mem MapHash StringBuffer Lib.Block

/-- The bytes that may be read. -/
abbrev Memory := Addr → Option UInt8

def uintMax : Nat := 2 ^ 32 - 1

/-- `-` in `size_t`. -/
def subSize (m n : Nat) : Nat := (m + (sizeMod - n % sizeMod)) % sizeMod

/-- The conversion of an unsigned int to int. -/
def uintToInt (i : UInt32) : Int := if i.toNat ≤ intMax then i.toNat else i.toNat - 2 ^ 32

/-- The value of the `char` that holds a byte. -/
def charToInt (target : Target) (b : UInt8) : Int :=
  if target.charIsSigned ∧ 128 ≤ b.toNat then b.toNat - 256 else b.toNat

section Reads
variable {σ : Type} (mem : Memory)

/-- `ptr[offset]`. -/
def load (ptr : Addr) (offset : Nat) : C σ UInt8 :=
  if ptr = 0 then throw .nullDereference
  else
    match mem (ptr + UInt64.ofNat offset) with
    | some b => pure b
    | none => throw .outOfBounds

/-- The bytes from `ptr[offset]` on, as `memcpy` reads them. -/
def loadBytes (ptr : Addr) : Nat → Nat → C σ (List UInt8)
  | 0, _ => pure []
  | count + 1, offset => do
    let b ← load mem ptr offset
    let rest ← loadBytes ptr count (offset + 1)
    pure (b :: rest)

/-- The inner loop of `str_find`, for the bytes of the substring that are left. -/
def matchLoop (strvalP substringP : Addr) (startI : UInt32) : Nat → Nat → C σ Nat
  | 0, offset => pure offset
  | left + 1, offset => do
    let a ← load mem strvalP (startI.toNat + offset)
    let b ← load mem substringP offset
    if a = b then matchLoop strvalP substringP startI left (offset + 1) else pure offset

/-- str.c:93-101, for at most the given number of tests of the outer condition. -/
def findLoop (strvalP substringP : Addr) (strvalSize substringSize : Nat) :
    Nat → UInt32 → C σ Int
  | 0, _ => throw .endlessLoop
  | tests + 1, startI =>
    if startI.toNat < addSize (subSize strvalSize substringSize) 1 then do
      let offset ← matchLoop mem strvalP substringP startI substringSize 0
      if offset = substringSize then pure (uintToInt startI)
      else findLoop strvalP substringP strvalSize substringSize tests (startI + 1)
    else pure (-1)

/-- The loop of `str_compare`, for the bytes that are left up to `min_length`. -/
def compareLoop (firstP secondP : Addr) : Nat → Nat → C σ Nat
  | 0, i => pure i
  | left + 1, i => do
    let a ← load mem firstP i
    let b ← load mem secondP i
    if a = b then compareLoop firstP secondP left (i + 1) else pure i

/-- A loop of `str_split_whitespace_pop`, which goes on at the bytes that pass the test. -/
def skipLoop (strvalP : Addr) (size : Nat) (test : UInt8 → Bool) : Nat → UInt32 → C σ UInt32
  | 0, _ => throw .endlessLoop
  | tests + 1, i =>
    if i.toNat < size then do
      let b ← load mem strvalP i.toNat
      if test b then skipLoop strvalP size test tests (i + 1) else pure i
    else pure i

/-- str.c:149-152, where the first byte is tested before the size is. -/
def skipLeading (strvalP : Addr) (size : Nat) (isspace : UInt8 → Bool) (tests : Nat) :
    C σ UInt32 := do
  let first ← load mem strvalP 0
  if isspace first then skipLoop mem strvalP size isspace tests 0 else pure 0

end Reads

section Functions
variable {σ : Type} (ops : MemOps σ) (mem : Memory)

/-- str.c:86-102. -/
def strFind (tests : Nat) (strval substring : MemHandle) : C σ Int :=
  if ¬ memIsValid strval ∨ ¬ memIsValid substring then pure (-1)
  else if strval.size < substring.size then pure (-1)
  else do
    let strvalP ← ops.memP strval
    let substringP ← ops.memP substring
    findLoop mem strvalP substringP strval.size substring.size tests 0

/-- str.c:104-124. The smaller size is converted to an unsigned int. -/
def strCompare (target : Target) (first second : MemHandle) : C σ Int :=
  if ¬ memIsValid first ∧ ¬ memIsValid second then pure 0
  else if ¬ memIsValid first then pure (-1)
  else if ¬ memIsValid second then pure 1
  else do
    let firstP ← ops.memP first
    let secondP ← ops.memP second
    let minLength := (if first.size < second.size then first.size else second.size) % 2 ^ 32
    let i ← compareLoop mem firstP secondP minLength 0
    if i = first.size then
      if first.size = second.size then pure 0 else pure (-1)
    else if i = second.size then pure 1
    else do
      let a ← load mem firstP i
      let b ← load mem secondP i
      if charToInt target a < charToInt target b then pure (-1) else pure 1

/-- str.c:126-142: the returned str, and `*part` after the call. -/
def strSplitPop (tests : Nat) (strval delim part : MemHandle) : C σ (MemHandle × MemHandle) :=
  if ¬ memIsValid strval ∨ ¬ memIsValid delim then pure (.zero, part)
  else do
    let pos ← strFind ops mem tests strval delim
    let strvalP ← ops.memP strval
    if pos = -1 then pure (.zero, ⟨strvalP, strval.size, .notAllocated⟩)
    else
      pure (⟨strvalP + UInt64.ofNat (intToSize pos) + UInt64.ofNat delim.size,
          subSize (subSize strval.size (intToSize pos)) delim.size, .notAllocated⟩,
        ⟨strvalP, intToSize pos, .notAllocated⟩)

/-- str.c:144-173: the returned str, and `*part` after the call. -/
def strSplitWhitespacePop (tests : Nat) (isspace : UInt8 → Bool) (strval part : MemHandle) :
    C σ (MemHandle × MemHandle) :=
  if ¬ memIsValid strval then pure (.zero, part)
  else do
    let strvalP ← ops.memP strval
    let start ← skipLeading mem strvalP strval.size isspace tests
    let pos ← skipLoop mem strvalP strval.size (fun b => !isspace b) tests start
    let part : MemHandle := ⟨strvalP + UInt64.ofNat start.toNat, (pos - start).toNat, .notAllocated⟩
    let next ← skipLoop mem strvalP strval.size isspace tests pos
    if next.toNat = strval.size then pure (.zero, part)
    else
      pure (⟨strvalP + UInt64.ofNat next.toNat, subSize strval.size next.toNat, .notAllocated⟩,
        part)

/-- The loop that str.h documents for the two functions, for at most the given number of
tests of its condition: what each call returned, with `*part` after it. -/
def popLoop (pop : MemHandle → C σ (MemHandle × MemHandle)) :
    Nat → MemHandle → C σ (List (MemHandle × MemHandle))
  | 0, _ => throw .endlessLoop
  | rounds + 1, strval =>
    if memIsValid strval then do
      let popped ← pop strval
      let later ← popLoop pop rounds popped.1
      pure (popped :: later)
    else pure []

end Functions

/-! ## Copying into a buffer -/

/-- A buffer of the caller: its address, and what it holds. -/
structure Buffer where
  ptr : Addr
  cells : Cells

/-- The first `size` bytes at the two addresses have a byte in common. -/
def Overlaps (p q : Addr) (size : Nat) : Prop :=
  p.toNat < q.toNat + size ∧ q.toNat < p.toNat + size

instance (p q : Addr) (size : Nat) : Decidable (Overlaps p q size) :=
  inferInstanceAs (Decidable (_ ∧ _))

section Copies
variable {σ : Type} (ops : MemOps σ) (mem : Memory)

/-- The bytes are stored from `buf[offset]` on. -/
def storeInto (buf : Buffer) (offset : Nat) (bytes : List UInt8) : C σ Buffer :=
  if offset + bytes.length ≤ buf.cells.length then
    pure { buf with cells := overwrite buf.cells offset (bytes.map some) }
  else throw .outOfBounds

/-- `memcpy(buf, src, size)`, which is not defined between regions that overlap. -/
def memcpyInto (buf : Buffer) (src : Addr) (size : Nat) : C σ Buffer :=
  if src = 0 then throw .nullDereference
  else if Overlaps buf.ptr src size then throw .overlappingCopy
  else do
    let bytes ← loadBytes mem src size 0
    storeInto buf 0 bytes

/-- str.c:58-68: the returned str, and the buffer after the call. -/
def strWriteCstrToBuf (strval : MemHandle) (buf : Buffer) (bufsize : Nat) :
    C σ (MemHandle × Buffer) :=
  if ¬ memIsValid strval ∨ buf.ptr = 0 then pure (.zero, buf)
  else do
    let sizeToCopy :=
      if strval.size < subSize bufsize 1 then strval.size else subSize bufsize 1
    let strvalP ← ops.memP strval
    let copied ← memcpyInto mem buf strvalP sizeToCopy
    let ended ← storeInto copied sizeToCopy [0]
    pure (⟨buf.ptr, sizeToCopy, .notAllocated⟩, ended)

/-- `STR_CSTR_BUFSIZE`. -/
def strCstrBufsize : Nat := 1024

/-- str.c:70-76: the returned pointer, and `STR_CSTR_BUFFER` after the call. -/
def strCstr (strCstrBuffer : Buffer) (strval : MemHandle) : C σ (Addr × Buffer) :=
  if ¬ memIsValid strval then pure (0, strCstrBuffer)
  else do
    let (_, buf) ← strWriteCstrToBuf ops mem strval strCstrBuffer strCstrBufsize
    pure (strCstrBuffer.ptr, buf)

end Copies

/-! ## Duplicating and destroying -/

section Duplicates
variable {σ : Type} (ops : MemOps σ)

/-- str.c:28-30. -/
def strDuplicateStrWithAllocator (strval : MemHandle) (allocator : MemAllocator) :
    C σ MemHandle :=
  memDuplicateWithAllocator ops allocator strval

/-- str.c:32-39: the data of the buffer, cut to its length. -/
def strDuplicateStrbufWithAllocator (bufHandle : MemHandle) (bufp : Strbuf)
    (allocator : MemAllocator) : C σ MemHandle := do
  let valid ← strbufIsValid ops bufHandle bufp
  if valid then
    deref ops bufHandle
    memDuplicateWithAllocator ops allocator { bufp.data with size := bufp.length }
  else pure .zero

/-- str.c:41-48. The type of the allocator is read through its spec. -/
def strDuplicateStr (strval : MemHandle) : C σ MemHandle :=
  if ¬ memIsValid strval then pure .zero
  else
    match strval.allocator with
    | .zero => throw .nullDereference
    | .notAllocated => strDuplicateStrWithAllocator ops strval .plain
    | allocator => strDuplicateStrWithAllocator ops strval allocator

/-- str.c:50-52. -/
def strDuplicateStrbuf (bufHandle : MemHandle) (bufp : Strbuf) : C σ MemHandle :=
  strDuplicateStrbufWithAllocator ops bufHandle bufp bufHandle.allocator

/-- `str_destroy`. -/
def strDestroy (strval : MemHandle) : C σ Unit := do
  let _ ← ops.memFree strval
  pure ()

/-- str.c:282-292. The new struct is absent from the result when the handle is invalid. -/
def strbufDuplicate (rounds : Nat) (bufHandle : MemHandle) (bufp : Strbuf) :
    C σ (MemHandle × Option Strbuf) := do
  let valid ← strbufIsValid ops bufHandle bufp
  if valid then
    deref ops bufHandle
    let (newHandle, created) ← strbufCreate ops bufHandle.allocator bufp.data.size
    match created with
    | none => pure (.zero, none)
    | some newBufp =>
      let newValid ← strbufIsValid ops newHandle newBufp
      if newValid then
        let (appended, newBufp') ←
          strbufConcatenateStrbuf ops rounds newHandle newBufp bufHandle bufp
        if appended then pure (newHandle, some newBufp')
        else
          strDestroy ops newHandle
          pure (.zero, none)
      else pure (.zero, none)
  else pure (.zero, none)

end Duplicates
end M65Tool.Source.StrFunctions
