import M65Tool.Source.MemtblDestroy
import M65Tool.Source.StrFunctions

/-!
# The public functions that take a handle

Source: mem.h, memtbl.h, map.h and str.h of src/datastruct. A call names the function with
its arguments, and next to a handle the struct it refers to. What a call may store through a
pointer of the caller is its `Passed` object; the rest of its effects are on the machine.
-/
namespace M65Tool.Source.PublicCalls
open Mem MapHash HashMap Memtbl Machine StringBuffer StrFunctions

inductive PublicCall where
  | memRealloc (handle : MemHandle) (size : Nat)
  | memFree (handle : MemHandle)
  | memP (handle : MemHandle)
  | memSize (handle : MemHandle)
  | memIsValid (handle : MemHandle)
  | memDuplicate (handle : MemHandle)
  | memDuplicateWithAllocator (allocator : MemAllocator) (handle : MemHandle)
  | memtblIsValid (mthandle : MemHandle)
  | memtblDestroy (mthandle : MemHandle)
  | memAllocatorMemtbl (mthandle : MemHandle)
  | mapIsValid (mh : MemHandle) (mp : Map)
  | mapDestroy (mh : MemHandle) (mp : Map)
  /-- `map_set_str` and `map_set_ptr`, and so on -/
  | mapSet (mh : MemHandle) (mp : Map) (key : MapKey) (value : MemHandle)
  | mapGet (mh : MemHandle) (mp : Map) (key : MapKey)
  | mapDelete (mh : MemHandle) (mp : Map) (key : MapKey)
  | mapFirstValueIter (mh : MemHandle) (mp : Map)
  | mapNextValueIter (mp : Map) (it : MapIter)
  | mapIterDone (it : MapIter)
  | mapIterValue (it : MapIter)
  | strDuplicateStr (strval : MemHandle)
  | strDuplicateStrWithAllocator (strval : MemHandle) (allocator : MemAllocator)
  | strDuplicateStrbuf (bufHandle : MemHandle) (bufp : Strbuf)
  | strDuplicateStrbufWithAllocator (bufHandle : MemHandle) (bufp : Strbuf)
      (allocator : MemAllocator)
  | strDestroy (strval : MemHandle)
  | strWriteCstrToBuf (strval : MemHandle) (buf : Buffer) (bufsize : Nat)
  | strCstr (strCstrBuffer : Buffer) (strval : MemHandle)
  | strIsValid (strval : Str)
  | strLength (strval : Str)
  | strFind (strval substring : MemHandle)
  | strCompare (first second : MemHandle)
  | strSplitPop (strval delim part : MemHandle)
  | strSplitWhitespacePop (strval part : MemHandle)
  | strbufDestroy (bufHandle : MemHandle) (bufp : Strbuf)
  | strbufIsValid (bufHandle : MemHandle) (bufp : Strbuf)
  | strbufStr (bufHandle : MemHandle) (bufp : Strbuf)
  | strbufReset (bufHandle : MemHandle) (bufp : Strbuf)
  | strbufConcatenateChar (bufHandle : MemHandle) (bufp : Strbuf) (c : UInt8) (cPtr : Addr)
  | strbufConcatenateCstr (bufHandle : MemHandle) (bufp : Strbuf) (cstr : CStr)
  | strbufConcatenateStr (bufHandle : MemHandle) (bufp : Strbuf) (strval : Str)
  | strbufConcatenateStrbuf (bufHandle : MemHandle) (bufp : Strbuf)
      (sourcebufHandle : MemHandle) (sourcebufp : Strbuf)
  | strbufConcatenatePrintf (bufHandle : MemHandle) (bufp : Strbuf) (fmt : Addr)
      (vsnprintf : Vsnprintf)
  | strbufDuplicate (bufHandle : MemHandle) (bufp : Strbuf)

/-- What a call returns. -/
inductive Answer where
  | void
  | bool (b : Bool)
  | int (i : Int)
  | size (n : Nat)
  | pointer (a : Addr)
  | handle (handle : MemHandle)
  | iter (it : MapIter)
  | allocator (allocator : MemAllocator)

/-- What a call may store through a pointer that it was given. -/
inductive Passed where
  | nothing
  | map (mp : Map)
  | strbuf (bufp : Strbuf)
  | buffer (buf : Buffer)
  | part (part : MemHandle)

/-- The handles of a key. -/
def keyHandles : MapKey → List MemHandle
  | .str key => [key.handle]
  | .ptr _ => []

namespace PublicCall

/-- The arguments that are handles; of an iterator, the handle that the function uses. -/
def handles : PublicCall → List MemHandle
  | memRealloc handle _ | memFree handle | memP handle | memSize handle | memIsValid handle
  | memDuplicate handle | memDuplicateWithAllocator _ handle => [handle]
  | memtblIsValid mthandle | memtblDestroy mthandle | memAllocatorMemtbl mthandle => [mthandle]
  | mapIsValid mh _ | mapDestroy mh _ | mapFirstValueIter mh _ => [mh]
  | mapSet mh _ key value => mh :: value :: keyHandles key
  | mapGet mh _ key | mapDelete mh _ key => mh :: keyHandles key
  | mapNextValueIter _ it => [it.mh]
  | mapIterDone it | mapIterValue it => [it.valueHandle]
  | strDuplicateStr strval | strDuplicateStrWithAllocator strval _ | strDestroy strval
  | strWriteCstrToBuf strval _ _ | strCstr _ strval | strSplitWhitespacePop strval _ => [strval]
  | strIsValid strval | strLength strval => [strval.handle]
  | strFind strval substring => [strval, substring]
  | strCompare first second => [first, second]
  | strSplitPop strval delim _ => [strval, delim]
  | strDuplicateStrbuf bufHandle _ | strDuplicateStrbufWithAllocator bufHandle _ _
  | strbufDestroy bufHandle _ | strbufIsValid bufHandle _ | strbufStr bufHandle _
  | strbufReset bufHandle _ | strbufConcatenateChar bufHandle _ _ _
  | strbufConcatenateCstr bufHandle _ _ | strbufConcatenatePrintf bufHandle _ _ _
  | strbufDuplicate bufHandle _ => [bufHandle]
  | strbufConcatenateStr bufHandle _ strval => [bufHandle, strval.handle]
  | strbufConcatenateStrbuf bufHandle _ sourcebufHandle _ => [bufHandle, sourcebufHandle]

/-- The handles in the structs that a call with an invalid argument can get to. -/
def innerHandles : PublicCall → List MemHandle
  | mapSet mh mp _ _ | mapGet mh mp _ | mapDelete mh mp _ =>
    if Mem.memIsValid mh then [mp.entriesMh] else []
  | strbufConcatenateStrbuf _ _ sourcebufHandle sourcebufp =>
    if Mem.memIsValid sourcebufHandle then [sourcebufp.data] else []
  | _ => []

/-- The object of the caller as it is passed. -/
def passed : PublicCall → Passed
  | mapSet _ mp _ _ | mapDelete _ mp _ => .map mp
  | strWriteCstrToBuf _ buf _ | strCstr buf _ => .buffer buf
  | strSplitPop _ _ part | strSplitWhitespacePop _ part => .part part
  | strbufReset _ bufp | strbufConcatenateChar _ bufp _ _ | strbufConcatenateCstr _ bufp _
  | strbufConcatenateStr _ bufp _ | strbufConcatenateStrbuf _ bufp _ _
  | strbufConcatenatePrintf _ bufp _ _ => .strbuf bufp
  | _ => .nothing

end PublicCall

/-- A call that stores through no pointer of the caller. -/
def returns {σ α : Type} (answer : α → Answer) (x : C σ α) : C σ (Answer × Passed) := do
  let a ← x
  pure (answer a, .nothing)

/-- A call whose second result is what it has stored. -/
def stores {σ α β : Type} (answer : α → Answer) (passed : β → Passed) (x : C σ (α × β)) :
    C σ (Answer × Passed) := do
  let (a, b) ← x
  pure (answer a, passed b)

section Run
variable {τ : Type} (ops : MemOps (World τ)) (target : Target) (mem : Memory)
  (isspace : UInt8 → Bool) (rounds : Nat)

/-- The call of the function; `rounds` bounds every loop of one. -/
def PublicCall.run : PublicCall → C (World τ) (Answer × Passed)
  | memRealloc handle size => returns .handle (ops.memRealloc handle size)
  | memFree handle => returns .handle (ops.memFree handle)
  | memP handle => returns .pointer (ops.memP handle)
  | memSize handle => returns .size (pure (Mem.memSize handle))
  | memIsValid handle => returns .bool (pure (Mem.memIsValid handle))
  | memDuplicate handle => returns .handle (Mem.memDuplicate ops handle)
  | memDuplicateWithAllocator allocator handle =>
    returns .handle (Mem.memDuplicateWithAllocator ops allocator handle)
  | memtblIsValid mthandle => returns .bool (Machine.memtblIsValid ops mthandle)
  | memtblDestroy mthandle => returns (fun _ => .void) (Machine.memtblDestroy ops rounds mthandle)
  | memAllocatorMemtbl mthandle =>
    returns .allocator (pure (Memtbl.memAllocatorMemtbl mthandle))
  | mapIsValid mh mp => returns .bool (HashMap.mapIsValid ops mh mp)
  | mapDestroy mh mp => returns (fun _ => .void) (HashMap.mapDestroy ops mh mp)
  | mapSet mh mp key value => stores .bool .map (HashMap.mapSet ops target mh mp key value)
  | mapGet mh mp key => returns .handle (HashMap.mapGet ops target mh mp key)
  | mapDelete mh mp key => stores .bool .map (HashMap.mapDelete ops target mh mp key)
  | mapFirstValueIter mh mp => returns .iter (HashMap.mapFirstValueIter ops mh mp)
  | mapNextValueIter mp it => returns .iter (HashMap.mapNextValueIter ops mp it)
  | mapIterDone it => returns .bool (HashMap.mapIterDone ops it)
  | mapIterValue it => returns .handle (pure (HashMap.mapIterValue it))
  | strDuplicateStr strval => returns .handle (StrFunctions.strDuplicateStr ops strval)
  | strDuplicateStrWithAllocator strval allocator =>
    returns .handle (StrFunctions.strDuplicateStrWithAllocator ops strval allocator)
  | strDuplicateStrbuf bufHandle bufp =>
    returns .handle (StrFunctions.strDuplicateStrbuf ops bufHandle bufp)
  | strDuplicateStrbufWithAllocator bufHandle bufp allocator =>
    returns .handle (StrFunctions.strDuplicateStrbufWithAllocator ops bufHandle bufp allocator)
  | strDestroy strval => returns (fun _ => .void) (StrFunctions.strDestroy ops strval)
  | strWriteCstrToBuf strval buf bufsize =>
    stores .handle .buffer (StrFunctions.strWriteCstrToBuf ops mem strval buf bufsize)
  | strCstr strCstrBuffer strval =>
    stores .pointer .buffer (StrFunctions.strCstr ops mem strCstrBuffer strval)
  | strIsValid strval => returns .bool (pure (Source.strIsValid strval))
  | strLength strval => returns .size (pure (Source.strLength strval))
  | strFind strval substring => returns .int (StrFunctions.strFind ops mem rounds strval substring)
  | strCompare first second => returns .int (StrFunctions.strCompare ops mem target first second)
  | strSplitPop strval delim part =>
    stores .handle .part (StrFunctions.strSplitPop ops mem rounds strval delim part)
  | strSplitWhitespacePop strval part =>
    stores .handle .part (StrFunctions.strSplitWhitespacePop ops mem rounds isspace strval part)
  | strbufDestroy bufHandle bufp =>
    returns (fun _ => .void) (StringBuffer.strbufDestroy ops bufHandle bufp)
  | strbufIsValid bufHandle bufp => returns .bool (StringBuffer.strbufIsValid ops bufHandle bufp)
  | strbufStr bufHandle bufp => returns .handle (StringBuffer.strbufStr ops bufHandle bufp)
  | strbufReset bufHandle bufp => do
    let bufp' ← StringBuffer.strbufReset ops bufHandle bufp
    pure (.void, .strbuf bufp')
  | strbufConcatenateChar bufHandle bufp c cPtr =>
    stores .bool .strbuf (StringBuffer.strbufConcatenateChar ops rounds bufHandle bufp c cPtr)
  | strbufConcatenateCstr bufHandle bufp cstr =>
    stores .bool .strbuf (StringBuffer.strbufConcatenateCstr ops rounds bufHandle bufp cstr)
  | strbufConcatenateStr bufHandle bufp strval =>
    stores .bool .strbuf (StringBuffer.strbufConcatenateStr ops rounds bufHandle bufp strval)
  | strbufConcatenateStrbuf bufHandle bufp sourcebufHandle sourcebufp =>
    stores .bool .strbuf (StringBuffer.strbufConcatenateStrbuf ops rounds bufHandle bufp
      sourcebufHandle sourcebufp)
  | strbufConcatenatePrintf bufHandle bufp fmt vsnprintf =>
    stores .bool .strbuf (StringBuffer.strbufConcatenatePrintf ops rounds bufHandle bufp fmt
      vsnprintf)
  | strbufDuplicate bufHandle bufp =>
    returns (fun created => .handle created.1) (StrFunctions.strbufDuplicate ops rounds bufHandle
      bufp)

end Run

/-! ## The failure results -/

/-- The failure result of a type: false, -1, null, an invalid handle, a finished iterator,
an allocator without a table. A size has none. -/
def Answer.Failure : Answer → Prop
  | .void | .size _ => True
  | .bool b => b = false
  | .int i => i = -1
  | .pointer a => a = 0
  | .handle result => memIsValid result = false
  | .iter it => memIsValid it.valueHandle = false
  | .allocator result => allocatorData result = 0

/-- `str_compare`: an invalid str is less than a valid one and equal to an invalid one. -/
def invalidOrder (first second : MemHandle) : Int :=
  if memIsValid first then 1 else if memIsValid second then -1 else 0

/-- The answer of the function to an invalid argument. -/
def PublicCall.Fails : PublicCall → Answer → Prop
  | strCompare first second, answer => answer = .int (invalidOrder first second)
  | mapIterDone _, answer => answer = .bool true
  | _, answer => answer.Failure

end M65Tool.Source.PublicCalls
