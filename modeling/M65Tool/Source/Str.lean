import M65Tool.Source.Mem

/-!
# String references

Source: src/datastruct/str.h, src/datastruct/str.c. A `str` is a memory handle;
the model keeps next to it the bytes of the region it refers to.
-/
namespace M65Tool.Source
open Mem

/-- A `str` with the bytes of its region, from the first one on. -/
structure Str where
  handle : MemHandle
  bytes : List UInt8
  size_eq : bytes.length = handle.size

/-- `str_is_valid`. -/
def strIsValid (strval : Str) : Bool := memIsValid strval.handle

/-- `str_length`. -/
def strLength (strval : Str) : Nat := strval.handle.size

end M65Tool.Source
