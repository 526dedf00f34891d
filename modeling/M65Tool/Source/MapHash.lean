import M65Tool.Source.Str
import Mathlib.Algebra.Group.Nat.Defs

/-!
# Key hashes

Source: src/datastruct/map.c:10,42-103. Both hashes start from one round over the
key type and take one round for each byte of the key. A byte goes through a plain
`char`, whose signedness is the target's, and is converted to `uint32_t` from there.
-/
namespace M65Tool.Source.MapHash
open Mem

/-- What the C implementation is free to choose. -/
structure Target where
  charIsSigned : Bool
  deriving DecidableEq, Repr

/-- `(uint32_t)c` for the `char` that holds byte `b`. -/
def charToUint32 (target : Target) (b : UInt8) : UInt32 :=
  if target.charIsSigned && decide (128 ≤ b) then b.toUInt32 ||| 0xffffff00 else b.toUInt32

/-- `hash ^= (uint32_t)c` and the shift-and-add line after it. -/
def hashRound (hash c : UInt32) : UInt32 :=
  let mixed := hash ^^^ c
  mixed + ((mixed <<< 1) + (mixed <<< 4) + (mixed <<< 7) + (mixed <<< 8) + (mixed <<< 24))

/-- `MAP_KEY_STR`. -/
def mapKeyStr : UInt8 := 0

/-- `MAP_KEY_PTR`. -/
def mapKeyPtr : UInt8 := 1

/-- The hash after the round over the key type. -/
def hashStart (target : Target) (keyType : UInt8) : UInt32 :=
  hashRound 0x811c9dc5 (charToUint32 target keyType)

/-- The loop of `hash_str`, for at most the given number of tests of its condition.
The index is an `unsigned int`, the bound a `size_t`. -/
def hashStrLoop (target : Target) (key : List UInt8) : Nat → UInt32 → UInt32 → Option UInt32
  | 0, _, _ => none
  | tests + 1, i, hash =>
    if i.toNat < key.length then
      hashStrLoop target key tests (i + 1)
        (hashRound hash (charToUint32 target (key.getD i.toNat 0)))
    else some hash

/-- The hash of a `str` with these bytes, `none` if the loop never ends. -/
def hashBytes (target : Target) (key : List UInt8) : Option UInt32 :=
  hashStrLoop target key (key.length + 1) 0 (hashStart target mapKeyStr)

/-- Each round of `hash_str` reads through `mem_p(key)`. -/
def derefKey {σ : Type} (ops : MemOps σ) (key : Str) : C σ Unit :=
  if key.handle.size = 0 then pure () else deref ops key.handle

/-- map.c:54-70. -/
def hashStr {σ : Type} (ops : MemOps σ) (target : Target) (key : Str) : C σ UInt32 := do
  derefKey ops key
  match hashBytes target key.bytes with
  | some hash => pure hash
  | none => throw .endlessLoop

/-- The loop of `hash_ptr` over the remaining bytes of the address. -/
def hashPtrLoop (target : Target) : Nat → UInt64 → UInt32 → UInt32
  | 0, _, hash => hash
  | left + 1, keyint, hash =>
    hashPtrLoop target left (keyint >>> 8)
      (hashRound hash (charToUint32 target (keyint &&& 255).toUInt8))

/-- `hash_ptr`; `sizeof(uintptr_t)` is 8. -/
def hashPtr (target : Target) (key : Addr) : UInt32 :=
  hashPtrLoop target 8 key (hashStart target mapKeyPtr)

/-! ## The loop of `hash_str` has the number of tests it needs -/

theorem hashStrLoop_done (target : Target) (key : List UInt8) (hfit : key.length < 2 ^ 32) :
    ∀ (left tests : Nat) (i hash : UInt32), i.toNat + left = key.length → left < tests →
      hashStrLoop target key tests i hash =
        some ((key.drop i.toNat).foldl (fun h b => hashRound h (charToUint32 target b)) hash) := by
  intro left
  induction left with
  | zero =>
    intro tests i hash hi ht
    obtain ⟨tests, rfl⟩ : ∃ t, tests = t + 1 := ⟨tests - 1, by omega⟩
    simp [hashStrLoop, List.drop_of_length_le (show key.length ≤ i.toNat by omega),
      show ¬ i.toNat < key.length by omega]
  | succ left ih =>
    intro tests i hash hi ht
    obtain ⟨tests, rfl⟩ : ∃ t, tests = t + 1 := ⟨tests - 1, by omega⟩
    have hlt : i.toNat < key.length := by omega
    have hnext : (i + 1).toNat = i.toNat + 1 := by
      rw [UInt32.toNat_add]
      simp
      omega
    rw [hashStrLoop, if_pos hlt, ih tests (i + 1) _ (by omega) (by omega), hnext,
      List.drop_eq_getElem_cons hlt, List.foldl_cons]
    simp [List.getD, hlt]

/-- Below 2^32 bytes the hash is one round for each byte. -/
theorem hashBytes_eq (target : Target) (key : List UInt8) (hfit : key.length < 2 ^ 32) :
    hashBytes target key =
      some (key.foldl (fun h b => hashRound h (charToUint32 target b))
        (hashStart target mapKeyStr)) := by
  have := hashStrLoop_done target key hfit key.length (key.length + 1) 0
    (hashStart target mapKeyStr) (by simp) (by omega)
  simpa [hashBytes] using this

/-- From 2^32 bytes on the index wraps before it reaches the size, after any
number of tests. -/
theorem hashStrLoop_endless (target : Target) (key : List UInt8) (hlong : 2 ^ 32 ≤ key.length) :
    ∀ (tests : Nat) (i hash : UInt32), hashStrLoop target key tests i hash = none := by
  intro tests
  induction tests with
  | zero => intro i hash; rfl
  | succ tests ih =>
    intro i hash
    have hlt : i.toNat < key.length := Nat.lt_of_lt_of_le i.toNat_lt hlong
    rw [hashStrLoop, if_pos hlt]
    exact ih _ _

end M65Tool.Source.MapHash
