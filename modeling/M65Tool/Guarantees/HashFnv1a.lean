import M65Tool.Lib.Fnv1a
import M65Tool.Source.StrFunctions

/-!
# HASH-FNV1A: the map's hashes against FNV-1a

The shift-and-add line of a round is the multiplication by the FNV prime, for every hash.
With an unsigned plain char both hashes are FNV-1a of the key type and the octets of the
key; a str has to be one of at most UINT_MAX bytes, else its hash never comes to an end.
A signed plain char mixes the sign of each byte from 0x80 on into the hash: then they are
FNV-1a exactly for the keys on which the drift of the signs is 0, as it is without such a
byte and never is with an odd number of them.
-/
namespace M65Tool.Guarantees.HashFnv1a
open Source Source.Mem Source.MapHash Source.StrFunctions Lib.Effect Lib.Fnv1a

/-- The octets of an address, least significant first. -/
def addrOctets (addr : Addr) : List UInt8 :=
  (List.range 8).map fun i => UInt8.ofNat (addr.toNat / 256 ^ i)

/-! ## One round -/

section Rounds
variable {target : Target}

/-- The shifts and sums multiply by the prime. -/
theorem hashRound_eq (hash c : UInt32) : hashRound hash c = (hash ^^^ c) * prime := by
  unfold hashRound prime
  generalize hash ^^^ c = mixed
  rw [← UInt32.toNat_inj]
  simp only [UInt32.toNat_add, UInt32.toNat_mul, UInt32.toNat_shiftLeft, Nat.shiftLeft_eq,
    UInt32.reduceToNat, Nat.reduceMod, Nat.reducePow]
  omega

theorem hashRound_unsigned (unsigned : target.charIsSigned = false) (hash : UInt32) (b : UInt8) :
    hashRound hash (charToUint32 target b) = round hash b := by
  rw [hashRound_eq, charToUint32, unsigned]
  rfl

theorem hashRound_signed (signed : target.charIsSigned = true) (hash : UInt32) (b : UInt8) :
    hashRound hash (charToUint32 target b) = signedRound hash b := by
  rw [hashRound_eq, charToUint32, signed, signedRound, signExtend]
  simp

/-- The round over the key type. -/
theorem hashStart_eq (target : Target) {keyType : UInt8} (low : ¬ 128 ≤ keyType) :
    hashStart target keyType = round offsetBasis keyType := by
  rw [hashStart, hashRound_eq, charToUint32, if_neg (by simp [low])]
  rfl

/-! ## The rounds over a key -/

/-- One round for each octet, starting with the key type. -/
def keyRounds (target : Target) (keyType : UInt8) (octets : List UInt8) : UInt32 :=
  octets.foldl (fun h b => hashRound h (charToUint32 target b)) (hashStart target keyType)

/-- The signs of the octets do no harm: plain char is unsigned, or the drift is 0. -/
def SignsCancel (target : Target) (keyType : UInt8) (octets : List UInt8) : Prop :=
  target.charIsSigned = true → drift (round offsetBasis keyType) octets = 0

instance (target : Target) (keyType : UInt8) (octets : List UInt8) :
    Decidable (SignsCancel target keyType octets) :=
  inferInstanceAs (Decidable (_ → _))

theorem keyRounds_eq_iff {keyType : UInt8} (low : ¬ 128 ≤ keyType) (octets : List UInt8) :
    keyRounds target keyType octets = fnv1a (keyType :: octets) ↔
      SignsCancel target keyType octets := by
  rw [keyRounds, hashStart_eq target low, fnv1a, List.foldl_cons]
  cases hsigned : target.charIsSigned with
  | false =>
    have hround : (fun h b => hashRound h (charToUint32 target b)) = round :=
      funext fun h => funext fun b => hashRound_unsigned hsigned h b
    rw [hround]
    refine iff_of_true rfl ?_
    intro signed
    rw [hsigned] at signed
    cases signed
  | true =>
    have hround : (fun h b => hashRound h (charToUint32 target b)) = signedRound :=
      funext fun h => funext fun b => hashRound_signed hsigned h b
    rw [hround, foldl_signedRound_eq_iff, SignsCancel, hsigned]
    exact ⟨fun h _ => h, fun h => h rfl⟩

theorem signsCancel_of_low {keyType : UInt8} {octets : List UInt8}
    (low : ∀ b ∈ octets, ¬ 128 ≤ b) : SignsCancel target keyType octets :=
  fun _ => drift_of_low low _

theorem not_signsCancel_of_odd {keyType : UInt8} {octets : List UInt8}
    (signed : target.charIsSigned = true) (odd : highCount octets % 2 = 1) :
    ¬ SignsCancel target keyType octets :=
  fun h => drift_of_odd odd _ (h signed)

/-! ## The two functions -/

theorem hashPtrLoop_eq (left : Nat) (keyint : UInt64) (hash : UInt32) :
    hashPtrLoop target left keyint hash =
      ((List.range left).map fun i => UInt8.ofNat (keyint.toNat / 256 ^ i)).foldl
        (fun h b => hashRound h (charToUint32 target b)) hash := by
  induction left generalizing keyint hash with
  | zero => rfl
  | succ left ih =>
    have hfirst : (keyint &&& 255).toUInt8 = UInt8.ofNat (keyint.toNat / 256 ^ 0) := by
      rw [← UInt8.toNat_inj, UInt64.toNat_toUInt8, UInt64.toNat_and, UInt8.toNat_ofNat']
      change (keyint.toNat &&& 2 ^ 8 - 1) % 2 ^ 8 = _
      rw [Nat.and_two_pow_sub_one_eq_mod, Nat.mod_mod, Nat.pow_zero, Nat.div_one]
    have hrest : ∀ i, (keyint >>> 8).toNat / 256 ^ i = keyint.toNat / 256 ^ (i + 1) := by
      intro i
      rw [UInt64.toNat_shiftRight, Nat.shiftRight_eq_div_pow, Nat.div_div_eq_div_mul, Nat.pow_succ,
        Nat.mul_comm (256 ^ i)]
      rfl
    rw [hashPtrLoop, ih, List.range_succ_eq_map, List.map_cons, List.foldl_cons, hfirst,
      List.map_map]
    simp only [hrest]
    rfl

theorem hashPtr_eq (target : Target) (addr : Addr) :
    hashPtr target addr = keyRounds target mapKeyPtr (addrOctets addr) :=
  hashPtrLoop_eq 8 addr _

variable {σ : Type} {ops : MemOps σ} {key : Str} {s : σ}

theorem hashStr_eq (reads : derefKey ops key s = .ok () s)
    (fits : key.bytes.length ≤ uintMax) :
    hashStr ops target key s = .ok (keyRounds target mapKeyStr key.bytes) s := by
  unfold uintMax at fits
  rw [hashStr, bind_of_ok reads, hashBytes_eq target key.bytes (by omega)]
  rfl

/-- The index of a longer key wraps around before it reaches the size. -/
theorem hashStr_endless (reads : derefKey ops key s = .ok () s)
    (long : ¬ key.bytes.length ≤ uintMax) :
    hashStr ops target key s = .error .endlessLoop s := by
  unfold uintMax at long
  rw [hashStr, bind_of_ok reads, hashBytes, hashStrLoop_endless target key.bytes (by omega)]
  rfl

/-- Of a str that can be read, and of an address, the hash is FNV-1a exactly if the signs
of its bytes do no harm and, for the str, it has no more than UINT_MAX of them. -/
theorem hashes_fnv1a_iff (target : Target) (addr : Addr) (reads : derefKey ops key s = .ok () s) :
    (hashStr ops target key s = .ok (fnv1a (mapKeyStr :: key.bytes)) s ↔
      key.bytes.length ≤ uintMax ∧ SignsCancel target mapKeyStr key.bytes) ∧
    (hashPtr target addr = fnv1a (mapKeyPtr :: addrOctets addr) ↔
      SignsCancel target mapKeyPtr (addrOctets addr)) := by
  refine ⟨?_, ?_⟩
  · by_cases fits : key.bytes.length ≤ uintMax
    · rw [hashStr_eq reads fits, ← keyRounds_eq_iff (by decide)]
      constructor
      · intro h
        injection h with he
        exact ⟨fits, he⟩
      · intro h
        rw [h.2]
    · rw [hashStr_endless reads fits]
      exact iff_of_false nofun fun h => fits h.1
  · rw [hashPtr_eq, keyRounds_eq_iff (by decide)]

end Rounds

/-- The str "A". -/
def letterKey : Str := ⟨⟨4096, 1, .notAllocated⟩, [65], rfl⟩

theorem hashes_fnv1a_iff_letter :
    (hashStr scriptedOps ⟨true⟩ letterKey [] = .ok (fnv1a (mapKeyStr :: letterKey.bytes)) [] ↔
      letterKey.bytes.length ≤ uintMax ∧ SignsCancel ⟨true⟩ mapKeyStr letterKey.bytes) ∧
    (hashPtr ⟨true⟩ 4096 = fnv1a (mapKeyPtr :: addrOctets 4096) ↔
      SignsCancel ⟨true⟩ mapKeyPtr (addrOctets 4096)) :=
  hashes_fnv1a_iff ⟨true⟩ 4096 rfl

/-- The str of the byte 0x80, and the address 0x80, where plain char is signed. -/
theorem highByte_not_fnv1a :
    hashStr scriptedOps ⟨true⟩ ⟨⟨4096, 1, .notAllocated⟩, [0x80], rfl⟩ [] ≠
      .ok (fnv1a [mapKeyStr, 0x80]) [] ∧
    hashPtr ⟨true⟩ 0x80 ≠ fnv1a (mapKeyPtr :: addrOctets 0x80) := by
  have hrounds : keyRounds ⟨true⟩ mapKeyStr [0x80] ≠ fnv1a [mapKeyStr, 0x80] := by decide +kernel
  refine ⟨?_, by decide +kernel⟩
  rw [hashStr_eq rfl (by decide)]
  intro h
  injection h with he
  exact hrounds he

end M65Tool.Guarantees.HashFnv1a
