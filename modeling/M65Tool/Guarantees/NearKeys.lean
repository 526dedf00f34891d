import M65Tool.Guarantees.HashFnv1a
import Mathlib.Data.List.GetD

/-!
# NEAR-KEYS: keys that differ in little

A round loses neither the hash nor the byte, whatever the signedness of a plain char. So
keys of one length that differ in one byte have different hashes, and so have a str and an
address of the same bytes, whose first rounds differ. A str of more than UINT_MAX bytes has
no hash: the index of `hash_str` wraps around before it reaches the size.
-/
namespace M65Tool.Guarantees.NearKeys
open Source Source.Mem Source.MapHash Source.StrFunctions Lib.Effect Lib.Fnv1a HashFnv1a

/-- Of the same length, and different in exactly one byte. -/
structure OneByteApart (xs ys : List UInt8) : Prop where
  length : xs.length = ys.length
  place : ∃ i : Nat, xs[i]? ≠ ys[i]? ∧ ∀ j ≠ i, xs[j]? = ys[j]?

section Bytes
variable {xs ys : List UInt8}

/-- What is before the one byte, and what is behind it. -/
theorem OneByteApart.split (h : OneByteApart xs ys) : ∃ before b b' after,
    xs = before ++ b :: after ∧ ys = before ++ b' :: after ∧ b ≠ b' := by
  obtain ⟨i, hne, hsame⟩ := h.place
  have hi : i < xs.length := by
    by_contra hover
    have hx : xs[i]? = none := List.getElem?_eq_none (by omega)
    have hy : ys[i]? = none := List.getElem?_eq_none (by rw [← h.length]; omega)
    exact hne (hx.trans hy.symm)
  have hi' : i < ys.length := h.length ▸ hi
  refine ⟨xs.take i, xs[i], ys[i], xs.drop (i + 1), ?_, ?_, ?_⟩
  · rw [← List.drop_eq_getElem_cons hi, List.take_append_drop]
  · have htake : xs.take i = ys.take i := by
      refine List.ext_getElem? fun j => ?_
      rw [List.getElem?_take, List.getElem?_take]
      split
      · exact hsame j (by omega)
      · rfl
    have hdrop : xs.drop (i + 1) = ys.drop (i + 1) := by
      refine List.ext_getElem? fun j => ?_
      rw [List.getElem?_drop, List.getElem?_drop]
      exact hsame _ (by omega)
    rw [htake, hdrop, ← List.drop_eq_getElem_cons hi', List.take_append_drop]
  · intro heq
    rw [List.getElem?_eq_getElem hi, List.getElem?_eq_getElem hi'] at hne
    exact hne (congrArg some heq)

end Bytes

/-! ## One round -/

section Round
variable {target : Target}

theorem round_state_injective (target : Target) (b : UInt8) :
    Function.Injective fun hash => hashRound hash (charToUint32 target b) := by
  intro hash hash' h
  simp only [hashRound_eq] at h
  exact (UInt32.xor_left_inj _).mp (mul_prime_injective h)

/-- The low byte of what a char is converted to. -/
theorem charToUint32_injective (target : Target) : Function.Injective (charToUint32 target) := by
  have hlow : ∀ (signed : Bool) (n : Fin 256),
      (charToUint32 ⟨signed⟩ (UInt8.ofNat n.val)).toUInt8 = UInt8.ofNat n.val := by
    decide +kernel
  have hbyte : ∀ b, (charToUint32 target b).toUInt8 = b := by
    intro b
    have h := hlow target.charIsSigned ⟨b.toNat, b.toNat_lt⟩
    rwa [UInt8.ofNat_toNat] at h
  intro b b' h
  rw [← hbyte b, h, hbyte b']

theorem round_byte_injective (target : Target) (hash : UInt32) :
    Function.Injective fun b => hashRound hash (charToUint32 target b) := by
  intro b b' h
  simp only [hashRound_eq] at h
  exact charToUint32_injective target ((UInt32.xor_right_inj _).mp (mul_prime_injective h))

end Round

/-! ## Whole keys -/

section Keys
variable {target : Target} {octets octets' : List UInt8}

theorem keyRounds_ne (target : Target) (keyType : UInt8) (apart : OneByteApart octets octets') :
    keyRounds target keyType octets ≠ keyRounds target keyType octets' := by
  obtain ⟨before, b, b', after, rfl, rfl, hne⟩ := apart.split
  exact foldl_ne (round_state_injective target) (round_byte_injective target) hne _

/-- The key type alone keeps two keys apart. -/
theorem keyRounds_types (target : Target) (octets : List UInt8) :
    keyRounds target mapKeyStr octets ≠ keyRounds target mapKeyPtr octets := by
  intro h
  have hstart := foldl_injective (round_state_injective target) octets h
  have hbyte : mapKeyStr = mapKeyPtr := round_byte_injective target _ hstart
  cases hbyte

variable {σ : Type} {ops : MemOps σ} {s : σ}

/-- Both strs get a hash, and not the same. -/
def HashedApart (ops : MemOps σ) (target : Target) (key key' : Str) (s : σ) : Prop :=
  ∃ hash hash', hashStr ops target key s = .ok hash s ∧
    hashStr ops target key' s = .ok hash' s ∧ hash ≠ hash'

theorem hashedApart_iff {key key' : Str} (reads : derefKey ops key s = .ok () s)
    (reads' : derefKey ops key' s = .ok () s) (apart : OneByteApart key.bytes key'.bytes) :
    HashedApart ops target key key' s ↔ key.bytes.length ≤ uintMax := by
  constructor
  · rintro ⟨hash, hash', hrun, -, -⟩
    by_contra long
    rw [hashStr_endless reads long] at hrun
    cases hrun
  · intro fits
    have fits' : key'.bytes.length ≤ uintMax := apart.length ▸ fits
    exact ⟨_, _, hashStr_eq reads fits, hashStr_eq reads' fits', keyRounds_ne target _ apart⟩

/-- The rounds lose nothing, and near keys have different hashes, a str as long as it has
one. -/
theorem near_keys_iff (target : Target) (key key' : Str) (addr addr' : Addr)
    (reads : derefKey ops key s = .ok () s) (reads' : derefKey ops key' s = .ok () s) :
    ((∀ b, Function.Injective fun hash => hashRound hash (charToUint32 target b)) ∧
      ∀ hash, Function.Injective fun b => hashRound hash (charToUint32 target b)) ∧
    (OneByteApart key.bytes key'.bytes →
      (HashedApart ops target key key' s ↔ key.bytes.length ≤ uintMax)) ∧
    (OneByteApart (addrOctets addr) (addrOctets addr') →
      hashPtr target addr ≠ hashPtr target addr') ∧
    (key.bytes = addrOctets addr →
      ∃ hash, hashStr ops target key s = .ok hash s ∧ hash ≠ hashPtr target addr) := by
  refine ⟨⟨round_state_injective target, round_byte_injective target⟩,
    hashedApart_iff reads reads', ?_, ?_⟩
  · intro apart
    rw [hashPtr_eq, hashPtr_eq]
    exact keyRounds_ne target _ apart
  · intro same
    have fits : key.bytes.length ≤ uintMax := by
      rw [same, addrOctets, List.length_map, List.length_range]
      decide
    refine ⟨_, hashStr_eq reads fits, ?_⟩
    rw [same, hashPtr_eq]
    exact keyRounds_types target _

end Keys

/-- The strs "cat" and "cut". -/
def catCut : Str × Str :=
  (⟨⟨4096, 3, .notAllocated⟩, [99, 97, 116], by decide⟩,
    ⟨⟨8192, 3, .notAllocated⟩, [99, 117, 116], by decide⟩)

theorem catCut_apart : OneByteApart catCut.1.bytes catCut.2.bytes where
  length := rfl
  place := by
    refine ⟨1, by decide, ?_⟩
    intro j hj
    rcases j with _ | _ | j
    · rfl
    · exact absurd rfl hj
    · rfl

theorem near_keys_catCut : HashedApart scriptedOps ⟨true⟩ catCut.1 catCut.2 [] :=
  ((near_keys_iff ⟨true⟩ catCut.1 catCut.2 4096 4097 rfl rfl).2.1 catCut_apart).mpr (by decide)

/-- A str of one byte and as many zeros as make it longer than UINT_MAX. -/
def longStr (b : UInt8) : Str where
  handle := ⟨4096, uintMax + 1, .notAllocated⟩
  bytes := b :: List.replicate uintMax 0
  size_eq := by rw [List.length_cons, List.length_replicate]

theorem longStr_length (b : UInt8) : (longStr b).bytes.length = uintMax + 1 :=
  (longStr b).size_eq

theorem long_keys_unhashed : OneByteApart (longStr 0).bytes (longStr 1).bytes ∧
    ¬ HashedApart scriptedOps ⟨true⟩ (longStr 0) (longStr 1) [] := by
  have apart : OneByteApart (longStr 0).bytes (longStr 1).bytes := by
    refine ⟨(longStr_length 0).trans (longStr_length 1).symm, 0, ?_, ?_⟩
    · intro h
      cases h
    · intro j hj
      obtain ⟨j, rfl⟩ := Nat.exists_eq_succ_of_ne_zero hj
      rfl
  refine ⟨apart, fun h => ?_⟩
  have fits := (hashedApart_iff rfl rfl apart).mp h
  rw [longStr_length] at fits
  omega

end M65Tool.Guarantees.NearKeys
