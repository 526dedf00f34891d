import Mathlib.Algebra.Group.Nat.Defs
import Mathlib.Data.List.Basic
import Mathlib.Logic.Function.Basic

/-!
# The 32-bit FNV-1a hash

Each round mixes an octet into the low byte of the hash and multiplies by the prime. An
implementation that takes the octet from a signed char mixes its sign into the other
bits as well: from the first octet with a high bit on, its hash is off by a `drift`,
which is an odd multiple of 256 as long as an odd number of such octets was mixed in.
The multiplication loses nothing either way: keys that differ in one place stay apart.
-/
namespace M65Tool.Lib.Fnv1a

def offsetBasis : UInt32 := 0x811c9dc5

def prime : UInt32 := 0x01000193

def round (hash : UInt32) (octet : UInt8) : UInt32 := (hash ^^^ octet.toUInt32) * prime

def fnv1a (octets : List UInt8) : UInt32 := octets.foldl round offsetBasis

/-- An octet as a signed 8-bit number, in 32 bits. -/
def signExtend (octet : UInt8) : UInt32 :=
  if 128 ≤ octet then octet.toUInt32 ||| 0xffffff00 else octet.toUInt32

def signedRound (hash : UInt32) (octet : UInt8) : UInt32 := (hash ^^^ signExtend octet) * prime

/-! ## One round -/

section Round
variable {x y : UInt32} {b : UInt8}

/-- What is left when the low byte is cleared. -/
def upper (x : UInt32) : UInt32 := x - x % 256

theorem toNat_xor_octet (x : UInt32) (b : UInt8) :
    (x ^^^ b.toUInt32).toNat = 256 * (x.toNat / 256) + (x.toNat % 256 ^^^ b.toNat) := by
  have hb := b.toNat_lt
  have hdiv : (x.toNat ^^^ b.toNat) / 2 ^ 8 = x.toNat / 2 ^ 8 := by
    rw [Nat.xor_div_two_pow, Nat.div_eq_of_lt hb, Nat.xor_zero]
  have hmod : (x.toNat ^^^ b.toNat) % 2 ^ 8 = x.toNat % 2 ^ 8 ^^^ b.toNat := by
    rw [Nat.xor_mod_two_pow, Nat.mod_eq_of_lt hb]
  have hsplit := Nat.div_add_mod (x.toNat ^^^ b.toNat) (2 ^ 8)
  rw [hdiv, hmod] at hsplit
  rw [UInt32.toNat_xor, UInt8.toNat_toUInt32]
  exact hsplit.symm

theorem toNat_upper (x : UInt32) : (upper x).toNat = 256 * (x.toNat / 256) := by
  have hmod : (x % 256).toNat = x.toNat % 256 := rfl
  have hx := x.toNat_lt
  rw [upper, UInt32.toNat_sub, hmod]
  omega

/-- The octet changes nothing but the low byte. -/
theorem xor_octet_sub (low : x % 256 = y % 256) (b : UInt8) :
    (y ^^^ b.toUInt32) - (x ^^^ b.toUInt32) = y - x := by
  have hlow : x.toNat % 256 = y.toNat % 256 := congrArg UInt32.toNat low
  have hx := x.toNat_lt
  have hy := y.toNat_lt
  have hxb := toNat_xor_octet x b
  have hyb := toNat_xor_octet y b
  have hx' := (x ^^^ b.toUInt32).toNat_lt
  have hy' := (y ^^^ b.toUInt32).toNat_lt
  rw [← hlow] at hyb
  rw [← UInt32.toNat_inj, UInt32.toNat_sub, UInt32.toNat_sub, hxb, hyb]
  omega

theorem upper_xor_octet (x : UInt32) (b : UInt8) : upper (x ^^^ b.toUInt32) = upper x := by
  have hxb := toNat_xor_octet x b
  have hlt : x.toNat % 256 ^^^ b.toNat < 2 ^ 8 :=
    Nat.xor_lt_two_pow (Nat.mod_lt _ (by decide)) b.toNat_lt
  rw [← UInt32.toNat_inj, toNat_upper, toNat_upper, hxb]
  omega

/-- To flip the upper bits is to subtract them twice. -/
theorem xor_flip (x : UInt32) : x ^^^ 0xffffff00 = x - (256 + 2 * upper x) := by
  have hx := x.toNat_lt
  have hmask : (0xffffff00 : UInt32) = (255 : UInt8).toUInt32 ^^^ -1 := by decide
  have hbytes : ∀ l : Fin 256, l.val ^^^ 255 = 255 - l.val := by decide +kernel
  have hlow : x.toNat % 256 ^^^ (255 : UInt8).toNat = 255 - x.toNat % 256 :=
    hbytes ⟨_, Nat.mod_lt _ (by decide)⟩
  rw [hmask, ← UInt32.xor_assoc, UInt32.xor_neg_one, ← UInt32.toNat_inj, UInt32.toNat_not,
    toNat_xor_octet, hlow, UInt32.toNat_sub, UInt32.toNat_add, UInt32.toNat_mul, toNat_upper]
  simp only [UInt32.size, UInt32.reduceToNat]
  omega

theorem signExtend_low (low : ¬ 128 ≤ b) : signExtend b = b.toUInt32 := if_neg low

theorem xor_signExtend (high : 128 ≤ b) (x : UInt32) :
    x ^^^ signExtend b = (x ^^^ b.toUInt32) - (256 + 2 * upper x) := by
  have hbytes : ∀ n : Fin 256, (UInt8.ofNat n.val).toUInt32 ||| 0xffffff00 =
      (UInt8.ofNat n.val).toUInt32 ^^^ 0xffffff00 := by decide +kernel
  have hor := hbytes ⟨b.toNat, b.toNat_lt⟩
  rw [UInt8.ofNat_toNat] at hor
  rw [signExtend, if_pos high, hor, ← UInt32.xor_assoc, xor_flip, upper_xor_octet]

/-- How far apart the hashes are after a round. -/
theorem signedRound_sub (low : x % 256 = y % 256) (b : UInt8) :
    signedRound y b - round x b =
      (if 128 ≤ b then -(256 + 2 * upper x) - (y - x) else y - x) * prime := by
  have hxor := xor_octet_sub low b
  unfold signedRound round
  split
  · rename_i high
    have hupper : upper y = upper x + (y - x) := by
      unfold upper
      rw [low]
      grind
    rw [xor_signExtend high, hupper]
    grind
  · rename_i high
    rw [signExtend_low high]
    grind

theorem low_of_sub (h : (y - x).toNat % 256 = 0) : x % 256 = y % 256 := by
  have hx := x.toNat_lt
  have hy := y.toNat_lt
  rw [UInt32.toNat_sub] at h
  rw [← UInt32.toNat_inj, UInt32.toNat_mod, UInt32.toNat_mod]
  simp only [UInt32.reduceToNat]
  omega

theorem sub_of_low (low : x % 256 = y % 256) : (y - x).toNat % 256 = 0 := by
  have hlow : x.toNat % 256 = y.toNat % 256 := congrArg UInt32.toNat low
  have hx := x.toNat_lt
  have hy := y.toNat_lt
  rw [UInt32.toNat_sub]
  omega

/-- An octet with a high bit adds an odd multiple of 256 to the difference. -/
theorem signedRound_sub_mod (low : x % 256 = y % 256) (b : UInt8) :
    (signedRound y b - round x b).toNat % 512 =
      if 128 ≤ b then (256 + (y - x).toNat) % 512 else (y - x).toNat % 512 := by
  have hdiff := sub_of_low low
  have hupper := toNat_upper x
  have hprime : prime.toNat = 16777619 := rfl
  rw [signedRound_sub low, UInt32.toNat_mul, hprime]
  generalize y - x = d at hdiff ⊢
  have hd := d.toNat_lt
  split
  · have hneg : (-(256 + 2 * upper x) - d).toNat % 512 = (256 + d.toNat) % 512 := by
      rw [UInt32.toNat_sub, UInt32.toNat_neg, UInt32.toNat_add, UInt32.toNat_mul, hupper]
      simp only [UInt32.size, UInt32.reduceToNat]
      omega
    omega
  · omega

theorem low_round (low : x % 256 = y % 256) (b : UInt8) :
    round x b % 256 = signedRound y b % 256 := by
  have hdiff := sub_of_low low
  have hmod := signedRound_sub_mod low b
  apply low_of_sub
  split at hmod <;> omega

end Round

/-! ## A whole list of octets -/

section Octets
variable {x y : UInt32} {octets : List UInt8}

/-- The octets with a high bit. -/
def highCount (octets : List UInt8) : Nat := octets.countP fun b => decide (128 ≤ b)

/-- What the octets with a high bit add to the hash when their sign is mixed in: each one
twice the upper bits of the hash it meets, and 256, multiplied by the prime once for it and
once for each octet behind it; the sign is the other one at each next octet. -/
def drift (hash : UInt32) : List UInt8 → UInt32
  | [] => 0
  | b :: rest =>
    (if 128 ≤ b then (-1) ^ (highCount rest + 1) * (256 + 2 * upper hash) * prime ^ (rest.length + 1)
      else 0) + drift (round hash b) rest

theorem foldl_signedRound (low : x % 256 = y % 256) (octets : List UInt8) :
    octets.foldl signedRound y = octets.foldl round x +
      ((-1) ^ highCount octets * (y - x) * prime ^ octets.length + drift x octets) := by
  induction octets generalizing x y with
  | nil =>
    simp only [List.foldl_nil, highCount, List.countP_nil, drift, List.length_nil]
    grind
  | cons b rest ih =>
    rw [List.foldl_cons, List.foldl_cons, ih (low_round low b), signedRound_sub low b, drift]
    have hlen : (b :: rest).length = rest.length + 1 := rfl
    by_cases high : 128 ≤ b
    · have hcount : highCount (b :: rest) = highCount rest + 1 :=
        List.countP_cons_of_pos (by simpa using high)
      rw [if_pos high, if_pos high, hcount, hlen, UInt32.pow_succ, UInt32.pow_succ]
      grind
    · have hcount : highCount (b :: rest) = highCount rest :=
        List.countP_cons_of_neg (by simpa using high)
      rw [if_neg high, if_neg high, hcount, hlen, UInt32.pow_succ]
      grind

/-- The signs do no harm exactly if the drift is 0. -/
theorem foldl_signedRound_eq_iff (hash : UInt32) (octets : List UInt8) :
    octets.foldl signedRound hash = octets.foldl round hash ↔ drift hash octets = 0 := by
  have h := foldl_signedRound (x := hash) (y := hash) rfl octets
  constructor
  · intro he
    rw [he] at h
    grind
  · intro he
    rw [h, he]
    grind

theorem drift_of_low (low : ∀ b ∈ octets, ¬ 128 ≤ b) (hash : UInt32) : drift hash octets = 0 := by
  induction octets generalizing hash with
  | nil => rfl
  | cons b rest ih =>
    rw [drift, if_neg (low b List.mem_cons_self),
      ih (fun b' hb' => low b' (List.mem_cons_of_mem _ hb'))]
    rfl

theorem foldl_sub_mod (low : x % 256 = y % 256) (octets : List UInt8) :
    (octets.foldl signedRound y - octets.foldl round x).toNat % 512 =
      (256 * highCount octets + (y - x).toNat) % 512 := by
  induction octets generalizing x y with
  | nil =>
    rw [List.foldl_nil, List.foldl_nil, highCount, List.countP_nil]
    omega
  | cons b rest ih =>
    have hround := signedRound_sub_mod low b
    rw [List.foldl_cons, List.foldl_cons, ih (low_round low b)]
    by_cases high : 128 ≤ b
    · have hcount : highCount (b :: rest) = highCount rest + 1 :=
        List.countP_cons_of_pos (by simpa using high)
      rw [if_pos high] at hround
      omega
    · have hcount : highCount (b :: rest) = highCount rest :=
        List.countP_cons_of_neg (by simpa using high)
      rw [if_neg high] at hround
      omega

/-- An odd number of octets with a high bit is never made good. -/
theorem drift_of_odd (odd : highCount octets % 2 = 1) (hash : UInt32) : drift hash octets ≠ 0 := by
  intro hzero
  have hmod := foldl_sub_mod (x := hash) (y := hash) rfl octets
  rw [(foldl_signedRound_eq_iff hash octets).mpr hzero, UInt32.sub_self, UInt32.sub_self,
    UInt32.toNat_zero] at hmod
  omega

end Octets

/-! ## Rounds that lose nothing -/

section Injective
variable {α β : Type} {round : α → β → α} {x y : α} {before after : List β} {b b' : β}

theorem foldl_injective (state : ∀ b, Function.Injective fun x => round x b) (octets : List β) :
    Function.Injective fun x => octets.foldl round x := by
  induction octets with
  | nil => exact Function.injective_id
  | cons b octets ih => exact ih.comp (state b)

/-- The difference in one place is carried through all that follows it. -/
theorem foldl_ne (state : ∀ b, Function.Injective fun x => round x b)
    (octet : ∀ x, Function.Injective (round x)) (hne : b ≠ b') (x : α) :
    (before ++ b :: after).foldl round x ≠ (before ++ b' :: after).foldl round x := by
  rw [List.foldl_append, List.foldl_append, List.foldl_cons, List.foldl_cons]
  intro heq
  exact hne (octet _ (foldl_injective state after heq))

/-- The prime is odd, so that it can be divided by. -/
theorem mul_prime_injective : Function.Injective fun x : UInt32 => x * prime := by
  have hinverse : prime * 0x359c449b = 1 := by decide
  intro x y h
  have hback := congrArg (· * (0x359c449b : UInt32)) h
  simp only [UInt32.mul_assoc, hinverse, UInt32.mul_one] at hback
  exact hback

end Injective
end M65Tool.Lib.Fnv1a
