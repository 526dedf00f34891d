import M65Tool.Lib.Splitting
import M65Tool.Source.StrFunctions

/-!
# What the str functions read

`StrAt` is a valid str together with its bytes: `mem_p` answers with an address at which
they can be read. One lemma for each loop says what it finds; `str_find` reports the
leftmost occurrence as long as it can count up to it.
-/
namespace M65Tool.Source.StrFunctions
open Mem StringBuffer Lib.Effect Lib.Splitting

/-- These bytes, and perhaps no others, can be read from the address on. They are no more
than an object can have. -/
structure BytesAt (mem : Memory) (ptr : Addr) (bytes : List UInt8) : Prop where
  ptr_ne : ptr ≠ 0
  readable : ∀ i < bytes.length, mem (ptr + UInt64.ofNat i) = bytes[i]?
  ends : ptr.toNat + bytes.length < 2 ^ 64
  size_le : bytes.length ≤ ptrdiffMax

/-- A valid str, with its bytes. -/
structure StrAt {σ : Type} (ops : MemOps σ) (mem : Memory) (s : σ) (strval : MemHandle)
    (ptr : Addr) (bytes : List UInt8) : Prop where
  valid : memIsValid strval = true
  memP_eq : ops.memP strval s = .ok ptr s
  size_eq : strval.size = bytes.length
  bytes_at : BytesAt mem ptr bytes

/-- Given enough tests of its loops the call returns this, and the state is as before. -/
def Returns {σ α : Type} (call : Nat → C σ α) (s : σ) (a : α) : Prop :=
  ∃ enough, ∀ tests ≥ enough, call tests s = .ok a s

theorem Returns.unique {σ α : Type} {call : Nat → C σ α} {s : σ} {a b : α}
    (ha : Returns call s a) (hb : Returns call s b) : a = b := by
  obtain ⟨m, hm⟩ := ha
  obtain ⟨n, hn⟩ := hb
  have hboth := hm (max m n) (Nat.le_max_left m n)
  rw [hn (max m n) (Nat.le_max_right m n)] at hboth
  injection hboth with he
  exact he.symm

section Conversions
variable {m n : Nat} {p : Addr}

theorem subSize_eq (hle : n ≤ m) (hm : m < sizeMod) : subSize m n = m - n := by
  unfold subSize
  rw [Nat.mod_eq_of_lt (Nat.lt_of_le_of_lt hle hm)]
  unfold sizeMod at hm ⊢
  omega

theorem toNat_add_ofNat (h : p.toNat + n < 2 ^ 64) : (p + UInt64.ofNat n).toNat = p.toNat + n := by
  rw [UInt64.toNat_add, UInt64.toNat_ofNat']
  omega

theorem add_ofNat_add (p : Addr) (m n : Nat) :
    p + UInt64.ofNat m + UInt64.ofNat n = p + UInt64.ofNat (m + n) := by
  rw [UInt64.add_assoc, ← UInt64.ofNat_add]

theorem toNat_ofNat_uint (h : n < 2 ^ 32) : (UInt32.ofNat n).toNat = n := by
  rw [UInt32.toNat_ofNat']
  omega

theorem toNat_ofNat_fits (h : n ≤ uintMax) : (UInt32.ofNat n).toNat = n := by
  unfold uintMax at h
  exact toNat_ofNat_uint (by omega)

theorem uintToInt_near (h : n ≤ intMax) : uintToInt (UInt32.ofNat n) = n := by
  have hto : (UInt32.ofNat n).toNat = n := by
    apply toNat_ofNat_uint
    unfold intMax at h
    omega
  rw [uintToInt, hto, if_pos h]

/-- Past INT_MAX an int holds the number that is 2^32 lower. -/
theorem uintToInt_past (past : intMax < n) (h : n < 2 ^ 32) :
    uintToInt (UInt32.ofNat n) = n - 2 ^ 32 := by
  rw [uintToInt, toNat_ofNat_uint h, if_neg (by omega)]

theorem intToSize_natCast (h : n < sizeMod) : intToSize (n : Int) = n := by
  unfold intToSize
  unfold sizeMod at h ⊢
  omega

end Conversions

section Bytes
variable {σ : Type} {mem : Memory} {ptr : Addr} {bytes : List UInt8} {i : Nat} {b : UInt8} {s : σ}

namespace BytesAt

theorem length_lt (h : BytesAt mem ptr bytes) : bytes.length < sizeMod := by
  have := h.ends
  unfold sizeMod
  omega

theorem load_ok (h : BytesAt mem ptr bytes) (hb : bytes[i]? = some b) :
    (load mem ptr i : C σ UInt8) s = .ok b s := by
  obtain ⟨hi, -⟩ := List.getElem?_eq_some_iff.mp hb
  rw [load, if_neg h.ptr_ne, h.readable i hi, hb]
  rfl

theorem loadBytes_ok (h : BytesAt mem ptr bytes) {count offset : Nat}
    (hle : offset + count ≤ bytes.length) :
    (loadBytes mem ptr count offset : C σ (List UInt8)) s =
      .ok ((bytes.drop offset).take count) s := by
  induction count generalizing offset with
  | zero => rw [List.take_zero]; rfl
  | succ count ih =>
    have hlt : offset < bytes.length := by omega
    rw [loadBytes, bind_of_ok (h.load_ok (List.getElem?_eq_getElem hlt)),
      bind_of_ok (ih (by omega)), List.drop_eq_getElem_cons hlt, List.take_succ_cons]
    rfl

theorem drop (h : BytesAt mem ptr bytes) (hi : i ≤ bytes.length) :
    BytesAt mem (ptr + UInt64.ofNat i) (bytes.drop i) where
  ptr_ne := by
    have hto := toNat_add_ofNat (p := ptr) (n := i) (by have := h.ends; omega)
    have hpos : ptr.toNat ≠ 0 := fun hz => h.ptr_ne (UInt64.toNat_inj.mp hz)
    intro hz
    rw [hz, UInt64.toNat_zero] at hto
    omega
  readable k hk := by
    rw [List.length_drop] at hk
    rw [add_ofNat_add, h.readable (i + k) (by omega), List.getElem?_drop]
  ends := by
    have := h.ends
    rw [toNat_add_ofNat (by omega), List.length_drop]
    omega
  size_le := by
    have := h.size_le
    rw [List.length_drop]
    omega

theorem take (h : BytesAt mem ptr bytes) (n : Nat) : BytesAt mem ptr (bytes.take n) where
  ptr_ne := h.ptr_ne
  readable k hk := by
    rw [List.length_take] at hk
    rw [h.readable k (by omega), List.getElem?_take_of_lt (by omega)]
  ends := by
    have := h.ends
    rw [List.length_take]
    omega
  size_le := by
    have := h.size_le
    rw [List.length_take]
    omega

end BytesAt

/-- Memory that has these bytes at the address and no others. -/
def regionMemory (ptr : Addr) (bytes : List UInt8) : Memory := fun a => bytes[(a - ptr).toNat]?

theorem bytesAt_regionMemory (hptr : ptr ≠ 0) (hends : ptr.toNat + bytes.length < 2 ^ 64)
    (hsize : bytes.length ≤ ptrdiffMax) :
    BytesAt (regionMemory ptr bytes) ptr bytes where
  ptr_ne := hptr
  readable i hi := by
    have hoffset : (ptr + UInt64.ofNat i - ptr).toNat = i := by
      rw [UInt64.add_comm, UInt64.add_sub_cancel, UInt64.toNat_ofNat']
      omega
    rw [regionMemory, hoffset]
  ends := hends
  size_le := hsize

/-- A handle that owns no memory refers to the bytes at its address. -/
theorem strAt_unowned {libc : Libc σ} {spec : MemAllocator → Option (MemAllocatorSpec σ)}
    (unowned : spec .notAllocated = some notAllocatedSpec) (h : BytesAt mem ptr bytes) (s : σ) :
    StrAt (memOps libc spec) mem s ⟨ptr, bytes.length, .notAllocated⟩ ptr bytes where
  valid := memIsValid_eq_true.mpr h.ptr_ne
  memP_eq := by
    change memP spec _ s = _
    rw [memP, if_pos (memIsValid_eq_true.mpr h.ptr_ne), unowned]
    rfl
  size_eq := rfl
  bytes_at := h

theorem strAt_scripted (h : BytesAt mem ptr bytes) :
    StrAt scriptedOps mem [] ⟨ptr, bytes.length, .notAllocated⟩ ptr bytes :=
  strAt_unowned rfl h []

/-- "a" at 4096. -/
theorem letter_bytesAt : BytesAt (regionMemory 4096 [97]) 4096 [97] :=
  bytesAt_regionMemory (by decide) (by decide) (by decide)

theorem letter_strAt :
    StrAt scriptedOps (regionMemory 4096 [97]) [] ⟨4096, 1, .notAllocated⟩ 4096 [97] :=
  strAt_scripted letter_bytesAt

end Bytes

/-! ## The search -/

section Search
variable {σ : Type} {mem : Memory} {strvalP substringP : Addr} {text pattern : List UInt8}
  {pos tests : Nat} {startI : UInt32} {s : σ}

theorem matchLoop_ok (htext : BytesAt mem strvalP text) (hpat : BytesAt mem substringP pattern)
    {left offset : Nat} (hsum : offset + left = pattern.length)
    (hfits : startI.toNat + pattern.length ≤ text.length)
    (hsame : ∀ k < offset, text[startI.toNat + k]? = pattern[k]?) :
    ∃ r, (matchLoop mem strvalP substringP startI left offset : C σ Nat) s = .ok r s ∧
      (r = pattern.length ↔ OccursAt text pattern startI.toNat) := by
  induction left generalizing offset with
  | zero =>
    refine ⟨offset, rfl, ?_⟩
    rw [occursAt_iff_getElem?]
    constructor
    · intro _
      exact ⟨hfits, fun k hk => hsame k (by omega)⟩
    · intro _
      omega
  | succ left ih =>
    have htextb := List.getElem?_eq_getElem (show startI.toNat + offset < text.length by omega)
    have hpatb := List.getElem?_eq_getElem (show offset < pattern.length by omega)
    rw [matchLoop, bind_of_ok (htext.load_ok htextb), bind_of_ok (hpat.load_ok hpatb)]
    by_cases heq : text[startI.toNat + offset] = pattern[offset]
    · rw [if_pos heq]
      apply ih (by omega)
      intro k hk
      rcases Nat.lt_succ_iff_lt_or_eq.mp hk with hlt | he
      · exact hsame k hlt
      · rw [he, htextb, hpatb, heq]
    · rw [if_neg heq]
      refine ⟨offset, rfl, ?_⟩
      constructor
      · intro he
        omega
      · intro hoccurs
        have hsameb := (occursAt_iff_getElem?.mp hoccurs).2 offset (by omega)
        rw [htextb, hpatb] at hsameb
        exact absurd (Option.some.inj hsameb) heq

theorem toNat_succ (h : startI.toNat + 1 < 2 ^ 32) : (startI + 1).toNat = startI.toNat + 1 := by
  rw [UInt32.toNat_add]
  simp only [UInt32.toNat_one]
  omega

/-- One round of the search. -/
theorem findLoop_succ (htext : BytesAt mem strvalP text) (hpat : BytesAt mem substringP pattern)
    (hle : pattern.length ≤ text.length) :
    (findLoop mem strvalP substringP text.length pattern.length (tests + 1) startI : C σ Int) s =
      if startI.toNat + pattern.length ≤ text.length then
        if OccursAt text pattern startI.toNat then .ok (uintToInt startI) s
        else findLoop mem strvalP substringP text.length pattern.length tests (startI + 1) s
      else .ok (-1) s := by
  have hbound : addSize (subSize text.length pattern.length) 1 =
      text.length - pattern.length + 1 := by
    have hends := htext.ends
    rw [subSize_eq hle htext.length_lt]
    apply Nat.mod_eq_of_lt
    have : strvalP.toNat ≠ 0 := fun hz => htext.ptr_ne (UInt64.toNat_inj.mp hz)
    unfold sizeMod
    omega
  rw [findLoop, hbound]
  by_cases hfits : startI.toNat + pattern.length ≤ text.length
  · rw [if_pos (by omega), if_pos hfits]
    obtain ⟨r, hrun, hiff⟩ := matchLoop_ok (s := s) htext hpat (Nat.zero_add _) hfits
      (fun k hk => absurd hk (Nat.not_lt_zero k))
    rw [bind_of_ok hrun]
    by_cases hoccurs : OccursAt text pattern startI.toNat
    · rw [if_pos (hiff.mpr hoccurs), if_pos hoccurs]
      rfl
    · rw [if_neg fun hr => hoccurs (hiff.mp hr), if_neg hoccurs]
  · rw [if_neg (by omega), if_neg hfits]
    rfl

/-- The search stops at the leftmost occurrence, if it can count up to it. -/
theorem findLoop_hit (htext : BytesAt mem strvalP text) (hpat : BytesAt mem substringP pattern)
    (hleft : Leftmost text pattern pos) (hcount : pos < 2 ^ 32) (hstart : startI.toNat ≤ pos)
    (htests : pos - startI.toNat < tests) :
    (findLoop mem strvalP substringP text.length pattern.length tests startI : C σ Int) s =
      .ok (uintToInt (UInt32.ofNat pos)) s := by
  have hends := hleft.occurs.le
  induction tests generalizing startI with
  | zero => omega
  | succ tests ih =>
    rw [findLoop_succ htext hpat (by omega), if_pos (by omega)]
    rcases Nat.eq_or_lt_of_le hstart with he | hlt
    · have hsame : UInt32.ofNat pos = startI := by
        rw [← he, UInt32.ofNat_toNat]
      rw [if_pos (he ▸ hleft.occurs), hsame]
    · have hnext : (startI + 1).toNat = startI.toNat + 1 := toNat_succ (by omega)
      rw [if_neg (hleft.first _ hlt)]
      exact ih (by omega) (by omega)

/-- Where nothing is to be found, the search comes to the end of the text, if it can
count up to it. -/
theorem findLoop_none (htext : BytesAt mem strvalP text) (hpat : BytesAt mem substringP pattern)
    (hle : pattern.length ≤ text.length) (habsent : ∀ i, ¬ OccursAt text pattern i)
    (hcount : text.length < pattern.length + uintMax)
    (hstart : startI.toNat + pattern.length ≤ text.length + 1)
    (htests : text.length + 1 < startI.toNat + pattern.length + tests) :
    (findLoop mem strvalP substringP text.length pattern.length tests startI : C σ Int) s =
      .ok (-1) s := by
  unfold uintMax at hcount
  induction tests generalizing startI with
  | zero => omega
  | succ tests ih =>
    rw [findLoop_succ htext hpat hle]
    by_cases hfits : startI.toNat + pattern.length ≤ text.length
    · have hnext : (startI + 1).toNat = startI.toNat + 1 := toNat_succ (by omega)
      rw [if_pos hfits, if_neg (habsent _)]
      exact ih (by omega) (by omega)
    · rw [if_neg hfits]

/-- Otherwise the index wraps around before the search has come to its end. -/
theorem findLoop_endless (htext : BytesAt mem strvalP text) (hpat : BytesAt mem substringP pattern)
    (habsent : ∀ i < 2 ^ 32, ¬ OccursAt text pattern i)
    (hlong : pattern.length + uintMax ≤ text.length) :
    (findLoop mem strvalP substringP text.length pattern.length tests startI : C σ Int) s =
      .error .endlessLoop s := by
  unfold uintMax at hlong
  induction tests generalizing startI with
  | zero => rfl
  | succ tests ih =>
    have hlt := startI.toNat_lt
    rw [findLoop_succ htext hpat (by omega), if_pos (by omega), if_neg (habsent _ (by omega))]
    exact ih

end Search

section Find
variable {σ : Type} {ops : MemOps σ} {mem : Memory} {s : σ} {strval substring : MemHandle}
  {strvalP substringP : Addr} {text pattern : List UInt8} {pos tests : Nat}

theorem strFind_eq (hs : StrAt ops mem s strval strvalP text)
    (hp : StrAt ops mem s substring substringP pattern) :
    strFind ops mem tests strval substring s =
      if text.length < pattern.length then .ok (-1) s
      else findLoop mem strvalP substringP text.length pattern.length tests 0 s := by
  rw [strFind, if_neg (by simp [hs.valid, hp.valid]), hs.size_eq, hp.size_eq]
  by_cases hlt : text.length < pattern.length
  · rw [if_pos hlt, if_pos hlt]
    rfl
  · rw [if_neg hlt, if_neg hlt, bind_of_ok hs.memP_eq, bind_of_ok hp.memP_eq]

theorem strFind_hit (hs : StrAt ops mem s strval strvalP text)
    (hp : StrAt ops mem s substring substringP pattern) (hleft : Leftmost text pattern pos)
    (hcount : pos < 2 ^ 32) :
    Returns (fun tests => strFind ops mem tests strval substring) s
      (uintToInt (UInt32.ofNat pos)) := by
  have hle := hleft.occurs.le
  refine ⟨pos + 1, ?_⟩
  intro tests htests
  dsimp only
  rw [strFind_eq hs hp, if_neg (by omega)]
  exact findLoop_hit hs.bytes_at hp.bytes_at hleft hcount (Nat.zero_le _) htests

theorem strFind_none (hs : StrAt ops mem s strval strvalP text)
    (hp : StrAt ops mem s substring substringP pattern)
    (habsent : ∀ i, ¬ OccursAt text pattern i)
    (hcount : text.length < pattern.length + uintMax) :
    Returns (fun tests => strFind ops mem tests strval substring) s (-1) := by
  refine ⟨text.length + 2, ?_⟩
  intro tests htests
  dsimp only
  rw [strFind_eq hs hp]
  by_cases hlt : text.length < pattern.length
  · rw [if_pos hlt]
  · have hzero : (0 : UInt32).toNat = 0 := rfl
    rw [if_neg hlt]
    exact findLoop_none hs.bytes_at hp.bytes_at (by omega) habsent hcount (by omega) (by omega)

theorem strFind_endless (hs : StrAt ops mem s strval strvalP text)
    (hp : StrAt ops mem s substring substringP pattern)
    (habsent : ∀ i < 2 ^ 32, ¬ OccursAt text pattern i)
    (hlong : pattern.length + uintMax ≤ text.length) :
    strFind ops mem tests strval substring s = .error .endlessLoop s := by
  rw [strFind_eq hs hp, if_neg (by omega)]
  exact findLoop_endless hs.bytes_at hp.bytes_at habsent hlong

end Find

/-! ## The comparison -/

section Compare
variable {σ : Type} {mem : Memory} {firstP secondP : Addr} {first second : List UInt8} {s : σ}

/-- The comparison stops where the bytes differ, or at the shorter size. -/
theorem compareLoop_ok (hfirst : BytesAt mem firstP first) (hsecond : BytesAt mem secondP second)
    {left i n : Nat} (hsum : i + left = n) (hle : n ≤ first.length) (hle' : n ≤ second.length)
    (hsame : ∀ k < i, first[k]? = second[k]?) :
    ∃ r ≤ n, (compareLoop mem firstP secondP left i : C σ Nat) s = .ok r s ∧
      (∀ k < r, first[k]? = second[k]?) ∧ (r < n → first[r]? ≠ second[r]?) := by
  induction left generalizing i with
  | zero => exact ⟨i, by omega, rfl, hsame, fun hlt => by omega⟩
  | succ left ih =>
    have hfirstb := List.getElem?_eq_getElem (show i < first.length by omega)
    have hsecondb := List.getElem?_eq_getElem (show i < second.length by omega)
    rw [compareLoop, bind_of_ok (hfirst.load_ok hfirstb), bind_of_ok (hsecond.load_ok hsecondb)]
    by_cases heq : first[i] = second[i]
    · rw [if_pos heq]
      apply ih (by omega)
      intro k hk
      rcases Nat.lt_succ_iff_lt_or_eq.mp hk with hlt | he
      · exact hsame k hlt
      · rw [he, hfirstb, hsecondb, heq]
    · rw [if_neg heq]
      refine ⟨i, by omega, rfl, hsame, ?_⟩
      intro _
      rw [hfirstb, hsecondb]
      exact fun he => heq (Option.some.inj he)

end Compare
end M65Tool.Source.StrFunctions
