import M65Tool.Guarantees.PrintfOutcomes

/-!
# GROWTH-ARITHMETIC: the growth loop adds and doubles without wrapping

Both sums of the loop are of object sizes: a length that fits into its block with the
length of a text, and the size of a block with itself. Neither reaches 2^64. The loop
leaves a block of the first doubled size that has room, or none, and what the callers
then store lies inside the block.
-/
namespace M65Tool.Guarantees.GrowthArithmetic
open Source.Mem Source.StringBuffer PrintfOutcomes StringContents Lib.Block Lib.Effect

section Property
variable {σ : Type} (ops : MemOps σ) (bufHandle : MemHandle)

/-- Every request for a usable handle is answered, by a null handle or by a usable one of
the size asked for, which is at most PTRDIFF_MAX. -/
structure Answers (usable : MemHandle → σ → Prop) : Prop
    extends Reallocates ops bufHandle usable where
  returns : ∀ data s size, usable data s → ∃ data' s', ops.memRealloc data size s = .ok data' s'

/-- The buffers at which the loop tests its condition. -/
inductive AtTest (n : Nat) : Strbuf → σ → Strbuf → σ → Prop
  | start (bufp : Strbuf) (s : σ) : AtTest n bufp s bufp s
  | grown {bufp bufp1 bufp' : Strbuf} {s s1 s' : σ}
      (short : addSize bufp.length n > bufp.data.size)
      (call : growStrbuf ops bufHandle bufp s = .ok (true, bufp1) s1)
      (rest : AtTest n bufp1 s1 bufp' s') : AtTest n bufp s bufp' s'

/-- Neither the sum in the condition nor the size to be asked for exceeds `size_t`. -/
def Unwrapped (n : Nat) (bufp : Strbuf) : Prop :=
  addSize bufp.length n = bufp.length + n ∧
  bufp.data.size * 2 % sizeMod = bufp.data.size * 2

/-- The loop has made room: the block has the first doubled size that is large enough, and
up to `n` bytes can be stored behind the text. -/
structure Roomy (n : Nat) (bufp bufp' : Strbuf) (s' : σ) : Prop where
  least : LeastDoubling bufp.data.size (bufp.length + n) bufp'.data.size
  length_eq : bufp'.length = bufp.length
  granted : bufp'.block.length = bufp'.data.size
  inside : bufp'.length + n ≤ bufp'.block.length
  stores : ∀ bytes : Cells, bytes.length ≤ n → storeAtEnd ops bufp' bytes s' =
    .ok { bufp' with block := overwrite bufp'.block bufp'.length bytes } s'

/-- The allocator has refused to double a block that was too small. -/
structure Refused (n : Nat) (bufp : Strbuf) (s : σ) (bufp' : Strbuf) (s' : σ) : Prop where
  null : memIsValid bufp'.data = false
  request : ∃ head sh, AtTest ops bufHandle n bufp s head sh ∧ head.data.size < head.length + n ∧
    ops.memRealloc head.data (head.data.size * 2) sh = .ok bufp'.data s'

/-- How the loop ends: with room, or because a request was refused. -/
def Ends (n : Nat) (bufp : Strbuf) (s : σ) (b : Bool) (bufp' : Strbuf) (s' : σ) : Prop :=
  if b then Roomy ops n bufp bufp' s' else Refused ops bufHandle n bufp s bufp' s'

end Property

section Loop
variable {σ : Type} {libc : Libc σ} {spec : MemAllocator → Option (MemAllocatorSpec σ)}
  {bufHandle : MemHandle} {usable : MemHandle → σ → Prop} {bufp bufp' : Strbuf} {n : Nat}
  {s s' : σ}

theorem valid_unwrapped (valid : Valid usable bufp s) (hn : n ≤ ptrdiffMax) :
    Unwrapped n bufp := by
  have hlength := valid.length_le
  have hsize := valid.size_le
  unfold ptrdiffMax at hsize hn
  constructor
  · apply addSize_eq
    unfold sizeMod
    omega
  · unfold sizeMod
    omega

variable (alloc : Answers (memOps libc spec) bufHandle usable)
include alloc

/-- One round of the loop: the buffer is valid again, at twice the size, or has no block. -/
theorem growStrbuf_answers (valid : Valid usable bufp s) :
    ∃ b bufp1 s1, growStrbuf (memOps libc spec) bufHandle bufp s = .ok (b, bufp1) s1 ∧
      if b then Grown usable bufp bufp1 s1 ∧ bufp1.data.size = bufp.data.size * 2
      else memIsValid bufp1.data = false ∧
        (memOps libc spec).memRealloc bufp.data (bufp.data.size * 2) s = .ok bufp1.data s1 := by
  have hfits := (valid_unwrapped valid (Nat.zero_le ptrdiffMax)).2
  obtain ⟨data', s1, call⟩ := alloc.returns bufp.data s (bufp.data.size * 2 % sizeMod) valid.data
  refine ⟨_, _, s1, growStrbuf_eq alloc.toReallocates valid call, ?_⟩
  cases hvalid : memIsValid data' with
  | true =>
    have hsize := (alloc.answers _ _ _ _ _ valid.data call hvalid).1
    rw [if_pos rfl]
    exact ⟨grown_moved alloc.toReallocates valid call hvalid, hsize.trans hfits⟩
  | false =>
    rw [hfits] at call
    exact ⟨hvalid, call⟩

/-- Every buffer at which the loop tests its condition is a valid one. -/
theorem atTest_valid (valid : Valid usable bufp s)
    (head : AtTest (memOps libc spec) bufHandle n bufp s bufp' s') : Valid usable bufp' s' := by
  induction head with
  | start => exact valid
  | grown short call rest ih =>
    obtain ⟨b, bufp1, s1, hgrow, hout⟩ := growStrbuf_answers alloc valid
    rw [call] at hgrow
    cases hgrow
    exact ih hout.1.toValid

/-- A buffer with room is where the loop stops, and the store finds the room. -/
theorem roomy_refl (valid : Valid usable bufp s) (room : bufp.length + n ≤ bufp.data.size) :
    Roomy (memOps libc spec) n bufp bufp s where
  least := .refl room
  length_eq := rfl
  granted := valid.block_length
  inside := by
    rw [valid.block_length]
    exact room
  stores := by
    intro bytes hbytes
    obtain ⟨ptr, reads⟩ := alloc.data bufp.data s valid.data
    exact storeAtEnd_ok (reads_deref reads) valid.block_length (by omega)

omit alloc in
/-- Room made from a doubled size on is room made from the size that was too small. -/
theorem Roomy.doubled {bufp1 : Strbuf} (short : bufp.data.size < bufp.length + n)
    (size : bufp1.data.size = bufp.data.size * 2) (length : bufp1.length = bufp.length)
    (rest : Roomy (memOps libc spec) n bufp1 bufp' s') :
    Roomy (memOps libc spec) n bufp bufp' s' where
  least := by
    have hleast := rest.least
    rw [size, length] at hleast
    exact hleast.double short
  length_eq := rest.length_eq.trans length
  granted := rest.granted
  inside := rest.inside
  stores := rest.stores

omit alloc in
/-- A request that is refused after a first one was granted. -/
theorem Refused.grown {bufp1 : Strbuf} {s1 : σ} (short : addSize bufp.length n > bufp.data.size)
    (call : growStrbuf (memOps libc spec) bufHandle bufp s = .ok (true, bufp1) s1)
    (rest : Refused (memOps libc spec) bufHandle n bufp1 s1 bufp' s') :
    Refused (memOps libc spec) bufHandle n bufp s bufp' s' := by
  obtain ⟨head, sh, hhead, hrequest⟩ := rest.request
  exact ⟨rest.null, head, sh, .grown short call hhead, hrequest⟩

omit alloc in
theorem growLoop_fits (valid : Valid usable bufp s) (hn : n ≤ ptrdiffMax)
    (room : bufp.length + n ≤ bufp.data.size) (rounds : Nat) :
    growLoop (memOps libc spec) bufHandle n (rounds + 1) bufp s = .ok (true, bufp) s := by
  rw [growLoop, (valid_unwrapped valid hn).1, if_neg (Nat.not_lt.mpr room)]
  rfl

/-- By induction on the rounds that are needed to double the size above the sum: a round
that goes on leaves a buffer of twice the size, for which one round fewer is needed. -/
theorem growLoop_ends (hn : n ≤ ptrdiffMax) (valid : Valid usable bufp s) {needed : Nat}
    (enough : bufp.length + n ≤ bufp.data.size * 2 ^ needed) :
    ∃ b bufp' s', (∀ more,
        growLoop (memOps libc spec) bufHandle n (more + needed + 1) bufp s = .ok (b, bufp') s') ∧
      Ends (memOps libc spec) bufHandle n bufp s b bufp' s' := by
  induction needed generalizing bufp s with
  | zero =>
    have hroom : bufp.length + n ≤ bufp.data.size := by simpa using enough
    exact ⟨true, bufp, s, fun more => growLoop_fits valid hn hroom more,
      roomy_refl alloc valid hroom⟩
  | succ needed ih =>
    by_cases hroom : bufp.length + n ≤ bufp.data.size
    · exact ⟨true, bufp, s, fun more => growLoop_fits valid hn hroom (more + needed + 1),
        roomy_refl alloc valid hroom⟩
    · have hshort : bufp.data.size < bufp.length + n := Nat.not_le.mp hroom
      obtain ⟨b, bufp1, s1, hgrow, hout⟩ := growStrbuf_answers alloc valid
      have hround : ∀ rounds, growLoop (memOps libc spec) bufHandle n (rounds + 1) bufp s =
          (if b then growLoop (memOps libc spec) bufHandle n rounds bufp1
            else pure (false, bufp1)) s1 := by
        intro rounds
        rw [growLoop, (valid_unwrapped valid hn).1, if_pos hshort, bind_of_ok hgrow]
      cases b with
      | false =>
        exact ⟨false, bufp1, s1, fun more => hround (more + needed + 1),
          hout.1, bufp, s, .start bufp s, hshort, hout.2⟩
      | true =>
        obtain ⟨hgrown, hsize⟩ := hout
        have hrest : bufp1.length + n ≤ bufp1.data.size * 2 ^ needed := by
          rw [hgrown.length_eq, hsize, Nat.mul_assoc, ← Nat.pow_succ']
          exact enough
        obtain ⟨b, bufp', s', hall, hends⟩ := ih hgrown.toValid hrest
        refine ⟨b, bufp', s', fun more => (hround (more + needed + 1)).trans (hall more), ?_⟩
        cases b with
        | true => exact Roomy.doubled hshort hsize hgrown.length_eq hends
        | false =>
          have hsum : addSize bufp.length n > bufp.data.size := by
            rw [(valid_unwrapped valid hn).1]
            exact hshort
          exact Refused.grown hsum hgrow hends

end Loop

/-! ## The plain allocator -/

/-- Where the C library answers every request, so does the plain allocator. -/
theorem plain_answers {σ : Type} {libc : Libc σ} {spec : MemAllocator → Option (MemAllocatorSpec σ)}
    {refusals : σ → Nat} {live : σ → Addr → Prop} (plain : spec .plain = some (plainSpec libc))
    (heap : Allocates libc refusals live) {bufHandle : MemHandle}
    (ha : bufHandle.allocator = .plain) (hd : bufHandle.data ≠ 0) :
    Answers (memOps libc spec) bufHandle (PlainBlock live) where
  toReallocates := plain_reallocates plain heap ha hd
  returns := by
    intro data s size ⟨hplain, hdata, hlive⟩
    obtain ⟨a, s', hre, -⟩ := plain_memRealloc (n := size) plain (heap.serves fun _ => True)
      trivial hplain hdata hlive
    exact ⟨_, s', hre⟩

end M65Tool.Guarantees.GrowthArithmetic
