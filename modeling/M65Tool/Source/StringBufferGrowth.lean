import M65Tool.Source.StringBuffer

/-!
# Appending to a string buffer on the plain allocator

Each appending function returns. Unless the allocator refused a request it reports
true, and the buffer then carries its old text followed by the new one.
-/
namespace M65Tool.Source.StringBuffer
open Mem Lib.Block Lib.Effect

section Heap
variable {σ : Type}

/-- The answer `a` to a request for `n` bytes: a live block, or null, which the count
of refusals records. No object is larger than PTRDIFF_MAX. -/
def Answered (refusals : σ → Nat) (live : σ → Addr → Prop) (n : Nat) (a : Addr) (s s' : σ) :
    Prop :=
  if a = 0 then refusals s < refusals s'
  else n ≤ ptrdiffMax ∧ refusals s' = refusals s ∧ live s' a

/-- The allocation functions of the C library on its live blocks. -/
structure Allocates (libc : Libc σ) (refusals : σ → Nat) (live : σ → Addr → Prop) : Prop where
  malloc : ∀ n s, ∃ a s', libc.malloc n s = .ok a s' ∧ Answered refusals live n a s s'
  realloc : ∀ ptr n s, live s ptr →
    ∃ a s', libc.realloc ptr n s = .ok a s' ∧ Answered refusals live n a s s'
  signal : ∀ handler s, ∃ old s', libc.signal handler s = .ok old s' ∧
    refusals s' = refusals s ∧ ∀ a, live s a → live s' a

/-- The same of the requests for these sizes. -/
structure Serves (sizes : Nat → Prop) (libc : Libc σ) (refusals : σ → Nat)
    (live : σ → Addr → Prop) : Prop where
  malloc : ∀ n s, sizes n → ∃ a s', libc.malloc n s = .ok a s' ∧ Answered refusals live n a s s'
  realloc : ∀ ptr n s, sizes n → live s ptr →
    ∃ a s', libc.realloc ptr n s = .ok a s' ∧ Answered refusals live n a s s'
  signal : ∀ handler s, ∃ old s', libc.signal handler s = .ok old s' ∧
    refusals s' = refusals s ∧ ∀ a, live s a → live s' a

theorem Allocates.serves {libc : Libc σ} {refusals : σ → Nat} {live : σ → Addr → Prop}
    (heap : Allocates libc refusals live) (sizes : Nat → Prop) :
    Serves sizes libc refusals live where
  malloc n s _ := heap.malloc n s
  realloc ptr n s _ hl := heap.realloc ptr n s hl
  signal := heap.signal

end Heap

/-- The struct and its data are blocks of the plain allocator. -/
structure Intact (bufHandle : MemHandle) (bufp : Strbuf) : Prop where
  handle_plain : bufHandle.allocator = .plain
  handle_data : bufHandle.data ≠ 0
  data_plain : bufp.data.allocator = .plain
  data_data : bufp.data.data ≠ 0
  block_length : bufp.block.length = bufp.data.size
  size_pos : 1 ≤ bufp.data.size
  size_le : bufp.data.size ≤ ptrdiffMax

/-- The buffer once `cells` are stored behind its bytes and `kept` of them belong to it. -/
def Strbuf.extended (bufp : Strbuf) (cells : Cells) (kept : Nat) : Strbuf :=
  { bufp with
    block := overwrite bufp.block bufp.length cells
    length := bufp.length + kept }

section Contents
variable {bufp : Strbuf} {text new : List UInt8} {rest : Cells}

theorem contents_stored (within : bufp.length ≤ bufp.block.length)
    (contents : bufp.block.take bufp.length = text.map some) :
    (overwrite bufp.block bufp.length (new.map some ++ rest)).take (bufp.length + new.length) =
      (text ++ new).map some := by
  have hall := take_overwrite (new.map some ++ rest) within
  have hlen : (bufp.block.take bufp.length ++ new.map some).length =
      bufp.length + new.length := by
    simp [within]
  have hshort : bufp.length + new.length ≤
      bufp.length + (new.map some ++ rest).length := by simp
  rw [← Nat.min_eq_left hshort, ← List.take_take, hall, ← List.append_assoc, ← hlen,
    List.take_left, contents, List.map_append]

theorem contents_moved {data : MemHandle} (valid : data.data ≠ 0)
    (within : bufp.length ≤ bufp.block.length) (large : bufp.length ≤ data.size)
    (contents : bufp.block.take bufp.length = text.map some) :
    (bufp.moved data).block.take bufp.length = text.map some := by
  unfold Strbuf.moved
  rw [if_pos (memIsValid_eq_true.mpr valid)]
  dsimp only
  rw [take_resize within large]
  exact contents

end Contents

/-- The buffer's bytes are the text. -/
structure Carries (bufHandle : MemHandle) (bufp : Strbuf) (text : List UInt8) : Prop
    extends Intact bufHandle bufp where
  length_eq : bufp.length = text.length
  length_le : bufp.length ≤ bufp.data.size
  contents : bufp.block.take bufp.length = text.map some

namespace Carries
variable {bufHandle : MemHandle} {bufp : Strbuf} {text new : List UInt8} {rest : Cells}

/-- The text is stored behind the one that is there; what follows it is not kept. -/
theorem store (h : Carries bufHandle bufp text)
    (fits : bufp.length + (new.map some ++ rest).length ≤ bufp.data.size) :
    Carries bufHandle (bufp.extended (new.map some ++ rest) new.length) (text ++ new) where
  handle_plain := h.handle_plain
  handle_data := h.handle_data
  data_plain := h.data_plain
  data_data := h.data_data
  block_length := by
    unfold Strbuf.extended
    dsimp only
    rw [length_overwrite (by rw [h.block_length]; exact fits)]
    exact h.block_length
  size_pos := h.size_pos
  size_le := h.size_le
  length_eq := by simp [Strbuf.extended, h.length_eq]
  length_le := by
    simp only [List.length_append, List.length_map] at fits
    unfold Strbuf.extended
    dsimp only
    omega
  contents := by
    unfold Strbuf.extended
    exact contents_stored (by rw [h.block_length]; exact h.length_le) h.contents

/-- A reallocated block that is still large enough carries the text. -/
theorem moved (h : Carries bufHandle bufp text) {data : MemHandle} (valid : data.data ≠ 0)
    (plain : data.allocator = .plain) (large : bufp.length ≤ data.size) (pos : 1 ≤ data.size)
    (le : data.size ≤ ptrdiffMax) : Carries bufHandle (bufp.moved data) text where
  handle_plain := h.handle_plain
  handle_data := h.handle_data
  data_plain := plain
  data_data := valid
  block_length := by
    unfold Strbuf.moved
    rw [if_pos (memIsValid_eq_true.mpr valid)]
    exact length_resize
  size_pos := pos
  size_le := le
  length_eq := h.length_eq
  length_le := large
  contents := contents_moved valid (by rw [h.block_length]; exact h.length_le) large h.contents

end Carries

section Calls
variable {σ : Type} {libc : Libc σ} {spec : MemAllocator → Option (MemAllocatorSpec σ)}
  {refusals : σ → Nat} {live : σ → Addr → Prop} {bufHandle : MemHandle} {bufp : Strbuf}
  {text new : List UInt8} {s : σ} {sizes : Nat → Prop} {n rounds : Nat}

/-- What an allocator function does inside the guard, if setting the handler back leaves it
as it is. -/
theorem sigintGuard_ok {α : Type} (heap : Serves sizes libc refusals live) {x : C σ α}
    {R : α → σ → Prop}
    (hx : ∀ s1, refusals s1 = refusals s → (∀ a, live s a → live s1 a) →
      ∃ r s2, x s1 = .ok r s2 ∧ R r s2)
    (stable : ∀ r s2 s3, R r s2 → refusals s3 = refusals s2 → (∀ a, live s2 a → live s3 a) →
      R r s3) :
    ∃ r s', sigintGuard libc x s = .ok r s' ∧ R r s' := by
  obtain ⟨old, s1, hsig, hr1, hl1⟩ := heap.signal .ign s
  obtain ⟨r, s2, hrun, hr⟩ := hx s1 hr1 hl1
  obtain ⟨old', s3, hback, hr3, hl3⟩ := heap.signal old s2
  refine ⟨r, s3, ?_, stable r s2 s3 hr hr3 hl3⟩
  rw [sigintGuard, bind_of_ok hsig, bind_of_ok hrun, bind_of_ok hback]
  rfl

/-- An allocator function that answers a request still does so inside the guard. -/
theorem sigintGuard_answered (heap : Serves sizes libc refusals live) {x : C σ MemHandle}
    (hx : ∀ s1, (∀ a, live s a → live s1 a) →
      ∃ a s2, x s1 = .ok ⟨a, n, .plain⟩ s2 ∧ Answered refusals live n a s1 s2) :
    ∃ a s', sigintGuard libc x s = .ok ⟨a, n, .plain⟩ s' ∧
      Answered refusals live n a s s' := by
  obtain ⟨r, s', hrun, a, rfl, hans⟩ := sigintGuard_ok (s := s) (x := x)
    (R := fun r s' => ∃ a, r = ⟨a, n, .plain⟩ ∧ Answered refusals live n a s s') heap
    (by
      intro s1 hr1 hl1
      obtain ⟨a, s2, hrun, hans⟩ := hx s1 hl1
      refine ⟨_, s2, hrun, a, rfl, ?_⟩
      unfold Answered at hans ⊢
      rw [← hr1]
      exact hans)
    (by
      intro r s2 s3 ⟨a, hr, hans⟩ hr3 hl3
      refine ⟨a, hr, ?_⟩
      unfold Answered at hans ⊢
      by_cases hz : a = 0
      · rw [if_pos hz] at hans ⊢
        omega
      · rw [if_neg hz] at hans ⊢
        exact ⟨hans.1, by omega, hl3 a hans.2.2⟩)
  exact ⟨a, s', hrun, hans⟩

theorem plain_memAlloc (s : σ) (plain : spec .plain = some (plainSpec libc))
    (heap : Serves sizes libc refusals live) (hn : sizes n) :
    ∃ a s', (memOps libc spec).memAlloc .plain n s = .ok ⟨a, n, .plain⟩ s' ∧
      Answered refusals live n a s s' := by
  change ∃ a s', memAlloc libc spec .plain n s = _ ∧ _
  rw [memAlloc, plain]
  apply sigintGuard_answered heap
  intro s1 _
  obtain ⟨a, s2, halloc, hans⟩ := heap.malloc n s1 hn
  exact ⟨a, s2, by rw [plainAlloc, bind_of_ok halloc]; rfl, hans⟩

theorem plain_memRealloc (plain : spec .plain = some (plainSpec libc))
    (heap : Serves sizes libc refusals live) (hn : sizes n) {handle : MemHandle}
    (ha : handle.allocator = .plain) (hd : handle.data ≠ 0) (hl : live s handle.data) :
    ∃ a s', (memOps libc spec).memRealloc handle n s = .ok ⟨a, n, .plain⟩ s' ∧
      Answered refusals live n a s s' := by
  change ∃ a s', memRealloc libc spec handle n s = _ ∧ _
  rw [memRealloc, if_pos (memIsValid_eq_true.mpr hd), ha, plain]
  apply sigintGuard_answered heap
  intro s1 hlive
  obtain ⟨a, s2, hre, hans⟩ := heap.realloc handle.data n s1 hn (hlive _ hl)
  refine ⟨a, s2, ?_, hans⟩
  rw [plainRealloc, if_pos (memIsValid_eq_true.mpr hd), bind_of_ok hre, ha]
  rfl

/-- The call returns. It reports true unless an allocation was refused, and then leaves
a live buffer of which `Q` holds. -/
def Succeeds (refusals : σ → Nat) (live : σ → Addr → Prop) (x : C σ (Bool × Strbuf)) (s : σ)
    (Q : Strbuf → Prop) : Prop :=
  ∃ b bufp s', x s = .ok (b, bufp) s' ∧
    if b then refusals s' = refusals s ∧ live s' bufp.data.data ∧ Q bufp
    else refusals s < refusals s'

theorem Succeeds.ret {Q : Strbuf → Prop} (hl : live s bufp.data.data) (hq : Q bufp) :
    Succeeds refusals live (pure (true, bufp)) s Q :=
  ⟨true, bufp, s, rfl, rfl, hl, hq⟩

theorem Succeeds.weaken {x : C σ (Bool × Strbuf)} {Q Q' : Strbuf → Prop}
    (h : Succeeds refusals live x s Q) (hq : ∀ bufp, Q bufp → Q' bufp) :
    Succeeds refusals live x s Q' := by
  obtain ⟨b, bufp', s', hx, hout⟩ := h
  refine ⟨b, bufp', s', hx, ?_⟩
  cases b with
  | false => exact hout
  | true => exact ⟨hout.1, hout.2.1, hq _ hout.2.2⟩

/-- A call that goes on only after its first part has reported true. -/
theorem Succeeds.andThen {x : C σ (Bool × Strbuf)} {f : Bool × Strbuf → C σ (Bool × Strbuf)}
    {Q R : Strbuf → Prop} (hx : Succeeds refusals live x s Q)
    (stopped : ∀ bufp, f (false, bufp) = pure (false, bufp))
    (hf : ∀ bufp s', live s' bufp.data.data → Q bufp →
      Succeeds refusals live (f (true, bufp)) s' R) :
    Succeeds refusals live (x >>= f) s R := by
  obtain ⟨b, bufp', s', hrun, hout⟩ := hx
  cases b with
  | false =>
    refine ⟨false, bufp', s', ?_, hout⟩
    rw [bind_of_ok hrun, stopped]
    rfl
  | true =>
    obtain ⟨hr, hl, hq⟩ := hout
    obtain ⟨b', bufp'', s'', hrun', hout'⟩ := hf bufp' s' hl hq
    refine ⟨b', bufp'', s'', ?_, ?_⟩
    · rw [bind_of_ok hrun, hrun']
    · rw [← hr]
      exact hout'

/-! ## A new buffer -/

theorem plain_memAllocClear (s : σ) (plain : spec .plain = some (plainSpec libc))
    (heap : Serves sizes libc refusals live) (hn : sizes n) :
    ∃ a s', memAllocClear (memOps libc spec) .plain n s = .ok ⟨a, n, .plain⟩ s' ∧
      Answered refusals live n a s s' := by
  obtain ⟨a, s', halloc, hans⟩ := plain_memAlloc s plain heap hn
  refine ⟨a, s', ?_, hans⟩
  rw [memAllocClear, bind_of_ok halloc]
  by_cases hz : a = 0
  · rw [if_neg (by simpa using hz)]
    rfl
  · rw [if_pos (memIsValid_eq_true.mpr hz), bind_of_ok (plain_deref plain rfl hz)]
    rfl

/-- A buffer that `strbuf_create` returns is empty. -/
theorem strbufCreate_carries (plain : spec .plain = some (plainSpec libc))
    (heap : Serves (0 < ·) libc refusals live) {s' : σ} {c : Nat} (hc : 1 ≤ c)
    (hrun : strbufCreate (memOps libc spec) .plain c s = .ok (bufHandle, some bufp) s') :
    Carries bufHandle bufp [] ∧ bufp.data.size = c := by
  obtain ⟨a, s1, halloc, -⟩ := plain_memAlloc (n := sizeofStrbuf) s plain heap (by decide)
  rw [strbufCreate, bind_of_ok halloc] at hrun
  by_cases ha : a = 0
  · rw [if_neg (by simpa using ha)] at hrun
    cases hrun
  · obtain ⟨b, s2, hclear, hans⟩ := plain_memAllocClear s1 plain heap hc
    rw [if_pos (memIsValid_eq_true.mpr ha), bind_of_ok hclear] at hrun
    by_cases hb : b = 0
    · rw [if_neg (by simpa using hb)] at hrun
      obtain ⟨-, s3, -, hrun⟩ := bind_ok_inv hrun
      cases hrun
    · rw [if_pos (memIsValid_eq_true.mpr hb), bind_of_ok (plain_deref plain rfl ha)] at hrun
      unfold Answered at hans
      rw [if_neg hb] at hans
      cases hrun
      exact ⟨⟨⟨rfl, ha, rfl, hb, List.length_replicate, hc, hans.1⟩, rfl, Nat.zero_le _, rfl⟩, rfl⟩

/-! ## The growth loop -/

theorem growStrbuf_succeeds (plain : spec .plain = some (plainSpec libc))
    (heap : Serves (0 < ·) libc refusals live) (h : Carries bufHandle bufp text)
    (hl : live s bufp.data.data) :
    Succeeds refusals live (growStrbuf (memOps libc spec) bufHandle bufp) s fun bufp' =>
      Carries bufHandle bufp' text ∧ bufp'.data.size = bufp.data.size * 2 := by
  have hfit : bufp.data.size * 2 % sizeMod = bufp.data.size * 2 := by
    have hle := h.size_le
    unfold ptrdiffMax at hle
    unfold sizeMod
    omega
  have hpos : 0 < bufp.data.size * 2 := by
    have := h.size_pos
    omega
  obtain ⟨a, s', hre, hans⟩ := plain_memRealloc plain heap hpos h.data_plain h.data_data hl
  refine ⟨a != 0, bufp.moved ⟨a, bufp.data.size * 2, .plain⟩, s', ?_, ?_⟩
  · rw [growStrbuf, bind_of_ok (plain_deref plain h.handle_plain h.handle_data),
      hfit, bind_of_ok hre]
    rfl
  · unfold Answered at hans
    by_cases hz : a = 0
    · rw [if_pos hz] at hans
      rw [if_neg (by simpa using hz)]
      exact hans
    · rw [if_neg hz] at hans
      rw [if_pos (by simpa using hz)]
      exact ⟨hans.2.1, hans.2.2, h.moved hz rfl (by have := h.length_le; dsimp only; omega)
        (by have := h.size_pos; dsimp only; omega) hans.1, rfl⟩

/-- The loop ends with room for the new bytes: each round doubles the size, which the
remaining rounds bring above every sum of two object sizes. -/
theorem growLoop_succeeds (plain : spec .plain = some (plainSpec libc))
    (heap : Serves (0 < ·) libc refusals live) (hn : n ≤ ptrdiffMax)
    (h : Carries bufHandle bufp text) (hl : live s bufp.data.data)
    (enough : bufp.length + n ≤ bufp.data.size * 2 ^ rounds) :
    Succeeds refusals live (growLoop (memOps libc spec) bufHandle n (rounds + 1) bufp) s
      fun bufp' => Carries bufHandle bufp' text ∧ bufp'.length + n ≤ bufp'.data.size ∧
        Doubling bufp.data.size bufp'.data.size := by
  have hsum : addSize bufp.length n = bufp.length + n := by
    have hle := h.size_le
    have hlen := h.length_le
    unfold ptrdiffMax at hle hn
    unfold addSize sizeMod
    omega
  induction rounds generalizing bufp s with
  | zero =>
    have hroom : ¬ addSize bufp.length n > bufp.data.size := by
      rw [hsum]
      simpa using enough
    rw [growLoop, if_neg hroom]
    exact .ret hl ⟨h, by rw [← hsum]; omega, Doubling.refl _⟩
  | succ rounds ih =>
    rw [growLoop]
    by_cases hgrow : addSize bufp.length n > bufp.data.size
    · rw [if_pos hgrow]
      refine (growStrbuf_succeeds plain heap h hl).andThen (fun _ => rfl) ?_
      intro bufp' s' hl' ⟨h', hsize⟩
      have hsame : bufp'.length = bufp.length := h'.length_eq.trans h.length_eq.symm
      have henough : bufp'.length + n ≤ bufp'.data.size * 2 ^ rounds := by
        rw [hsame, hsize, Nat.mul_assoc, ← Nat.pow_succ']
        exact enough
      have hsum' : addSize bufp'.length n = bufp'.length + n := by
        rw [hsame]
        exact hsum
      refine (ih h' hl' henough hsum').weaken ?_
      intro bufp'' ⟨h'', hroom, hdouble⟩
      rw [hsize] at hdouble
      exact ⟨h'', hroom, (Doubling.refl _).double.trans hdouble⟩
    · rw [if_neg hgrow]
      exact .ret hl ⟨h, by rw [← hsum]; omega, Doubling.refl _⟩

/-- Sixty-four rounds are enough for every object size. -/
theorem growLoop_enough (plain : spec .plain = some (plainSpec libc))
    (heap : Serves (0 < ·) libc refusals live) (hrounds : 64 ≤ rounds) (hn : n ≤ ptrdiffMax)
    (h : Carries bufHandle bufp text) (hl : live s bufp.data.data) :
    Succeeds refusals live (growLoop (memOps libc spec) bufHandle n rounds bufp) s
      fun bufp' => Carries bufHandle bufp' text ∧ bufp'.length + n ≤ bufp'.data.size ∧
        Doubling bufp.data.size bufp'.data.size := by
  obtain ⟨r, rfl⟩ : ∃ r, rounds = 63 + r + 1 := ⟨rounds - 64, by omega⟩
  apply growLoop_succeeds plain heap hn h hl
  have hsize : bufp.data.size * 2 ^ 63 ≤ bufp.data.size * 2 ^ (63 + r) :=
    Nat.mul_le_mul_left _ (Nat.pow_le_pow_right (by omega) (by omega))
  have hpos := h.size_pos
  have hlen := h.length_le
  unfold ptrdiffMax at hn
  omega

/-! ## The appending functions -/

/-- The buffer carries the new bytes behind the text, in a block doubled as often as needed. -/
def Appended (bufHandle : MemHandle) (bufp : Strbuf) (text new : List UInt8) (bufp' : Strbuf) :
    Prop :=
  Carries bufHandle bufp' (text ++ new) ∧ Doubling bufp.data.size bufp'.data.size

theorem strbufIsValid_true (plain : spec .plain = some (plainSpec libc))
    (h : Intact bufHandle bufp) : strbufIsValid (memOps libc spec) bufHandle bufp s = .ok true s := by
  rw [strbufIsValid, if_pos (memIsValid_eq_true.mpr h.handle_data),
    bind_of_ok (plain_deref plain h.handle_plain h.handle_data),
    memIsValid_eq_true.mpr h.data_data]
  rfl

theorem storeAtEnd_ok {ops : MemOps σ} (pointed : deref ops bufp.data s = .ok () s)
    (blockLength : bufp.block.length = bufp.data.size) {bytes : Cells}
    (fits : bufp.length + bytes.length ≤ bufp.data.size) :
    storeAtEnd ops bufp bytes s =
      .ok { bufp with block := overwrite bufp.block bufp.length bytes } s := by
  rw [storeAtEnd, bind_of_ok pointed, blockLength, if_pos fits]
  rfl

theorem addSize_eq {m : Nat} (fits : m + n < sizeMod) : addSize m n = m + n :=
  Nat.mod_eq_of_lt fits

/-- A region that is still there is read as it was at the call. -/
theorem readRegion_ok {cstr : Region} {bufp' : Strbuf} (hptr : cstr.ptr ≠ 0)
    (there : ¬ (bufp.Spans cstr.ptr ∧ bufp'.data.data ≠ bufp.data.data))
    (long : n ≤ cstr.bytes.length) :
    (readRegion bufp bufp' cstr n : C σ Cells) s = .ok (cstr.bytes.take n) s := by
  rw [readRegion, if_neg hptr, if_neg there, if_neg (Nat.not_lt.mpr long)]
  rfl

theorem le_of_take_map {cells : Cells} (bytes : cells.take new.length = new.map some) :
    new.length ≤ cells.length := by
  have := congrArg List.length bytes
  simp only [List.length_take, List.length_map] at this
  omega

/-- What `do_strbuf_concatenate` goes on to once the buffer has room for the new bytes. -/
theorem doStrbufConcatenate_grown {ops : MemOps σ} {cstr : Region} {bufp' : Strbuf} {s' : σ}
    (valid : strbufIsValid ops bufHandle bufp s = .ok true s)
    (pointed : deref ops bufHandle s = .ok () s)
    (grown : growLoop ops bufHandle n rounds bufp s = .ok (true, bufp') s') :
    doStrbufConcatenate ops rounds bufHandle bufp cstr n s =
      (readRegion bufp bufp' cstr n >>= fun bytes => do
        let bufp'' ← storeAtEnd ops bufp' bytes
        pure (true, { bufp'' with length := addSize bufp''.length n })) s' := by
  rw [doStrbufConcatenate, bind_of_ok valid, if_pos rfl, bind_of_ok pointed, bind_of_ok grown]
  rfl

theorem doStrbufConcatenate_succeeds (plain : spec .plain = some (plainSpec libc))
    (heap : Serves (0 < ·) libc refusals live) (hrounds : 64 ≤ rounds)
    (h : Carries bufHandle bufp text) (hl : live s bufp.data.data) {cstr : Region}
    (hptr : cstr.ptr ≠ 0) (apart : ¬ bufp.Spans cstr.ptr)
    (bytes : cstr.bytes.take new.length = new.map some) (hnew : new.length ≤ ptrdiffMax) :
    Succeeds refusals live
      (doStrbufConcatenate (memOps libc spec) rounds bufHandle bufp cstr new.length) s
      (Appended bufHandle bufp text new) := by
  have hvalid := strbufIsValid_true (s := s) plain h.toIntact
  have hpointed := plain_deref (s := s) plain h.handle_plain h.handle_data
  obtain ⟨b, bufp', s', hgrow, hout⟩ := growLoop_enough plain heap hrounds hnew h hl
  cases b with
  | false =>
    refine ⟨false, bufp', s', ?_, hout⟩
    rw [doStrbufConcatenate, bind_of_ok hvalid, if_pos rfl, bind_of_ok hpointed, bind_of_ok hgrow]
    rfl
  | true =>
    obtain ⟨hr, hl', h', hroom, hdouble⟩ := hout
    have hread : (readRegion bufp bufp' cstr new.length : C σ Cells) s' =
        .ok (new.map some) s' := by
      rw [readRegion_ok hptr (fun hw => apart hw.1) (le_of_take_map bytes), bytes]
    have hfits : bufp'.length + (new.map some ++ ([] : Cells)).length ≤ bufp'.data.size := by
      simpa using hroom
    have hsum : addSize bufp'.length new.length = bufp'.length + new.length := by
      apply addSize_eq
      have hle := h'.size_le
      unfold ptrdiffMax at hle
      unfold sizeMod
      omega
    have hstored := h'.store hfits
    rw [List.append_nil] at hstored hfits
    refine ⟨true, bufp'.extended (new.map some) new.length, s', ?_, hr, hl', hstored, hdouble⟩
    have hpointed' := plain_deref (s := s') plain h'.data_plain h'.data_data
    rw [doStrbufConcatenate_grown hvalid hpointed hgrow, bind_of_ok hread,
      bind_of_ok (storeAtEnd_ok hpointed' h'.block_length hfits)]
    dsimp only
    rw [hsum]
    rfl

/-- `vsnprintf` reports the length of the text, and writes as much of it as fits before
a terminating NUL. -/
structure Formats (vsnprintf : Vsnprintf) (new : List UInt8) : Prop where
  reports : ∀ size, (vsnprintf size).1 = new.length
  writes : ∀ size, (vsnprintf (size + 1)).2 = new.take size ++ [0]

theorem strbufConcatenatePrintf_succeeds (plain : spec .plain = some (plainSpec libc))
    (heap : Serves (0 < ·) libc refusals live) (hrounds : 64 ≤ rounds)
    (h : Carries bufHandle bufp text) (hl : live s bufp.data.data) {fmt : Addr}
    {vsnprintf : Vsnprintf} (hfmt : fmt ≠ 0) (formats : Formats vsnprintf new)
    (hnew : new.length < intMax) :
    Succeeds refusals live
      (strbufConcatenatePrintf (memOps libc spec) rounds bufHandle bufp fmt vsnprintf) s
      (Appended bufHandle bufp text new) := by
  have hincr : (incrInt (vsnprintf 0).1 : C σ Int) s = .ok ((new.length + 1 : Nat) : Int) s := by
    have hne : ((new.length : Nat) : Int) ≠ intMax := by omega
    rw [formats.reports, incrInt, if_neg hne]
    rfl
  have hlen : intToSize ((new.length + 1 : Nat) : Int) = new.length + 1 := by
    unfold intMax at hnew
    unfold intToSize sizeMod
    omega
  have hneed : new.length + 1 ≤ ptrdiffMax := by
    unfold intMax at hnew
    unfold ptrdiffMax
    omega
  have hwritten : ((vsnprintf (new.length + 1)).2.map some : Cells) = new.map some ++ [some 0] := by
    rw [formats.writes, List.take_length, List.map_append]
    rfl
  unfold Succeeds
  rw [strbufConcatenatePrintf, bind_of_ok (strbufIsValid_true plain h.toIntact),
    if_pos ⟨rfl, hfmt⟩, bind_of_ok (plain_deref plain h.handle_plain h.handle_data),
    bind_of_ok hincr, hlen]
  refine (growLoop_enough plain heap hrounds hneed h hl).andThen (fun _ => rfl) ?_
  intro bufp' s' hl' ⟨h', hroom, hdouble⟩
  have hfits : bufp'.length + (new.map some ++ [some 0]).length ≤ bufp'.data.size := by
    simpa using hroom
  have hsum : addSize bufp'.length (new.length + 1 + (sizeMod - 1)) =
      bufp'.length + new.length := by
    have hle := h'.size_le
    unfold ptrdiffMax at hle
    unfold addSize sizeMod
    omega
  refine ⟨true, bufp'.extended (new.map some ++ [some 0]) new.length, s', ?_, rfl, hl',
    h'.store hfits, hdouble⟩
  dsimp only
  have hpointed := plain_deref (s := s') plain h'.data_plain h'.data_data
  rw [if_pos rfl, hwritten, bind_of_ok (storeAtEnd_ok hpointed h'.block_length hfits)]
  dsimp only
  rw [hsum]
  rfl

end Calls
end M65Tool.Source.StringBuffer
