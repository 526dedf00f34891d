import M65Tool.Source.HeapBlocks
import M65Tool.Source.StringBufferGrowth

/-!
# The blocks of a string buffer

A string buffer over the plain allocator owns two blocks, its struct and its bytes. An
append either stores the new bytes, in the block or where it has moved to, or loses the
bytes' block when a growth is refused: the struct has no pointer to it any more.
-/
namespace M65Tool.Source.StringBuffer
open Mem Lib.Block Lib.Effect Lib.Ownership

section Blocks
variable {σ : Type} {libc : Libc σ} {live : σ → Addr → Prop} {rest : Set Addr} {own : List Addr}
  {bufHandle handle : MemHandle} {bufp : Strbuf} {text new : List UInt8} {n c rounds : Nat}
  {α : Type} {E : Fault → σ → Prop}

/-- The heap of the C library, in which no object is larger than PTRDIFF_MAX. -/
structure ObjectHeap (libc : Libc σ) (live : σ → Addr → Prop) : Prop
    extends BlockHeap libc live where
  malloc_le : ∀ n s a s', libc.malloc n s = .ok a s' → a ≠ 0 → n ≤ ptrdiffMax
  realloc_le : ∀ old n s a s', libc.realloc old n s = .ok a s' → a ≠ 0 → n ≤ ptrdiffMax

/-- The bytes' block and the struct. -/
def bufBlocks (bufHandle : MemHandle) (bufp : Strbuf) : List Addr :=
  [bufp.data.data, bufHandle.data]

/-- How a call on a buffer ends: with a buffer of which `Q` holds, or with one that has lost
its block. -/
inductive Ends (live : σ → Addr → Prop) (rest : Set Addr) (bufHandle : MemHandle)
    (Q : Strbuf → Prop) : Bool × Strbuf → σ → Prop
  | done {bufp : Strbuf} {s : σ} (holds : Q bufp)
      (owns : Owns live rest (bufBlocks bufHandle bufp) s) :
      Ends live rest bufHandle Q (true, bufp) s
  | lost {bufp : Strbuf} {bytes : Addr} {s : σ} (data_null : bufp.data.data = 0)
      (owns : Owns live rest [bytes, bufHandle.data] s) :
      Ends live rest bufHandle Q (false, bufp) s

/-- A call that goes on only after its first part has reported true. -/
theorem Ends.andThen {P : σ → Prop} {Q R : Strbuf → Prop} {x : C σ (Bool × Strbuf)}
    {f : Bool × Strbuf → C σ (Bool × Strbuf)} (hx : Triple P x (Ends live rest bufHandle Q) E)
    (stopped : ∀ bufp, f (false, bufp) = pure (false, bufp))
    (hf : ∀ bufp, Q bufp → Triple (Owns live rest (bufBlocks bufHandle bufp)) (f (true, bufp))
      (Ends live rest bufHandle R) E) : Triple P (x >>= f) (Ends live rest bufHandle R) E := by
  refine .seq hx fun result => ?_
  intro s ends
  cases ends with
  | done holds owns => exact hf _ holds s owns
  | lost data_null owns =>
    rw [stopped]
    exact Ends.lost data_null owns

/-! ## What a block can be as large as -/

/-- What is known of every result of a call is known of it inside the guard. -/
theorem guard_result {x : C σ α} {p : α → Prop} (hx : ∀ s a s', x s = .ok a s' → p a)
    {s s' : σ} {a : α} (hrun : sigintGuard libc x s = .ok a s') : p a := by
  obtain ⟨old, s1, -, hrun⟩ := bind_ok_inv hrun
  obtain ⟨b, s2, hcall, hrun⟩ := bind_ok_inv hrun
  obtain ⟨back, s3, -, hrun⟩ := bind_ok_inv hrun
  cases hrun
  exact hx s1 a s2 hcall

variable (heap : ObjectHeap libc live)
include heap

theorem memAlloc_le {s s' : σ} (hrun : (baseOps libc).memAlloc .plain n s = .ok handle s')
    (hd : handle.data ≠ 0) : n ≤ ptrdiffMax := by
  refine guard_result (x := plainAlloc libc .plain n) (p := fun r => r.data ≠ 0 → n ≤ ptrdiffMax)
    (fun s1 r s2 hcall => ?_) hrun hd
  obtain ⟨a, s3, hmalloc, hcall⟩ := bind_ok_inv hcall
  cases hcall
  exact heap.malloc_le n s1 a s2 hmalloc

theorem memAllocClear_le {s s' : σ} (hrun : memAllocClear (baseOps libc) .plain n s = .ok handle s')
    (hd : handle.data ≠ 0) : n ≤ ptrdiffMax := by
  obtain ⟨r, s1, halloc, hrun⟩ := bind_ok_inv hrun
  have hr : r = handle := by
    split at hrun
    · obtain ⟨-, s2, -, hrun⟩ := bind_ok_inv hrun
      cases hrun
      rfl
    · cases hrun
      rfl
  subst hr
  exact memAlloc_le heap halloc hd

theorem memRealloc_le {old : MemHandle} (ha : old.allocator = .plain) (hv : old.data ≠ 0) {s s' : σ}
    (hrun : (baseOps libc).memRealloc old n s = .ok handle s') (hd : handle.data ≠ 0) :
    n ≤ ptrdiffMax := by
  have hrealloc : (baseOps libc).memRealloc old n = sigintGuard libc (plainRealloc libc old n) := by
    change memRealloc libc (baseSpec libc) old n = _
    rw [memRealloc, if_pos (memIsValid_eq_true.mpr hv), ha]
    rfl
  rw [hrealloc] at hrun
  refine guard_result (p := fun r => r.data ≠ 0 → n ≤ ptrdiffMax)
    (fun s1 r s2 hcall => ?_) hrun hd
  rw [plainRealloc, if_pos (memIsValid_eq_true.mpr hv)] at hcall
  obtain ⟨a, s3, hre, hcall⟩ := bind_ok_inv hcall
  cases hcall
  exact heap.realloc_le old.data n s1 a s2 hre

/-! ## Creating and destroying a buffer -/

/-- A buffer that `strbuf_create` returns is empty, in two blocks; what it cannot use it
gives back. -/
theorem strbufCreate_owns (hc : 1 ≤ c) :
    Triple (Owns live rest []) (strbufCreate (baseOps libc) .plain c)
      (fun result s => match result.2 with
        | some bufp => Carries result.1 bufp [] ∧ bufp.data.size = c ∧
          Owns live rest (bufBlocks result.1 bufp) s
        | none => result.1 = .zero ∧ Owns live rest [] s) E := by
  refine .seq (heap.memAlloc_owns sizeofStrbuf) fun bufHandle => Allocated.cases ?_ ?_
  · intro hplain _ hdata
    rw [if_pos (memIsValid_eq_true.mpr hdata)]
    refine .seq ((heap.memAllocClear_owns c).knowing
      (p := fun data => data.data ≠ 0 → c ≤ ptrdiffMax) fun _ _ _ h => memAllocClear_le heap h)
      fun data => .given fun hle => Allocated.cases ?_ ?_
    · intro hplain' hsize hdata'
      rw [if_pos (memIsValid_eq_true.mpr hdata')]
      refine .past (fun s _ => baseOps_deref hplain hdata s)
        (.ret fun s howns => ⟨?_, hsize, howns⟩)
      have hblock : (List.replicate c (some (0 : UInt8))).length = data.size := by
        rw [List.length_replicate, hsize]
      exact ⟨⟨hplain, hdata, hplain', hdata', hblock, by rw [hsize]; exact hc,
        by rw [hsize]; exact hle hdata'⟩, rfl, Nat.zero_le _, rfl⟩
    · intro _ _ hnull
      rw [if_neg (by simpa using hnull)]
      exact .seq (heap.memFree_owns hplain hdata) fun _ => .ret fun s h => ⟨rfl, h.2⟩
  · intro _ _ hnull
    rw [if_neg (by simpa using hnull)]
    exact .ret fun s howns => ⟨rfl, howns⟩

/-- `strbuf_destroy` gives both blocks back. -/
theorem strbufDestroy_owns (intact : Intact bufHandle bufp) :
    Triple (Owns live rest (bufBlocks bufHandle bufp)) (strbufDestroy (baseOps libc) bufHandle bufp)
      (fun _ => Owns live rest []) E := by
  refine .past (fun s _ => strbufIsValid_true rfl intact) ?_
  rw [if_pos rfl]
  refine .past (fun s _ => baseOps_deref intact.handle_plain intact.handle_data s) ?_
  refine .seq (heap.memFree_owns intact.data_plain intact.data_data) fun _ => .given fun _ => ?_
  exact .seq (heap.memFree_owns intact.handle_plain intact.handle_data) fun _ => .ret fun s h => h.2

/-! ## Growing it -/

theorem growStrbuf_owns (h : Carries bufHandle bufp text) :
    Triple (Owns live rest (bufBlocks bufHandle bufp)) (growStrbuf (baseOps libc) bufHandle bufp)
      (Ends live rest bufHandle fun bufp' =>
        Carries bufHandle bufp' text ∧ bufp'.data.size = bufp.data.size * 2) E := by
  have hlength := h.length_le
  have hpos := h.size_pos
  have hfit : bufp.data.size * 2 % sizeMod = bufp.data.size * 2 := by
    have hle := h.size_le
    unfold ptrdiffMax at hle
    unfold sizeMod
    omega
  refine .past (fun s _ => baseOps_deref h.handle_plain h.handle_data s) ?_
  dsimp only
  rw [hfit]
  refine .seq ((heap.memRealloc_owns h.data_plain h.data_data (n := bufp.data.size * 2)
    (by omega)).knowing (p := fun data => data.data ≠ 0 → bufp.data.size * 2 ≤ ptrdiffMax)
      fun _ _ _ hr => memRealloc_le heap h.data_plain h.data_data hr) fun data =>
        .ret fun s hs => ?_
  obtain ⟨hle, hplain, hsize, ⟨hnull, howns⟩ | ⟨hne, howns⟩⟩ := hs
  · rw [memIsValid_eq_false.mpr hnull]
    exact .lost hnull howns
  · rw [memIsValid_eq_true.mpr hne]
    refine .done ⟨h.moved hne hplain ?_ ?_ ?_, hsize⟩ howns <;> rw [hsize]
    · omega
    · omega
    · exact hle hne

/-- The loop ends with room for the new bytes, or the bytes' block is lost. -/
theorem growLoop_owns (hn : n ≤ ptrdiffMax) (h : Carries bufHandle bufp text)
    (enough : bufp.length + n ≤ bufp.data.size * 2 ^ rounds) :
    Triple (Owns live rest (bufBlocks bufHandle bufp))
      (growLoop (baseOps libc) bufHandle n (rounds + 1) bufp)
      (Ends live rest bufHandle fun bufp' =>
        Carries bufHandle bufp' text ∧ bufp'.length + n ≤ bufp'.data.size) E := by
  have hsum : addSize bufp.length n = bufp.length + n := by
    have hle := h.size_le
    have hlen := h.length_le
    unfold ptrdiffMax at hle hn
    exact addSize_eq (by unfold sizeMod; omega)
  induction rounds generalizing bufp with
  | zero =>
    have hroom : ¬ addSize bufp.length n > bufp.data.size := by
      rw [hsum]
      simpa using enough
    rw [growLoop, if_neg hroom]
    exact .ret fun s howns => .done ⟨h, by rw [← hsum]; omega⟩ howns
  | succ rounds ih =>
    rw [growLoop]
    refine .cond (fun hgrow => ?_) fun hroom => ?_
    · refine Ends.andThen (growStrbuf_owns heap h) (fun _ => rfl) ?_
      intro bufp' hq
      obtain ⟨h', hsize⟩ := hq
      have hsame : bufp'.length = bufp.length := h'.length_eq.trans h.length_eq.symm
      refine ih h' ?_ (by rw [hsame]; exact hsum)
      rw [hsame, hsize, Nat.mul_assoc, ← Nat.pow_succ']
      exact enough
    · exact .ret fun s howns => .done ⟨h, by rw [← hsum]; omega⟩ howns

/-- Sixty-four rounds are enough for every object size. -/
theorem growLoop_owns_enough (hrounds : 64 ≤ rounds) (hn : n ≤ ptrdiffMax)
    (h : Carries bufHandle bufp text) :
    Triple (Owns live rest (bufBlocks bufHandle bufp))
      (growLoop (baseOps libc) bufHandle n rounds bufp)
      (Ends live rest bufHandle fun bufp' =>
        Carries bufHandle bufp' text ∧ bufp'.length + n ≤ bufp'.data.size) E := by
  obtain ⟨r, rfl⟩ : ∃ r, rounds = 63 + r + 1 := ⟨rounds - 64, by omega⟩
  refine growLoop_owns heap hn h ?_
  have hsize : bufp.data.size * 2 ^ 63 ≤ bufp.data.size * 2 ^ (63 + r) :=
    Nat.mul_le_mul_left _ (Nat.pow_le_pow_right (by omega) (by omega))
  have hpos := h.size_pos
  have hlen := h.length_le
  unfold ptrdiffMax at hn
  omega

/-! ## Appending -/

omit heap in
/-- Bytes that are stored behind the text are the buffer's. -/
theorem stored_owns (h : Carries bufHandle bufp text) {cells behind : Cells}
    (hcells : cells = new.map some ++ behind)
    (fits : bufp.length + cells.length ≤ bufp.data.size) (result : Strbuf → Strbuf)
    (hresult : result { bufp with block := overwrite bufp.block bufp.length cells } =
      bufp.extended cells new.length) :
    Triple (Owns live rest (bufBlocks bufHandle bufp))
      (do
        let bufp' ← storeAtEnd (baseOps libc) bufp cells
        pure (true, result bufp'))
      (Ends live rest bufHandle fun bufp' => Carries bufHandle bufp' (text ++ new)) E := by
  subst hcells
  refine .past (fun s _ => storeAtEnd_ok (baseOps_deref h.data_plain h.data_data s)
    h.block_length fits) (.ret fun s howns => ?_)
  rw [hresult]
  exact .done (h.store fits) howns

variable (new) in
theorem doStrbufConcatenate_owns (hrounds : 64 ≤ rounds) (h : Carries bufHandle bufp text)
    (cstr : Region) (hptr : cstr.ptr ≠ 0) (apart : ¬ bufp.Spans cstr.ptr)
    (bytes : cstr.bytes.take new.length = new.map some) (hnew : new.length ≤ ptrdiffMax) :
    Triple (Owns live rest (bufBlocks bufHandle bufp))
      (doStrbufConcatenate (baseOps libc) rounds bufHandle bufp cstr new.length)
      (Ends live rest bufHandle fun bufp' => Carries bufHandle bufp' (text ++ new)) E := by
  refine .past (fun s _ => strbufIsValid_true rfl h.toIntact) ?_
  rw [if_pos rfl]
  refine .past (fun s _ => baseOps_deref h.handle_plain h.handle_data s) ?_
  refine Ends.andThen (growLoop_owns_enough heap hrounds hnew h) (fun _ => rfl) ?_
  intro bufp' hq
  obtain ⟨h', hroom⟩ := hq
  have hread : ∀ s : σ, readRegion bufp bufp' cstr new.length s = .ok (new.map some) s := by
    intro s
    rw [readRegion_ok hptr (fun hw => apart hw.1) (le_of_take_map bytes), bytes]
  have hsum : addSize bufp'.length new.length = bufp'.length + new.length := by
    have hle := h'.size_le
    unfold ptrdiffMax at hle
    exact addSize_eq (by unfold sizeMod; omega)
  dsimp only
  rw [if_pos rfl]
  refine .past (fun s _ => hread s) (stored_owns h' (List.append_nil _).symm
    (by simpa using hroom) (fun bufp'' =>
      { bufp'' with length := addSize bufp''.length new.length }) ?_)
  dsimp only
  rw [hsum]
  rfl

theorem strbufConcatenatePrintf_owns (hrounds : 64 ≤ rounds) (h : Carries bufHandle bufp text)
    {fmt : Addr} {vsnprintf : Vsnprintf} (hfmt : fmt ≠ 0) (formats : Formats vsnprintf new)
    (hnew : new.length < intMax) :
    Triple (Owns live rest (bufBlocks bufHandle bufp))
      (strbufConcatenatePrintf (baseOps libc) rounds bufHandle bufp fmt vsnprintf)
      (Ends live rest bufHandle fun bufp' => Carries bufHandle bufp' (text ++ new)) E := by
  have hincr : ∀ s : σ, incrInt (vsnprintf 0).1 s = .ok ((new.length + 1 : Nat) : Int) s := by
    intro s
    have hne : ((new.length : Nat) : Int) ≠ intMax := by omega
    rw [formats.reports, incrInt, if_neg hne]
    rfl
  have hlen : intToSize ((new.length + 1 : Nat) : Int) = new.length + 1 := by
    unfold intMax at hnew
    unfold intToSize sizeMod
    omega
  have hneed : new.length + 1 ≤ ptrdiffMax := by
    unfold intMax at hnew
    unfold ptrdiffMax
    omega
  refine .past (fun s _ => strbufIsValid_true rfl h.toIntact) ?_
  rw [if_pos ⟨rfl, hfmt⟩]
  refine .past (fun s _ => baseOps_deref h.handle_plain h.handle_data s) ?_
  refine .past (fun s _ => hincr s) ?_
  dsimp only
  rw [hlen]
  refine Ends.andThen (growLoop_owns_enough heap hrounds hneed h) (fun _ => rfl) ?_
  intro bufp' hq
  obtain ⟨h', hroom⟩ := hq
  have hwritten : ((vsnprintf (new.length + 1)).2.map some : Cells) =
      new.map some ++ [some 0] := by
    rw [formats.writes, List.take_length, List.map_append]
    rfl
  have hsum : addSize bufp'.length (new.length + 1 + (sizeMod - 1)) =
      bufp'.length + new.length := by
    have hle := h'.size_le
    unfold ptrdiffMax at hle
    unfold addSize sizeMod
    omega
  dsimp only
  rw [if_pos rfl]
  refine stored_owns h' hwritten (by rw [hwritten]; simpa using hroom)
    (fun bufp'' =>
      { bufp'' with length := addSize bufp''.length (new.length + 1 + (sizeMod - 1)) }) ?_
  dsimp only
  rw [hsum]
  rfl

end Blocks
end M65Tool.Source.StringBuffer
