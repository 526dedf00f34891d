import M65Tool.Guarantees.StringContents
import M65Tool.Source.ReadOnly

/-!
# APPEND-FAILURE: an append that cannot grow the buffer loses it

`grow_strbuf` stores what `mem_realloc` returned before it looks at it. When that is
null the struct has no pointer to the bytes any more: the buffer is invalid, and
`strbuf_destroy` returns at its first test and frees neither the bytes nor the struct.
-/
namespace M65Tool.Guarantees.AppendFailure
open Source Source.Mem Source.StringBuffer StringContents Lib.Effect

/-- A valid buffer of the plain allocator. -/
structure PlainBuffer (bufHandle : MemHandle) (bufp : Strbuf) : Prop where
  handle_plain : bufHandle.allocator = .plain
  handle_data : bufHandle.data ≠ 0
  data_plain : bufp.data.allocator = .plain
  data_data : bufp.data.data ≠ 0

/-- The buffer is valid and holds the bytes it held, and a destroy frees its two blocks. -/
structure LeftIntact {σ : Type} (ops : MemOps σ) (live : σ → Addr → Prop)
    (bufHandle : MemHandle) (bufp bufp' : Strbuf) (s' : σ) : Prop where
  valid : strbufIsValid ops bufHandle bufp' s' = .ok true s'
  length_eq : bufp'.length = bufp.length
  bytes_eq : bufp'.block.take bufp.length = bufp.block.take bufp.length
  freed : ∃ s'', strbufDestroy ops bufHandle bufp' s' = .ok () s'' ∧
    ¬ live s'' bufp'.data.data ∧ ¬ live s'' bufHandle.data

/-- The struct has lost its pointer to the bytes. -/
structure Lost (bufp bufp' : Strbuf) : Prop where
  data_null : bufp'.data.data = 0
  length_eq : bufp'.length = bufp.length

/-- The state in which a call ends. -/
def endState {σ α : Type} : EStateM.Result Fault σ α → σ
  | .ok _ s => s
  | .error _ s => s

section Calls
variable {σ : Type} {libc : Libc σ} {spec : MemAllocator → Option (MemAllocatorSpec σ)}
  {refusals : σ → Nat} {live : σ → Addr → Prop} {rounds r : Nat} {bufHandle : MemHandle}
  {bufp : Strbuf}

/-- The buffer's block is live, and so many requests have been refused. -/
def Before (refusals : σ → Nat) (live : σ → Addr → Prop) (r : Nat) (bufp : Strbuf) (s : σ) :
    Prop :=
  live s bufp.data.data ∧ refusals s = r

/-- Either no request has been refused since, or the call returns false and has lost the
bytes. -/
def After (refusals : σ → Nat) (r : Nat) (bufp : Strbuf) (result : Bool × Strbuf) (s : σ) : Prop :=
  refusals s = r ∨ (result.1 = false ∧ Lost bufp result.2)

/-- A call on the buffer that loses it when a request is refused. -/
def LosesWhenRefused (refusals : σ → Nat) (live : σ → Addr → Prop) (bufp : Strbuf)
    (x : C σ (Bool × Strbuf)) : Prop :=
  ∀ r, Triple (Before refusals live r bufp) x (After refusals r bufp) fun _ s => refusals s = r

theorem LosesWhenRefused.of_keeps {x : C σ (Bool × Strbuf)} (h : Keeps x) :
    LosesWhenRefused refusals live bufp x := by
  intro r s hs
  have hkept := h (fun t => refusals t = r) s hs.2
  cases hx : x s with
  | ok result s' =>
    rw [hx] at hkept
    exact .inl hkept
  | error e s' =>
    rw [hx] at hkept
    exact hkept

theorem LosesWhenRefused.after {α : Type} {x : C σ α} {f : α → C σ (Bool × Strbuf)} (hx : Keeps x)
    (hf : ∀ a, LosesWhenRefused refusals live bufp (f a)) :
    LosesWhenRefused refusals live bufp (x >>= f) := by
  intro r s hs
  cases hrun : x s with
  | ok a s' =>
    rw [bind_of_ok hrun, hx.eq_of_ok hrun]
    exact hf a r s hs
  | error e s' =>
    rw [bind_of_error hrun]
    exact (hx (fun t => refusals t = r)).of_error hs.2 hrun

/-! ## The growth loop -/

/-- A growth step that is refused leaves a null handle, one that is not a live block. -/
theorem growStrbuf_outcome (plain : spec .plain = some (plainSpec libc))
    (heap : Allocates libc refusals live) (valid : PlainBuffer bufHandle bufp) :
    Triple (Before refusals live r bufp) (growStrbuf (memOps libc spec) bufHandle bufp)
      (fun result s => result.2.length = bufp.length ∧
        if result.1 then PlainBuffer bufHandle result.2 ∧ Before refusals live r result.2 s
        else result.2.data.data = 0)
      fun _ s => refusals s = r := by
  intro s ⟨hl, hr⟩
  obtain ⟨a, s', hre, hans⟩ := plain_memRealloc (n := bufp.data.size * 2 % sizeMod) plain
    (heap.serves fun _ => True) trivial valid.data_plain valid.data_data hl
  have hrun : growStrbuf (memOps libc spec) bufHandle bufp s =
      .ok (a != 0, bufp.moved ⟨a, bufp.data.size * 2 % sizeMod, .plain⟩) s' := by
    rw [growStrbuf, bind_of_ok (plain_deref plain valid.handle_plain valid.handle_data),
      bind_of_ok hre]
    rfl
  rw [hrun]
  refine ⟨rfl, ?_⟩
  dsimp only
  unfold Answered at hans
  by_cases hz : a = 0
  · rw [if_neg (by simpa using hz)]
    exact hz
  · rw [if_neg hz] at hans
    rw [if_pos (by simpa using hz)]
    exact ⟨⟨valid.handle_plain, valid.handle_data, rfl, hz⟩, hans.2.2, hans.2.1.trans hr⟩

/-- However many rounds of the loop succeed, one that is refused loses the bytes. -/
theorem growLoop_outcome (plain : spec .plain = some (plainSpec libc))
    (heap : Allocates libc refusals live) (length : Nat) (valid : PlainBuffer bufHandle bufp) :
    Triple (Before refusals live r bufp)
      (growLoop (memOps libc spec) bufHandle length rounds bufp)
      (fun result s => if result.1 then refusals s = r else Lost bufp result.2)
      fun _ s => refusals s = r := by
  induction rounds generalizing bufp with
  | zero => exact .stop fun s hs => hs.2
  | succ rounds ih =>
    unfold growLoop
    refine .cond (fun _ => ?_) fun _ => .ret fun s hs => hs.2
    refine (growStrbuf_outcome plain heap valid).seq ?_
    intro result
    obtain ⟨grown, bufp'⟩ := result
    cases grown with
    | false =>
      refine .ret ?_
      intro s hs
      exact ⟨hs.2, hs.1⟩
    | true =>
      intro s hnext
      obtain ⟨hlength, valid', hs⟩ := hnext
      have hrest := ih valid' s hs
      dsimp only
      rw [if_pos rfl]
      cases hrun : growLoop (memOps libc spec) bufHandle length rounds bufp' s with
      | error e s' =>
        rw [hrun] at hrest
        exact hrest
      | ok result s' =>
        rw [hrun] at hrest
        obtain ⟨b, bufp''⟩ := result
        cases b with
        | true => exact hrest
        | false => exact ⟨hrest.data_null, hrest.length_eq.trans hlength⟩

/-- A call that grows the buffer and then, where that succeeds, only stores into it. -/
theorem grows_loses (plain : spec .plain = some (plainSpec libc))
    (heap : Allocates libc refusals live) (length : Nat) (valid : PlainBuffer bufHandle bufp)
    {f : Bool × Strbuf → C σ (Bool × Strbuf)}
    (stopped : ∀ bufp', f (false, bufp') = pure (false, bufp'))
    (stores : ∀ bufp', Keeps (f (true, bufp'))) :
    LosesWhenRefused refusals live bufp
      (growLoop (memOps libc spec) bufHandle length rounds bufp >>= f) := by
  intro r
  refine (growLoop_outcome plain heap length valid).seq ?_
  intro (grown, bufp')
  cases grown with
  | false =>
    rw [stopped]
    exact .ret fun s lost => .inr ⟨rfl, lost⟩
  | true =>
    intro s hr
    have hkept := stores bufp' (fun t => refusals t = r) s hr
    cases hrun : f (true, bufp') s with
    | ok result s' =>
      rw [hrun] at hkept
      exact .inl hkept
    | error e s' =>
      rw [hrun] at hkept
      exact hkept

/-! ## The appending functions -/

theorem doStrbufConcatenate_loses (plain : spec .plain = some (plainSpec libc))
    (heap : Allocates libc refusals live)
    (reads : ReadsOnly (memOps libc spec)) (valid : PlainBuffer bufHandle bufp)
    (cstr : Region) (length : Nat) :
    LosesWhenRefused refusals live bufp
      (doStrbufConcatenate (memOps libc spec) rounds bufHandle bufp cstr length) := by
  unfold doStrbufConcatenate
  refine .after (strbufIsValid_keeps reads bufHandle bufp) ?_
  intro isValid
  cases isValid with
  | false => exact .of_keeps (.ret _)
  | true =>
    refine .after (deref_keeps reads bufHandle) ?_
    intro _
    refine grows_loses plain heap length valid (fun _ => rfl) ?_
    intro bufp'
    exact (readRegion_keeps bufp bufp' cstr length).seq fun bytes =>
      (storeAtEnd_keeps reads bufp' bytes).seq fun _ => .ret _

theorem strbufConcatenatePrintf_loses (plain : spec .plain = some (plainSpec libc))
    (heap : Allocates libc refusals live)
    (reads : ReadsOnly (memOps libc spec)) (valid : PlainBuffer bufHandle bufp)
    (fmt : Addr) (vsnprintf : Vsnprintf) :
    LosesWhenRefused refusals live bufp
      (strbufConcatenatePrintf (memOps libc spec) rounds bufHandle bufp fmt vsnprintf) := by
  unfold strbufConcatenatePrintf
  refine .after (strbufIsValid_keeps reads bufHandle bufp) ?_
  intro isValid
  by_cases hformat : isValid = true ∧ fmt ≠ 0
  · rw [if_pos hformat]
    refine .after (deref_keeps reads bufHandle) ?_
    intro _
    refine .after (incrInt_keeps _) ?_
    intro needed
    refine grows_loses plain heap (intToSize needed) valid (fun _ => rfl) ?_
    intro bufp'
    exact (storeAtEnd_keeps reads bufp' _).seq fun _ => .ret _
  · rw [if_neg hformat]
    exact .of_keeps (.ret _)

/-- Each operation on a buffer. -/
theorem op_loses (plain : spec .plain = some (plainSpec libc))
    (heap : Allocates libc refusals live)
    (reads : ReadsOnly (memOps libc spec)) (valid : PlainBuffer bufHandle bufp)
    (op : StrbufOp) :
    LosesWhenRefused refusals live bufp (op.run (memOps libc spec) rounds bufHandle bufp) := by
  cases op with
  | char c cPtr => exact doStrbufConcatenate_loses plain heap reads valid _ _
  | cstr cstr =>
    unfold StrbufOp.run strbufConcatenateCstr
    dsimp only
    by_cases hz : cstr.ptr = 0
    · rw [if_pos hz]
      exact .of_keeps (.ret _)
    · rw [if_neg hz]
      exact doStrbufConcatenate_loses plain heap reads valid _ _
  | str strval =>
    unfold StrbufOp.run strbufConcatenateStr
    dsimp only
    by_cases hv : strIsValid strval = true
    · rw [if_pos hv]
      exact .after (reads _) fun ptr => doStrbufConcatenate_loses plain heap reads valid _ _
    · rw [if_neg hv]
      exact .of_keeps (.ret _)
  | strbuf sourcebufHandle sourcebufp =>
    unfold StrbufOp.run strbufConcatenateStrbuf
    dsimp only
    refine .after (strbufIsValid_keeps reads sourcebufHandle sourcebufp) ?_
    intro isValid
    cases isValid with
    | false => exact .of_keeps (.ret _)
    | true =>
      refine .after (deref_keeps reads sourcebufHandle) ?_
      intro _
      exact .after (reads _) fun ptr => doStrbufConcatenate_loses plain heap reads valid _ _
  | printf fmt vsnprintf => exact strbufConcatenatePrintf_loses plain heap reads valid fmt vsnprintf
  | reset =>
    refine .of_keeps (.seq (.cond (fun _ => ?_) fun _ => .ret _) fun _ => .ret _)
    exact (deref_keeps reads bufHandle).seq fun _ => .ret _

/-- A buffer without its bytes is invalid, and nothing of it is freed any more. -/
theorem Lost.isValid (plain : spec .plain = some (plainSpec libc))
    (valid : PlainBuffer bufHandle bufp) {bufp' : Strbuf} (lost : Lost bufp bufp') (s : σ) :
    strbufIsValid (memOps libc spec) bufHandle bufp' s = .ok false s := by
  rw [strbufIsValid, if_pos (memIsValid_eq_true.mpr valid.handle_data),
    bind_of_ok (plain_deref plain valid.handle_plain valid.handle_data),
    memIsValid_eq_false.mpr lost.data_null]
  rfl

theorem Lost.destroy (plain : spec .plain = some (plainSpec libc))
    (valid : PlainBuffer bufHandle bufp) {bufp' : Strbuf} (lost : Lost bufp bufp') (s : σ) :
    strbufDestroy (memOps libc spec) bufHandle bufp' s = .ok () s := by
  rw [strbufDestroy, bind_of_ok (lost.isValid plain valid s)]
  rfl

theorem Lost.not_intact (plain : spec .plain = some (plainSpec libc))
    (valid : PlainBuffer bufHandle bufp) {bufp' : Strbuf} (lost : Lost bufp bufp') (s : σ) :
    ¬ LeftIntact (memOps libc spec) live bufHandle bufp bufp' s := by
  intro intact
  have hvalid := intact.valid
  rw [lost.isValid plain valid] at hvalid
  cases hvalid

/-- Whenever an append has a request refused, at whatever round of the growth, it returns
false with a buffer that is not valid, that keeps its length and that a destroy leaves
as it is: never with the buffer intact. -/
theorem append_refused_loses (plain : spec .plain = some (plainSpec libc))
    (heap : Allocates libc refusals live)
    (reads : ReadsOnly (memOps libc spec)) (valid : PlainBuffer bufHandle bufp)
    (op : StrbufOp) {s : σ} (alive : live s bufp.data.data)
    (refused : refusals (endState (op.run (memOps libc spec) rounds bufHandle bufp s)) ≠
      refusals s) :
    ∃ bufp' s', op.run (memOps libc spec) rounds bufHandle bufp s = .ok (false, bufp') s' ∧
      bufp'.length = bufp.length ∧
      (∀ t, strbufIsValid (memOps libc spec) bufHandle bufp' t = .ok false t) ∧
      (∀ t, strbufDestroy (memOps libc spec) bufHandle bufp' t = .ok () t) ∧
      ¬ LeftIntact (memOps libc spec) live bufHandle bufp bufp' s' := by
  have hloses : LosesWhenRefused refusals live bufp
      (op.run (memOps libc spec) rounds bufHandle bufp) := op_loses plain heap reads valid op
  have hop := hloses (refusals s) s ⟨alive, rfl⟩
  cases hrun : op.run (memOps libc spec) rounds bufHandle bufp s with
  | error e s' =>
    rw [hrun] at hop refused
    exact absurd hop refused
  | ok result s' =>
    rw [hrun] at hop refused
    obtain ⟨b, bufp'⟩ := result
    obtain hsame | ⟨hfalse, lost⟩ := hop
    · exact absurd hsame refused
    · cases hfalse
      exact ⟨bufp', s', rfl, lost.length_eq, lost.isValid plain valid,
        lost.destroy plain valid, lost.not_intact plain valid s'⟩

end Calls

/-! ## A heap that refuses what is larger than 40 bytes -/

structure SmallHeap where
  next : Nat
  live : List Addr
  refused : Nat

/-- A new block in place of the old one. -/
def SmallHeap.grant (old : Addr) (n : Nat) (heap : SmallHeap) : Addr × SmallHeap :=
  let a := UInt64.ofNat (16 * (heap.next % 2 ^ 32 + 1))
  if n ≤ 40 then (a, ⟨heap.next + 1, a :: heap.live.erase old, heap.refused⟩)
  else (0, { heap with refused := heap.refused + 1 })

def smallLibc : Libc SmallHeap where
  malloc n := modifyGet (SmallHeap.grant 0 n)
  realloc old n := modifyGet (SmallHeap.grant old n)
  free old := modify fun heap => { heap with live := heap.live.erase old }
  signal _ := pure .dfl
  staleStore _ _ := throw .deadBlock

def smallOps : MemOps SmallHeap := memOps smallLibc (baseSpec smallLibc)

theorem small_answered (old : Addr) (n : Nat) (heap : SmallHeap) :
    Answered SmallHeap.refused (fun heap a => a ∈ heap.live) n (heap.grant old n).1 heap
      (heap.grant old n).2 := by
  unfold Answered SmallHeap.grant
  by_cases hn : n ≤ 40
  · have hne : UInt64.ofNat (16 * (heap.next % 2 ^ 32 + 1)) ≠ 0 := by
      intro h
      have := congrArg UInt64.toNat h
      simp only [UInt64.toNat_ofNat', UInt64.toNat_zero] at this
      omega
    have hlimit : n ≤ ptrdiffMax := by
      unfold ptrdiffMax
      omega
    rw [if_pos hn, if_neg hne]
    exact ⟨hlimit, rfl, List.mem_cons_self⟩
  · rw [if_neg hn, if_pos rfl]
    exact Nat.lt_succ_self _

theorem smallLibc_allocates :
    Allocates smallLibc SmallHeap.refused fun heap a => a ∈ heap.live where
  malloc n s := ⟨_, _, rfl, small_answered 0 n s⟩
  realloc ptr n s _ := ⟨_, _, rfl, small_answered ptr n s⟩
  signal _ s := ⟨_, s, rfl, rfl, fun _ h => h⟩

/-- Thirty-three letters need six doublings of a buffer of one byte. -/
def letters : StrbufOp :=
  .str ⟨⟨4096, 33, .notAllocated⟩, List.replicate 33 65, List.length_replicate⟩

def oneByteBuffer : Strbuf := ⟨⟨32, 1, .plain⟩, [some 0], 0⟩

theorem oneByteBuffer_created : strbufCreate smallOps .plain 1 ⟨0, [], 0⟩ =
    .ok (⟨16, 40, .plain⟩, some oneByteBuffer) ⟨2, [32, 16], 0⟩ := rfl

theorem oneByteBuffer_plain : PlainBuffer ⟨16, 40, .plain⟩ oneByteBuffer :=
  ⟨rfl, by decide, rfl, by decide⟩

/-- Five doublings are granted, the sixth is not: the buffer is lost. -/
theorem letters_run : ∃ bufp', letters.run smallOps 64 ⟨16, 40, .plain⟩ oneByteBuffer
    ⟨2, [32, 16], 0⟩ = .ok (false, bufp') ⟨7, [112, 16], 1⟩ ∧ Lost oneByteBuffer bufp' :=
  ⟨_, rfl, rfl, rfl⟩

/-- After the refusal the bytes at 112 and the struct at 16 are never freed. -/
theorem append_sixth_doubling : ∃ bufp',
    letters.run smallOps 64 ⟨16, 40, .plain⟩ oneByteBuffer ⟨2, [32, 16], 0⟩ =
      .ok (false, bufp') ⟨7, [112, 16], 1⟩ ∧
    strbufDestroy smallOps ⟨16, 40, .plain⟩ bufp' ⟨7, [112, 16], 1⟩ = .ok () ⟨7, [112, 16], 1⟩ ∧
    ¬ LeftIntact smallOps (fun heap a => a ∈ heap.live) ⟨16, 40, .plain⟩ oneByteBuffer bufp'
      ⟨7, [112, 16], 1⟩ := by
  obtain ⟨bufp', hrun, lost⟩ := letters_run
  exact ⟨bufp', hrun, lost.destroy rfl oneByteBuffer_plain _,
    lost.not_intact rfl oneByteBuffer_plain _⟩

theorem append_refused_loses_letters :
    strbufCreate smallOps .plain 1 ⟨0, [], 0⟩ =
      .ok (⟨16, 40, .plain⟩, some oneByteBuffer) ⟨2, [32, 16], 0⟩ ∧
    ∃ bufp' s', letters.run smallOps 64 ⟨16, 40, .plain⟩ oneByteBuffer ⟨2, [32, 16], 0⟩ =
        .ok (false, bufp') s' ∧
      bufp'.length = oneByteBuffer.length ∧
      (∀ t, strbufIsValid smallOps ⟨16, 40, .plain⟩ bufp' t = .ok false t) ∧
      (∀ t, strbufDestroy smallOps ⟨16, 40, .plain⟩ bufp' t = .ok () t) ∧
      ¬ LeftIntact smallOps (fun heap a => a ∈ heap.live) ⟨16, 40, .plain⟩ oneByteBuffer bufp'
        s' := by
  have refused : SmallHeap.refused (endState (letters.run smallOps 64 ⟨16, 40, .plain⟩
      oneByteBuffer ⟨2, [32, 16], 0⟩)) ≠ 0 := by
    obtain ⟨bufp', hrun, -⟩ := letters_run
    rw [hrun]
    exact Nat.one_ne_zero
  exact ⟨oneByteBuffer_created, append_refused_loses rfl smallLibc_allocates
    (baseSpec_keeps smallLibc).readsOnly oneByteBuffer_plain letters (by decide) refused⟩

end M65Tool.Guarantees.AppendFailure
