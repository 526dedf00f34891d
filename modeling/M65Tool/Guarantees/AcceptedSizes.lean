import M65Tool.Guarantees.AppendFailure
import M65Tool.Source.StrFunctions

/-!
# ACCEPTED-SIZES: which sizes of a string buffer can be used

`strbuf_create` asks only whether the allocator gave it something, so a buffer of size 0 is
accepted wherever `malloc(0)` gives a pointer. The growth loop doubles the size, which stays
0: `realloc` is asked for 0 bytes again and again, or answers null and the buffer is lost.
-/
namespace M65Tool.Guarantees.AcceptedSizes
open Source Source.Mem Source.StringBuffer Source.StrFunctions StringContents AppendFailure
  Lib.Block Lib.Effect

section Heap
variable {σ : Type}

/-- The answer to a request for 0 bytes: null or a live block, and neither is a refusal. -/
def AnsweredZero (refusals : σ → Nat) (live : σ → Addr → Prop) (a : Addr) (s s' : σ) : Prop :=
  refusals s' = refusals s ∧ (a ≠ 0 → live s' a)

/-- The allocation functions of the C library, with requests for 0 bytes. -/
structure AllocatesOrZero (libc : Libc σ) (refusals : σ → Nat) (live : σ → Addr → Prop) : Prop
    extends Serves (0 < ·) libc refusals live where
  malloc_zero : ∀ s, ∃ a s', libc.malloc 0 s = .ok a s' ∧ AnsweredZero refusals live a s s'
  realloc_zero : ∀ ptr s, live s ptr →
    ∃ a s', libc.realloc ptr 0 s = .ok a s' ∧ AnsweredZero refusals live a s s'

end Heap

/-- A valid buffer of the plain allocator, of any size, whose bytes are the text. -/
structure Accepted (bufHandle : MemHandle) (bufp : Strbuf) (text : List UInt8) : Prop where
  handle_plain : bufHandle.allocator = .plain
  handle_data : bufHandle.data ≠ 0
  data_plain : bufp.data.allocator = .plain
  data_data : bufp.data.data ≠ 0
  block_length : bufp.block.length = bufp.data.size
  size_le : bufp.data.size ≤ ptrdiffMax
  length_eq : bufp.length = text.length
  length_le : bufp.length ≤ bufp.data.size
  contents : bufp.block.take bufp.length = text.map some

/-- The operation stores no byte. -/
def AppendsNothing : StrbufOp → Prop
  | .cstr cstr => cstr.bytes = []
  | .str strval => strval.bytes = []
  | .strbuf _ sourcebufp => sourcebufp.length = 0
  | .reset => True
  | _ => False

section Property
variable {σ : Type} (ops : MemOps σ) (rounds : Nat) (bufHandle : MemHandle)

/-- `strbuf_create` with some size, or `strbuf_duplicate` of a valid buffer, has returned the
buffer as a valid one. -/
inductive Returned : Strbuf → List UInt8 → Prop
  | create {bufp : Strbuf} {size : Nat} {s s' : σ}
      (call : strbufCreate ops .plain size s = .ok (bufHandle, some bufp) s') : Returned bufp []
  | duplicate {source : MemHandle} {sourcep bufp : Strbuf} {text : List UInt8} {s s' : σ}
      (accepted : Accepted source sourcep text)
      (call : strbufDuplicate ops rounds source sourcep s = .ok (bufHandle, some bufp) s') :
      Returned bufp text

/-- Unless a request is refused, the operation returns true and the buffer holds the text. -/
def Usable (refusals : σ → Nat) (bufp : Strbuf) (op : StrbufOp) (text' : List UInt8) (s : σ) :
    Prop :=
  refusals (endState (op.run ops rounds bufHandle bufp s)) = refusals s →
    ∃ bufp' s', op.run ops rounds bufHandle bufp s = .ok (true, bufp') s' ∧
      bufp'.length = text'.length ∧ bufp'.block.take text'.length = text'.map some

end Property

namespace Accepted
variable {σ : Type} {libc : Libc σ} {spec : MemAllocator → Option (MemAllocatorSpec σ)}
  {bufHandle : MemHandle} {bufp : Strbuf} {text new : List UInt8} {rounds : Nat} {s : σ}

theorem carries (h : Accepted bufHandle bufp text) (hsize : bufp.data.size ≠ 0) :
    Carries bufHandle bufp text :=
  ⟨⟨h.handle_plain, h.handle_data, h.data_plain, h.data_data, h.block_length,
    Nat.one_le_iff_ne_zero.mpr hsize, h.size_le⟩, h.length_eq, h.length_le, h.contents⟩

theorem isValid (plain : spec .plain = some (plainSpec libc)) (h : Accepted bufHandle bufp text) :
    strbufIsValid (memOps libc spec) bufHandle bufp s = .ok true s := by
  rw [strbufIsValid, if_pos (memIsValid_eq_true.mpr h.handle_data),
    bind_of_ok (plain_deref plain h.handle_plain h.handle_data),
    memIsValid_eq_true.mpr h.data_data]
  rfl

/-- Where there is room the block stays where it is. -/
theorem concatenate_fits (plain : spec .plain = some (plainSpec libc))
    (h : Accepted bufHandle bufp text) (hrounds : 1 ≤ rounds) {cstr : Region}
    (hptr : cstr.ptr ≠ 0) (bytes : cstr.bytes.take new.length = new.map some)
    (fits : bufp.length + new.length ≤ bufp.data.size) :
    doStrbufConcatenate (memOps libc spec) rounds bufHandle bufp cstr new.length s =
        .ok (true, bufp.extended (new.map some) new.length) s ∧
      Accepted bufHandle (bufp.extended (new.map some) new.length) (text ++ new) := by
  obtain ⟨r, rfl⟩ : ∃ r, rounds = r + 1 := ⟨rounds - 1, by omega⟩
  have hle := h.size_le
  have hsum : addSize bufp.length new.length = bufp.length + new.length := by
    apply addSize_eq
    unfold ptrdiffMax at hle
    unfold sizeMod
    omega
  have hgrow : growLoop (memOps libc spec) bufHandle new.length (r + 1) bufp s =
      .ok (true, bufp) s := by
    rw [growLoop, hsum, if_neg (Nat.not_lt.mpr fits)]
    rfl
  have hread : (readRegion bufp bufp cstr new.length : C σ Cells) s = .ok (new.map some) s := by
    rw [readRegion_ok hptr (fun hw => hw.2 rfl) (le_of_take_map bytes), bytes]
  have hfits : bufp.length + (new.map some : Cells).length ≤ bufp.data.size := by
    rw [List.length_map]
    exact fits
  have hpointed := plain_deref (s := s) plain h.handle_plain h.handle_data
  have hdata := plain_deref (s := s) plain h.data_plain h.data_data
  have hinside : bufp.length ≤ bufp.block.length := by
    rw [h.block_length]
    exact h.length_le
  constructor
  · rw [doStrbufConcatenate_grown (h.isValid plain) hpointed hgrow, bind_of_ok hread,
      bind_of_ok (storeAtEnd_ok hdata h.block_length hfits)]
    dsimp only
    rw [hsum]
    rfl
  · have hstored : (overwrite bufp.block bufp.length (new.map some ++ ([] : Cells))).take
        (bufp.length + new.length) = (text ++ new).map some := contents_stored hinside h.contents
    rw [List.append_nil] at hstored
    exact {
      handle_plain := h.handle_plain
      handle_data := h.handle_data
      data_plain := h.data_plain
      data_data := h.data_data
      block_length := by
        rw [← h.block_length] at hfits
        exact (length_overwrite hfits).trans h.block_length
      size_le := h.size_le
      length_eq := by
        rw [List.length_append, ← h.length_eq]
        rfl
      length_le := fits
      contents := hstored }

end Accepted

section Calls
variable {σ : Type} {libc : Libc σ} {spec : MemAllocator → Option (MemAllocatorSpec σ)}
  {refusals : σ → Nat} {live : σ → Addr → Prop} {rounds n : Nat} {bufHandle : MemHandle}
  {bufp : Strbuf} {text text' : List UInt8} {op : StrbufOp} {s s' : σ}

/-! ## Requests for 0 bytes -/

theorem sigintGuard_zero (heap : AllocatesOrZero libc refusals live) {x : C σ MemHandle}
    (hx : ∀ s1, (∀ a, live s a → live s1 a) →
      ∃ a s2, x s1 = .ok ⟨a, 0, .plain⟩ s2 ∧ AnsweredZero refusals live a s1 s2) :
    ∃ a s', sigintGuard libc x s = .ok ⟨a, 0, .plain⟩ s' ∧ AnsweredZero refusals live a s s' := by
  obtain ⟨r, s', hrun, a, rfl, hans⟩ := sigintGuard_ok (s := s) (x := x)
    (R := fun r s' => ∃ a, r = ⟨a, 0, .plain⟩ ∧ AnsweredZero refusals live a s s') heap.toServes
    (by
      intro s1 hr1 hl1
      obtain ⟨a, s2, hrun, hr2, hl2⟩ := hx s1 hl1
      exact ⟨_, s2, hrun, a, rfl, hr2.trans hr1, hl2⟩)
    (by
      intro r s2 s3 ⟨a, hr, hr2, hl2⟩ hr3 hl3
      exact ⟨a, hr, hr3.trans hr2, fun hz => hl3 a (hl2 hz)⟩)
  exact ⟨a, s', hrun, hans⟩

theorem plain_memRealloc_zero (plain : spec .plain = some (plainSpec libc))
    (heap : AllocatesOrZero libc refusals live) {handle : MemHandle}
    (ha : handle.allocator = .plain) (hd : handle.data ≠ 0) (hl : live s handle.data) :
    ∃ a s', (memOps libc spec).memRealloc handle 0 s = .ok ⟨a, 0, .plain⟩ s' ∧
      AnsweredZero refusals live a s s' := by
  change ∃ a s', memRealloc libc spec handle 0 s = _ ∧ _
  rw [memRealloc, if_pos (memIsValid_eq_true.mpr hd), ha, plain]
  apply sigintGuard_zero heap
  intro s1 hlive
  obtain ⟨a, s2, hre, hans⟩ := heap.realloc_zero handle.data s1 (hlive _ hl)
  refine ⟨a, s2, ?_, hans⟩
  rw [plainRealloc, if_pos (memIsValid_eq_true.mpr hd), bind_of_ok hre, ha]
  rfl

/-- Cleared memory of any size, where the allocator has some. -/
theorem plain_memAllocClear_any (plain : spec .plain = some (plainSpec libc))
    (heap : AllocatesOrZero libc refusals live) (n : Nat) (s : σ) :
    ∃ a s', memAllocClear (memOps libc spec) .plain n s = .ok ⟨a, n, .plain⟩ s' ∧
      (a ≠ 0 → n ≤ ptrdiffMax) := by
  rcases Nat.eq_zero_or_pos n with rfl | hn
  · have halloc : ∃ a s', (memOps libc spec).memAlloc .plain 0 s = .ok ⟨a, 0, .plain⟩ s' ∧
        AnsweredZero refusals live a s s' := by
      change ∃ a s', memAlloc libc spec .plain 0 s = _ ∧ _
      rw [memAlloc, plain]
      apply sigintGuard_zero heap
      intro s1 _
      obtain ⟨a, s2, hmalloc, hans⟩ := heap.malloc_zero s1
      exact ⟨a, s2, by rw [plainAlloc, bind_of_ok hmalloc]; rfl, hans⟩
    obtain ⟨a, s', hrun, -⟩ := halloc
    refine ⟨a, s', ?_, fun _ => Nat.zero_le _⟩
    rw [memAllocClear, bind_of_ok hrun]
    by_cases hz : a = 0
    · rw [if_neg (by simpa using hz)]
      rfl
    · rw [if_pos (memIsValid_eq_true.mpr hz), bind_of_ok (plain_deref plain rfl hz)]
      rfl
  · obtain ⟨a, s', hrun, hans⟩ := plain_memAllocClear s plain heap.toServes hn
    refine ⟨a, s', hrun, ?_⟩
    intro hz
    unfold Answered at hans
    rw [if_neg hz] at hans
    exact hans.1

/-! ## The buffers that the library returns -/

theorem created_accepted (plain : spec .plain = some (plainSpec libc))
    (heap : AllocatesOrZero libc refusals live) {size : Nat}
    (hrun : strbufCreate (memOps libc spec) .plain size s = .ok (bufHandle, some bufp) s') :
    Accepted bufHandle bufp [] ∧ bufp.data.size = size := by
  obtain ⟨a, s1, halloc, -⟩ :=
    plain_memAlloc (n := sizeofStrbuf) s plain heap.toServes (by decide)
  rw [strbufCreate, bind_of_ok halloc] at hrun
  by_cases ha : a = 0
  · rw [if_neg (by simpa using ha)] at hrun
    cases hrun
  · obtain ⟨b, s2, hclear, hle⟩ := plain_memAllocClear_any plain heap size s1
    rw [if_pos (memIsValid_eq_true.mpr ha), bind_of_ok hclear] at hrun
    by_cases hb : b = 0
    · rw [if_neg (by simpa using hb)] at hrun
      obtain ⟨-, s3, -, hrun⟩ := bind_ok_inv hrun
      cases hrun
    · rw [if_pos (memIsValid_eq_true.mpr hb), bind_of_ok (plain_deref plain rfl ha)] at hrun
      cases hrun
      exact ⟨⟨rfl, ha, rfl, hb, List.length_replicate, hle hb, rfl, Nat.zero_le _, rfl⟩, rfl⟩

theorem duplicated_accepted (plain : spec .plain = some (plainSpec libc))
    (heap : AllocatesOrZero libc refusals live) (hrounds : 1 ≤ rounds) {source : MemHandle}
    {sourcep : Strbuf} (accepted : Accepted source sourcep text)
    (hrun : strbufDuplicate (memOps libc spec) rounds source sourcep s =
      .ok (bufHandle, some bufp) s') :
    Accepted bufHandle bufp text := by
  rw [strbufDuplicate, bind_of_ok (accepted.isValid plain), if_pos rfl,
    bind_of_ok (plain_deref plain accepted.handle_plain accepted.handle_data),
    accepted.handle_plain] at hrun
  obtain ⟨⟨newHandle, created⟩, s1, hcreate, hrest⟩ := bind_ok_inv hrun
  cases created with
  | none => cases hrest
  | some newBufp =>
    obtain ⟨hnew, hsize⟩ := created_accepted plain heap hcreate
    have hlength := accepted.length_le
    have hempty := hnew.length_eq
    rw [List.length_nil] at hempty
    have hcontents := accepted.contents
    rw [accepted.length_eq] at hlength hcontents
    have hptr : (⟨sourcep.data.data, sourcep.block⟩ : Region).ptr ≠ 0 := accepted.data_data
    obtain ⟨hstore, happended⟩ :=
      hnew.concatenate_fits (s := s1) plain hrounds hptr hcontents (by omega)
    have hconcat : strbufConcatenateStrbuf (memOps libc spec) rounds newHandle newBufp source
        sourcep s1 = .ok (true, newBufp.extended (text.map some) text.length) s1 := by
      rw [strbufConcatenateStrbuf, bind_of_ok (accepted.isValid plain), if_pos rfl,
        bind_of_ok (plain_deref plain accepted.handle_plain accepted.handle_data),
        bind_of_ok (plain_memP plain accepted.data_plain), accepted.length_eq]
      exact hstore
    dsimp only at hrest
    rw [bind_of_ok (hnew.isValid plain), if_pos rfl, bind_of_ok hconcat] at hrest
    cases hrest
    exact happended

theorem returned_accepted (plain : spec .plain = some (plainSpec libc))
    (heap : AllocatesOrZero libc refusals live) (hrounds : 1 ≤ rounds)
    (returned : Returned (memOps libc spec) rounds bufHandle bufp text) :
    Accepted bufHandle bufp text := by
  cases returned with
  | create call => exact (created_accepted plain heap call).1
  | duplicate accepted call => exact duplicated_accepted plain heap hrounds accepted call

/-! ## A buffer of size 0 -/

/-- The call returns false, or does not return, and no request has been refused. -/
def Fails (refusals : σ → Nat) (x : C σ (Bool × Strbuf)) (s : σ) : Prop :=
  refusals (endState (x s)) = refusals s ∧ ∀ bufp' s', x s ≠ .ok (true, bufp') s'

theorem growStrbuf_zero (plain : spec .plain = some (plainSpec libc))
    (heap : AllocatesOrZero libc refusals live) (h : PlainBuffer bufHandle bufp)
    (hsize : bufp.data.size = 0) (hl : live s bufp.data.data) :
    ∃ b bufp' s', growStrbuf (memOps libc spec) bufHandle bufp s = .ok (b, bufp') s' ∧
      refusals s' = refusals s ∧ (b = true → PlainBuffer bufHandle bufp' ∧
        bufp'.data.size = 0 ∧ bufp'.length = bufp.length ∧ live s' bufp'.data.data) := by
  obtain ⟨a, s', hre, hr, hlive⟩ :=
    plain_memRealloc_zero plain heap h.data_plain h.data_data hl
  refine ⟨a != 0, bufp.moved ⟨a, 0, .plain⟩, s', ?_, hr, ?_⟩
  · have hdouble : bufp.data.size * 2 % sizeMod = 0 := by rw [hsize]; rfl
    rw [growStrbuf, bind_of_ok (plain_deref plain h.handle_plain h.handle_data), hdouble,
      bind_of_ok hre]
    rfl
  · intro hb
    have ha : a ≠ 0 := by simpa using hb
    exact ⟨⟨h.handle_plain, h.handle_data, rfl, ha⟩, rfl, rfl, hlive ha⟩

/-- The loop never makes room. -/
theorem growLoop_zero (plain : spec .plain = some (plainSpec libc))
    (heap : AllocatesOrZero libc refusals live) (h : PlainBuffer bufHandle bufp)
    (hsize : bufp.data.size = 0) (hneeded : 0 < addSize bufp.length n)
    (hl : live s bufp.data.data) :
    Fails refusals (growLoop (memOps libc spec) bufHandle n rounds bufp) s := by
  induction rounds generalizing bufp s with
  | zero => exact ⟨rfl, fun _ _ hrun => by cases hrun⟩
  | succ rounds ih =>
    obtain ⟨b, bufp', s', hgrow, hr, hout⟩ := growStrbuf_zero plain heap h hsize hl
    unfold Fails
    rw [growLoop, hsize, if_pos hneeded, bind_of_ok hgrow]
    cases b with
    | false => exact ⟨hr, fun _ _ hrun => by cases hrun⟩
    | true =>
      obtain ⟨h', hsize', hlength, hl'⟩ := hout rfl
      obtain ⟨hr', hnever⟩ := ih h' hsize' (by rw [hlength]; exact hneeded) hl'
      exact ⟨hr'.trans hr, hnever⟩

/-- What comes after the loop is not reached. -/
theorem Fails.andThen {x : C σ (Bool × Strbuf)} {f : Bool × Strbuf → C σ (Bool × Strbuf)}
    (h : Fails refusals x s) (stopped : ∀ bufp, f (false, bufp) = pure (false, bufp)) :
    Fails refusals (x >>= f) s := by
  obtain ⟨hr, hnever⟩ := h
  unfold Fails
  cases hrun : x s with
  | error e s' =>
    rw [hrun] at hr
    rw [bind_of_error hrun]
    exact ⟨hr, fun _ _ hok => by cases hok⟩
  | ok result s' =>
    obtain ⟨b, bufp'⟩ := result
    cases b with
    | true => exact absurd hrun (hnever bufp' s')
    | false =>
      rw [hrun] at hr
      rw [bind_of_ok hrun, stopped]
      exact ⟨hr, fun _ _ hok => by cases hok⟩

theorem Accepted.plainBuffer (h : Accepted bufHandle bufp text) : PlainBuffer bufHandle bufp :=
  ⟨h.handle_plain, h.handle_data, h.data_plain, h.data_data⟩

theorem doStrbufConcatenate_zero (plain : spec .plain = some (plainSpec libc))
    (heap : AllocatesOrZero libc refusals live) (h : Accepted bufHandle bufp text)
    (hsize : bufp.data.size = 0) (hl : live s bufp.data.data) (cstr : Region) (hpos : 0 < n)
    (hn : n ≤ ptrdiffMax) :
    Fails refusals (doStrbufConcatenate (memOps libc spec) rounds bufHandle bufp cstr n) s := by
  have hlength := h.length_le
  have hneeded : 0 < addSize bufp.length n := by
    unfold ptrdiffMax at hn
    unfold addSize sizeMod
    omega
  unfold Fails
  rw [doStrbufConcatenate, bind_of_ok (h.isValid plain), if_pos rfl,
    bind_of_ok (plain_deref plain h.handle_plain h.handle_data)]
  refine Fails.andThen (growLoop_zero plain heap h.plainBuffer hsize hneeded hl) ?_
  intro bufp'
  rfl

theorem strbufConcatenatePrintf_zero (plain : spec .plain = some (plainSpec libc))
    (heap : AllocatesOrZero libc refusals live) (h : Accepted bufHandle bufp text)
    (hsize : bufp.data.size = 0) (hl : live s bufp.data.data) {fmt : Addr}
    {vsnprintf : Vsnprintf} {new : List UInt8} (hfmt : fmt ≠ 0)
    (formats : Formats vsnprintf new) (hnew : new.length < intMax) :
    Fails refusals
      (strbufConcatenatePrintf (memOps libc spec) rounds bufHandle bufp fmt vsnprintf) s := by
  have hlength := h.length_le
  have hincr : (incrInt (vsnprintf 0).1 : C σ Int) s = .ok ((new.length + 1 : Nat) : Int) s := by
    have hne : ((new.length : Nat) : Int) ≠ intMax := by omega
    rw [formats.reports, incrInt, if_neg hne]
    rfl
  have hlen : intToSize ((new.length + 1 : Nat) : Int) = new.length + 1 := by
    unfold intMax at hnew
    unfold intToSize sizeMod
    omega
  have hneeded : 0 < addSize bufp.length (new.length + 1) := by
    unfold intMax at hnew
    unfold addSize sizeMod
    omega
  unfold Fails
  rw [strbufConcatenatePrintf, bind_of_ok (h.isValid plain), if_pos ⟨rfl, hfmt⟩,
    bind_of_ok (plain_deref plain h.handle_plain h.handle_data), bind_of_ok hincr, hlen]
  refine Fails.andThen (growLoop_zero plain heap h.plainBuffer hsize hneeded hl) ?_
  intro bufp'
  rfl

/-- A call that fails is not usable. -/
theorem Fails.not_usable {ops : MemOps σ} (op : StrbufOp) (text' : List UInt8)
    (h : Fails refusals (op.run ops rounds bufHandle bufp) s) :
    ¬ Usable ops rounds bufHandle refusals bufp op text' s := by
  intro usable
  obtain ⟨bufp', s', hok, -⟩ := usable h.1
  exact h.2 bufp' s' hok

/-! ## Every operation -/

/-- An operation that appends these bytes succeeds in a buffer of size 0 if there are none. -/
theorem concatenate_zero_iff (plain : spec .plain = some (plainSpec libc))
    (heap : AllocatesOrZero libc refusals live) (hrounds : 64 ≤ rounds)
    (h : Accepted bufHandle bufp text) (hsize : bufp.data.size = 0)
    (hl : live s bufp.data.data) {cstr : Region} {new : List UInt8} (hptr : cstr.ptr ≠ 0)
    (bytes : cstr.bytes.take new.length = new.map some) (hnew : new.length ≤ ptrdiffMax)
    (hrun : op.run (memOps libc spec) rounds bufHandle bufp s =
      doStrbufConcatenate (memOps libc spec) rounds bufHandle bufp cstr new.length s) :
    Usable (memOps libc spec) rounds bufHandle refusals bufp op (text ++ new) s ↔ new = [] := by
  have hlength := h.length_le
  constructor
  · intro usable
    by_contra hne
    have hpos := List.length_pos_iff.mpr hne
    refine Fails.not_usable op (text ++ new) ?_ usable
    unfold Fails
    rw [hrun]
    exact doStrbufConcatenate_zero plain heap h hsize hl cstr hpos hnew
  · rintro rfl _
    have hfits : bufp.length + ([] : List UInt8).length ≤ bufp.data.size := hlength
    have hone : 1 ≤ rounds := by omega
    obtain ⟨hstore, haccepted⟩ := h.concatenate_fits (s := s) plain hone hptr bytes hfits
    refine ⟨_, s, hrun.trans hstore, haccepted.length_eq, ?_⟩
    rw [← haccepted.length_eq]
    exact haccepted.contents

/-- In a buffer of size 0 an operation succeeds exactly if it stores nothing. -/
theorem op_zero (plain : spec .plain = some (plainSpec libc))
    (heap : AllocatesOrZero libc refusals live) (hrounds : 64 ≤ rounds)
    (h : Accepted bufHandle bufp text) (hsize : bufp.data.size = 0)
    (hl : live s bufp.data.data) (gives : op.Gives (memOps libc spec) bufp text s text')
    (short : ¬ op.ReportsIntMax) :
    Usable (memOps libc spec) rounds bufHandle refusals bufp op text' s ↔ AppendsNothing op := by
  cases gives with
  | @char c cPtr ptr_ne apart =>
    have hptr : (⟨cPtr, [some c]⟩ : Region).ptr ≠ 0 := ptr_ne
    have hone : [c].length ≤ ptrdiffMax := by
      unfold ptrdiffMax
      simp
    rw [concatenate_zero_iff plain heap hrounds h hsize hl hptr rfl hone rfl]
    simp [AppendsNothing]
  | @cstr cstr ptr_ne apart size =>
    have hrun : StrbufOp.run (memOps libc spec) rounds bufHandle bufp (.cstr cstr) s =
        doStrbufConcatenate (memOps libc spec) rounds bufHandle bufp
          ⟨cstr.ptr, cstr.bytes.map some⟩ cstr.bytes.length s := by
      unfold StrbufOp.run
      dsimp only
      rw [strbufConcatenateCstr, if_neg ptr_ne]
    rw [concatenate_zero_iff plain heap hrounds h hsize hl ptr_ne
      (List.take_of_length_le (by simp)) size hrun]
    rfl
  | @str strval ptr reads apart size =>
    have hvalid : strIsValid strval = true := reads_isValid reads
    have hrun : StrbufOp.run (memOps libc spec) rounds bufHandle bufp (.str strval) s =
        doStrbufConcatenate (memOps libc spec) rounds bufHandle bufp
          ⟨ptr, strval.bytes.map some⟩ strval.bytes.length s := by
      unfold StrbufOp.run
      dsimp only
      rw [strbufConcatenateStr, if_pos hvalid, bind_of_ok reads.2, ← strval.size_eq]
    rw [concatenate_zero_iff plain heap hrounds h hsize hl reads.1
      (List.take_of_length_le (by simp)) size hrun]
    rfl
  | @strbuf sourcebufHandle sourcebufp structPtr ptr new valid reads apart length_eq contents size =>
    have hvalid : strbufIsValid (memOps libc spec) sourcebufHandle sourcebufp s = .ok true s := by
      rw [strbufIsValid, if_pos (reads_isValid valid), bind_of_ok (reads_deref valid),
        reads_isValid reads]
      rfl
    have hrun : StrbufOp.run (memOps libc spec) rounds bufHandle bufp
        (.strbuf sourcebufHandle sourcebufp) s =
        doStrbufConcatenate (memOps libc spec) rounds bufHandle bufp
          ⟨ptr, sourcebufp.block⟩ new.length s := by
      unfold StrbufOp.run
      dsimp only
      rw [strbufConcatenateStrbuf, bind_of_ok hvalid, if_pos rfl, bind_of_ok (reads_deref valid),
        bind_of_ok reads.2, length_eq]
    rw [length_eq] at contents
    rw [concatenate_zero_iff plain heap hrounds h hsize hl reads.1 contents size hrun]
    change new = [] ↔ sourcebufp.length = 0
    rw [length_eq, List.length_eq_zero_iff]
  | @printf fmt vsnprintf new fmt_ne formats size =>
    have hshort : new.length < intMax := by
      have hne : ¬ (vsnprintf 0).1 = intMax := short
      rw [formats.reports] at hne
      omega
    refine iff_of_false ?_ id
    exact Fails.not_usable (.printf fmt vsnprintf) _
      (strbufConcatenatePrintf_zero plain heap h hsize hl fmt_ne formats hshort)
  | reset =>
    refine iff_of_true ?_ trivial
    intro _
    refine ⟨{ bufp with length := 0 }, s, ?_, rfl, rfl⟩
    unfold StrbufOp.run
    dsimp only
    rw [strbufReset, if_pos (memIsValid_eq_true.mpr h.handle_data), bind_assoc,
      bind_of_ok (plain_deref plain h.handle_plain h.handle_data)]
    rfl

/-- A printf of INT_MAX bytes stops at the overflow of its int sum. -/
theorem not_usable_intMax (plain : spec .plain = some (plainSpec libc))
    (h : Accepted bufHandle bufp text)
    (gives : op.Gives (memOps libc spec) bufp text s text') (longest : op.ReportsIntMax) :
    ¬ Usable (memOps libc spec) rounds bufHandle refusals bufp op text' s := by
  cases gives with
  | @printf fmt vsnprintf new fmt_ne formats size =>
    have hmax : (vsnprintf 0).1 = intMax := longest
    have hincr : (incrInt (vsnprintf 0).1 : C σ Int) s = .error .signedOverflow s := by
      rw [incrInt, if_pos hmax]
      rfl
    have hrun : StrbufOp.run (memOps libc spec) rounds bufHandle bufp (.printf fmt vsnprintf) s =
        .error .signedOverflow s := by
      unfold StrbufOp.run
      dsimp only
      rw [strbufConcatenatePrintf, bind_of_ok (h.isValid plain), if_pos ⟨rfl, fmt_ne⟩,
        bind_of_ok (plain_deref plain h.handle_plain h.handle_data), bind_of_error hincr]
    apply Fails.not_usable
    unfold Fails
    rw [hrun]
    exact ⟨rfl, fun _ _ hok => by cases hok⟩
  | _ => exact longest.elim

end Calls

/-! ## A heap that gives a pointer for 0 bytes -/

theorem limitLibc_allocatesOrZero :
    AllocatesOrZero limitLibc LimitHeap.refused fun _ _ => True where
  toServes := limitLibc_allocates.serves _
  malloc_zero _ := ⟨_, _, rfl, rfl, fun _ => trivial⟩
  realloc_zero _ _ _ := ⟨_, _, rfl, rfl, fun _ => trivial⟩

def emptyBuffer : Strbuf := ⟨⟨32, 0, .plain⟩, [], 0⟩

theorem emptyBuffer_created : strbufCreate limitOps .plain 0 ⟨0, 0, .dfl⟩ =
    .ok (⟨16, 40, .plain⟩, some emptyBuffer) ⟨2, 0, .dfl⟩ := rfl

end M65Tool.Guarantees.AcceptedSizes
