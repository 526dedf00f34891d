import Mathlib.Algebra.Group.Int.Defs
import M65Tool.Guarantees.StringContents

/-!
# PRINTF-OUTCOMES: what a printf leaves behind, whatever `vsnprintf` answers

`strbuf_concatenate_printf` adds 1 to the length that `vsnprintf` reports, as an int, and
takes it for a size. A negative answer becomes a length near 2^64 that is added and taken
off again modulo 2^64. The second call's answer is not looked at. The buffer is consistent
after the call exactly if both calls report a length that leaves room for the 1 and every
reallocation is granted, or if one is refused and there were no bytes to lose.
-/
namespace M65Tool.Guarantees.PrintfOutcomes
open Source Source.Mem Source.StringBuffer StringContents Lib.Block Lib.Effect

/-- `vsnprintf` with one format and its arguments: it reports an error, by a negative int,
or the length of the text, and then writes as much of it as fits before a NUL. -/
structure Documented (vsnprintf : Vsnprintf) (new : List UInt8) : Prop where
  range : ∀ size, -2 ^ 31 ≤ (vsnprintf size).1 ∧ (vsnprintf size).1 ≤ intMax
  reports : ∀ size, 0 ≤ (vsnprintf size).1 → (vsnprintf size).1 = new.length
  writes : ∀ size, 0 ≤ (vsnprintf (size + 1)).1 → (vsnprintf (size + 1)).2 = new.take size ++ [0]

section Property
variable {σ : Type} (ops : MemOps σ) (bufHandle : MemHandle)

/-- The whole text is stored behind the bytes, by a call that reported no error. -/
structure Appends (vsnprintf : Vsnprintf) (new : List UInt8) (bufp bufp' : Strbuf) : Prop where
  length_eq : bufp'.length = bufp.length + new.length
  contents : bufp'.block.take bufp'.length = bufp.block.take bufp.length ++ new.map some
  written : 0 ≤ (vsnprintf (new.length + 1)).1

/-- Given enough rounds of its loop the call returns. The length fits, the bytes are as
before, and behind them is the whole text if the call returned true, else nothing. -/
def Consistent (bufp : Strbuf) (fmt : Addr) (vsnprintf : Vsnprintf) (new : List UInt8) (s : σ) :
    Prop :=
  ∃ b bufp' s', (∃ enough, ∀ rounds ≥ enough,
      strbufConcatenatePrintf ops rounds bufHandle bufp fmt vsnprintf s = .ok (b, bufp') s') ∧
    bufp'.length ≤ bufp'.data.size ∧
    bufp'.block.take bufp.length = bufp.block.take bufp.length ∧
    if b then Appends vsnprintf new bufp bufp' else bufp'.length = bufp.length

/-- While the data handle is usable, it and the buffer's handle can be followed; what a
granted `mem_realloc` answers with is usable again, and as large as asked for. -/
structure Reallocates (usable : MemHandle → σ → Prop) : Prop where
  handle : ∀ data s, usable data s → ∃ ptr, Reads ops bufHandle ptr s
  data : ∀ data s, usable data s → ∃ ptr, Reads ops data ptr s
  answers : ∀ data s size data' s', usable data s → ops.memRealloc data size s = .ok data' s' →
    memIsValid data' = true → data'.size = size ∧ size ≤ ptrdiffMax ∧ usable data' s'

/-- A valid buffer whose length fits into its block. -/
structure Valid (usable : MemHandle → σ → Prop) (bufp : Strbuf) (s : σ) : Prop where
  data : usable bufp.data s
  block_length : bufp.block.length = bufp.data.size
  size_le : bufp.data.size ≤ ptrdiffMax
  length_le : bufp.length ≤ bufp.data.size

/-- The reallocations that double the block until so many bytes fit come to an end: all of
them are granted, or one is refused. -/
inductive Growth (needed : Nat) : MemHandle → σ → Bool → Prop
  | fits {data : MemHandle} {s : σ} (room : needed ≤ data.size) : Growth needed data s true
  | refused {data data' : MemHandle} {s s' : σ} (short : data.size < needed)
      (call : ops.memRealloc data (data.size * 2 % sizeMod) s = .ok data' s')
      (invalid : memIsValid data' = false) : Growth needed data s false
  | doubled {data data' : MemHandle} {s s' : σ} {b : Bool} (short : data.size < needed)
      (call : ops.memRealloc data (data.size * 2 % sizeMod) s = .ok data' s')
      (valid : memIsValid data' = true) (rest : Growth needed data' s' b) : Growth needed data s b

/-- How many bytes the growth loop asks for. -/
def neededSize (bufp : Strbuf) (vsnprintf : Vsnprintf) : Nat :=
  addSize bufp.length (intToSize ((vsnprintf 0).1 + 1))

end Property

section Growth
variable {σ : Type} {libc : Libc σ} {spec : MemAllocator → Option (MemAllocatorSpec σ)}
  {bufHandle : MemHandle} {usable : MemHandle → σ → Prop} {bufp bufp' : Strbuf} {n rounds : Nat}
  {b : Bool} {s s' : σ}

/-- The buffer has grown: its bytes are those of the one before. -/
structure Grown (usable : MemHandle → σ → Prop) (bufp bufp' : Strbuf) (s' : σ) : Prop
    extends Valid usable bufp' s' where
  length_eq : bufp'.length = bufp.length
  bytes_eq : bufp'.block.take bufp.length = bufp.block.take bufp.length

theorem Grown.refl (valid : Valid usable bufp s) : Grown usable bufp bufp s :=
  ⟨valid, rfl, rfl⟩

theorem Grown.trans {bufp'' : Strbuf} {s'' : σ} (h : Grown usable bufp bufp' s')
    (h' : Grown usable bufp' bufp'' s'') : Grown usable bufp bufp'' s'' where
  toValid := h'.toValid
  length_eq := h'.length_eq.trans h.length_eq
  bytes_eq := by
    have hbytes := h'.bytes_eq
    rw [h.length_eq] at hbytes
    exact hbytes.trans h.bytes_eq

/-- How the loop leaves the buffer: grown and with room, or without its bytes. -/
def Left (usable : MemHandle → σ → Prop) (n : Nat) (bufp : Strbuf) (b : Bool) (bufp' : Strbuf)
    (s' : σ) : Prop :=
  if b then Grown usable bufp bufp' s' ∧ addSize bufp.length n ≤ bufp'.data.size
  else bufp'.length = bufp.length ∧ bufp'.block = []

/-- A negative length that the loop took for a size leaves no length that fits and shows
the text to be there. -/
theorem not_appends {vsnprintf : Vsnprintf} {new : List UInt8} (valid : Valid usable bufp s)
    (doc : Documented vsnprintf new) (hneg : (vsnprintf 0).1 < 0)
    (hle : bufp'.data.size ≤ ptrdiffMax)
    (hlength : bufp'.length =
      (bufp.length + intToSize ((vsnprintf 0).1 + 1) + (sizeMod - 1)) % sizeMod)
    (hfits : bufp'.length ≤ bufp'.data.size) : ¬ Appends vsnprintf new bufp bufp' := by
  intro appends
  have hsum := appends.length_eq
  have hrange := (doc.range 0).1
  have hold := valid.length_le
  have hsize := valid.size_le
  unfold intToSize sizeMod at hlength
  unfold ptrdiffMax at hle hsize
  omega

variable (alloc : Reallocates (memOps libc spec) bufHandle usable)
include alloc

theorem pointed {data : MemHandle} (h : usable data s) :
    deref (memOps libc spec) bufHandle s = .ok () s := by
  obtain ⟨ptr, reads⟩ := alloc.handle data s h
  exact reads_deref reads

theorem isValid (valid : Valid usable bufp s) :
    strbufIsValid (memOps libc spec) bufHandle bufp s = .ok true s := by
  obtain ⟨ptr, reads⟩ := alloc.handle bufp.data s valid.data
  obtain ⟨dataPtr, readsData⟩ := alloc.data bufp.data s valid.data
  rw [strbufIsValid, if_pos (reads_isValid reads), bind_of_ok (reads_deref reads),
    reads_isValid readsData]
  rfl

theorem growStrbuf_eq (valid : Valid usable bufp s) {data' : MemHandle}
    (call : (memOps libc spec).memRealloc bufp.data (bufp.data.size * 2 % sizeMod) s =
      .ok data' s') :
    growStrbuf (memOps libc spec) bufHandle bufp s = .ok (memIsValid data', bufp.moved data') s' := by
  rw [growStrbuf, bind_of_ok (pointed alloc valid.data), bind_of_ok call]
  rfl

theorem grown_moved (valid : Valid usable bufp s) {data' : MemHandle}
    (call : (memOps libc spec).memRealloc bufp.data (bufp.data.size * 2 % sizeMod) s =
      .ok data' s')
    (hvalid : memIsValid data' = true) : Grown usable bufp (bufp.moved data') s' := by
  obtain ⟨hsize, hle, husable⟩ := alloc.answers _ _ _ _ _ valid.data call hvalid
  have hdouble : bufp.data.size * 2 % sizeMod = bufp.data.size * 2 := by
    have := valid.size_le
    unfold ptrdiffMax at this
    unfold sizeMod
    omega
  rw [hdouble] at hsize hle
  have hlength := valid.length_le
  have hlarge : bufp.length ≤ data'.size := by omega
  have hblock : (bufp.moved data').block = resize bufp.block data'.size none := by
    unfold Strbuf.moved
    rw [if_pos hvalid]
  constructor
  · exact ⟨husable, by rw [hblock]; exact length_resize, by rw [← hsize] at hle; exact hle, hlarge⟩
  · rfl
  · rw [hblock]
    exact take_resize (by rw [valid.block_length]; exact hlength) hlarge

/-- A loop that returns has come to one of the two ends. -/
theorem growLoop_growth (valid : Valid usable bufp s)
    (hrun : growLoop (memOps libc spec) bufHandle n rounds bufp s = .ok (b, bufp') s') :
    Growth (memOps libc spec) (addSize bufp.length n) bufp.data s b ∧
      Left usable n bufp b bufp' s' := by
  induction rounds generalizing bufp s with
  | zero => cases hrun
  | succ rounds ih =>
    rw [growLoop] at hrun
    by_cases hshort : addSize bufp.length n > bufp.data.size
    · rw [if_pos hshort] at hrun
      obtain ⟨⟨grown, bufp1⟩, s1, hgrow, hrest⟩ := bind_ok_inv hrun
      have hcall : ∃ data', (memOps libc spec).memRealloc bufp.data
          (bufp.data.size * 2 % sizeMod) s = .ok data' s1 ∧
          grown = memIsValid data' ∧ bufp1 = bufp.moved data' := by
        rw [growStrbuf, bind_of_ok (pointed alloc valid.data)] at hgrow
        obtain ⟨data', s2, hcall, hret⟩ := bind_ok_inv hgrow
        cases hret
        exact ⟨data', hcall, rfl, rfl⟩
      obtain ⟨data', hcall, hgrown, rfl⟩ := hcall
      cases hv : memIsValid data' with
      | true =>
        rw [hv] at hgrown
        subst hgrown
        have hmoved := grown_moved alloc valid hcall hv
        obtain ⟨hgrowth, hleft⟩ := ih hmoved.toValid hrest
        rw [hmoved.length_eq] at hgrowth
        refine ⟨.doubled hshort hcall hv hgrowth, ?_⟩
        unfold Left at hleft ⊢
        cases b with
        | true =>
          rw [if_pos rfl] at hleft ⊢
          rw [hmoved.length_eq] at hleft
          exact ⟨hmoved.trans hleft.1, hleft.2⟩
        | false => exact ⟨hleft.1.trans hmoved.length_eq, hleft.2⟩
      | false =>
        rw [hv] at hgrown
        subst hgrown
        cases hrest
        refine ⟨.refused hshort hcall hv, rfl, ?_⟩
        unfold Strbuf.moved
        rw [hv]
        rfl
    · rw [if_neg hshort] at hrun
      cases hrun
      exact ⟨.fits (Nat.not_lt.mp hshort), .refl valid, Nat.not_lt.mp hshort⟩

/-- Where the reallocations come to an end, the loop returns. -/
theorem growth_growLoop {needed : Nat} {data : MemHandle}
    (growth : Growth (memOps libc spec) needed data s b) (valid : Valid usable bufp s)
    (hdata : bufp.data = data) (hneeded : addSize bufp.length n = needed) :
    ∃ bufp' s' enough, ∀ rounds ≥ enough,
      growLoop (memOps libc spec) bufHandle n rounds bufp s = .ok (b, bufp') s' := by
  induction growth generalizing bufp with
  | @fits _ s room =>
    refine ⟨bufp, s, 1, ?_⟩
    intro rounds hrounds
    obtain ⟨r, rfl⟩ : ∃ r, rounds = r + 1 := ⟨rounds - 1, by omega⟩
    rw [growLoop, hdata, hneeded, if_neg (Nat.not_lt.mpr room)]
    rfl
  | @refused _ data' _ s' short call invalid =>
    rw [← hdata] at short call
    refine ⟨bufp.moved data', s', 1, ?_⟩
    intro rounds hrounds
    obtain ⟨r, rfl⟩ : ∃ r, rounds = r + 1 := ⟨rounds - 1, by omega⟩
    rw [growLoop, hneeded, if_pos short, bind_of_ok (growStrbuf_eq alloc valid call), invalid]
    rfl
  | doubled short call hvalid rest ih =>
    rw [← hdata] at short call
    have hmoved := grown_moved alloc valid call hvalid
    obtain ⟨bufp', s', enough, hall⟩ := ih hmoved.toValid rfl hneeded
    refine ⟨bufp', s', enough + 1, ?_⟩
    intro rounds hrounds
    obtain ⟨r, rfl⟩ : ∃ r, rounds = r + 1 := ⟨rounds - 1, by omega⟩
    rw [growLoop, hneeded, if_pos short, bind_of_ok (growStrbuf_eq alloc valid call), hvalid]
    exact hall r (by omega)

/-! ## The call -/

variable {fmt : Addr} {vsnprintf : Vsnprintf} {new : List UInt8}

/-- The call up to the growth loop. -/
theorem printf_eq (valid : Valid usable bufp s) (hfmt : fmt ≠ 0)
    (hmax : (vsnprintf 0).1 ≠ intMax) :
    strbufConcatenatePrintf (memOps libc spec) rounds bufHandle bufp fmt vsnprintf s =
      (growLoop (memOps libc spec) bufHandle (intToSize ((vsnprintf 0).1 + 1)) rounds bufp >>=
        fun grown => if grown.1 then do
          let bufp'' ← storeAtEnd (memOps libc spec) grown.2
            ((vsnprintf (intToSize ((vsnprintf 0).1 + 1))).2.map some)
          pure (true, { bufp'' with
            length := addSize bufp''.length (intToSize ((vsnprintf 0).1 + 1) + (sizeMod - 1)) })
        else pure (false, grown.2)) s := by
  have hincr : (incrInt (vsnprintf 0).1 : C σ Int) s = .ok ((vsnprintf 0).1 + 1) s := by
    rw [incrInt, if_neg hmax]
    rfl
  rw [strbufConcatenatePrintf, bind_of_ok (isValid alloc valid), if_pos ⟨rfl, hfmt⟩,
    bind_of_ok (pointed alloc valid.data), bind_of_ok hincr]

/-- An `int` sum that overflows. -/
theorem printf_intMax (valid : Valid usable bufp s) (hfmt : fmt ≠ 0)
    (hmax : (vsnprintf 0).1 = intMax) :
    strbufConcatenatePrintf (memOps libc spec) rounds bufHandle bufp fmt vsnprintf s =
      .error .signedOverflow s := by
  have hincr : (incrInt (vsnprintf 0).1 : C σ Int) s = .error .signedOverflow s := by
    rw [incrInt, if_pos hmax]
    rfl
  rw [strbufConcatenatePrintf, bind_of_ok (isValid alloc valid), if_pos ⟨rfl, hfmt⟩,
    bind_of_ok (pointed alloc valid.data), bind_of_error hincr]

/-- A printf that reports its text is consistent once the loop has made room. -/
theorem printf_grown (valid : Valid usable bufp s) (hfmt : fmt ≠ 0)
    (doc : Documented vsnprintf new) (hmax : (vsnprintf 0).1 ≠ intMax)
    (growth : Growth (memOps libc spec) (neededSize bufp vsnprintf) bufp.data s true)
    (hfirst : 0 ≤ (vsnprintf 0).1) (hsecond : 0 ≤ (vsnprintf (new.length + 1)).1) :
    Consistent (memOps libc spec) bufHandle bufp fmt vsnprintf new s := by
  have hlen := doc.reports 0 hfirst
  have hshort : new.length < intMax := by
    have hrange := (doc.range 0).2
    omega
  have hneed : intToSize ((vsnprintf 0).1 + 1) = new.length + 1 := by
    rw [hlen]
    unfold intMax at hshort
    unfold intToSize sizeMod
    omega
  obtain ⟨bufp', s', enough, hall⟩ := growth_growLoop alloc growth valid rfl rfl
  obtain ⟨grown, hroom⟩ := (growLoop_growth alloc valid (hall enough (Nat.le_refl _))).2
  rw [hneed] at hall hroom
  have hle := valid.size_le
  have hlength := valid.length_le
  have hle' := grown.size_le
  unfold ptrdiffMax at hle hle'
  unfold intMax at hshort
  have hsum : addSize bufp.length (new.length + 1) = bufp'.length + (new.length + 1) := by
    rw [grown.length_eq]
    apply addSize_eq
    unfold sizeMod
    omega
  rw [hsum] at hroom
  have hwritten : ((vsnprintf (new.length + 1)).2.map some : Cells) = new.map some ++ [some 0] := by
    rw [doc.writes new.length hsecond, List.take_length, List.map_append]
    rfl
  have hfits : bufp'.length + ((new.map some ++ [some 0] : Cells)).length ≤ bufp'.data.size := by
    simpa using hroom
  have hinside : bufp'.length ≤ bufp'.block.length := by
    rw [grown.block_length]
    exact grown.length_le
  obtain ⟨dataPtr, reads⟩ := alloc.data bufp'.data s' grown.data
  have hend : addSize bufp'.length (new.length + 1 + (sizeMod - 1)) =
      bufp'.length + new.length := by
    unfold addSize sizeMod
    omega
  refine ⟨true, { bufp' with
    block := overwrite bufp'.block bufp'.length (new.map some ++ [some 0])
    length := bufp'.length + new.length }, s', ⟨enough, ?_⟩, ?_, ?_, ?_⟩
  · intro rounds hrounds
    rw [printf_eq alloc valid hfmt hmax, hneed, bind_of_ok (hall rounds hrounds)]
    dsimp only
    rw [if_pos rfl, hwritten,
      bind_of_ok (storeAtEnd_ok (reads_deref reads) grown.block_length hfits)]
    dsimp only
    rw [hend]
    rfl
  · change bufp'.length + new.length ≤ bufp'.data.size
    omega
  · have hbefore := take_overwrite_add (new.map some ++ [some 0]) (Nat.zero_le _) hinside
    rw [Nat.add_zero, List.take_zero, List.append_nil] at hbefore
    rw [← grown.bytes_eq, ← grown.length_eq]
    exact hbefore
  · have hcells : (new.map some ++ [some 0] : Cells).take new.length = new.map some := by
      rw [List.take_append_of_le_length (by simp), List.take_of_length_le (by simp)]
    refine ⟨by rw [grown.length_eq], ?_, hsecond⟩
    have hinner : new.length ≤ (new.map some ++ [some 0] : Cells).length := by simp
    have hstored := take_overwrite_add _ hinner hinside
    rw [hcells] at hstored
    rw [← grown.bytes_eq, ← grown.length_eq]
    exact hstored

/-- After a refused growth nothing is left of the bytes, if there were any. -/
theorem printf_refused (valid : Valid usable bufp s) (hfmt : fmt ≠ 0)
    (hmax : (vsnprintf 0).1 ≠ intMax)
    (growth : Growth (memOps libc spec) (neededSize bufp vsnprintf) bufp.data s false)
    (hempty : bufp.length = 0) :
    Consistent (memOps libc spec) bufHandle bufp fmt vsnprintf new s := by
  obtain ⟨bufp', s', enough, hall⟩ := growth_growLoop alloc growth valid rfl rfl
  obtain ⟨hlength, hblock⟩ := (growLoop_growth alloc valid (hall enough (Nat.le_refl _))).2
  refine ⟨false, bufp', s', ⟨enough, ?_⟩, by omega, ?_, hlength⟩
  · intro rounds hrounds
    rw [printf_eq alloc valid hfmt hmax, bind_of_ok (hall rounds hrounds)]
    rfl
  · rw [hempty, List.take_zero, List.take_zero]

/-- What a call that returns has done: the loop came to an end, and where it made room the
length is the old one with the reported value added modulo 2^64. -/
theorem printf_inv (valid : Valid usable bufp s) (hfmt : fmt ≠ 0)
    (hrun : strbufConcatenatePrintf (memOps libc spec) rounds bufHandle bufp fmt vsnprintf s =
      .ok (b, bufp') s') :
    (vsnprintf 0).1 ≠ intMax ∧
    Growth (memOps libc spec) (neededSize bufp vsnprintf) bufp.data s b ∧
    if b then bufp'.length = (bufp.length + intToSize ((vsnprintf 0).1 + 1) + (sizeMod - 1)) % sizeMod ∧
      bufp'.data.size ≤ ptrdiffMax
    else bufp'.block = [] := by
  have hmax : (vsnprintf 0).1 ≠ intMax := by
    intro hmax
    rw [printf_intMax alloc valid hfmt hmax] at hrun
    cases hrun
  rw [printf_eq alloc valid hfmt hmax] at hrun
  obtain ⟨⟨grown, bufp1⟩, s1, hloop, hrest⟩ := bind_ok_inv hrun
  obtain ⟨hgrowth, hleft⟩ := growLoop_growth alloc valid hloop
  refine ⟨hmax, ?_⟩
  cases grown with
  | false =>
    cases hrest
    exact ⟨hgrowth, hleft.2⟩
  | true =>
    obtain ⟨bufp'', s2, hstore, hret⟩ := bind_ok_inv hrest
    obtain ⟨_, s3, hderef, hstored⟩ := bind_ok_inv hstore
    cases hret
    refine ⟨hgrowth, ?_⟩
    have hsame : bufp''.length = bufp1.length ∧ bufp''.data = bufp1.data := by
      by_cases hin : bufp1.length + ((vsnprintf (intToSize ((vsnprintf 0).1 + 1))).2.map
          (some (α := UInt8))).length ≤ bufp1.block.length
      · rw [if_pos hin] at hstored
        cases hstored
        exact ⟨rfl, rfl⟩
      · rw [if_neg hin] at hstored
        cases hstored
    rw [if_pos rfl]
    refine ⟨?_, by rw [hsame.2]; exact hleft.1.size_le⟩
    dsimp only
    rw [hsame.1, hleft.1.length_eq, addSize, Nat.add_assoc]

end Growth

/-! ## A format that cannot be printed -/

/-- A live block of the plain allocator. -/
def PlainBlock {σ : Type} (live : σ → Addr → Prop) (data : MemHandle) (s : σ) : Prop :=
  data.allocator = .plain ∧ data.data ≠ 0 ∧ live s data.data

theorem plain_reallocates {σ : Type} {libc : Libc σ}
    {spec : MemAllocator → Option (MemAllocatorSpec σ)} {refusals : σ → Nat}
    {live : σ → Addr → Prop} (plain : spec .plain = some (plainSpec libc))
    (heap : Allocates libc refusals live) {bufHandle : MemHandle}
    (ha : bufHandle.allocator = .plain) (hd : bufHandle.data ≠ 0) :
    Reallocates (memOps libc spec) bufHandle (PlainBlock live) where
  handle _ _ _ := ⟨bufHandle.data, hd, plain_memP plain ha⟩
  data data _ h := ⟨data.data, h.2.1, plain_memP plain h.1⟩
  answers := by
    intro data s size data' s' ⟨hplain, hdata, hlive⟩ hrun hvalid
    obtain ⟨a, s'', hre, hans⟩ := plain_memRealloc (n := size) plain (heap.serves fun _ => True)
      trivial hplain hdata hlive
    rw [hrun] at hre
    cases hre
    have hne : a ≠ 0 := memIsValid_eq_true.mp hvalid
    unfold Answered at hans
    rw [if_neg hne] at hans
    exact ⟨rfl, hans.1, rfl, hne, hans.2.2⟩

theorem limit_reallocates :
    Reallocates limitOps ⟨16, 40, .plain⟩ (PlainBlock fun (_ : LimitHeap) _ => True) :=
  plain_reallocates rfl limitLibc_allocates rfl (by decide)

theorem oneByte_valid : Valid (PlainBlock fun (_ : LimitHeap) _ => True) oneByte ⟨2, 0, .dfl⟩ :=
  ⟨⟨rfl, by decide, trivial⟩, rfl, by decide, by decide⟩

/-- `vsnprintf` of "%ls" and a wide character that has no multibyte form. -/
def illegalSequence : Vsnprintf := fun _ => (-1, [])

theorem illegalSequence_documented (new : List UInt8) : Documented illegalSequence new where
  range _ := ⟨by change (-2 ^ 31 : Int) ≤ -1; decide, by change (-1 : Int) ≤ intMax; decide⟩
  reports _ h := absurd h (by change ¬ (0 : Int) ≤ -1; decide)
  writes _ h := absurd h (by change ¬ (0 : Int) ≤ -1; decide)

end M65Tool.Guarantees.PrintfOutcomes
