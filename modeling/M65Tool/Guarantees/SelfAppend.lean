import M65Tool.Guarantees.StringContents

/-!
# SELF-APPEND: a buffer appended to itself

`do_strbuf_concatenate` is given the address of the source's bytes before the growth loop
runs. When the source lies in the buffer, a growth that moves the block leaves it with the
address of memory that is gone. The call does what it is for exactly if the successive
reallocations, if any, end with the block where it was.
-/
namespace M65Tool.Guarantees.SelfAppend
open Source Source.Mem Source.StringBuffer StringContents Lib.Block Lib.Effect

section Calls
variable {σ : Type} (ops : MemOps σ)

/-- A valid buffer whose bytes are the text, whatever its allocator. -/
structure Holds (bufHandle : MemHandle) (bufp : Strbuf) (text : List UInt8) (s : σ) : Prop where
  handle : ∃ ptr, Reads ops bufHandle ptr s
  data : Reads ops bufp.data bufp.data.data s
  block_length : bufp.block.length = bufp.data.size
  size_pos : 1 ≤ bufp.data.size
  size_le : bufp.data.size ≤ ptrdiffMax
  length_eq : bufp.length = text.length
  length_le : bufp.length ≤ bufp.data.size
  contents : bufp.block.take bufp.length = text.map some

/-- A `mem_realloc` of the buffer's block that succeeds: the new block has the size asked
for and can be used, and so can the struct. -/
structure Granted (bufHandle data : MemHandle) (size : Nat) (s : σ) (data' : MemHandle) (s' : σ) :
    Prop where
  call : ops.memRealloc data size s = .ok data' s'
  size_eq : data'.size = size
  size_le : size ≤ ptrdiffMax
  data : Reads ops data' data'.data s'
  handle : ∃ ptr, Reads ops bufHandle ptr s'

/-- The block of the handle, doubled until so many bytes fit, lies at the address in the
end; each reallocation succeeds. -/
inductive Relocates (bufHandle : MemHandle) (needed : Nat) : MemHandle → σ → Addr → Prop
  | fits {data : MemHandle} {s : σ} (room : needed ≤ data.size) :
      Relocates bufHandle needed data s data.data
  | doubles {data data' : MemHandle} {s s' : σ} {a : Addr} (short : data.size < needed)
      (granted : Granted ops bufHandle data (data.size * 2) s data' s')
      (rest : Relocates bufHandle needed data' s' a) : Relocates bufHandle needed data s a

/-- The operation appends to the buffer its own contents, or a str of some of its bytes. -/
inductive SelfSource (bufHandle : MemHandle) (bufp : Strbuf) (text : List UInt8) (s : σ) :
    StrbufOp → List UInt8 → Prop
  | strbuf : SelfSource bufHandle bufp text s (.strbuf bufHandle bufp) text
  | str {strval : Str} {ptr : Addr} {offset : Nat} (reads : Reads ops strval.handle ptr s)
      (at_offset : ptr.toNat = bufp.data.data.toNat + offset)
      (within : offset + strval.bytes.length ≤ text.length)
      (bytes_eq : strval.bytes = (text.drop offset).take strval.bytes.length) :
      SelfSource bufHandle bufp text s (.str strval) strval.bytes

/-- The call returns true and the buffer holds the text followed by the source. -/
def AppendsSelf (rounds : Nat) (bufHandle : MemHandle) (bufp : Strbuf) (op : StrbufOp)
    (text source : List UInt8) (s : σ) : Prop :=
  ∃ bufp' s', op.run ops rounds bufHandle bufp s = .ok (true, bufp') s' ∧
    Holds ops bufHandle bufp' (text ++ source) s'

end Calls

section Growth
variable {σ : Type} {libc : Libc σ} {spec : MemAllocator → Option (MemAllocatorSpec σ)}
  {refusals : σ → Nat} {live : σ → Addr → Prop} {rounds n : Nat} {bufHandle : MemHandle}
  {bufp bufp' : Strbuf} {text source : List UInt8} {op : StrbufOp} {s s' : σ} {a : Addr}

namespace Holds

theorem isValid (h : Holds (memOps libc spec) bufHandle bufp text s) :
    strbufIsValid (memOps libc spec) bufHandle bufp s = .ok true s := by
  obtain ⟨ptr, hhandle⟩ := h.handle
  rw [strbufIsValid, if_pos (reads_isValid hhandle), bind_of_ok (reads_deref hhandle),
    reads_isValid h.data]
  rfl

theorem pointed (h : Holds (memOps libc spec) bufHandle bufp text s) :
    deref (memOps libc spec) bufHandle s = .ok () s := by
  obtain ⟨ptr, hhandle⟩ := h.handle
  exact reads_deref hhandle

/-- The sum in the test of the growth loop does not wrap. -/
theorem addSize_eq (h : Holds (memOps libc spec) bufHandle bufp text s) (hn : n ≤ ptrdiffMax) :
    addSize bufp.length n = bufp.length + n := by
  have hlen := h.length_le
  have hle := h.size_le
  apply StringBuffer.addSize_eq
  unfold ptrdiffMax at hle hn
  unfold sizeMod
  omega

/-- The new bytes are stored behind the text. -/
theorem store (h : Holds (memOps libc spec) bufHandle bufp text s)
    (fits : bufp.length + source.length ≤ bufp.data.size) :
    Holds (memOps libc spec) bufHandle (bufp.extended (source.map some) source.length)
      (text ++ source) s where
  handle := h.handle
  data := h.data
  block_length := by
    have hfits : bufp.length + (source.map some).length ≤ bufp.block.length := by
      rw [h.block_length, List.length_map]
      exact fits
    unfold Strbuf.extended
    dsimp only
    rw [length_overwrite hfits]
    exact h.block_length
  size_pos := h.size_pos
  size_le := h.size_le
  length_eq := by simp [Strbuf.extended, h.length_eq]
  length_le := fits
  contents := by
    have hstored : (overwrite bufp.block bufp.length (source.map some ++ [])).take
        (bufp.length + source.length) = (text ++ source).map some :=
      contents_stored (by rw [h.block_length]; exact h.length_le) h.contents
    rw [List.append_nil] at hstored
    exact hstored

/-- A growth step that is granted keeps the text. -/
theorem grow (h : Holds (memOps libc spec) bufHandle bufp text s) {data' : MemHandle}
    (granted : Granted (memOps libc spec) bufHandle bufp.data (bufp.data.size * 2) s data' s') :
    growStrbuf (memOps libc spec) bufHandle bufp s = .ok (true, bufp.moved data') s' ∧
      Holds (memOps libc spec) bufHandle (bufp.moved data') text s' := by
  have hle := h.size_le
  have hlen := h.length_le
  have hpos := h.size_pos
  have hsize := granted.size_eq
  have hvalid := reads_isValid granted.data
  have hdouble : bufp.data.size * 2 % sizeMod = bufp.data.size * 2 := by
    unfold ptrdiffMax at hle
    unfold sizeMod
    omega
  constructor
  · rw [growStrbuf, bind_of_ok h.pointed, hdouble, bind_of_ok granted.call, hvalid]
    rfl
  · have hblock : (bufp.moved data').block.length = data'.size := by
      unfold Strbuf.moved
      rw [if_pos hvalid]
      exact length_resize
    have hlarge : bufp.length ≤ data'.size := by omega
    exact {
      handle := granted.handle
      data := granted.data
      block_length := hblock
      size_pos := by change 1 ≤ data'.size; omega
      size_le := by rw [← hsize] at granted; exact granted.size_le
      length_eq := h.length_eq
      length_le := hlarge
      contents := contents_moved granted.data.1 (by rw [h.block_length]; exact hlen) hlarge
        h.contents }

/-- The growth loop leaves the block where the reallocations do, with room for the source. -/
theorem growLoop_relocates (h : Holds (memOps libc spec) bufHandle bufp text s)
    (hn : n ≤ ptrdiffMax)
    (moves : Relocates (memOps libc spec) bufHandle (bufp.length + n) bufp.data s a)
    (enough : bufp.length + n ≤ bufp.data.size * 2 ^ rounds) :
    ∃ bufp' s', growLoop (memOps libc spec) bufHandle n (rounds + 1) bufp s =
        .ok (true, bufp') s' ∧
      Holds (memOps libc spec) bufHandle bufp' text s' ∧ bufp'.data.data = a ∧
      bufp'.length + n ≤ bufp'.data.size := by
  induction rounds generalizing bufp s with
  | zero =>
    rw [Nat.pow_zero, Nat.mul_one] at enough
    refine ⟨bufp, s, ?_, h, ?_, enough⟩
    · rw [growLoop, h.addSize_eq hn, if_neg (Nat.not_lt.mpr enough)]
      rfl
    · cases moves with
      | fits room => rfl
      | doubles short granted rest => omega
  | succ rounds ih =>
    rw [growLoop, h.addSize_eq hn]
    cases moves with
    | fits room =>
      rw [if_neg (Nat.not_lt.mpr room)]
      exact ⟨bufp, s, rfl, h, rfl, room⟩
    | @doubles _ data' _ s1 _ short granted rest =>
      obtain ⟨hgrow, h'⟩ := h.grow granted
      have henough : (bufp.moved data').length + n ≤ (bufp.moved data').data.size * 2 ^ rounds := by
        change bufp.length + n ≤ data'.size * 2 ^ rounds
        rw [granted.size_eq, Nat.mul_assoc, ← Nat.pow_succ']
        exact enough
      rw [if_pos short, bind_of_ok hgrow]
      exact ih h' rest henough

end Holds

/-- Appending a region of the buffer's own block: the bytes are gone when it has moved. -/
theorem doStrbufConcatenate_self (hrounds : 64 ≤ rounds)
    (h : Holds (memOps libc spec) bufHandle bufp text s) {cstr : Region} (hptr : cstr.ptr ≠ 0)
    (inside : 0 < source.length → bufp.Spans cstr.ptr)
    (bytes : cstr.bytes.take source.length = source.map some) (hn : source.length ≤ ptrdiffMax)
    (moves : Relocates (memOps libc spec) bufHandle (bufp.length + source.length) bufp.data s a) :
    (∃ bufp' s', doStrbufConcatenate (memOps libc spec) rounds bufHandle bufp cstr
        source.length s = .ok (true, bufp') s' ∧
      Holds (memOps libc spec) bufHandle bufp' (text ++ source) s') ↔ a = bufp.data.data := by
  obtain ⟨r, rfl⟩ : ∃ r, rounds = 63 + r + 1 := ⟨rounds - 64, by omega⟩
  have henough : bufp.length + source.length ≤ bufp.data.size * 2 ^ (63 + r) := by
    have hsize : bufp.data.size * 2 ^ 63 ≤ bufp.data.size * 2 ^ (63 + r) :=
      Nat.mul_le_mul_left _ (Nat.pow_le_pow_right (by omega) (by omega))
    have hpos := h.size_pos
    have hlen := h.length_le
    unfold ptrdiffMax at hn
    omega
  obtain ⟨bufp1, s1, hgrow, h1, hplace, hroom⟩ := h.growLoop_relocates hn moves henough
  constructor
  · intro ⟨bufp', s', hrun, _⟩
    by_contra hmoved
    have hlong : 0 < source.length := by
      by_contra hempty
      cases moves with
      | fits room => exact hmoved rfl
      | doubles short granted rest =>
        have := h.length_le
        omega
    have hgone : (readRegion bufp bufp1 cstr source.length : C σ Cells) s1 =
        .error .deadBlock s1 := by
      rw [readRegion, if_neg hptr, if_pos ⟨inside hlong, by rw [hplace]; exact hmoved⟩]
      rfl
    rw [doStrbufConcatenate_grown h.isValid h.pointed hgrow, bind_of_error hgone] at hrun
    cases hrun
  · intro hstays
    have hread : (readRegion bufp bufp1 cstr source.length : C σ Cells) s1 =
        .ok (source.map some) s1 := by
      have hsame : ¬ (bufp.Spans cstr.ptr ∧ bufp1.data.data ≠ bufp.data.data) := by
        intro hw
        exact hw.2 (hplace.trans hstays)
      rw [readRegion_ok hptr hsame (le_of_take_map bytes), bytes]
    have hfits : bufp1.length + (source.map some : Cells).length ≤ bufp1.data.size := by
      rw [List.length_map]
      exact hroom
    refine ⟨bufp1.extended (source.map some) source.length, s1, ?_, h1.store hroom⟩
    rw [doStrbufConcatenate_grown h.isValid h.pointed hgrow, bind_of_ok hread,
      bind_of_ok (storeAtEnd_ok (reads_deref h1.data) h1.block_length hfits)]
    dsimp only
    rw [h1.addSize_eq hn]
    rfl

/-- Where the allocator grants what is asked for, appending a buffer or a part of it to
itself works exactly if the block ends where it was. -/
theorem selfAppend_iff (hrounds : 64 ≤ rounds)
    (h : Holds (memOps libc spec) bufHandle bufp text s)
    (self : SelfSource (memOps libc spec) bufHandle bufp text s op source)
    (moves : Relocates (memOps libc spec) bufHandle (bufp.length + source.length) bufp.data s a) :
    AppendsSelf (memOps libc spec) rounds bufHandle bufp op text source s ↔
      a = bufp.data.data := by
  have hlen := h.length_eq
  have hfit := h.length_le
  have hmax := h.size_le
  unfold AppendsSelf
  cases self with
  | strbuf =>
    have hinside : 0 < text.length → bufp.Spans bufp.data.data := by
      intro hpos
      exact ⟨Nat.le_refl _, by omega⟩
    have hbytes : bufp.block.take text.length = text.map some := by
      rw [← hlen]
      exact h.contents
    have hrun : StrbufOp.run (memOps libc spec) rounds bufHandle bufp (.strbuf bufHandle bufp) s =
        doStrbufConcatenate (memOps libc spec) rounds bufHandle bufp
          ⟨bufp.data.data, bufp.block⟩ text.length s := by
      unfold StrbufOp.run
      dsimp only
      rw [strbufConcatenateStrbuf, bind_of_ok h.isValid, if_pos rfl, bind_of_ok h.pointed,
        bind_of_ok h.data.2, hlen]
    rw [hrun]
    exact doStrbufConcatenate_self hrounds h h.data.1 hinside hbytes (by omega) moves
  | @str strval ptr offset reads at_offset within bytes_eq =>
    have hvalid : strIsValid strval = true := reads_isValid reads
    have hinside : 0 < strval.bytes.length → bufp.Spans ptr := by
      intro hpos
      exact ⟨by omega, by omega⟩
    have hrun : StrbufOp.run (memOps libc spec) rounds bufHandle bufp (.str strval) s =
        doStrbufConcatenate (memOps libc spec) rounds bufHandle bufp
          ⟨ptr, strval.bytes.map some⟩ strval.bytes.length s := by
      unfold StrbufOp.run
      dsimp only
      rw [strbufConcatenateStr, if_pos hvalid, bind_of_ok reads.2, ← strval.size_eq]
    rw [hrun]
    exact doStrbufConcatenate_self hrounds h reads.1 hinside (List.take_of_length_le (by simp))
      (by omega) moves

/-! ## Buffers of the plain allocator -/

theorem plain_reads (plain : spec .plain = some (plainSpec libc)) {handle : MemHandle}
    (ha : handle.allocator = .plain) (hd : handle.data ≠ 0) (s : σ) :
    Reads (memOps libc spec) handle handle.data s :=
  ⟨hd, plain_memP plain ha⟩

theorem plain_holds (plain : spec .plain = some (plainSpec libc))
    (h : Carries bufHandle bufp text) (s : σ) : Holds (memOps libc spec) bufHandle bufp text s where
  handle := ⟨_, plain_reads plain h.handle_plain h.handle_data s⟩
  data := plain_reads plain h.data_plain h.data_data s
  block_length := h.block_length
  size_pos := h.size_pos
  size_le := h.size_le
  length_eq := h.length_eq
  length_le := h.length_le
  contents := h.contents

/-- As long as the plain allocator refuses nothing, its reallocations have an end. -/
theorem plain_relocates (plain : spec .plain = some (plainSpec libc))
    (heap : Allocates libc refusals live) (hn : n ≤ ptrdiffMax) (h : Carries bufHandle bufp text)
    (hl : live s bufp.data.data)
    (run : growLoop (memOps libc spec) bufHandle n rounds bufp s = .ok (true, bufp') s') :
    Relocates (memOps libc spec) bufHandle (bufp.length + n) bufp.data s bufp'.data.data := by
  induction rounds generalizing bufp s with
  | zero =>
    rw [growLoop] at run
    cases run
  | succ rounds ih =>
    rw [growLoop, (plain_holds (s := s) plain h).addSize_eq hn] at run
    by_cases hshort : bufp.length + n > bufp.data.size
    · obtain ⟨a, s1, hre, hans⟩ := plain_memRealloc (n := bufp.data.size * 2) plain
        (heap.serves fun _ => True) trivial h.data_plain h.data_data hl
      obtain ⟨b, bufp1, s1', hgrow, hout⟩ := growStrbuf_succeeds plain (heap.serves _) h hl
      have hdata : bufp1.data = ⟨a, bufp.data.size * 2, .plain⟩ ∧ s1' = s1 := by
        have hle := h.size_le
        have hdouble : bufp.data.size * 2 % sizeMod = bufp.data.size * 2 := by
          unfold ptrdiffMax at hle
          unfold sizeMod
          omega
        rw [growStrbuf, bind_of_ok (plain_deref plain h.handle_plain h.handle_data), hdouble,
          bind_of_ok hre] at hgrow
        cases hgrow
        exact ⟨rfl, rfl⟩
      obtain ⟨hdata, rfl⟩ := hdata
      rw [if_pos hshort, bind_of_ok hgrow] at run
      cases b with
      | false => cases run
      | true =>
        obtain ⟨-, hl1, h1, -⟩ := hout
        have hlength : bufp1.length = bufp.length := h1.length_eq.trans h.length_eq.symm
        have hrest := ih h1 hl1 run
        have hsize : bufp.data.size * 2 ≤ ptrdiffMax := by
          have := h1.size_le
          rw [hdata] at this
          exact this
        rw [hlength] at hrest
        refine .doubles hshort ⟨?_, ?_, hsize, plain_reads plain h1.data_plain h1.data_data s1',
          ⟨_, plain_reads plain h.handle_plain h.handle_data s1'⟩⟩ hrest
        · rw [hdata]
          exact hre
        · rw [hdata]
    · rw [if_neg hshort] at run
      cases run
      exact .fits (by omega)

end Growth

/-! ## A full buffer of one byte -/

def fullBuffer : Strbuf := ⟨⟨32, 1, .plain⟩, [some 65], 1⟩

theorem fullBuffer_made (script : List Addr) : ∃ bufp,
    strbufCreate scriptedOps .plain 1 (16 :: 32 :: script) =
      .ok (⟨16, 40, .plain⟩, some bufp) script ∧
    strbufConcatenateChar scriptedOps 64 ⟨16, 40, .plain⟩ bufp 65 4096 script =
      .ok (true, fullBuffer) script :=
  ⟨⟨⟨32, 1, .plain⟩, [some 0], 0⟩, rfl, rfl⟩

theorem fullBuffer_holds (script : List Addr) :
    Holds scriptedOps ⟨16, 40, .plain⟩ fullBuffer [65] script :=
  plain_holds rfl ⟨⟨rfl, by decide, rfl, by decide, rfl, by decide, by decide⟩, rfl, by decide,
    rfl⟩ script

/-- The block is moved to 48, and the bytes are read at 32. -/
theorem selfAppend_moved :
    (∃ bufp, strbufCreate scriptedOps .plain 1 [16, 32, 48] =
        .ok (⟨16, 40, .plain⟩, some bufp) [48] ∧
      strbufConcatenateChar scriptedOps 64 ⟨16, 40, .plain⟩ bufp 65 4096 [48] =
        .ok (true, fullBuffer) [48]) ∧
    StrbufOp.run scriptedOps 64 ⟨16, 40, .plain⟩ fullBuffer (.strbuf ⟨16, 40, .plain⟩ fullBuffer)
      [48] = .error .deadBlock [] ∧
    ¬ AppendsSelf scriptedOps 64 ⟨16, 40, .plain⟩ fullBuffer
      (.strbuf ⟨16, 40, .plain⟩ fullBuffer) [65] [65] [48] := by
  have hrun : StrbufOp.run scriptedOps 64 ⟨16, 40, .plain⟩ fullBuffer
      (.strbuf ⟨16, 40, .plain⟩ fullBuffer) [48] = .error .deadBlock [] := rfl
  refine ⟨fullBuffer_made [48], hrun, ?_⟩
  intro ⟨bufp', s', happend, _⟩
  rw [hrun] at happend
  cases happend

/-- The block is enlarged where it is, and the buffer holds its byte twice. -/
theorem selfAppend_iff_inPlace :
    AppendsSelf scriptedOps 64 ⟨16, 40, .plain⟩ fullBuffer
      (.strbuf ⟨16, 40, .plain⟩ fullBuffer) [65] [65] [32] := by
  have granted : Granted scriptedOps ⟨16, 40, .plain⟩ fullBuffer.data 2 [32] ⟨32, 2, .plain⟩ [] :=
    ⟨rfl, rfl, by decide, ⟨by decide, rfl⟩, 16, by decide, rfl⟩
  have moves : Relocates scriptedOps ⟨16, 40, .plain⟩ 2 fullBuffer.data [32] 32 :=
    .doubles (by decide) granted (.fits (by decide))
  exact (selfAppend_iff (by decide) (fullBuffer_holds [32]) .strbuf moves).mpr rfl

end M65Tool.Guarantees.SelfAppend
