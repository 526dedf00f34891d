import M65Tool.Source.StringBufferGrowth

/-!
# STRING-CONTENTS: a string buffer holds what was appended to it

Over the plain allocator, as long as it refuses nothing, every append and reset of a
run returns true, the buffer's bytes are those appended since the last reset, and its
size is the first one doubled some number of times. The one exception is a printf
whose text is INT_MAX bytes long: the int sum that makes room for the NUL overflows.
-/
namespace M65Tool.Guarantees.StringContents
open Source Source.Mem Source.StringBuffer Lib.Block Lib.Effect

inductive StrbufOp where
  | char (c : UInt8) (cPtr : Addr)
  | cstr (cstr : CStr)
  | str (strval : Str)
  | strbuf (sourcebufHandle : MemHandle) (sourcebufp : Strbuf)
  | printf (fmt : Addr) (vsnprintf : Vsnprintf)
  | reset

section Operations
variable {σ : Type} (ops : MemOps σ)

def StrbufOp.run (rounds : Nat) (bufHandle : MemHandle) (bufp : Strbuf) :
    StrbufOp → C σ (Bool × Strbuf)
  | .char c cPtr => strbufConcatenateChar ops rounds bufHandle bufp c cPtr
  | .cstr source => strbufConcatenateCstr ops rounds bufHandle bufp source
  | .str strval => strbufConcatenateStr ops rounds bufHandle bufp strval
  | .strbuf sourcebufHandle sourcebufp =>
    strbufConcatenateStrbuf ops rounds bufHandle bufp sourcebufHandle sourcebufp
  | .printf fmt vsnprintf => strbufConcatenatePrintf ops rounds bufHandle bufp fmt vsnprintf
  | .reset => do
    let bufp' ← strbufReset ops bufHandle bufp
    pure (true, bufp')

/-- The length that `vsnprintf` reports to the operation is INT_MAX. -/
def StrbufOp.ReportsIntMax : StrbufOp → Prop
  | .printf _ vsnprintf => (vsnprintf 0).1 = intMax
  | _ => False

/-- `mem_p` of the handle is the address, which is not null. -/
def Reads (handle : MemHandle) (ptr : Addr) (s : σ) : Prop :=
  ptr ≠ 0 ∧ ops.memP handle s = .ok ptr s

/-- The arguments are valid, no larger than an object can be and apart from the
buffer's block, and the operation is to turn the text into the second one. -/
inductive StrbufOp.Gives (bufp : Strbuf) (text : List UInt8) (s : σ) :
    StrbufOp → List UInt8 → Prop
  | char {c : UInt8} {cPtr : Addr} (ptr_ne : cPtr ≠ 0) (apart : ¬ bufp.Spans cPtr) :
      Gives bufp text s (.char c cPtr) (text ++ [c])
  | cstr {cstr : CStr} (ptr_ne : cstr.ptr ≠ 0) (apart : ¬ bufp.Spans cstr.ptr)
      (size : cstr.bytes.length ≤ ptrdiffMax) :
      Gives bufp text s (.cstr cstr) (text ++ cstr.bytes)
  | str {strval : Str} {ptr : Addr} (reads : Reads ops strval.handle ptr s)
      (apart : ¬ bufp.Spans ptr) (size : strval.bytes.length ≤ ptrdiffMax) :
      Gives bufp text s (.str strval) (text ++ strval.bytes)
  | strbuf {sourcebufHandle : MemHandle} {sourcebufp : Strbuf} {structPtr ptr : Addr}
      {new : List UInt8} (valid : Reads ops sourcebufHandle structPtr s)
      (reads : Reads ops sourcebufp.data ptr s) (apart : ¬ bufp.Spans ptr)
      (length_eq : sourcebufp.length = new.length)
      (contents : sourcebufp.block.take sourcebufp.length = new.map some)
      (size : new.length ≤ ptrdiffMax) :
      Gives bufp text s (.strbuf sourcebufHandle sourcebufp) (text ++ new)
  | printf {fmt : Addr} {vsnprintf : Vsnprintf} {new : List UInt8} (fmt_ne : fmt ≠ 0)
      (formats : Formats vsnprintf new) (size : new.length ≤ intMax) :
      Gives bufp text s (.printf fmt vsnprintf) (text ++ new)
  | reset : Gives bufp text s .reset []

/-- The runs of a buffer of the plain allocator, with the bytes appended since the last
reset. No allocation is refused; the rest of the program may allocate in between. -/
inductive StrbufRun (refusals : σ → Nat) (live : σ → Addr → Prop) (rounds c : Nat)
    (bufHandle : MemHandle) : Strbuf → List UInt8 → Prop
  | create {bufp : Strbuf} {s s' : σ}
      (call : strbufCreate ops .plain c s = .ok (bufHandle, some bufp) s') :
      StrbufRun refusals live rounds c bufHandle bufp []
  | step {bufp bufp' : Strbuf} {text text' : List UInt8} {op : StrbufOp} {b : Bool} {s s' : σ}
      (run : StrbufRun refusals live rounds c bufHandle bufp text)
      (alive : live s bufp.data.data) (gives : op.Gives ops bufp text s text')
      (call : op.run ops rounds bufHandle bufp s = .ok (b, bufp') s')
      (granted : refusals s' = refusals s) :
      StrbufRun refusals live rounds c bufHandle bufp' text'

/-- `strbuf_str` yields the text, which fits into the block, and the block's size is
the first one doubled. -/
structure ContentsLaw (c : Nat) (bufHandle : MemHandle) (bufp : Strbuf) (text : List UInt8) :
    Prop where
  str_eq : ∀ s, strbufStr ops bufHandle bufp s =
    .ok ⟨bufp.data.data, text.length, .notAllocated⟩ s
  bytes_eq : bufp.block.take text.length = text.map some
  length_le : bufp.length ≤ bufp.data.size
  size_eq : Doubling c bufp.data.size

/-- The operation returns; it returns true, keeps the law and does not make the block
smaller, unless an allocation was refused. -/
def Meets (refusals : σ → Nat) (rounds c : Nat) (bufHandle : MemHandle) (bufp : Strbuf)
    (op : StrbufOp) (text' : List UInt8) (s : σ) : Prop :=
  ∃ b bufp' s', op.run ops rounds bufHandle bufp s = .ok (b, bufp') s' ∧
    (refusals s' = refusals s →
      b = true ∧ ContentsLaw ops c bufHandle bufp' text' ∧ bufp.data.size ≤ bufp'.data.size)

end Operations

section Runs
variable {σ : Type} {libc : Libc σ} {spec : MemAllocator → Option (MemAllocatorSpec σ)}
  {refusals : σ → Nat} {live : σ → Addr → Prop} {rounds c : Nat} {bufHandle : MemHandle}
  {bufp : Strbuf} {text text' : List UInt8} {op : StrbufOp} {s : σ}

theorem reads_isValid {handle : MemHandle} {ptr : Addr}
    (h : Reads (memOps libc spec) handle ptr s) : memIsValid handle = true := by
  by_contra hv
  have hrun : (memOps libc spec).memP handle s = .ok 0 s := by
    change memP spec handle s = _
    rw [memP, if_neg hv]
    rfl
  rw [h.2] at hrun
  cases hrun
  exact h.1 rfl

theorem reads_deref {handle : MemHandle} {ptr : Addr}
    (h : Reads (memOps libc spec) handle ptr s) : deref (memOps libc spec) handle s = .ok () s := by
  rw [deref, bind_of_ok h.2, if_neg h.1]
  rfl

theorem contentsLaw (plain : spec .plain = some (plainSpec libc))
    (h : Carries bufHandle bufp text) (hd : Doubling c bufp.data.size) :
    ContentsLaw (memOps libc spec) c bufHandle bufp text where
  str_eq s := by
    rw [strbufStr, if_pos (memIsValid_eq_true.mpr h.handle_data),
      bind_of_ok (plain_deref plain h.handle_plain h.handle_data), h.length_eq]
    rfl
  bytes_eq := by
    rw [← h.length_eq]
    exact h.contents
  length_le := h.length_le
  size_eq := hd

/-- What every operation but the longest printf does. -/
theorem op_succeeds (plain : spec .plain = some (plainSpec libc))
    (heap : Serves (0 < ·) libc refusals live) (hrounds : 64 ≤ rounds)
    (h : Carries bufHandle bufp text) (hl : live s bufp.data.data)
    (gives : op.Gives (memOps libc spec) bufp text s text') (short : ¬ op.ReportsIntMax) :
    Succeeds refusals live (op.run (memOps libc spec) rounds bufHandle bufp) s fun bufp' =>
      Carries bufHandle bufp' text' ∧ Doubling bufp.data.size bufp'.data.size := by
  cases gives with
  | @char c cPtr ptr_ne apart =>
    have hsize : [c].length ≤ ptrdiffMax := by
      unfold ptrdiffMax
      simp
    change Succeeds refusals live (doStrbufConcatenate (memOps libc spec) rounds bufHandle bufp
      ⟨cPtr, [some c]⟩ [c].length) s _
    exact doStrbufConcatenate_succeeds plain heap hrounds h hl ptr_ne apart rfl hsize
  | @cstr cstr ptr_ne apart size =>
    unfold Succeeds StrbufOp.run
    dsimp only
    rw [strbufConcatenateCstr, if_neg ptr_ne]
    exact doStrbufConcatenate_succeeds plain heap hrounds h hl ptr_ne apart
      (List.take_of_length_le (by simp)) size
  | @str strval ptr reads apart size =>
    have hvalid : strIsValid strval = true := reads_isValid reads
    unfold Succeeds StrbufOp.run
    dsimp only
    rw [strbufConcatenateStr, if_pos hvalid, bind_of_ok reads.2, ← strval.size_eq]
    exact doStrbufConcatenate_succeeds plain heap hrounds h hl reads.1 apart
      (List.take_of_length_le (by simp)) size
  | @strbuf sourcebufHandle sourcebufp structPtr ptr new valid reads apart length_eq contents size =>
    have hvalid : strbufIsValid (memOps libc spec) sourcebufHandle sourcebufp s = .ok true s := by
      rw [strbufIsValid, if_pos (reads_isValid valid), bind_of_ok (reads_deref valid),
        reads_isValid reads]
      rfl
    rw [length_eq] at contents
    unfold Succeeds StrbufOp.run
    dsimp only
    rw [strbufConcatenateStrbuf, bind_of_ok hvalid, if_pos rfl, bind_of_ok (reads_deref valid),
      bind_of_ok reads.2, length_eq]
    exact doStrbufConcatenate_succeeds plain heap hrounds h hl reads.1 apart contents size
  | @printf fmt vsnprintf new fmt_ne formats size =>
    have hshort : new.length < intMax := by
      have hne : ¬ (vsnprintf 0).1 = intMax := short
      rw [formats.reports] at hne
      omega
    exact strbufConcatenatePrintf_succeeds plain heap hrounds h hl fmt_ne formats hshort
  | reset =>
    refine ⟨true, { bufp with length := 0 }, s, ?_, rfl, hl, ?_, Doubling.refl _⟩
    · unfold StrbufOp.run
      dsimp only
      rw [strbufReset, if_pos (memIsValid_eq_true.mpr h.handle_data)]
      have hrun : (deref (memOps libc spec) bufHandle >>= fun _ =>
          pure { bufp with length := 0 }) s = .ok { bufp with length := 0 } s := by
        rw [bind_of_ok (plain_deref plain h.handle_plain h.handle_data)]
        rfl
      rw [bind_of_ok hrun]
      rfl
    · exact ⟨⟨h.handle_plain, h.handle_data, h.data_plain, h.data_data, h.block_length,
        h.size_pos, h.size_le⟩, rfl, Nat.zero_le _, rfl⟩

/-- The longest printf: its int sum overflows before anything is appended. -/
theorem printf_overflows (plain : spec .plain = some (plainSpec libc))
    (h : Carries bufHandle bufp text) {fmt : Addr} {vsnprintf : Vsnprintf} (fmt_ne : fmt ≠ 0)
    (longest : (vsnprintf 0).1 = intMax) :
    StrbufOp.run (memOps libc spec) rounds bufHandle bufp (.printf fmt vsnprintf) s =
      .error .signedOverflow s := by
  have hincr : (incrInt (vsnprintf 0).1 : C σ Int) s = .error .signedOverflow s := by
    rw [incrInt, if_pos longest]
    rfl
  unfold StrbufOp.run
  dsimp only
  rw [strbufConcatenatePrintf, bind_of_ok (strbufIsValid_true plain h.toIntact),
    if_pos ⟨rfl, fmt_ne⟩, bind_of_ok (plain_deref plain h.handle_plain h.handle_data),
    bind_of_error hincr]

theorem run_carries (plain : spec .plain = some (plainSpec libc))
    (heap : Allocates libc refusals live) (hrounds : 64 ≤ rounds) (hc : 1 ≤ c)
    (run : StrbufRun (memOps libc spec) refusals live rounds c bufHandle bufp text) :
    Carries bufHandle bufp text ∧ Doubling c bufp.data.size := by
  induction run with
  | create call =>
    obtain ⟨hcarries, hsize⟩ := strbufCreate_carries plain (heap.serves _) hc call
    rw [hsize]
    exact ⟨hcarries, Doubling.refl c⟩
  | @step bufp bufp' text text' op b s s' run alive gives call granted ih =>
    obtain ⟨h, hdouble⟩ := ih
    have hshort : ¬ op.ReportsIntMax := by
      intro hlong
      cases gives with
      | printf fmt_ne formats size =>
        rw [printf_overflows plain h fmt_ne hlong] at call
        cases call
      | _ => exact hlong
    obtain ⟨b', bufp'', s'', hrun, hout⟩ :=
      op_succeeds plain (heap.serves _) hrounds h alive gives hshort
    rw [hrun] at call
    cases call
    cases b with
    | false => exact absurd granted (by simp only [Bool.false_eq_true, if_false] at hout; omega)
    | true => exact ⟨hout.2.2.1, hdouble.trans hout.2.2.2⟩

/-- In every state of a run the law holds, and the next operation meets it exactly if
it is not a printf of INT_MAX bytes. -/
theorem strbufRun_contents (plain : spec .plain = some (plainSpec libc))
    (heap : Allocates libc refusals live) (hrounds : 64 ≤ rounds) (hc : 1 ≤ c)
    (run : StrbufRun (memOps libc spec) refusals live rounds c bufHandle bufp text) :
    ContentsLaw (memOps libc spec) c bufHandle bufp text ∧
    ∀ op text' s, live s bufp.data.data → op.Gives (memOps libc spec) bufp text s text' →
      (Meets (memOps libc spec) refusals rounds c bufHandle bufp op text' s ↔
        ¬ op.ReportsIntMax) := by
  obtain ⟨h, hdouble⟩ := run_carries plain heap hrounds hc run
  refine ⟨contentsLaw plain h hdouble, ?_⟩
  intro op text' s hl gives
  constructor
  · intro ⟨b, bufp', s', hrun, _⟩ hlong
    cases gives with
    | printf fmt_ne formats size =>
      rw [printf_overflows plain h fmt_ne hlong] at hrun
      cases hrun
    | _ => exact hlong
  · intro hshort
    obtain ⟨b, bufp', s', hrun, hout⟩ :=
      op_succeeds plain (heap.serves _) hrounds h hl gives hshort
    refine ⟨b, bufp', s', hrun, ?_⟩
    intro hgranted
    cases b with
    | false => exact absurd hgranted (by simp only [Bool.false_eq_true, if_false] at hout; omega)
    | true =>
      obtain ⟨_, _, h', hdouble'⟩ := hout
      exact ⟨rfl, contentsLaw plain h' (hdouble.trans hdouble'), hdouble'.le⟩

end Runs

/-! ## A heap that grants what an object can have -/

structure LimitHeap where
  next : Nat
  refused : Nat
  sigint : SigHandler

def LimitHeap.grant (n : Nat) (heap : LimitHeap) : Addr × LimitHeap :=
  if n ≤ ptrdiffMax then
    (UInt64.ofNat (16 * (heap.next % 2 ^ 32 + 1)), { heap with next := heap.next + 1 })
  else (0, { heap with refused := heap.refused + 1 })

def limitLibc : Libc LimitHeap where
  malloc n := modifyGet (LimitHeap.grant n)
  realloc _ n := modifyGet (LimitHeap.grant n)
  free _ := pure ()
  signal handler := modifyGet fun heap => (heap.sigint, { heap with sigint := handler })
  staleStore _ _ := pure ()

theorem grant_answered (n : Nat) (heap : LimitHeap) :
    Answered LimitHeap.refused (fun _ _ => True) n (heap.grant n).1 heap (heap.grant n).2 := by
  unfold Answered LimitHeap.grant
  by_cases hn : n ≤ ptrdiffMax
  · have hne : UInt64.ofNat (16 * (heap.next % 2 ^ 32 + 1)) ≠ 0 := by
      intro h
      have := congrArg UInt64.toNat h
      simp only [UInt64.toNat_ofNat', UInt64.toNat_zero] at this
      omega
    rw [if_pos hn, if_neg hne]
    exact ⟨hn, rfl, trivial⟩
  · rw [if_neg hn, if_pos rfl]
    exact Nat.lt_succ_self _

theorem limitLibc_allocates : Allocates limitLibc LimitHeap.refused fun _ _ => True where
  malloc n s := ⟨_, _, rfl, grant_answered n s⟩
  realloc _ n s _ := ⟨_, _, rfl, grant_answered n s⟩
  signal _ _ := ⟨_, _, rfl, rfl, fun _ h => h⟩

def limitOps : MemOps LimitHeap := memOps limitLibc (baseSpec limitLibc)

def oneByte : Strbuf := ⟨⟨32, 1, .plain⟩, [some 0], 0⟩

theorem oneByte_created : strbufCreate limitOps .plain 1 ⟨0, 0, .dfl⟩ =
    .ok (⟨16, 40, .plain⟩, some oneByte) ⟨2, 0, .dfl⟩ := rfl

theorem oneByte_run : StrbufRun limitOps LimitHeap.refused (fun _ _ => True) 64 1
    ⟨16, 40, .plain⟩ oneByte [] := .create oneByte_created

def hello : CStr := ⟨4096, [104, 101, 108, 108, 111], by decide⟩

theorem hello_gives :
    (StrbufOp.cstr hello).Gives limitOps oneByte [] ⟨2, 0, .dfl⟩ hello.bytes :=
  .cstr (by decide) (by decide) (by decide)

/-- "hello" makes the buffer of one byte grow to eight. -/
theorem strbufRun_contents_hello :
    Meets limitOps LimitHeap.refused 64 1 ⟨16, 40, .plain⟩ oneByte (.cstr hello) hello.bytes
      ⟨2, 0, .dfl⟩ ∧
    ∃ bufp s, (StrbufOp.cstr hello).run limitOps 64 ⟨16, 40, .plain⟩ oneByte ⟨2, 0, .dfl⟩ =
        .ok (true, bufp) s ∧
      bufp.data.size = 8 ∧ ContentsLaw limitOps 1 ⟨16, 40, .plain⟩ bufp hello.bytes := by
  have law := strbufRun_contents rfl limitLibc_allocates (by decide) (by decide) oneByte_run
  refine ⟨(law.2 _ _ _ trivial hello_gives).mpr id, _, _, rfl, rfl, ?_⟩
  exact (strbufRun_contents rfl limitLibc_allocates (by decide) (by decide)
    (.step oneByte_run trivial hello_gives rfl rfl)).1

/-- `vsnprintf` of the format "%s" and a string of that many letters. -/
def printsLetters (length : Nat) : Vsnprintf := fun size =>
  (length, (List.replicate length (65 : UInt8)).take (size - 1) ++ [0])

def longestPrintf : StrbufOp := .printf 4096 (printsLetters intMax)

theorem strbufPrintf_intMax :
    StrbufRun limitOps LimitHeap.refused (fun _ _ => True) 64 1 ⟨16, 40, .plain⟩ oneByte [] ∧
    longestPrintf.Gives limitOps oneByte [] ⟨2, 0, .dfl⟩ (List.replicate intMax 65) ∧
    longestPrintf.run limitOps 64 ⟨16, 40, .plain⟩ oneByte ⟨2, 0, .dfl⟩ =
      .error .signedOverflow ⟨2, 0, .dfl⟩ := by
  have formats : Formats (printsLetters intMax) (List.replicate intMax 65) :=
    ⟨fun size => by rw [List.length_replicate]; rfl, fun size => rfl⟩
  have size : (List.replicate intMax (65 : UInt8)).length ≤ intMax :=
    Nat.le_of_eq List.length_replicate
  exact ⟨oneByte_run, .printf (by decide) formats size, rfl⟩

end M65Tool.Guarantees.StringContents
