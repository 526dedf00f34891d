import M65Tool.Guarantees.StringContents
import M65Tool.Source.StringBufferBlocks
import M65Tool.Source.StrFunctions

/-!
# STRBUF-LIFECYCLE: a program with a string buffer

A program creates a string buffer over the plain allocator, appends to it, resets it and
duplicates it, with anything else in between that leaves the buffer's blocks alone. Any
request may be refused. Until a growth is, the buffer carries what was appended and its
destruction gives both of its blocks back; from then on every append fails, and the two
blocks are never freed.
-/
namespace M65Tool.Guarantees.StrbufLifecycle
open Source Source.Mem Source.StringBuffer Source.StrFunctions StringContents
open Lib.Block Lib.Effect Lib.Ownership

section Calls
variable {σ : Type} {libc : Libc σ} {live : σ → Addr → Prop} {rest : Set Addr} {rounds : Nat}
  {bufHandle : MemHandle} {bufp : Strbuf} {text text' : List UInt8} {op : StrbufOp} {s : σ}
  {E : Fault → σ → Prop}

/-- What every operation but the longest printf does to the buffer's blocks. -/
theorem op_owns (heap : ObjectHeap libc live) (hrounds : 64 ≤ rounds)
    (h : Carries bufHandle bufp text) (gives : op.Gives (baseOps libc) bufp text s text')
    (short : ¬ op.ReportsIntMax) :
    Triple (fun t => t = s ∧ Owns live rest (bufBlocks bufHandle bufp) t)
      (op.run (baseOps libc) rounds bufHandle bufp)
      (Ends live rest bufHandle fun bufp' => Carries bufHandle bufp' text') E := by
  have owned : ∀ t, t = s ∧ Owns live rest (bufBlocks bufHandle bufp) t →
      Owns live rest (bufBlocks bufHandle bufp) t := fun t ht => ht.2
  cases gives with
  | @char c cPtr ptr_ne apart =>
    have hsize : [c].length ≤ ptrdiffMax := by
      unfold ptrdiffMax
      simp
    exact (doStrbufConcatenate_owns [c] heap hrounds h ⟨cPtr, [some c]⟩ ptr_ne apart rfl
      hsize).weaken owned fun _ _ hends => hends
  | @cstr cstr ptr_ne apart size =>
    unfold StrbufOp.run
    dsimp only
    rw [strbufConcatenateCstr, if_neg ptr_ne]
    exact (doStrbufConcatenate_owns cstr.bytes heap hrounds h ⟨cstr.ptr, cstr.bytes.map some⟩ ptr_ne
      apart (List.take_of_length_le (by simp)) size).weaken owned fun _ _ hends => hends
  | @str strval ptr reads apart size =>
    have hvalid : strIsValid strval = true := reads_isValid reads
    unfold StrbufOp.run
    dsimp only
    rw [strbufConcatenateStr, if_pos hvalid]
    refine .past (fun t ht => by rw [ht.1]; exact reads.2) ?_
    rw [← strval.size_eq]
    exact (doStrbufConcatenate_owns strval.bytes heap hrounds h ⟨ptr, strval.bytes.map some⟩ reads.1
      apart (List.take_of_length_le (by simp)) size).weaken owned fun _ _ hends => hends
  | @strbuf sourcebufHandle sourcebufp structPtr ptr new valid reads apart length_eq contents size =>
    have hvalid : strbufIsValid (baseOps libc) sourcebufHandle sourcebufp s = .ok true s := by
      rw [strbufIsValid, if_pos (reads_isValid valid), bind_of_ok (reads_deref valid),
        reads_isValid reads]
      rfl
    rw [length_eq] at contents
    unfold StrbufOp.run
    dsimp only
    refine .past (fun t ht => by rw [ht.1]; exact hvalid) ?_
    rw [if_pos rfl]
    refine .past (fun t ht => by rw [ht.1]; exact reads_deref valid) ?_
    refine .past (fun t ht => by rw [ht.1]; exact reads.2) ?_
    rw [length_eq]
    exact (doStrbufConcatenate_owns new heap hrounds h ⟨ptr, sourcebufp.block⟩ reads.1 apart
      contents size).weaken owned fun _ _ hends => hends
  | @printf fmt vsnprintf new fmt_ne formats size =>
    have hshort : new.length < intMax := by
      have hne : ¬ (vsnprintf 0).1 = intMax := short
      rw [formats.reports] at hne
      omega
    exact (strbufConcatenatePrintf_owns heap hrounds h fmt_ne formats hshort).weaken owned
      fun _ _ hends => hends
  | reset =>
    unfold StrbufOp.run
    dsimp only
    rw [strbufReset, if_pos (memIsValid_eq_true.mpr h.handle_data)]
    simp only [bind_assoc]
    refine .past (fun t _ => baseOps_deref h.handle_plain h.handle_data t) (.ret fun t ht => ?_)
    exact .done ⟨⟨h.handle_plain, h.handle_data, h.data_plain, h.data_data, h.block_length,
      h.size_pos, h.size_le⟩, rfl, Nat.zero_le _, rfl⟩ ht.2

/-- The copy has the text and the size, in two blocks of its own. A refusal leaves nothing
behind. -/
theorem strbufDuplicate_owns (heap : ObjectHeap libc live) (hrounds : 0 < rounds)
    (h : Carries bufHandle bufp text) :
    Triple (Owns live rest (bufBlocks bufHandle bufp))
      (strbufDuplicate (baseOps libc) rounds bufHandle bufp)
      (fun result s => match result.2 with
        | some copyp => Carries result.1 copyp text ∧ copyp.data.size = bufp.data.size ∧
          Owns live rest (bufBlocks result.1 copyp ++ bufBlocks bufHandle bufp) s
        | none => result.1 = .zero ∧ Owns live rest (bufBlocks bufHandle bufp) s) E := by
  intro s howns
  have hlength := h.length_le
  have hle := h.size_le
  have hlent : Owns live ({a | a ∈ bufBlocks bufHandle bufp} ∪ rest) [] s := howns.lend
  have hcreate := (strbufCreate_owns heap h.size_pos (E := fun _ _ => False)).returns hlent
  obtain ⟨⟨copyHandle, created⟩, s1, hrun, hpost⟩ := hcreate
  have hvalid : strbufIsValid (baseOps libc) bufHandle bufp s = .ok true s :=
    strbufIsValid_true rfl h.toIntact
  rw [strbufDuplicate, bind_of_ok hvalid, if_pos rfl,
    bind_of_ok (baseOps_deref h.handle_plain h.handle_data s), h.handle_plain, bind_of_ok hrun]
  cases created with
  | none => exact ⟨rfl, hpost.2.collect howns.nodup howns.apart⟩
  | some copyp =>
    obtain ⟨hcopy, hsize, howns1⟩ := hpost
    have hback := howns1.collect howns.nodup howns.apart
    have hempty : copyp.length = 0 := hcopy.length_eq
    have hsum : addSize copyp.length bufp.length = bufp.length := by
      unfold ptrdiffMax at hle
      rw [addSize_eq (by unfold sizeMod; omega), hempty, Nat.zero_add]
    have hgrow : growLoop (baseOps libc) copyHandle bufp.length rounds copyp s1 =
        .ok (true, copyp) s1 := by
      obtain ⟨r, rfl⟩ : ∃ r, rounds = r + 1 := ⟨rounds - 1, by omega⟩
      rw [growLoop, if_neg (by rw [hsum, hsize]; omega)]
      rfl
    have hread : readRegion copyp copyp ⟨bufp.data.data, bufp.block⟩ bufp.length s1 =
        .ok (text.map some) s1 := by
      rw [readRegion_ok h.data_data (fun hw => hw.2 rfl) (by rw [h.block_length]; exact hlength),
        h.contents]
    have hfits : copyp.length + (text.map some ++ ([] : Cells)).length ≤ copyp.data.size := by
      rw [hempty, List.append_nil, List.length_map, Nat.zero_add, ← h.length_eq, hsize]
      exact hlength
    have hstored := hcopy.store hfits
    rw [List.append_nil] at hfits hstored
    rw [List.nil_append] at hstored
    have happend : strbufConcatenateStrbuf (baseOps libc) rounds copyHandle copyp bufHandle bufp
        s1 = .ok (true, copyp.extended (text.map some) text.length) s1 := by
      rw [strbufConcatenateStrbuf, bind_of_ok (strbufIsValid_true rfl h.toIntact), if_pos rfl,
        bind_of_ok (baseOps_deref h.handle_plain h.handle_data s1),
        bind_of_ok (plain_memP rfl h.data_plain),
        doStrbufConcatenate_grown (strbufIsValid_true rfl hcopy.toIntact)
          (baseOps_deref hcopy.handle_plain hcopy.handle_data s1) hgrow,
        bind_of_ok hread, bind_of_ok (storeAtEnd_ok
          (baseOps_deref hcopy.data_plain hcopy.data_data s1) hcopy.block_length hfits)]
      dsimp only
      rw [hsum, ← h.length_eq]
      unfold Strbuf.extended
      rw [hempty, Nat.zero_add]
      rfl
    have hcopied : strbufIsValid (baseOps libc) copyHandle copyp s1 = .ok true s1 :=
      strbufIsValid_true rfl hcopy.toIntact
    dsimp only
    rw [bind_of_ok hcopied, if_pos rfl, bind_of_ok happend]
    exact ⟨hstored, hsize, hback⟩

end Calls

/-! ## A program with a buffer -/

section Program
variable {σ : Type} {libc : Libc σ} {live : σ → Addr → Prop} {rest : Set Addr} {rounds : Nat}
  {bufHandle : MemHandle} {bufp : Strbuf} {text : List UInt8} {intact : Bool} {s : σ}

/-- What a program with a buffer at a handle comes to: the blocks that are not the buffer's,
its struct, the text appended to it, and whether every call has returned true. -/
inductive StrbufProgram (libc : Libc σ) (live : σ → Addr → Prop) (rounds : Nat) :
    MemHandle → Set Addr → Strbuf → List UInt8 → Bool → σ → Prop
  | create {bufHandle : MemHandle} {rest : Set Addr} {bufp : Strbuf} {c : Nat} {s s' : σ}
      (before : ∀ a, live s a ↔ a ∈ rest) (bytes : 1 ≤ c)
      (call : strbufCreate (baseOps libc) .plain c s = .ok (bufHandle, some bufp) s') :
      StrbufProgram libc live rounds bufHandle rest bufp [] true s'
  | duplicate {bufHandle sourceHandle : MemHandle} {rest : Set Addr} {bufp sourcep : Strbuf}
      {text : List UInt8} {intact : Bool} {s s' : σ}
      (source : StrbufProgram libc live rounds sourceHandle rest sourcep text intact s)
      (call : strbufDuplicate (baseOps libc) rounds sourceHandle sourcep s =
        .ok (bufHandle, some bufp) s') :
      StrbufProgram libc live rounds bufHandle ({a | a ∈ bufBlocks sourceHandle sourcep} ∪ rest)
        bufp text true s'
  | op {bufHandle : MemHandle} {rest : Set Addr} {bufp bufp' : Strbuf} {text text' : List UInt8}
      {intact b : Bool} {op : StrbufOp} {s s' : σ}
      (before : StrbufProgram libc live rounds bufHandle rest bufp text intact s)
      (gives : op.Gives (baseOps libc) bufp text s text')
      (call : op.run (baseOps libc) rounds bufHandle bufp s = .ok (b, bufp') s') :
      StrbufProgram libc live rounds bufHandle rest bufp' (if b then text' else text)
        (intact && b) s'
  /-- anything else, that neither frees the buffer's blocks nor makes blocks out of them -/
  | other {bufHandle : MemHandle} {rest rest' : Set Addr} {bufp : Strbuf} {text : List UInt8}
      {intact : Bool} {s s' : σ}
      (before : StrbufProgram libc live rounds bufHandle rest bufp text intact s)
      (apart : ∀ a, live s a → a ∉ rest → a ∉ rest')
      (live_iff : ∀ a, live s' a ↔ (live s a ∧ a ∉ rest) ∨ a ∈ rest') :
      StrbufProgram libc live rounds bufHandle rest' bufp text intact s'

/-- The buffer and its two blocks. -/
structure Holds (live : σ → Addr → Prop) (rest : Set Addr) (bufHandle : MemHandle) (bufp : Strbuf)
    (text : List UInt8) (s : σ) : Prop where
  carries : Carries bufHandle bufp text
  owns : Owns live rest (bufBlocks bufHandle bufp) s

/-- A buffer that has lost its block, which is live still. -/
structure Orphaned (live : σ → Addr → Prop) (rest : Set Addr) (bufHandle : MemHandle)
    (bufp : Strbuf) (s : σ) : Prop where
  handle_plain : bufHandle.allocator = .plain
  handle_data : bufHandle.data ≠ 0
  data_null : bufp.data.data = 0
  owns : ∃ bytes, Owns live rest [bytes, bufHandle.data] s

/-- What else happens in the heap leaves a part's blocks with it. -/
theorem owns_other {rest' : Set Addr} {own : List Addr} {s' : σ} (owns : Owns live rest own s)
    (apart : ∀ a, live s a → a ∉ rest → a ∉ rest')
    (live_iff : ∀ a, live s' a ↔ (live s a ∧ a ∉ rest) ∨ a ∈ rest') : Owns live rest' own s' where
  live_iff a := by
    rw [live_iff]
    refine or_congr_left ⟨fun h => ((owns.live_iff a).mp h.1).resolve_right h.2, fun ha => ?_⟩
    exact ⟨owns.live_own ha, owns.apart a ha⟩
  nodup := owns.nodup
  apart a ha := apart a (owns.live_own ha) (owns.apart a ha)

namespace Orphaned
variable (orphaned : Orphaned live rest bufHandle bufp s)
include orphaned

theorem isValid_eq (t : σ) : strbufIsValid (baseOps libc) bufHandle bufp t = .ok false t := by
  rw [strbufIsValid, if_pos (memIsValid_eq_true.mpr orphaned.handle_data),
    bind_of_ok (baseOps_deref orphaned.handle_plain orphaned.handle_data t),
    memIsValid_eq_false.mpr orphaned.data_null]
  rfl

/-- No operation on it frees or allocates anything, and only a reset returns true. -/
theorem op_run {op : StrbufOp} {text' : List UInt8}
    (gives : op.Gives (baseOps libc) bufp text s text') :
    ∃ b bufp', op.run (baseOps libc) rounds bufHandle bufp s = .ok (b, bufp') s ∧
      bufp'.data = bufp.data ∧ (b = true → op = .reset) := by
  have hdo : ∀ (cstr : Region) (n : Nat),
      doStrbufConcatenate (baseOps libc) rounds bufHandle bufp cstr n s = .ok (false, bufp) s := by
    intro cstr n
    rw [doStrbufConcatenate, bind_of_ok (orphaned.isValid_eq s)]
    rfl
  cases gives with
  | char ptr_ne apart => exact ⟨false, bufp, hdo _ _, rfl, fun hb => absurd hb Bool.false_ne_true⟩
  | @cstr cstr ptr_ne apart size =>
    refine ⟨false, bufp, ?_, rfl, fun hb => absurd hb Bool.false_ne_true⟩
    change strbufConcatenateCstr (baseOps libc) rounds bufHandle bufp cstr s = _
    rw [strbufConcatenateCstr, if_neg ptr_ne]
    exact hdo _ _
  | @str strval ptr reads apart size =>
    have hvalid : strIsValid strval = true := reads_isValid reads
    refine ⟨false, bufp, ?_, rfl, fun hb => absurd hb Bool.false_ne_true⟩
    change strbufConcatenateStr (baseOps libc) rounds bufHandle bufp strval s = _
    rw [strbufConcatenateStr, if_pos hvalid, bind_of_ok reads.2]
    exact hdo _ _
  | @strbuf sourcebufHandle sourcebufp structPtr ptr new valid reads apart length_eq contents size =>
    have hvalid : strbufIsValid (baseOps libc) sourcebufHandle sourcebufp s = .ok true s := by
      rw [strbufIsValid, if_pos (reads_isValid valid), bind_of_ok (reads_deref valid),
        reads_isValid reads]
      rfl
    refine ⟨false, bufp, ?_, rfl, fun hb => absurd hb Bool.false_ne_true⟩
    change strbufConcatenateStrbuf (baseOps libc) rounds bufHandle bufp sourcebufHandle sourcebufp
      s = _
    rw [strbufConcatenateStrbuf, bind_of_ok hvalid, if_pos rfl, bind_of_ok (reads_deref valid),
      bind_of_ok reads.2]
    exact hdo _ _
  | @printf fmt vsnprintf new fmt_ne formats size =>
    refine ⟨false, bufp, ?_, rfl, fun hb => absurd hb Bool.false_ne_true⟩
    change strbufConcatenatePrintf (baseOps libc) rounds bufHandle bufp fmt vsnprintf s = _
    rw [strbufConcatenatePrintf, bind_of_ok (orphaned.isValid_eq s)]
    rfl
  | reset =>
    refine ⟨true, { bufp with length := 0 }, ?_, rfl, fun _ => rfl⟩
    have hreset :
        strbufReset (baseOps libc) bufHandle bufp s = .ok { bufp with length := 0 } s := by
      rw [strbufReset, if_pos (memIsValid_eq_true.mpr orphaned.handle_data),
        bind_of_ok (baseOps_deref orphaned.handle_plain orphaned.handle_data s)]
      rfl
    change (strbufReset (baseOps libc) bufHandle bufp >>= fun bufp' => pure (true, bufp')) s = _
    rw [bind_of_ok hreset]
    rfl

end Orphaned

/-- Until a call returns false the buffer carries the text in its two blocks; from then on it
has lost one. -/
theorem StrbufProgram.keeps (heap : ObjectHeap libc live) (hrounds : 64 ≤ rounds)
    (program : StrbufProgram libc live rounds bufHandle rest bufp text intact s) :
    if intact then Holds live rest bufHandle bufp text s
    else Orphaned live rest bufHandle bufp s := by
  induction program with
  | create before bytes call =>
    obtain ⟨carries, -, owns⟩ := (strbufCreate_owns heap bytes (E := fun _ _ => False)).of_ok
      (Owns.nothing.mpr before) call
    exact ⟨carries, owns⟩
  | @duplicate bufHandle sourceHandle rest bufp sourcep text intact s s' source call ih =>
    cases intact with
    | true =>
      rw [if_pos rfl] at ih
      obtain ⟨carries, -, owns⟩ := (strbufDuplicate_owns heap (by omega) ih.carries
        (E := fun _ _ => False)).of_ok ih.owns call
      exact ⟨carries, owns.lend⟩
    | false =>
      rw [if_neg Bool.false_ne_true] at ih
      rw [strbufDuplicate, bind_of_ok (ih.isValid_eq s)] at call
      cases call
  | @op bufHandle rest bufp bufp' text text' intact b op s s' before gives call ih =>
    cases intact with
    | true =>
      rw [if_pos rfl] at ih
      have hshort : ¬ op.ReportsIntMax := by
        intro hlong
        cases gives with
        | printf fmt_ne formats size =>
          rw [printf_overflows rfl ih.carries fmt_ne hlong] at call
          cases call
        | _ => exact hlong
      have ends := (op_owns heap hrounds ih.carries gives hshort (E := fun _ _ => False)).of_ok
        ⟨rfl, ih.owns⟩ call
      cases ends with
      | done holds owns => exact ⟨holds, owns⟩
      | lost data_null owns => exact ⟨ih.carries.handle_plain, ih.carries.handle_data, data_null,
          _, owns⟩
    | false =>
      rw [if_neg Bool.false_ne_true] at ih
      obtain ⟨b', bufp'', hrun, hdata, -⟩ := ih.op_run gives
      rw [hrun] at call
      cases call
      exact ⟨ih.handle_plain, ih.handle_data, hdata ▸ ih.data_null, ih.owns⟩
  | @other bufHandle rest rest' bufp text intact s s' before apart live_iff ih =>
    cases intact with
    | true => exact ⟨ih.carries, owns_other ih.owns apart live_iff⟩
    | false =>
      rw [if_neg Bool.false_ne_true] at ih
      obtain ⟨bytes, owns⟩ := ih.owns
      exact ⟨ih.handle_plain, ih.handle_data, ih.data_null, bytes, owns_other owns apart live_iff⟩

/-- While every call has returned true the buffer has the text, and a destroy leaves exactly
the other blocks. -/
theorem strbufProgram_releases (heap : ObjectHeap libc live) (hrounds : 64 ≤ rounds)
    (program : StrbufProgram libc live rounds bufHandle rest bufp text true s) :
    strbufStr (baseOps libc) bufHandle bufp s = .ok ⟨bufp.data.data, text.length, .notAllocated⟩ s ∧
    bufp.block.take text.length = text.map some ∧
    ∃ s', strbufDestroy (baseOps libc) bufHandle bufp s = .ok () s' ∧
      ∀ a, live s' a ↔ a ∈ rest := by
  obtain ⟨carries, owns⟩ := (program.keeps heap hrounds : Holds live rest bufHandle bufp text s)
  refine ⟨?_, carries.length_eq ▸ carries.contents, ?_⟩
  · rw [strbufStr, if_pos (memIsValid_eq_true.mpr carries.handle_data),
      bind_of_ok (baseOps_deref carries.handle_plain carries.handle_data s), carries.length_eq]
    rfl
  · obtain ⟨u, s', hrun, howns⟩ := (strbufDestroy_owns heap carries.toIntact
      (E := fun _ _ => False)).returns owns
    exact ⟨s', hrun, fun a => Owns.nothing.mp howns a⟩

/-- Once a call has returned false two blocks are left that are not the program's, the struct
and one to which there is no pointer, and no call frees or allocates anything any more. -/
theorem strbufProgram_leaks (heap : ObjectHeap libc live) (hrounds : 64 ≤ rounds)
    (program : StrbufProgram libc live rounds bufHandle rest bufp text false s) :
    (∃ bytes, bytes ≠ bufHandle.data ∧ bytes ∉ rest ∧ bufHandle.data ∉ rest ∧
      ∀ a, live s a ↔ (a = bytes ∨ a = bufHandle.data) ∨ a ∈ rest) ∧
    strbufIsValid (baseOps libc) bufHandle bufp s = .ok false s ∧
    strbufDestroy (baseOps libc) bufHandle bufp s = .ok () s ∧
    strbufDuplicate (baseOps libc) rounds bufHandle bufp s = .ok (.zero, none) s ∧
    ∀ (op : StrbufOp) (text' : List UInt8), op.Gives (baseOps libc) bufp text s text' →
      ∃ b bufp', op.run (baseOps libc) rounds bufHandle bufp s = .ok (b, bufp') s ∧
        bufp'.data = bufp.data ∧ (b = true → op = .reset) := by
  have orphaned := (program.keeps heap hrounds : Orphaned live rest bufHandle bufp s)
  have hvalid : strbufIsValid (baseOps libc) bufHandle bufp s = .ok false s := orphaned.isValid_eq s
  refine ⟨?_, hvalid, ?_, ?_, fun op text' gives => orphaned.op_run gives⟩
  · obtain ⟨bytes, owns⟩ := orphaned.owns
    refine ⟨bytes, ?_, owns.apart _ List.mem_cons_self,
      owns.apart _ (List.mem_cons_of_mem _ List.mem_cons_self), fun a => ?_⟩
    · exact fun hsame => (List.nodup_cons.mp owns.nodup).1 (List.mem_singleton.mpr hsame)
    · rw [owns.live_iff, List.mem_cons, List.mem_singleton]
  · rw [strbufDestroy, bind_of_ok hvalid]
    rfl
  · rw [strbufDuplicate, bind_of_ok hvalid]
    rfl

/-- Duplicating a buffer always returns. It leaves the heap as it was, or makes a second
buffer of the same size and text; what is done to one of the two does not concern the other. -/
theorem strbufProgram_duplicates (heap : ObjectHeap libc live) (hrounds : 64 ≤ rounds)
    (program : StrbufProgram libc live rounds bufHandle rest bufp text true s) :
    ∃ copyHandle copy s',
      strbufDuplicate (baseOps libc) rounds bufHandle bufp s = .ok (copyHandle, copy) s' ∧
      match copy with
      | none => copyHandle = .zero ∧ ∀ a, live s' a ↔ live s a
      | some copyp => copyp.data.size = bufp.data.size ∧
        StrbufProgram libc live rounds copyHandle ({a | a ∈ bufBlocks bufHandle bufp} ∪ rest) copyp
          text true s' ∧
        StrbufProgram libc live rounds bufHandle ({a | a ∈ bufBlocks copyHandle copyp} ∪ rest) bufp
          text true s' := by
  obtain ⟨carries, owns⟩ := (program.keeps heap hrounds : Holds live rest bufHandle bufp text s)
  obtain ⟨⟨copyHandle, copy⟩, s', hrun, hpost⟩ := (strbufDuplicate_owns heap
    (Nat.lt_of_lt_of_le (by decide) hrounds) carries (E := fun _ _ => False)).returns owns
  refine ⟨copyHandle, copy, s', hrun, ?_⟩
  cases copy with
  | none =>
    obtain ⟨hzero, owns'⟩ := hpost
    exact ⟨hzero, fun a => (owns'.live_iff a).trans (owns.live_iff a).symm⟩
  | some copyp =>
    obtain ⟨-, hsize, owns'⟩ := hpost
    have hswap := (owns'.perm List.perm_append_comm).lend
    refine ⟨hsize, .duplicate program hrun, .other program ?_ fun a => ?_⟩
    · intro a ha hrest
      have hown := ((owns.live_iff a).mp ha).resolve_right hrest
      exact hswap.apart a hown
    · rw [hswap.live_iff]
      refine or_congr_left ⟨fun ha => ⟨owns.live_own ha, owns.apart a ha⟩, fun h => ?_⟩
      exact ((owns.live_iff a).mp h.1).resolve_right h.2

end Program

/-! ## A buffer of one byte -/

/-- What is larger than PTRDIFF_MAX is refused. -/
def limited (n : Nat) (x : C ScriptBlocks Addr) : C ScriptBlocks Addr :=
  if n ≤ ptrdiffMax then x else pure 0

def objectLibc : Libc ScriptBlocks :=
  { ScriptBlocks.libc with
    malloc := fun n => limited n (ScriptBlocks.libc.malloc n)
    realloc := fun old n => limited n (ScriptBlocks.libc.realloc old n) }

theorem limited_le {n : Nat} {x : C ScriptBlocks Addr} {s s' : ScriptBlocks} {a : Addr}
    (hrun : limited n x s = .ok a s') (ha : a ≠ 0) : n ≤ ptrdiffMax := by
  by_contra hn
  rw [limited, if_neg hn] at hrun
  cases hrun
  exact ha rfl

theorem objectLibc_objectHeap : ObjectHeap objectLibc ScriptBlocks.Live where
  signal := ScriptBlocks.blockHeap.signal
  heap.malloc n s := by
    change ∃ a s', limited n (ScriptBlocks.libc.malloc n) s = .ok a s' ∧ _
    unfold limited
    split
    · exact ScriptBlocks.blockHeap.heap.malloc n s
    · exact ⟨0, s, rfl, .refused fun _ => Iff.rfl⟩
  heap.realloc old n s hn hlive := by
    change ∃ a s', limited n (ScriptBlocks.libc.realloc old n) s = .ok a s' ∧ _
    unfold limited
    split
    · exact ScriptBlocks.blockHeap.heap.realloc old n s hn hlive
    · exact ⟨0, s, rfl, .refused fun _ => Iff.rfl⟩
  heap.free := ScriptBlocks.blockHeap.heap.free
  malloc_le _ _ _ _ := limited_le
  realloc_le _ _ _ _ _ := limited_le

def byteHandle : MemHandle := ⟨16, 40, .plain⟩
def byteBuffer (cell : UInt8) (length : Nat) : Strbuf := ⟨⟨32, 1, .plain⟩, [some cell], length⟩

/-- The block at 4096 is the program's; two more requests will be granted. -/
def byteBlocks : ScriptBlocks := ⟨[64, 80], [32, 16, 4096]⟩

/-- A letter fills the buffer. -/
theorem letter_program :
    StrbufProgram objectLibc ScriptBlocks.Live 64 byteHandle {4096} (byteBuffer 65 1) [65] true
      byteBlocks := by
  have created : StrbufProgram objectLibc ScriptBlocks.Live 64 byteHandle {4096} (byteBuffer 0 0) []
      true byteBlocks := by
    refine .create (c := 1) (s := ⟨[16, 32, 64, 80], [4096]⟩) (fun a => ?_) (by decide) rfl
    change a ≠ 0 ∧ a ∈ [4096] ↔ a ∈ {4096}
    rw [Set.mem_singleton_iff, List.mem_singleton]
    exact ⟨fun h => h.2, fun h => ⟨by rw [h]; decide, h⟩⟩
  have gives : (StrbufOp.char 65 4096).Gives (baseOps objectLibc) (byteBuffer 0 0) [] byteBlocks
      [65] := .char (by decide) (by decide)
  exact .op created gives rfl

theorem strbufProgram_releases_letter :
    ∃ s', strbufDestroy (baseOps objectLibc) byteHandle (byteBuffer 65 1) byteBlocks = .ok () s' ∧
      ∀ a, s'.Live a ↔ a ∈ ({4096} : Set Addr) :=
  (strbufProgram_releases objectLibc_objectHeap (by decide) letter_program).2.2

theorem strbufProgram_duplicates_letter :
    ∃ copyHandle copy s', strbufDuplicate (baseOps objectLibc) 64 byteHandle (byteBuffer 65 1)
        byteBlocks = .ok (copyHandle, some copy) s' ∧ copy.data.size = 1 := by
  obtain ⟨copyHandle, copy, s', hrun, hpost⟩ :=
    strbufProgram_duplicates objectLibc_objectHeap (by decide) letter_program
  have hcopy : strbufDuplicate (baseOps objectLibc) 64 byteHandle (byteBuffer 65 1) byteBlocks =
      .ok (⟨64, 40, .plain⟩, some ⟨⟨80, 1, .plain⟩, [some 65], 1⟩) _ := rfl
  obtain ⟨hresult, rfl⟩ := EStateM.Result.ok.inj (hrun.symm.trans hcopy)
  obtain ⟨rfl, rfl⟩ := Prod.mk.inj hresult
  exact ⟨_, _, _, hrun, hpost.1⟩

/-- When both requests have been used up, a second letter loses the buffer's block. -/
theorem strbufProgram_leaks_letter :
    ∃ bufp s, strbufDestroy (baseOps objectLibc) byteHandle bufp s = .ok () s ∧
      ∃ bytes : Addr, bytes ≠ byteHandle.data ∧
        ∀ a, s.Live a ↔ (a = bytes ∨ a = byteHandle.data) ∨ a ∈ ({4096} : Set Addr) := by
  have used : StrbufProgram objectLibc ScriptBlocks.Live 64 byteHandle {4096} (byteBuffer 65 1) [65]
      true ⟨[], [32, 16, 4096]⟩ := by
    refine .other letter_program (fun a _ ha => ha) fun a => ?_
    have hrest : a ∈ ({4096} : Set Addr) → a ≠ 0 ∧ a ∈ [32, 16, 4096] := by
      rintro rfl
      decide
    change a ≠ 0 ∧ a ∈ [32, 16, 4096] ↔ (a ≠ 0 ∧ a ∈ [32, 16, 4096]) ∧ a ∉ _ ∨ a ∈ _
    by_cases ha : a ∈ ({4096} : Set Addr)
    · exact ⟨fun _ => Or.inr ha, fun _ => hrest ha⟩
    · exact ⟨fun h => Or.inl ⟨h, ha⟩, fun h => (h.resolve_right ha).1⟩
  have gives : (StrbufOp.char 66 4096).Gives (baseOps objectLibc) (byteBuffer 65 1) [65]
      ⟨[], [32, 16, 4096]⟩ [65, 66] := .char (by decide) (by decide)
  have lost : StrbufProgram objectLibc ScriptBlocks.Live 64 byteHandle {4096}
      ⟨⟨0, 2, .plain⟩, [], 1⟩ [65] false ⟨[], [32, 16, 4096]⟩ :=
    .op used gives rfl
  obtain ⟨⟨bytes, hne, -, -, hlive⟩, -, hdestroy, -⟩ :=
    strbufProgram_leaks objectLibc_objectHeap (by decide) lost
  exact ⟨_, _, hdestroy, bytes, hne, hlive⟩

end M65Tool.Guarantees.StrbufLifecycle
