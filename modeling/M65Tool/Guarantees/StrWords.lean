import M65Tool.Source.StrPops

/-!
# STR-WORDS: splitting on whitespace yields the words

For a str of at most UINT_MAX bytes the loop over `str_split_whitespace_pop` ends, and
its parts are the maximal runs of bytes that are not whitespace, or one empty part if
there is no such run. Every remainder is a suffix that starts with a word.
-/
namespace M65Tool.Guarantees.StrWords
open Source Source.Mem Source.StringBuffer Source.StrFunctions Lib.Splitting

/-- The words, or one empty part. -/
def wordsOrEmpty (isspace : UInt8 → Bool) (text : List UInt8) : List (List UInt8) :=
  if words isspace text = [] then [[]] else words isspace text

/-- The str is a suffix of the text and starts with a byte that is not whitespace. -/
def StartsWord (isspace : UInt8 → Bool) (ptr : Addr) (text : List UInt8) (handle : MemHandle) :
    Prop :=
  ∃ off b rest, text.drop off = b :: rest ∧ isspace b = false ∧
    handle = ⟨ptr + UInt64.ofNat off, (b :: rest).length, .notAllocated⟩

structure WordList (isspace : UInt8 → Bool) (ptr : Addr) (text : List UInt8)
    (pops : List (MemHandle × MemHandle)) : Prop where
  parts : List.Forall₂ (fun popped part => SubRange ptr text popped.2 part) pops
    (wordsOrEmpty isspace text)
  nonempty : words isspace text ≠ [] → ∀ popped ∈ pops, popped.2.size ≠ 0
  remainders : ∀ popped ∈ pops, memIsValid popped.1 = true → StartsWord isspace ptr text popped.1

theorem wordsOrEmpty_of_ne {isspace : UInt8 → Bool} {text : List UInt8}
    (h : words isspace text ≠ []) : wordsOrEmpty isspace text = words isspace text := if_neg h

theorem words_ne_nil_of_head {isspace : UInt8 → Bool} {text rest : List UInt8} {b : UInt8}
    (htext : text = b :: rest) (hb : isspace b = false) : words isspace text ≠ [] := by
  rw [htext, words_cons hb]
  exact List.cons_ne_nil _ _

theorem size_ne_zero {ptr : Addr} {text : List UInt8} {pops : List (MemHandle × MemHandle)}
    {parts : List (List UInt8)}
    (h : List.Forall₂ (fun popped part => SubRange ptr text popped.2 part) pops parts)
    (hne : ∀ part ∈ parts, part ≠ []) : ∀ popped ∈ pops, popped.2.size ≠ 0 := by
  induction h with
  | nil =>
    intro popped hmem
    cases hmem
  | @cons first part pops parts hfirst _ ih =>
    intro popped hmem
    rcases List.mem_cons.mp hmem with rfl | hlater
    · obtain ⟨_, _, _, hhandle⟩ := hfirst
      rw [hhandle]
      exact fun hzero => hne part List.mem_cons_self (List.length_eq_zero_iff.mp hzero)
    · exact ih (fun part hpart => hne part (List.mem_cons_of_mem _ hpart)) popped hlater

section Runs
variable {isspace : UInt8 → Bool} {text : List UInt8} {start stop next : Nat}

/-- A word with nothing but whitespace behind it is the last one; it is empty if there is none. -/
theorem wordsOrEmpty_last (hstart : start = runEnd isspace text 0)
    (hstop : stop = runEnd (fun b => !isspace b) text start)
    (hnext : next = runEnd isspace text stop) (hlast : next = text.length) :
    wordsOrEmpty isspace text = [(text.drop start).take (stop - start)] := by
  have hwords := words_runEnd isspace text hstart hstop hnext
  have hstartle : start ≤ text.length := hstart ▸ runEnd_le _ (Nat.zero_le _)
  by_cases hlt : start < text.length
  · rw [if_pos hlt, hlast, List.drop_length, words_nil] at hwords
    rw [wordsOrEmpty_of_ne (by rw [hwords]; exact List.cons_ne_nil _ _), hwords]
  · rw [if_neg hlt] at hwords
    rw [wordsOrEmpty, if_pos hwords, List.drop_of_length_le (by omega), List.take_nil]

theorem head_next (hnext : next = runEnd isspace text stop) (hlt : next < text.length) :
    ∃ b rest, text.drop next = b :: rest ∧ isspace b = false := by
  refine ⟨_, _, List.drop_eq_getElem_cons hlt, ?_⟩
  subst hnext
  exact runEnd_next isspace (List.getElem?_eq_getElem hlt)

/-- Before another word comes one of at least one byte. -/
theorem wordsOrEmpty_next (hstart : start = runEnd isspace text 0)
    (hstop : stop = runEnd (fun b => !isspace b) text start)
    (hnext : next = runEnd isspace text stop) (hlt : next < text.length) :
    start < stop ∧ wordsOrEmpty isspace text =
      (text.drop start).take (stop - start) :: wordsOrEmpty isspace (text.drop next) := by
  have hstartstop : start ≤ stop := hstop ▸ le_runEnd _ _ _
  have hstopnext : stop ≤ next := hnext ▸ le_runEnd _ _ _
  have hwords := words_runEnd isspace text hstart hstop hnext
  rw [if_pos (by omega)] at hwords
  obtain ⟨b, rest, hrest, hb⟩ := head_next hnext hlt
  constructor
  · by_contra hstuck
    have hword : (text.drop start).take (stop - start) ∈ words isspace text := by
      rw [hwords]
      exact List.mem_cons_self
    rw [Nat.sub_eq_zero_of_le (by omega), List.take_zero] at hword
    exact words_ne_nil hword rfl
  · rw [wordsOrEmpty_of_ne (by rw [hwords]; exact List.cons_ne_nil _ _), hwords,
      wordsOrEmpty_of_ne (words_ne_nil_of_head hrest hb)]

end Runs

section Words
variable {σ : Type} {libc : Libc σ} {spec : MemAllocator → Option (MemAllocatorSpec σ)}
  {mem : Memory} {s : σ} {strval : MemHandle} {ptr : Addr} {text : List UInt8}
  {off : Nat}

/-- From every offset on, the loop yields the words of the bytes that are left; behind
the first pop there is always a word left. -/
theorem wordLoop_words (unowned : spec .notAllocated = some notAllocatedSpec)
    (hsize : text.length ≤ uintMax) (hfull : BytesAt mem ptr text)
    (beyond : text = [] → ∃ b, mem ptr = some b) (isspace : UInt8 → Bool) (part : MemHandle)
    (left : Nat)
    (hoff : off ≤ text.length) (hstarts : off < text.length ∨ off = 0)
    (hs : StrAt (memOps libc spec) mem s strval (ptr + UInt64.ofNat off) (text.drop off))
    (hleft : text.length < off + left) :
    ∃ pops,
      Yields (fun tests strval => strSplitWhitespacePop (memOps libc spec) mem tests isspace strval
        part) s strval pops ∧
      List.Forall₂ (fun popped part => SubRange ptr text popped.2 part) pops
        (wordsOrEmpty isspace (text.drop off)) ∧
      ∀ popped ∈ pops, memIsValid popped.1 = true → StartsWord isspace ptr text popped.1 := by
  have hlen : (text.drop off).length = text.length - off := List.length_drop
  induction left generalizing strval off with
  | zero => omega
  | succ left ih =>
    have hbeyond : text.drop off = [] → ∃ b, mem (ptr + UInt64.ofNat off) = some b := by
      intro hnil
      rw [List.drop_eq_nil_iff] at hnil
      obtain rfl : off = 0 := by omega
      have htext : text = [] := List.length_eq_zero_iff.mp (by omega)
      simpa using beyond htext
    generalize hstart : runEnd isspace (text.drop off) 0 = start
    generalize hstop : runEnd (fun b => !isspace b) (text.drop off) start = stop
    generalize hnext : runEnd isspace (text.drop off) stop = next
    have hstartle : start ≤ (text.drop off).length := hstart ▸ runEnd_le _ (Nat.zero_le _)
    have hstople : stop ≤ (text.drop off).length := hstop ▸ runEnd_le _ hstartle
    have hnextle : next ≤ (text.drop off).length := hnext ▸ runEnd_le _ hstople
    have hpop := wordPop_returns hs hbeyond part hstart.symm hstop.symm hnext.symm (by omega)
    have hstopnext : stop ≤ next := hnext ▸ le_runEnd _ _ _
    have hrange : SubRange ptr text
        ⟨ptr + UInt64.ofNat off + UInt64.ofNat start, stop - start, .notAllocated⟩
        (((text.drop off).drop start).take (stop - start)) := by
      rw [add_ofNat_add, List.drop_drop]
      exact subRange_part ptr (by omega) (by rw [List.length_drop]; omega)
    by_cases hlast : next = (text.drop off).length
    · -- the part is the last one, and the only one if there is no word at all
      rw [if_pos hlast] at hpop
      refine ⟨[_], (Yields.done memIsValid_zero).step hs.valid hpop, ?_, ?_⟩
      · rw [wordsOrEmpty_last hstart.symm hstop.symm hnext.symm hlast]
        exact .cons hrange .nil
      · intro popped hmem hvalid
        rw [List.mem_singleton.mp hmem] at hvalid
        cases hvalid
    · rw [if_neg hlast] at hpop
      have hlt : next < (text.drop off).length := by omega
      obtain ⟨hprogress, hwords⟩ :=
        wordsOrEmpty_next hstart.symm hstop.symm hnext.symm hlt
      obtain ⟨b, rest, hrest, hb⟩ := head_next hnext.symm hlt
      rw [List.drop_drop (i := next)] at hwords hrest
      obtain ⟨pops, hyields, hparts, hrems⟩ :=
        ih (show off + next ≤ text.length by omega) (Or.inl (by omega))
          (strAt_restAt unowned hfull (by omega) s) (by omega) List.length_drop
      refine ⟨_ :: pops, hyields.step hs.valid hpop, ?_, ?_⟩
      · rw [hwords]
        exact .cons hrange hparts
      · intro popped hmem hvalid
        rcases List.mem_cons.mp hmem with rfl | hlater
        · have hsize' : (text.drop off).length - next = (text.drop (off + next)).length := by
            rw [List.length_drop, List.length_drop, Nat.sub_sub]
          refine ⟨off + next, b, rest, hrest, hb, ?_⟩
          rw [← hrest, ← hsize', ← add_ofNat_add]
          rfl
        · exact hrems popped hlater hvalid

/-- The loop over `str_split_whitespace_pop` yields the words of the str. -/
theorem wordLoop_wordList (unowned : spec .notAllocated = some notAllocatedSpec)
    (hs : StrAt (memOps libc spec) mem s strval ptr text) (hsize : text.length ≤ uintMax)
    (beyond : text = [] → ∃ b, mem ptr = some b) (isspace : UInt8 → Bool) (part : MemHandle) :
    ∃ pops,
      Yields (fun tests strval => strSplitWhitespacePop (memOps libc spec) mem tests isspace strval
        part) s strval pops ∧
      WordList isspace ptr text pops := by
  have hstart : StrAt (memOps libc spec) mem s strval (ptr + UInt64.ofNat 0) (text.drop 0) := by
    rw [List.drop_zero]
    simpa using hs
  obtain ⟨pops, hyields, hparts, hrems⟩ := wordLoop_words unowned hsize hs.bytes_at beyond
    isspace part (text.length + 1) (Nat.zero_le _) (Or.inr rfl) hstart (by omega)
  rw [List.drop_zero] at hparts
  refine ⟨pops, hyields, hparts, ?_, hrems⟩
  intro hsome popped hmem
  rw [wordsOrEmpty_of_ne hsome] at hparts
  exact size_ne_zero hparts (fun _ hword => words_ne_nil hword) popped hmem

end Words

/-- " a b", with the blank as the only whitespace. -/
theorem wordLoop_wordList_two :
    ∃ pops,
      Yields (fun tests strval => strSplitWhitespacePop scriptedOps
        (regionMemory 4096 [32, 97, 32, 98]) tests (fun b => b == 32) strval .zero) []
        ⟨4096, 4, .notAllocated⟩ pops ∧
      WordList (fun b => b == 32) 4096 [32, 97, 32, 98] pops := by
  have htext : BytesAt (regionMemory 4096 [32, 97, 32, 98]) 4096 [32, 97, 32, 98] :=
    bytesAt_regionMemory (by decide) (by decide) (by decide)
  have hsome : ([32, 97, 32, 98] : List UInt8) ≠ [] := by decide
  exact wordLoop_wordList rfl (strAt_scripted htext) (by decide)
    (fun hnil => absurd hnil hsome) (fun b => b == 32) .zero

end M65Tool.Guarantees.StrWords
