import M65Tool.Source.StrPops

/-!
# STR-SPLIT: splitting on a delimiter is a partition that joins back

For a str of at most INT_MAX bytes and a delimiter that is not empty, the loop over
`str_split_pop` ends. Its parts, joined by the delimiter, are the bytes of the str; none
has the delimiter in it; there is one more of them than there are delimiters, counted
from the left.
-/
namespace M65Tool.Guarantees.StrSplit
open Source Source.Mem Source.StringBuffer Source.StrFunctions Lib.Splitting

/-- The parts that the pops stored. The remainders are parts of the text too. -/
structure Partition (ptr : Addr) (text delim : List UInt8) (pops : List (MemHandle × MemHandle))
    (parts : List (List UInt8)) : Prop where
  ranges : List.Forall₂ (fun popped part => SubRange ptr text popped.2 part) pops parts
  remainders : ∀ popped ∈ pops, memIsValid popped.1 = true →
    ∃ bytes, SubRange ptr text popped.1 bytes
  joins : delim.intercalate parts = text
  delim_free : ∀ part ∈ parts, ∀ i, ¬ OccursAt part delim i
  count : parts.length = greedyCount delim text + 1

section Split
variable {σ : Type} {libc : Libc σ} {spec : MemAllocator → Option (MemAllocatorSpec σ)}
  {mem : Memory} {s : σ} {strval delim : MemHandle} {ptr delimP : Addr} {text d : List UInt8}
  {off : Nat}

/-- From every offset on, the loop splits the bytes that are left. Each pop passes a
delimiter, which is not empty, so there are fewer bytes left for the next. -/
theorem splitLoop_splits (unowned : spec .notAllocated = some notAllocatedSpec)
    (hd : StrAt (memOps libc spec) mem s delim delimP d) (hne : d ≠ [])
    (hsize : text.length ≤ intMax) (hfull : BytesAt mem ptr text) (part : MemHandle) (left : Nat)
    (hoff : off ≤ text.length)
    (hs : StrAt (memOps libc spec) mem s strval (ptr + UInt64.ofNat off) (text.drop off))
    (hleft : text.length < off + left) :
    ∃ pops parts,
      Yields (fun tests strval => strSplitPop (memOps libc spec) mem tests strval delim part) s
        strval pops ∧
      Splits d (text.drop off) parts ∧
      List.Forall₂ (fun popped part => SubRange ptr text popped.2 part) pops parts ∧
      ∀ popped ∈ pops, memIsValid popped.1 = true → ∃ bytes, SubRange ptr text popped.1 bytes := by
  have hpos := List.length_pos_iff.mpr hne
  have hlen : (text.drop off).length = text.length - off := List.length_drop
  induction left generalizing strval off with
  | zero => omega
  | succ left ih =>
    by_cases hany : ∃ i, OccursAt (text.drop off) d i
    · obtain ⟨i, hoccurs⟩ := hany
      obtain ⟨pos, hfirst⟩ := exists_leftmost hoccurs
      have hends := hfirst.occurs.le
      have hnext : off + (pos + d.length) ≤ text.length := by omega
      have hrest : StrAt (memOps libc spec) mem s
          (restAt (ptr + UInt64.ofNat off) (text.drop off) (pos + d.length))
          (ptr + UInt64.ofNat (off + (pos + d.length))) (text.drop (off + (pos + d.length))) :=
        strAt_restAt unowned hfull hnext s
      obtain ⟨pops, parts, hyields, hsplits, hranges, hrems⟩ :=
        ih hnext hrest (by omega) List.length_drop
      have hpop := splitPop_near hs hd hfirst (by omega) part
      refine ⟨_ :: pops, (text.drop off).take pos :: parts, hyields.step hs.valid hpop, ?_, ?_, ?_⟩
      · apply Splits.pop hfirst
        rw [List.drop_drop]
        exact hsplits
      · exact .cons (subRange_part ptr hoff (by omega)) hranges
      · intro popped hmem hvalid
        rcases List.mem_cons.mp hmem with rfl | hlater
        · exact ⟨_, subRange_rest hnext⟩
        · exact hrems popped hlater hvalid
    · have habsent : ∀ i, ¬ OccursAt (text.drop off) d i := fun i hi => hany ⟨i, hi⟩
      have hpop := splitPop_none hs hd habsent (by unfold intMax at hsize; unfold uintMax; omega) part
      refine ⟨[_], [text.drop off], (Yields.done memIsValid_zero).step hs.valid hpop,
        .last habsent, ?_, ?_⟩
      · have hwhole := subRange_part ptr hoff (Nat.le_refl (text.drop off).length)
        rw [List.take_length] at hwhole
        exact .cons hwhole .nil
      · intro popped hmem hvalid
        rw [List.mem_singleton.mp hmem] at hvalid
        cases hvalid

/-- The loop over `str_split_pop` partitions the str. -/
theorem splitLoop_partition (unowned : spec .notAllocated = some notAllocatedSpec)
    (hs : StrAt (memOps libc spec) mem s strval ptr text)
    (hd : StrAt (memOps libc spec) mem s delim delimP d) (hne : d ≠ [])
    (hsize : text.length ≤ intMax) (part : MemHandle) :
    ∃ pops parts,
      Yields (fun tests strval => strSplitPop (memOps libc spec) mem tests strval delim part) s
        strval pops ∧
      Partition ptr text d pops parts := by
  have hstart : StrAt (memOps libc spec) mem s strval (ptr + UInt64.ofNat 0) (text.drop 0) := by
    rw [List.drop_zero]
    simpa using hs
  obtain ⟨pops, parts, hyields, hsplits, hranges, hrems⟩ :=
    splitLoop_splits unowned hd hne hsize hs.bytes_at part (text.length + 1) (Nat.zero_le _) hstart
      (by omega)
  rw [List.drop_zero] at hsplits
  exact ⟨pops, parts, hyields, hranges, hrems, hsplits.joins, hsplits.delim_free hne,
    hsplits.length_eq hne⟩

end Split

/-- "1,,2" at the comma. -/
theorem splitLoop_partition_comma :
    ∃ pops parts,
      Yields (fun tests strval => strSplitPop scriptedOps (regionMemory 4096 [49, 44, 44, 50]) tests
        strval ⟨4097, 1, .notAllocated⟩ .zero) [] ⟨4096, 4, .notAllocated⟩ pops ∧
      Partition 4096 [49, 44, 44, 50] [44] pops parts := by
  have htext : BytesAt (regionMemory 4096 [49, 44, 44, 50]) 4096 [49, 44, 44, 50] :=
    bytesAt_regionMemory (by decide) (by decide) (by decide)
  have hdelim : BytesAt (regionMemory 4096 [49, 44, 44, 50]) 4097 [44] :=
    (htext.drop (i := 1) (by decide)).take 1
  exact splitLoop_partition rfl (strAt_scripted htext) (strAt_scripted hdelim)
    (by decide) (by decide) .zero

end M65Tool.Guarantees.StrSplit
