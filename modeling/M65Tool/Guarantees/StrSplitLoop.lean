import M65Tool.Source.StrPops

/-!
# STR-SPLIT-LOOP: when the documented loop ends

The loop over `str_split_pop` ends, with every remainder shorter than the str it came
from, if and only if each str that it comes to meets `PopDescends`. An empty delimiter
does not: it is found at the start, and the remainder is the whole str again. Neither
does a delimiter that is found too far behind, or one that is missing from a str too long
to be searched.
-/
namespace M65Tool.Guarantees.StrSplitLoop
open Source Source.Mem Source.StringBuffer Source.StrFunctions Lib.Effect Lib.Splitting

/-- The pop leaves the bytes from this offset on. An occurrence past INT_MAX is reported
2^32 places before its own. -/
inductive PopsTo (text delim : List UInt8) : Nat → Prop
  | near {i : Nat} (first : Leftmost text delim i) (held : i ≤ intMax) :
      PopsTo text delim (i + delim.length)
  | past {i : Nat} (first : Leftmost text delim i) (past : intMax < i) (counted : i < uintMax)
      (inside : 2 ^ 32 < i + delim.length) : PopsTo text delim (i + delim.length - 2 ^ 32)

/-- The pop leaves no valid remainder: nothing is found; or the position is reported as
-1; or the remainder would start at the null pointer. -/
inductive PopEnds (ptr : Addr) (text delim : List UInt8) : Prop
  | absent (absent : ∀ i, ¬ OccursAt text delim i) (counted : text.length < delim.length + uintMax)
  | minusOne (first : Leftmost text delim uintMax)
  | null {i : Nat} (first : Leftmost text delim i) (past : intMax < i) (counted : i < uintMax)
      (start : ptr.toNat + i + delim.length = 2 ^ 32)

/-- The pop leaves a shorter str or none. -/
def PopDescends (ptr : Addr) (text delim : List UInt8) : Prop :=
  (∃ n > 0, PopsTo text delim n) ∨ PopEnds ptr text delim

/-- The offsets of the strs that the loop comes to. -/
inductive ComesTo (text delim : List UInt8) : Nat → Prop
  | start : ComesTo text delim 0
  | pop {off n : Nat} (before : ComesTo text delim off) (pops : PopsTo (text.drop off) delim n) :
      ComesTo text delim (off + n)

/-- Each valid remainder is shorter than the str before it; the first one had this size. -/
def Shortens : Nat → List (MemHandle × MemHandle) → Prop
  | _, [] => True
  | size, popped :: later =>
    (memIsValid popped.1 = true → popped.1.size < size) ∧ Shortens popped.1.size later

section Pops
variable {σ : Type} {ops : MemOps σ} {mem : Memory} {s : σ} {strval delim : MemHandle}
  {strvalP delimP : Addr} {text d : List UInt8} {i n : Nat}

/-- The remainder of an occurrence past INT_MAX. -/
theorem splitPop_past (hs : StrAt ops mem s strval strvalP text)
    (hd : StrAt ops mem s delim delimP d) (hleft : Leftmost text d i) (past : intMax < i)
    (counted : i < uintMax) (part : MemHandle) :
    Returns (fun tests => strSplitPop ops mem tests strval delim part) s
      (⟨strvalP + UInt64.ofNat (2 ^ 64 - 2 ^ 32 + i + d.length),
          (text.length + 2 ^ 32 - (i + d.length)) % sizeMod, .notAllocated⟩,
        ⟨strvalP, 2 ^ 64 - 2 ^ 32 + i, .notAllocated⟩) := by
  unfold uintMax at counted
  have hends := hleft.occurs.le
  have hlen := hs.bytes_at.size_le
  have hsize : intToSize ((i : Int) - 2 ^ 32) = 2 ^ 64 - 2 ^ 32 + i := by
    unfold intToSize sizeMod
    omega
  have hsub : subSize (subSize text.length (2 ^ 64 - 2 ^ 32 + i)) d.length =
      (text.length + 2 ^ 32 - (i + d.length)) % sizeMod := by
    unfold ptrdiffMax at hlen
    unfold subSize sizeMod
    omega
  obtain ⟨enough, hfind⟩ := strFind_hit hs hd hleft (by omega)
  refine ⟨enough, ?_⟩
  intro tests htests
  have hrun := hfind tests htests
  dsimp only at hrun ⊢
  rw [uintToInt_past past (by omega)] at hrun
  rw [strSplitPop_found hs hd (by omega) hrun, hsize, hsub, add_ofNat_add]

theorem popsTo_returns (hs : StrAt ops mem s strval strvalP text)
    (hd : StrAt ops mem s delim delimP d) (hpops : PopsTo text d n) (part : MemHandle) :
    n ≤ text.length ∧ ∃ part', Returns (fun tests => strSplitPop ops mem tests strval delim part) s
      (restAt strvalP text n, part') := by
  cases hpops with
  | near first held =>
    exact ⟨first.occurs.le, _, splitPop_near hs hd first held part⟩
  | @past i first past counted inside =>
    have hends := first.occurs.le
    have hrun := splitPop_past hs hd first past counted part
    have hptr : UInt64.ofNat (2 ^ 64 - 2 ^ 32 + i + d.length) =
        UInt64.ofNat (i + d.length - 2 ^ 32) := by
      apply UInt64.toNat_inj.mp
      rw [UInt64.toNat_ofNat', UInt64.toNat_ofNat']
      omega
    have hsize : (text.length + 2 ^ 32 - (i + d.length)) % sizeMod =
        text.length - (i + d.length - 2 ^ 32) := by
      have hlen := hs.bytes_at.length_lt
      unfold sizeMod at hlen ⊢
      omega
    rw [hptr, hsize] at hrun
    exact ⟨by omega, _, hrun⟩

theorem popEnds_returns (hs : StrAt ops mem s strval strvalP text)
    (hd : StrAt ops mem s delim delimP d) (hends : PopEnds strvalP text d) (part : MemHandle) :
    ∃ popped, Returns (fun tests => strSplitPop ops mem tests strval delim part) s popped ∧
      memIsValid popped.1 = false := by
  cases hends with
  | absent absent counted => exact ⟨_, splitPop_none hs hd absent counted part, rfl⟩
  | minusOne first =>
    have hone : uintToInt (UInt32.ofNat uintMax) = -1 := by decide
    obtain ⟨enough, hfind⟩ := strFind_hit hs hd first (by decide)
    rw [hone] at hfind
    exact ⟨_, ⟨enough, fun tests htests => strSplitPop_last hs hd (hfind tests htests)⟩, rfl⟩
  | @null i first past counted start =>
    refine ⟨_, splitPop_past hs hd first past counted part, ?_⟩
    rw [memIsValid_eq_false]
    apply UInt64.toNat_inj.mp
    rw [UInt64.toNat_add, UInt64.toNat_ofNat', UInt64.toNat_zero]
    omega

/-- Otherwise the pop never returns, or returns a valid remainder that is no shorter. -/
theorem popDescends_of_shorter (hs : StrAt ops mem s strval strvalP text)
    (hd : StrAt ops mem s delim delimP d) (part : MemHandle)
    (returns : ∃ tests popped s', strSplitPop ops mem tests strval delim part s = .ok popped s')
    (shorter : ∀ popped, Returns (fun tests => strSplitPop ops mem tests strval delim part) s popped →
      memIsValid popped.1 = true → popped.1.size < text.length) :
    PopDescends strvalP text d := by
  have endless : ¬ ∀ tests, strFind ops mem tests strval delim s = .error .endlessLoop s := by
    intro hfind
    obtain ⟨tests, popped, s', hrun⟩ := returns
    rw [strSplitPop, if_neg (by simp [hs.valid, hd.valid]), bind_of_error (hfind tests)] at hrun
    cases hrun
  by_cases hany : ∃ i, OccursAt text d i
  · obtain ⟨j, hoccurs⟩ := hany
    obtain ⟨i, first⟩ := exists_leftmost hoccurs
    have hle := first.occurs.le
    by_cases held : i ≤ intMax
    · refine Or.inl ⟨i + d.length, ?_, .near first held⟩
      by_contra hzero
      have hrest := shorter _ (splitPop_near hs hd first held part)
        (restAt_isValid hs.bytes_at hle)
      unfold restAt at hrest
      dsimp only at hrest
      omega
    · by_cases hcount : i < 2 ^ 32
      · by_cases hlast : i = uintMax
        · exact Or.inr (.minusOne (hlast ▸ first))
        · have counted : i < uintMax := by
            unfold uintMax at hlast ⊢
            omega
          by_cases inside : 2 ^ 32 < i + d.length
          · exact Or.inl ⟨_, by omega, .past first (by omega) counted inside⟩
          · by_cases start : strvalP.toNat + i + d.length = 2 ^ 32
            · exact Or.inr (.null first (by omega) counted start)
            · exfalso
              have hlen := hs.bytes_at.size_le
              have hrun := shorter _ (splitPop_past hs hd first (by omega) counted part) (by
                rw [memIsValid_eq_true]
                intro hz
                have hto := congrArg UInt64.toNat hz
                have hp := strvalP.toNat_lt
                dsimp only at hto
                rw [UInt64.toNat_add, UInt64.toNat_ofNat', UInt64.toNat_zero] at hto
                omega)
              dsimp only at hrun
              unfold ptrdiffMax at hlen
              unfold sizeMod at hrun
              omega
      · exact absurd (fun tests => strFind_endless hs hd (fun j hj => first.first j (by omega))
          (by unfold uintMax; omega)) endless
  · have habsent : ∀ i, ¬ OccursAt text d i := fun i hi => hany ⟨i, hi⟩
    by_cases counted : text.length < d.length + uintMax
    · exact Or.inr (.absent habsent counted)
    · exact absurd (fun tests => strFind_endless hs hd (fun i _ => habsent i) (by omega)) endless

end Pops

section Loop
variable {σ : Type} {libc : Libc σ} {spec : MemAllocator → Option (MemAllocatorSpec σ)}
  {mem : Memory} {s : σ} {strval delim : MemHandle} {ptr delimP : Addr} {text d : List UInt8}
  {off : Nat} {pops : List (MemHandle × MemHandle)}

/-- The documented loop ends after these pops. -/
abbrev SplitYields (ops : MemOps σ) (mem : Memory) (delim part : MemHandle) (s : σ)
    (strval : MemHandle) (pops : List (MemHandle × MemHandle)) : Prop :=
  Yields (fun tests strval => strSplitPop ops mem tests strval delim part) s strval pops

/-- While every str it comes to descends, the loop ends. -/
theorem splitLoop_ends (unowned : spec .notAllocated = some notAllocatedSpec)
    (hd : StrAt (memOps libc spec) mem s delim delimP d) (hfull : BytesAt mem ptr text)
    (part : MemHandle)
    (descends : ∀ off, ComesTo text d off → PopDescends (ptr + UInt64.ofNat off) (text.drop off) d)
    (left : Nat) (comes : ComesTo text d off) (hoff : off ≤ text.length)
    (hs : StrAt (memOps libc spec) mem s strval (ptr + UInt64.ofNat off) (text.drop off))
    (hleft : text.length < off + left) :
    ∃ pops, SplitYields (memOps libc spec) mem delim part s strval pops ∧
      Shortens strval.size pops := by
  induction left generalizing strval off with
  | zero => omega
  | succ left ih =>
    rcases descends off comes with ⟨n, hn, hpops⟩ | hends
    · obtain ⟨hle, part', hpop⟩ := popsTo_returns hs hd hpops part
      rw [List.length_drop] at hle
      have hnext : off + n ≤ text.length := by omega
      obtain ⟨pops, hyields, hshort⟩ :=
        ih (comes.pop hpops) hnext (strAt_restAt unowned hfull hnext s) (by omega)
      refine ⟨_ :: pops, hyields.step hs.valid hpop, ?_, hshort⟩
      intro _
      rw [hs.size_eq, restAt, List.length_drop]
      dsimp only
      omega
    · obtain ⟨popped, hpop, hinvalid⟩ := popEnds_returns hs hd hends part
      refine ⟨[popped], (Yields.done hinvalid).step hs.valid hpop, ?_, trivial⟩
      intro hvalid
      rw [hinvalid] at hvalid
      cases hvalid

/-- A loop that ends has come from each str it comes to to its end. -/
theorem splitLoop_from (unowned : spec .notAllocated = some notAllocatedSpec)
    (hs : StrAt (memOps libc spec) mem s strval ptr text)
    (hd : StrAt (memOps libc spec) mem s delim delimP d) (part : MemHandle)
    (hall : SplitYields (memOps libc spec) mem delim part s strval pops)
    (hshort : Shortens strval.size pops) (comes : ComesTo text d off) :
    off ≤ text.length ∧ ∃ strval' pops',
      StrAt (memOps libc spec) mem s strval' (ptr + UInt64.ofNat off) (text.drop off) ∧
      SplitYields (memOps libc spec) mem delim part s strval' pops' ∧
      Shortens strval'.size pops' := by
  induction comes with
  | start =>
    refine ⟨Nat.zero_le _, strval, pops, ?_, hall, hshort⟩
    rw [List.drop_zero]
    simpa using hs
  | @pop off n before hpops ih =>
    obtain ⟨hoff, strval', pops', hs', hall', hshort'⟩ := ih
    obtain ⟨hle, part', hpop⟩ := popsTo_returns hs' hd hpops part
    obtain ⟨later, rfl, hlater⟩ := hall'.step_inv hs'.valid hpop
    rw [List.length_drop] at hle
    have hnext : off + n ≤ text.length := by omega
    exact ⟨hnext, _, later, strAt_restAt unowned hs.bytes_at hnext s, hlater, hshort'.2⟩

/-- The loop ends, with each remainder shorter than the last, if and only if every str
it comes to descends. -/
theorem splitLoop_ends_iff (unowned : spec .notAllocated = some notAllocatedSpec)
    (hs : StrAt (memOps libc spec) mem s strval ptr text)
    (hd : StrAt (memOps libc spec) mem s delim delimP d) (part : MemHandle) :
    (∃ pops, SplitYields (memOps libc spec) mem delim part s strval pops ∧
      Shortens strval.size pops) ↔
    ∀ off, ComesTo text d off → PopDescends (ptr + UInt64.ofNat off) (text.drop off) d := by
  constructor
  · intro ⟨pops, hall, hshort⟩ off comes
    obtain ⟨-, strval', pops', hs', hall', hshort'⟩ :=
      splitLoop_from unowned hs hd part hall hshort comes
    obtain ⟨tests, popped, s', hrun⟩ := hall'.pop_ok hs'.valid
    refine popDescends_of_shorter hs' hd part ⟨tests, popped, s', hrun⟩ ?_
    intro popped' hpop hvalid
    obtain ⟨later, rfl, -⟩ := hall'.step_inv hs'.valid hpop
    rw [← hs'.size_eq]
    exact hshort'.1 hvalid
  · intro descends
    have hstart : StrAt (memOps libc spec) mem s strval (ptr + UInt64.ofNat 0) (text.drop 0) := by
      rw [List.drop_zero]
      simpa using hs
    exact splitLoop_ends unowned hd hs.bytes_at part descends (text.length + 1) .start
      (Nat.zero_le _) hstart (by omega)

end Loop

/-! ## Two delimiters -/

/-- A delimiter that is not empty, and a str that an int can count. -/
theorem popDescends_of_short {text d : List UInt8} (hne : d ≠ []) (hsize : text.length ≤ intMax)
    (ptr : Addr) : PopDescends ptr text d := by
  have hpos := List.length_pos_iff.mpr hne
  by_cases hany : ∃ i, OccursAt text d i
  · obtain ⟨j, hoccurs⟩ := hany
    obtain ⟨i, first⟩ := exists_leftmost hoccurs
    have hle := first.occurs.le
    exact Or.inl ⟨i + d.length, by omega, .near first (by omega)⟩
  · refine Or.inr (.absent (fun i hi => hany ⟨i, hi⟩) ?_)
    unfold intMax at hsize
    unfold uintMax
    omega

/-- The empty str behind the letter. -/
theorem emptyStr_strAt :
    StrAt scriptedOps (regionMemory 4096 [97]) [] ⟨4097, 0, .notAllocated⟩ 4097 [] := by
  have hempty : BytesAt (regionMemory 4096 [97]) 4097 [] := letter_bytesAt.drop (i := 1) (by decide)
  exact strAt_scripted hempty

theorem splitLoop_ends_iff_letter :
    ∃ pops, SplitYields scriptedOps (regionMemory 4096 [97]) ⟨4096, 1, .notAllocated⟩ .zero []
      ⟨4096, 1, .notAllocated⟩ pops ∧ Shortens 1 pops := by
  refine (splitLoop_ends_iff rfl letter_strAt letter_strAt .zero).mpr ?_
  intro off _
  apply popDescends_of_short (by decide)
  rw [List.length_drop, List.length_singleton]
  unfold intMax
  omega

/-- The empty delimiter is found at once, and the remainder is the whole str. -/
theorem splitLoop_empty_delim :
    StrAt scriptedOps (regionMemory 4096 [97]) [] ⟨4096, 1, .notAllocated⟩ 4096 [97] ∧
    StrAt scriptedOps (regionMemory 4096 [97]) [] ⟨4097, 0, .notAllocated⟩ 4097 [] ∧
    ∃ enough, ∀ tests ≥ enough, ∀ rounds,
      popLoop (fun strval => strSplitPop scriptedOps (regionMemory 4096 [97]) tests strval
        ⟨4097, 0, .notAllocated⟩ .zero) rounds ⟨4096, 1, .notAllocated⟩ [] =
        .error .endlessLoop [] := by
  have htext := letter_strAt
  have hempty := emptyStr_strAt
  have first : Leftmost ([97] : List UInt8) [] 0 :=
    ⟨by decide, fun j hj => absurd hj (Nat.not_lt_zero j)⟩
  obtain ⟨enough, hpop⟩ := splitPop_near htext hempty first (Nat.zero_le _) .zero
  refine ⟨htext, hempty, enough, ?_⟩
  intro tests htests rounds
  have hsame : restAt 4096 [97] 0 = ⟨4096, 1, .notAllocated⟩ := rfl
  exact popLoop_stuck htext.valid (hpop tests htests) hsame rounds

end M65Tool.Guarantees.StrSplitLoop
