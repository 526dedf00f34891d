import M65Tool.Source.StrReads

/-!
# STR-COPIES: str_write_cstr_to_buf stays in its buffer

`bufsize - 1` is a `size_t`. For a bufsize of 0 it is SIZE_MAX, and the whole str is
written, with its NUL, into a buffer of which no byte may be written. From 1 on the
function keeps to its buffer, as long as the bytes it copies do not lie in it.
-/
namespace M65Tool.Guarantees.StrCopies
open Source Source.Mem Source.StringBuffer Source.StrFunctions Lib.Block Lib.Effect

/-- How many bytes of a str fit into a buffer with their NUL. -/
def copied (size bufsize : Nat) : Nat := min size (bufsize - 1)

/-- The buffer holds the first bytes of the str and one NUL. -/
def HoldsCstr (bytes : List UInt8) (bufsize : Nat) (cells : Cells) : Prop :=
  cells.take (copied bytes.length bufsize + 1) =
    (bytes.take (copied bytes.length bufsize)).map some ++ [some 0]

section Writes
variable {σ : Type} (ops : MemOps σ) (mem : Memory) (s : σ) (strval : MemHandle)
  (bytes : List UInt8) (buf : Addr) (bufsize : Nat)

/-- Whatever an object of `n` bytes at the buffer's address holds, the function returns
and changes nothing in it from `bufsize` on; and if there is room for the NUL, the buffer
then holds the C string that the returned str describes. -/
def WritesWithin (n : Nat) : Prop :=
  ∀ cells : Cells, cells.length = n → ∃ result cells',
    strWriteCstrToBuf ops mem strval ⟨buf, cells⟩ bufsize s = .ok (result, ⟨buf, cells'⟩) s ∧
    cells'.length = n ∧ cells'.drop bufsize = cells.drop bufsize ∧
    (1 ≤ bufsize → HoldsCstr bytes bufsize cells' ∧
      result = ⟨buf, copied bytes.length bufsize, .notAllocated⟩)

/-- The same for `str_cstr` and its buffer. -/
def CstrWithin : Prop :=
  ∀ cells : Cells, cells.length = strCstrBufsize → ∃ cells',
    strCstr ops mem ⟨buf, cells⟩ strval s = .ok (buf, ⟨buf, cells'⟩) s ∧
    cells'.length = strCstrBufsize ∧ HoldsCstr bytes strCstrBufsize cells'

end Writes

section Writing
variable {σ : Type} {ops : MemOps σ} {mem : Memory} {s : σ} {strval : MemHandle}
  {strvalP buf : Addr} {bytes : List UInt8} {cells : Cells} {bufsize n : Nat}

theorem length_cells {size : Nat} (hle : size ≤ bytes.length) :
    ((bytes.take size).map some).length = size := by
  rw [List.length_map, List.length_take, Nat.min_eq_left hle]

/-- The copied bytes leave the buffer as long as it is. -/
theorem length_filled {size : Nat} (hle : size ≤ bytes.length) (room : size ≤ cells.length) :
    (overwrite cells 0 ((bytes.take size).map some)).length = cells.length :=
  length_overwrite (by rw [length_cells hle, Nat.zero_add]; exact room)

theorem memcpyInto_ok {size : Nat} (hbytes : BytesAt mem strvalP bytes)
    (hle : size ≤ bytes.length) (apart : ¬ Overlaps buf strvalP size)
    (room : size ≤ cells.length) :
    (memcpyInto mem ⟨buf, cells⟩ strvalP size : C σ Buffer) s =
      .ok ⟨buf, overwrite cells 0 ((bytes.take size).map some)⟩ s := by
  have hlen : (bytes.take size).length = size := by
    rw [List.length_take, Nat.min_eq_left hle]
  rw [memcpyInto, if_neg hbytes.ptr_ne, if_neg apart,
    bind_of_ok (hbytes.loadBytes_ok (by omega)), List.drop_zero, storeInto, hlen,
    if_pos (by simpa using room)]
  rfl

/-- A call that copies `size` bytes: it returns if `memcpy` may copy them and the buffer's
object has room for them and the NUL. -/
theorem strWriteCstrToBuf_ok (hs : StrAt ops mem s strval strvalP bytes) (hbuf : buf ≠ 0)
    {size : Nat}
    (hsize : (if bytes.length < subSize bufsize 1 then bytes.length else subSize bufsize 1) = size)
    (hle : size ≤ bytes.length) (apart : ¬ Overlaps buf strvalP size)
    (room : size < cells.length) :
    strWriteCstrToBuf ops mem strval ⟨buf, cells⟩ bufsize s =
      .ok (⟨buf, size, .notAllocated⟩,
        ⟨buf, overwrite (overwrite cells 0 ((bytes.take size).map some)) size [some 0]⟩) s := by
  have hcells := length_filled hle (Nat.le_of_lt room)
  have hend : size + [(0 : UInt8)].length ≤
      (overwrite cells 0 ((bytes.take size).map some)).length := by
    rw [hcells, List.length_singleton]
    omega
  have hguard : ¬ (¬ memIsValid strval ∨ buf = 0) := by simp [hs.valid, hbuf]
  rw [strWriteCstrToBuf, if_neg hguard]
  dsimp only
  rw [hs.size_eq, hsize, bind_of_ok hs.memP_eq,
    bind_of_ok (memcpyInto_ok hs.bytes_at hle apart (by omega)), storeInto, if_pos hend]
  rfl

/-- Otherwise it does not return. -/
theorem strWriteCstrToBuf_fault (hs : StrAt ops mem s strval strvalP bytes) (hbuf : buf ≠ 0)
    {size : Nat}
    (hsize : (if bytes.length < subSize bufsize 1 then bytes.length else subSize bufsize 1) = size)
    (hle : size ≤ bytes.length) (hbad : Overlaps buf strvalP size ∨ cells.length ≤ size) :
    ∃ e, strWriteCstrToBuf ops mem strval ⟨buf, cells⟩ bufsize s = .error e s := by
  have hguard : ¬ (¬ memIsValid strval ∨ buf = 0) := by simp [hs.valid, hbuf]
  have hlen : (bytes.take size).length = size := by
    rw [List.length_take, Nat.min_eq_left hle]
  rw [strWriteCstrToBuf, if_neg hguard]
  dsimp only
  rw [hs.size_eq, hsize, bind_of_ok hs.memP_eq]
  by_cases apart : Overlaps buf strvalP size
  · refine ⟨.overlappingCopy, bind_of_error ?_ _⟩
    rw [memcpyInto, if_neg hs.bytes_at.ptr_ne, if_pos apart]
    rfl
  · have hshort := hbad.resolve_left apart
    refine ⟨.outOfBounds, ?_⟩
    rcases Nat.eq_or_lt_of_le hshort with he | hlt
    · have hend : ¬ size + [(0 : UInt8)].length ≤
          (overwrite cells 0 ((bytes.take size).map some)).length := by
        rw [length_filled hle (Nat.le_of_eq he.symm), List.length_singleton]
        omega
      rw [bind_of_ok (memcpyInto_ok hs.bytes_at hle apart (by omega)), storeInto, if_neg hend]
      rfl
    · apply bind_of_error
      rw [memcpyInto, if_neg hs.bytes_at.ptr_ne, if_neg apart,
        bind_of_ok (hs.bytes_at.loadBytes_ok (by omega)), List.drop_zero, storeInto, hlen,
        if_neg (by simpa using hlt)]
      rfl

/-- What the buffer holds once the NUL is stored behind the bytes. -/
theorem holdsCstr_overwrite (hn : copied bytes.length bufsize < cells.length) :
    HoldsCstr bytes bufsize (overwrite
      (overwrite cells 0 ((bytes.take (copied bytes.length bufsize)).map some))
      (copied bytes.length bufsize) [some 0]) := by
  have hle : copied bytes.length bufsize ≤ bytes.length := Nat.min_le_left _ _
  have hcells := length_filled hle (Nat.le_of_lt hn)
  have hfirst := take_overwrite ((bytes.take (copied bytes.length bufsize)).map some)
    (Nat.zero_le cells.length)
  rw [length_cells hle, Nat.zero_add, List.take_zero, List.nil_append] at hfirst
  have hall := take_overwrite [some (0 : UInt8)] (Nat.le_of_lt (hcells ▸ hn))
  rw [hfirst] at hall
  exact hall

/-- `bufsize - 1` is SIZE_MAX for a bufsize of 0, which no str reaches. -/
theorem size_of_zero (hbytes : BytesAt mem strvalP bytes) :
    (if bytes.length < subSize 0 1 then bytes.length else subSize 0 1) = bytes.length := by
  have hlen := hbytes.size_le
  have hsub : subSize 0 1 = 2 ^ 64 - 1 := by decide
  unfold ptrdiffMax at hlen
  rw [hsub, if_pos (by omega)]

theorem size_of_pos (hone : 1 ≤ bufsize) (hmax : bufsize < sizeMod) :
    (if bytes.length < subSize bufsize 1 then bytes.length else subSize bufsize 1) =
      copied bytes.length bufsize := by
  rw [subSize_eq hone hmax]
  unfold copied
  split <;> omega

/-- With room for the NUL and apart from the str, the function keeps to its buffer. -/
theorem writes_copied (hs : StrAt ops mem s strval strvalP bytes) (hbuf : buf ≠ 0)
    (hone : 1 ≤ bufsize) (hmax : bufsize < sizeMod)
    (apart : ¬ Overlaps buf strvalP (copied bytes.length bufsize)) (cells : Cells)
    (hn : bufsize ≤ cells.length) :
    ∃ cells', strWriteCstrToBuf ops mem strval ⟨buf, cells⟩ bufsize s =
        .ok (⟨buf, copied bytes.length bufsize, .notAllocated⟩, ⟨buf, cells'⟩) s ∧
      cells'.length = cells.length ∧ cells'.drop bufsize = cells.drop bufsize ∧
      HoldsCstr bytes bufsize cells' := by
  have hle : copied bytes.length bufsize ≤ bytes.length := Nat.min_le_left _ _
  have hfit : copied bytes.length bufsize ≤ bufsize - 1 := Nat.min_le_right _ _
  have hlen : ((bytes.take (copied bytes.length bufsize)).map (some (α := UInt8))).length =
      copied bytes.length bufsize := length_cells hle
  have hcells : (overwrite cells 0 ((bytes.take (copied bytes.length bufsize)).map some)).length =
      cells.length := length_filled hle (by omega)
  refine ⟨_, strWriteCstrToBuf_ok hs hbuf (size_of_pos hone hmax) hle apart (by omega), ?_, ?_,
    holdsCstr_overwrite (by omega)⟩
  · rw [length_overwrite (by rw [hcells, List.length_singleton]; omega), hcells]
  · rw [drop_overwrite (by rw [List.length_singleton]; omega) (by omega),
      drop_overwrite (by omega) (Nat.zero_le _)]

/-- A bufsize of 0 always goes wrong: the NUL is stored where nothing may be. -/
theorem not_writesWithin_zero (hs : StrAt ops mem s strval strvalP bytes) (hbuf : buf ≠ 0) :
    ¬ WritesWithin ops mem s strval bytes buf 0 n := by
  intro h
  have hlen : (List.replicate n (none : Option UInt8)).length = n := List.length_replicate
  have hsize := size_of_zero hs.bytes_at
  obtain ⟨result, cells', hrun, -, hsame, -⟩ := h _ hlen
  by_cases hbad : Overlaps buf strvalP bytes.length ∨
      (List.replicate n (none : Option UInt8)).length ≤ bytes.length
  · obtain ⟨e, herr⟩ := strWriteCstrToBuf_fault hs hbuf hsize (Nat.le_refl _) hbad
    rw [herr] at hrun
    cases hrun
  · obtain ⟨apart, hshort⟩ := not_or.mp hbad
    rw [strWriteCstrToBuf_ok hs hbuf hsize (Nat.le_refl _) apart (by omega)] at hrun
    cases hrun
    rw [List.drop_zero, List.drop_zero] at hsame
    have hnul : some 0 ∈ List.replicate n (none : Option UInt8) := by
      rw [← hsame]
      simp [overwrite]
    cases List.eq_of_mem_replicate hnul

/-- A copy that overlaps goes wrong whatever the buffer holds. -/
theorem overlaps_fault (hs : StrAt ops mem s strval strvalP bytes) (hbuf : buf ≠ 0)
    (hone : 1 ≤ bufsize) (hmax : bufsize < sizeMod)
    (hbad : Overlaps buf strvalP (copied bytes.length bufsize)) (cells : Cells) :
    ∃ e, strWriteCstrToBuf ops mem strval ⟨buf, cells⟩ bufsize s = .error e s :=
  strWriteCstrToBuf_fault hs hbuf (size_of_pos hone hmax) (Nat.min_le_left _ _) (Or.inl hbad)

theorem writesWithin_iff (hs : StrAt ops mem s strval strvalP bytes) (hbuf : buf ≠ 0)
    (hmax : bufsize < sizeMod) (hn : bufsize ≤ n) :
    WritesWithin ops mem s strval bytes buf bufsize n ↔
      1 ≤ bufsize ∧ ¬ Overlaps buf strvalP (copied bytes.length bufsize) := by
  constructor
  · intro h
    have hone : 1 ≤ bufsize := by
      by_contra hzero
      obtain rfl : bufsize = 0 := by omega
      exact not_writesWithin_zero hs hbuf h
    refine ⟨hone, ?_⟩
    intro hbad
    obtain ⟨result, cells', hrun, -⟩ := h (List.replicate n none) List.length_replicate
    obtain ⟨e, herr⟩ := overlaps_fault hs hbuf hone hmax hbad (List.replicate n none)
    rw [herr] at hrun
    cases hrun
  · intro ⟨hone, apart⟩ cells hcells
    obtain ⟨cells', hrun, hlen, hdrop, hholds⟩ :=
      writes_copied hs hbuf hone hmax apart cells (by omega)
    exact ⟨_, cells', hrun, hlen.trans hcells, hdrop, fun _ => ⟨hholds, rfl⟩⟩

theorem cstrWithin_iff (hs : StrAt ops mem s strval strvalP bytes) (hbuf : buf ≠ 0) :
    CstrWithin ops mem s strval bytes buf ↔
      ¬ Overlaps buf strvalP (copied bytes.length strCstrBufsize) := by
  have hmax : strCstrBufsize < sizeMod := by decide
  have hguard : ¬ ¬ memIsValid strval := by simp [hs.valid]
  constructor
  · intro h hbad
    obtain ⟨cells', hrun, -⟩ := h (List.replicate strCstrBufsize none) List.length_replicate
    obtain ⟨e, herr⟩ := overlaps_fault hs hbuf (by decide) hmax hbad
      (List.replicate strCstrBufsize none)
    rw [strCstr, if_neg hguard, bind_of_error herr] at hrun
    cases hrun
  · intro apart cells hcells
    obtain ⟨cells', hrun, hlen, -, hholds⟩ :=
      writes_copied hs hbuf (by decide) hmax apart cells (Nat.le_of_eq hcells.symm)
    refine ⟨cells', ?_, hlen.trans hcells, hholds⟩
    rw [strCstr, if_neg hguard, bind_of_ok hrun]
    rfl

/-- `str_write_cstr_to_buf` keeps to its buffer if and only if the buffer has a byte and
does not overlap what is copied into it, and `str_cstr` if and only if its buffer does not. -/
theorem strWriteCstr_within_iff (hs : StrAt ops mem s strval strvalP bytes) (hbuf : buf ≠ 0)
    (hmax : bufsize < sizeMod) (hn : bufsize ≤ n) :
    (WritesWithin ops mem s strval bytes buf bufsize n ↔
      1 ≤ bufsize ∧ ¬ Overlaps buf strvalP (copied bytes.length bufsize)) ∧
    (CstrWithin ops mem s strval bytes buf ↔
      ¬ Overlaps buf strvalP (copied bytes.length strCstrBufsize)) :=
  ⟨writesWithin_iff hs hbuf hmax hn, cstrWithin_iff hs hbuf⟩

end Writing

theorem strWriteCstr_within_iff_letter :
    WritesWithin scriptedOps (regionMemory 4096 [97]) [] ⟨4096, 1, .notAllocated⟩ [97] 8192 2 2 ∧
    CstrWithin scriptedOps (regionMemory 4096 [97]) [] ⟨4096, 1, .notAllocated⟩ [97] 8192 := by
  have hbuf : (8192 : Addr) ≠ 0 := by decide
  have hmax : 2 < sizeMod := by decide
  have law := strWriteCstr_within_iff letter_strAt hbuf hmax (Nat.le_refl 2)
  exact ⟨law.1.mpr (by decide), law.2.mpr (by decide)⟩

/-- Into a buffer of no bytes the letter is written all the same. -/
theorem strWriteCstr_zero_leaves :
    StrAt scriptedOps (regionMemory 4096 [97]) [] ⟨4096, 1, .notAllocated⟩ 4096 [97] ∧
    strWriteCstrToBuf scriptedOps (regionMemory 4096 [97]) ⟨4096, 1, .notAllocated⟩ ⟨8192, []⟩ 0
      [] = .error .outOfBounds [] :=
  ⟨letter_strAt, rfl⟩

end M65Tool.Guarantees.StrCopies
