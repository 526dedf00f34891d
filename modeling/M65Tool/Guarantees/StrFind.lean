import M65Tool.Source.StrReads

/-!
# STR-FIND: the search is exact as far as an int can tell

`str_find` counts in an unsigned int and reports an int. It is exact where the leftmost
occurrence is at INT_MAX or before; where there is none, the search ends only if the text
is less than UINT_MAX bytes longer than the pattern. Past these bounds a position is
reported as a negative number, -1 among them, or the search goes on forever.
-/
namespace M65Tool.Guarantees.StrFind
open Source Source.Mem Source.StringBuffer Source.StrFunctions Lib.Effect Lib.Splitting

section Search
variable {σ : Type} {ops : MemOps σ} {mem : Memory} {s : σ} {strval substring : MemHandle}
  {strvalP substringP : Addr} {text pattern : List UInt8}

/-- The answer is the leftmost occurrence, or -1 where there is none. -/
def ExactAnswer (text pattern : List UInt8) (answer : Int) : Prop :=
  (∃ i : Nat, answer = i ∧ Leftmost text pattern i) ∨
    answer = -1 ∧ ∀ i, ¬ OccursAt text pattern i

/-- In every memory that has the bytes of both strs, whatever else it lacks, the call
returns the exact answer. -/
def FindExact (ops : MemOps σ) (s : σ) (strval substring : MemHandle) (strvalP substringP : Addr)
    (text pattern : List UInt8) : Prop :=
  ∀ mem, BytesAt mem strvalP text → BytesAt mem substringP pattern →
    ∃ answer, ExactAnswer text pattern answer ∧
      Returns (fun tests => strFind ops mem tests strval substring) s answer

/-- An int can hold the leftmost occurrence; without one, an unsigned int can count up
to the end of the search. -/
structure InRange (text pattern : List UInt8) : Prop where
  found : ∀ i, Leftmost text pattern i → i ≤ intMax
  absent : (∀ i, ¬ OccursAt text pattern i) → text.length < pattern.length + uintMax

theorem ExactAnswer.eq_of_leftmost {i : Nat} {answer : Int} (h : ExactAnswer text pattern answer)
    (hleft : Leftmost text pattern i) : answer = i := by
  rcases h with ⟨j, rfl, hj⟩ | ⟨-, habsent⟩
  · rw [hj.unique hleft]
  · exact absurd hleft.occurs (habsent i)

theorem strFind_inRange (hs : StrAt ops mem s strval strvalP text)
    (hp : StrAt ops mem s substring substringP pattern) (hin : InRange text pattern) :
    ∃ answer, ExactAnswer text pattern answer ∧
      Returns (fun tests => strFind ops mem tests strval substring) s answer := by
  by_cases hany : ∃ i, OccursAt text pattern i
  · obtain ⟨i, hoccurs⟩ := hany
    obtain ⟨pos, hleft⟩ := exists_leftmost hoccurs
    have hpos := hin.found pos hleft
    have hcount : pos < 2 ^ 32 := by
      unfold intMax at hpos
      omega
    have hrun := strFind_hit hs hp hleft hcount
    rw [uintToInt_near hpos] at hrun
    exact ⟨pos, Or.inl ⟨pos, rfl, hleft⟩, hrun⟩
  · have habsent : ∀ i, ¬ OccursAt text pattern i := fun i hi => hany ⟨i, hi⟩
    exact ⟨-1, Or.inr ⟨rfl, habsent⟩, strFind_none hs hp habsent (hin.absent habsent)⟩

/-- `str_find` is exact if and only if the search stays in range. -/
theorem strFind_exact_iff (hs : StrAt ops mem s strval strvalP text)
    (hp : StrAt ops mem s substring substringP pattern) :
    FindExact ops s strval substring strvalP substringP text pattern ↔ InRange text pattern := by
  constructor
  · intro hexact
    obtain ⟨answer, hanswer, hrun⟩ := hexact mem hs.bytes_at hp.bytes_at
    constructor
    · intro pos hleft
      by_contra hfar
      rw [hanswer.eq_of_leftmost hleft] at hrun
      by_cases hcount : pos < 2 ^ 32
      · have he := hrun.unique (strFind_hit hs hp hleft hcount)
        rw [uintToInt_past (by omega) hcount] at he
        omega
      · have hends := hleft.occurs.le
        obtain ⟨enough, hrun⟩ := hrun
        have hlast := hrun enough (Nat.le_refl _)
        dsimp only at hlast
        rw [strFind_endless hs hp (fun i hi => hleft.first i (by omega))
          (by unfold uintMax; omega)] at hlast
        cases hlast
    · intro habsent
      by_contra hlong
      obtain ⟨enough, hrun⟩ := hrun
      have hlast := hrun enough (Nat.le_refl _)
      dsimp only at hlast
      rw [strFind_endless hs hp (fun i _ => habsent i) (by omega)] at hlast
      cases hlast
  · intro hin mem' htext hpat
    exact strFind_inRange { hs with bytes_at := htext } { hp with bytes_at := hpat } hin

end Search

theorem strFind_exact_iff_short :
    FindExact scriptedOps [] ⟨4096, 3, .notAllocated⟩ ⟨4097, 1, .notAllocated⟩ 4096 4097
      [1, 2, 2] [2] := by
  have htext : BytesAt (regionMemory 4096 [1, 2, 2]) 4096 [1, 2, 2] :=
    bytesAt_regionMemory (by decide) (by decide) (by decide)
  have hpat : BytesAt (regionMemory 4096 [1, 2, 2]) 4097 [2] :=
    (htext.drop (i := 1) (by decide)).take 1
  have hin : InRange [1, 2, 2] [2] := by
    constructor
    · intro i hleft
      have hends := hleft.occurs.1
      simp only [List.length_cons, List.length_nil] at hends
      unfold intMax
      omega
    · intro habsent
      exact absurd (show OccursAt ([1, 2, 2] : List UInt8) [2] 1 by decide) (habsent 1)
  exact (strFind_exact_iff (strAt_scripted htext) (strAt_scripted hpat)).mpr hin

/-! ## An occurrence past INT_MAX -/

section Far
variable {n : Nat}

/-- Zeros and a one behind them. -/
def zerosOne (n : Nat) : List UInt8 := List.replicate n 0 ++ [1]

theorem zerosOne_length : (zerosOne n).length = n + 1 := by
  rw [zerosOne, List.length_append, List.length_replicate, List.length_singleton]

theorem zerosOne_drop : (zerosOne n).drop n = [1] := by
  rw [zerosOne]
  exact List.drop_left' List.length_replicate

theorem zerosOne_leftmost : Leftmost (zerosOne n) [1] n where
  occurs := ⟨by rw [zerosOne_length]; omega, [], zerosOne_drop.symm⟩
  first j hj hoccurs := by
    have hj0 := (occursAt_iff_getElem?.mp hoccurs).2 0 (by decide)
    rw [zerosOne, List.getElem?_append_left (by rw [List.length_replicate]; exact hj)] at hj0
    simp [hj] at hj0

/-- The text at 4096, and the str of its last byte. -/
theorem zerosOne_strAt (hsize : n < ptrdiffMax) :
    StrAt scriptedOps (regionMemory 4096 (zerosOne n)) [] ⟨4096, n + 1, .notAllocated⟩ 4096
      (zerosOne n) ∧
    StrAt scriptedOps (regionMemory 4096 (zerosOne n)) []
      ⟨4096 + UInt64.ofNat n, 1, .notAllocated⟩ (4096 + UInt64.ofNat n) [1] := by
  unfold ptrdiffMax at hsize
  have h4096 : (4096 : UInt64).toNat = 4096 := rfl
  have htext : BytesAt (regionMemory 4096 (zerosOne n)) 4096 (zerosOne n) :=
    bytesAt_regionMemory (by decide) (by rw [zerosOne_length]; omega)
      (by rw [zerosOne_length]; unfold ptrdiffMax; omega)
  have hpat := htext.drop (i := n) (by rw [zerosOne_length]; omega)
  rw [zerosOne_drop] at hpat
  have hs := strAt_scripted htext
  rw [zerosOne_length] at hs
  exact ⟨hs, strAt_scripted hpat⟩

end Far

/-- The occurrence at 2^31 is reported as one at -2^31. -/
theorem strFind_far_negative :
    Leftmost (zerosOne (2 ^ 31)) [1] (2 ^ 31) ∧
    StrAt scriptedOps (regionMemory 4096 (zerosOne (2 ^ 31))) []
      ⟨4096, 2 ^ 31 + 1, .notAllocated⟩ 4096 (zerosOne (2 ^ 31)) ∧
    StrAt scriptedOps (regionMemory 4096 (zerosOne (2 ^ 31))) []
      ⟨4096 + UInt64.ofNat (2 ^ 31), 1, .notAllocated⟩ (4096 + UInt64.ofNat (2 ^ 31)) [1] ∧
    Returns (fun tests => strFind scriptedOps (regionMemory 4096 (zerosOne (2 ^ 31))) tests
      ⟨4096, 2 ^ 31 + 1, .notAllocated⟩ ⟨4096 + UInt64.ofNat (2 ^ 31), 1, .notAllocated⟩) []
      (-2 ^ 31) := by
  obtain ⟨hs, hp⟩ := zerosOne_strAt (n := 2 ^ 31) (by decide)
  have hrun := strFind_hit hs hp zerosOne_leftmost (by decide)
  have hneg : uintToInt (UInt32.ofNat (2 ^ 31)) = -2 ^ 31 := by decide
  rw [hneg] at hrun
  exact ⟨zerosOne_leftmost, hs, hp, hrun⟩

end M65Tool.Guarantees.StrFind
