import M65Tool.Lib.FirstFew
import M65Tool.Source.WordSelection
import M65Tool.Source.StrReads
import Mathlib.Data.Int.Order.Basic

/-!
# TOP-FIVE: the selection of the highest and lowest counts

Both arrays keep the first five of the distinct counts, in falling and in rising order,
filled up with zeros; this does not depend on the order in which the counts come. The
exchanges work for every unsigned int, but the cells and the index are of int: the loop
runs to its end for up to INT_MAX words, and a count beyond INT_MAX is kept as a negative
number.
-/
namespace M65Tool.Guarantees.TopFive
open Source Source.Mem Source.StringBuffer Source.StrFunctions Source.WordFreq
open Lib.Effect Lib.FirstFew

/-- These are the five highest and the five lowest of the distinct counts. -/
structure Selected (arr : List UInt32) (mostFreq leastFreq : List Int) : Prop where
  most : ∃ counts : List Nat, counts.Pairwise (· > ·) ∧
    (∀ n, n ∈ counts ↔ ∃ c ∈ arr, c.toNat = n) ∧
    mostFreq = (firstFew 5 0 counts).map Int.ofNat
  least : ∃ counts : List Nat, counts.Pairwise (· < ·) ∧
    (∀ n, n ∈ counts ↔ ∃ c ∈ arr, c.toNat = n) ∧
    leastFreq = (firstFew 5 0 counts).map Int.ofNat

/-- The loop selects from the counts, in whatever order they come. -/
def Selects {σ : Type} (arr : List UInt32) (wordsSeen : UInt32) (s : σ) : Prop :=
  ∃ mostFreq leastFreq, Selected arr mostFreq leastFreq ∧
    ∀ arr', arr'.Perm arr →
      Returns (selectCounts (σ := σ) arr' wordsSeen) s (mostFreq, leastFreq)

/-! ## One count -/

section Conversions
variable {c : UInt32}

theorem intToUint_natCast {n : Nat} (h : n < 2 ^ 32) : (intToUint n).toNat = n := by
  rw [intToUint, UInt32.toNat_ofNat']
  omega

theorem intToUint_uintToInt (c : UInt32) : intToUint (uintToInt c) = c := by
  have hc := c.toNat_lt
  rw [← UInt32.toNat_inj, intToUint, UInt32.toNat_ofNat', uintToInt]
  split <;> omega

theorem uintToInt_eq_zero : uintToInt c = 0 ↔ c = 0 := by
  constructor
  · intro h
    rw [← intToUint_uintToInt c, h]
    rfl
  · rintro rfl
    rfl

theorem uintToInt_le (c : UInt32) : uintToInt c ≤ intMax := by
  have hc := c.toNat_lt
  unfold uintToInt intMax
  split <;> omega

theorem uintToInt_small (h : c.toNat ≤ intMax) : uintToInt c = Int.ofNat c.toNat := if_pos h

end Conversions

/-- The order of `most_freq`, with 0 behind all counts. -/
def rankMost (c : UInt32) : Int := -c.toNat

/-- The order of `least_freq`, likewise. -/
def rankLeast (c : UInt32) : Int := if c = 0 then 2 ^ 32 else c.toNat

section Ranks
variable {a b c : UInt32}

theorem rankMost_lt : rankMost a < rankMost b ↔ b < a := by
  rw [rankMost, rankMost, UInt32.lt_iff_toNat_lt]
  omega

theorem rankMost_injective : Function.Injective rankMost := by
  intro a b h
  unfold rankMost at h
  exact UInt32.toNat_inj.mp (by omega)

theorem rankMost_last (x : UInt32) (hx : x ≠ 0) : rankMost x < rankMost 0 :=
  rankMost_lt.mpr (UInt32.pos_iff_ne_zero.mpr hx)

theorem rankLeast_lt (hc : c ≠ 0) : rankLeast c < rankLeast a ↔ c < a ∨ a = 0 := by
  have hlt := c.toNat_lt
  rw [rankLeast, rankLeast, if_neg hc, UInt32.lt_iff_toNat_lt]
  by_cases ha : a = 0
  · rw [if_pos ha]
    exact iff_of_true (by omega) (Or.inr ha)
  · rw [if_neg ha]
    exact ⟨fun h => Or.inl (by omega), fun h => by have := h.resolve_right ha; omega⟩

theorem rankLeast_injective : Function.Injective rankLeast := by
  intro a b h
  have ha := a.toNat_lt
  have hb := b.toNat_lt
  unfold rankLeast at h
  split at h <;> split at h
  · simp_all
  · omega
  · omega
  · exact UInt32.toNat_inj.mp (by omega)

theorem rankLeast_last (x : UInt32) (hx : x ≠ 0) : rankLeast x < rankLeast 0 :=
  (rankLeast_lt hx).mpr (Or.inr rfl)

end Ranks

section Insertions
variable {cells values seen : List UInt32} {freq : List Int} {c : UInt32}

/-- On the unsigned values of the cells the loop over `most_freq` makes the exchanges. -/
theorem insertMost_map : insertMost (cells.map uintToInt) c =
    (insertInto rankMost cells c).map uintToInt := by
  induction cells generalizing c with
  | nil => rfl
  | cons cell rest ih =>
    rw [List.map_cons, insertMost, insertInto, intToUint_uintToInt]
    simp only [rankMost_lt]
    split
    · rfl
    · split
      · rw [ih, List.map_cons]
      · rw [ih, List.map_cons]

/-- So does the one over `least_freq`, while the free cells are the last ones. -/
theorem insertLeast_map (free : cells.Pairwise fun a b => a = 0 → b = 0)
    (hc : c ≠ 0 ∨ ∀ cell ∈ cells, cell = 0) :
    insertLeast (cells.map uintToInt) c = (insertInto rankLeast cells c).map uintToInt := by
  induction cells generalizing c with
  | nil => rfl
  | cons cell rest ih =>
    obtain ⟨hfirst, hrest⟩ := List.pairwise_cons.mp free
    rw [List.map_cons, insertLeast, insertInto, intToUint_uintToInt]
    by_cases heq : cell = c
    · rw [if_pos heq, if_pos heq, List.map_cons]
    · have hne : c ≠ 0 := by
        rintro rfl
        exact hc.elim (fun h => h rfl) fun h => heq (h cell List.mem_cons_self)
      have hnext : cell ≠ 0 ∨ ∀ later ∈ rest, later = 0 := by
        by_cases hzero : cell = 0
        · exact Or.inr fun later hlater => hfirst later hlater hzero
        · exact Or.inl hzero
      rw [if_neg heq, if_neg heq]
      simp only [uintToInt_eq_zero, rankLeast_lt hne, gt_iff_lt]
      split
      · rw [ih hrest hnext, List.map_cons]
      · rw [ih hrest (Or.inl hne), List.map_cons]

theorem firstFew_free (hvalues : 0 ∉ values) :
    (firstFew 5 0 values).Pairwise fun a b => a = 0 → b = 0 := by
  refine List.Pairwise.sublist (List.take_sublist 5 _) ?_
  rw [List.pairwise_append]
  refine ⟨?_, List.pairwise_replicate.mpr (Or.inr fun _ => rfl), ?_⟩
  · refine List.Pairwise.imp_of_mem ?_ (List.pairwise_of_forall fun _ _ => trivial)
    rintro a b ha - - rfl
    exact absurd ha hvalues
  · rintro a ha b - rfl
    exact absurd ha hvalues

/-- The cells keep the first of the counts that have come, in the order of this rank. -/
def Kept (rank : UInt32 → Int) (seen : List UInt32) (freq : List Int) : Prop :=
  ∃ values, Ranked rank values ∧ (∀ a, a ∈ values ↔ a ∈ seen) ∧
    freq = (firstFew 5 0 values).map uintToInt

theorem kept_none (rank : UInt32 → Int) : Kept rank [] noCounts :=
  ⟨[], .nil, fun _ => Iff.rfl, rfl⟩

theorem Kept.insertMost (kept : Kept rankMost seen freq) (hseen : 0 ∉ seen) (hc : c ≠ 0) :
    Kept rankMost (seen ++ [c]) (insertMost freq c) := by
  obtain ⟨values, ranked, hmem, rfl⟩ := kept
  have hvalues : 0 ∉ values := fun h => hseen ((hmem 0).mp h)
  refine ⟨sortedInsert rankMost c values, sortedInsert_ranked rankMost_injective ranked, ?_, ?_⟩
  · intro a
    rw [mem_sortedInsert, hmem, List.mem_append, List.mem_singleton, or_comm]
  · rw [insertMost_map, insertInto_firstFew rankMost_last ranked hc hvalues]

theorem Kept.insertLeast (kept : Kept rankLeast seen freq) (hseen : 0 ∉ seen) (hc : c ≠ 0) :
    Kept rankLeast (seen ++ [c]) (insertLeast freq c) := by
  obtain ⟨values, ranked, hmem, rfl⟩ := kept
  have hvalues : 0 ∉ values := fun h => hseen ((hmem 0).mp h)
  refine ⟨sortedInsert rankLeast c values, sortedInsert_ranked rankLeast_injective ranked, ?_, ?_⟩
  · intro a
    rw [mem_sortedInsert, hmem, List.mem_append, List.mem_singleton, or_comm]
  · rw [insertLeast_map (firstFew_free hvalues) (Or.inl hc),
      insertInto_firstFew rankLeast_last ranked hc hvalues]

theorem Kept.unique {rank : UInt32 → Int} {freq' : List Int} {seen' : List UInt32}
    (kept : Kept rank seen freq) (kept' : Kept rank seen' freq') (perm : seen.Perm seen') :
    freq = freq' := by
  obtain ⟨values, ranked, hmem, rfl⟩ := kept
  obtain ⟨values', ranked', hmem', rfl⟩ := kept'
  have same : values = values' := by
    apply ranked_unique ranked ranked'
    intro a
    rw [hmem, hmem', perm.mem_iff]
  rw [same]

end Insertions

/-! ## The loop -/

section Loop
variable {σ : Type} {arr : List UInt32} {wordsSeen : UInt32} {i tests : Nat}
  {mostFreq leastFreq : List Int} {s : σ}

theorem readCount_ok (h : i < arr.length) :
    (readCount arr (i : Int) : C σ UInt32) s = .ok arr[i] s := by
  have hget : arr[(i : Int).toNat]? = some arr[i] := by
    rw [Int.toNat_natCast]
    exact List.getElem?_eq_getElem h
  rw [readCount, if_neg (by omega), hget]
  rfl

theorem index_lt (hlen : arr.length = wordsSeen.toNat) (hi : i ≤ intMax) :
    intToUint i < wordsSeen ↔ i < arr.length := by
  unfold intMax at hi
  rw [UInt32.lt_iff_toNat_lt, intToUint_natCast (by omega), hlen]

theorem selectLoop_ok (hlen : arr.length = wordsSeen.toNat) (fits : arr.length ≤ intMax)
    (positive : 0 ∉ arr) (hi : i ≤ arr.length) (htests : arr.length < i + tests)
    (most : Kept rankMost (arr.take i) mostFreq) (least : Kept rankLeast (arr.take i) leastFreq) :
    ∃ mostFreq' leastFreq',
      (selectLoop arr wordsSeen tests i mostFreq leastFreq : C σ (List Int × List Int)) s =
        .ok (mostFreq', leastFreq') s ∧
      Kept rankMost arr mostFreq' ∧ Kept rankLeast arr leastFreq' := by
  induction tests generalizing i mostFreq leastFreq with
  | zero => omega
  | succ tests ih =>
    rw [selectLoop]
    by_cases hlt : i < arr.length
    · have htake : arr.take (i + 1) = arr.take i ++ [arr[i]] := (List.take_append_getElem hlt).symm
      have hseen : 0 ∉ arr.take i := fun h => positive (List.mem_of_mem_take h)
      have hc : arr[i] ≠ 0 := fun h => positive (h ▸ List.getElem_mem hlt)
      have hincr : (incrInt (i : Int) : C σ Int) s = .ok ((i + 1 : Nat) : Int) s := by
        rw [incrInt, if_neg (by omega)]
        rfl
      rw [if_pos ((index_lt hlen (by omega)).mpr hlt), bind_of_ok (readCount_ok hlt),
        bind_of_ok hincr]
      apply ih (by omega) (by omega)
      · rw [htake]
        exact most.insertMost hseen hc
      · rw [htake]
        exact least.insertLeast hseen hc
    · rw [if_neg fun h => hlt ((index_lt hlen (by omega)).mp h)]
      rw [List.take_of_length_le (by omega)] at most least
      exact ⟨_, _, rfl, most, least⟩

theorem selectCounts_ok (hlen : arr.length = wordsSeen.toNat) (fits : arr.length ≤ intMax)
    (positive : 0 ∉ arr) : ∃ mostFreq leastFreq,
      Returns (selectCounts (σ := σ) arr wordsSeen) s (mostFreq, leastFreq) ∧
      Kept rankMost arr mostFreq ∧ Kept rankLeast arr leastFreq := by
  have hrun : ∀ tests ≥ arr.length + 1, ∃ mostFreq leastFreq,
      (selectCounts arr wordsSeen tests : C σ (List Int × List Int)) s =
        .ok (mostFreq, leastFreq) s ∧
      Kept rankMost arr mostFreq ∧ Kept rankLeast arr leastFreq := by
    intro tests htests
    exact selectLoop_ok hlen fits positive (Nat.zero_le _) (by omega) (kept_none _) (kept_none _)
  obtain ⟨mostFreq, leastFreq, -, most, least⟩ := hrun _ (Nat.le_refl _)
  refine ⟨mostFreq, leastFreq, ⟨arr.length + 1, ?_⟩, most, least⟩
  intro tests htests
  obtain ⟨mostFreq', leastFreq', hok, most', least'⟩ := hrun tests htests
  rw [hok, most'.unique most (.refl arr), least'.unique least (.refl arr)]

/-- The index overflows before the loop is through with more than INT_MAX words. -/
theorem selectLoop_overflow (hlen : arr.length = wordsSeen.toNat) (long : intMax < arr.length)
    (hi : i ≤ intMax) (tests : Nat) (mostFreq leastFreq r : _) :
    (selectLoop arr wordsSeen tests i mostFreq leastFreq : C σ (List Int × List Int)) s ≠
      .ok r s := by
  induction tests generalizing i mostFreq leastFreq with
  | zero => exact nofun
  | succ tests ih =>
    rw [selectLoop, if_pos ((index_lt hlen hi).mpr (by omega)),
      bind_of_ok (readCount_ok (show i < arr.length by omega))]
    by_cases hmax : i = intMax
    · have hincr : (incrInt (i : Int) : C σ Int) s = .error .signedOverflow s := by
        rw [incrInt, if_pos (by omega)]
        rfl
      rw [bind_of_error hincr]
      exact nofun
    · have hincr : (incrInt (i : Int) : C σ Int) s = .ok ((i + 1 : Nat) : Int) s := by
        rw [incrInt, if_neg (by omega)]
        rfl
      rw [bind_of_ok hincr]
      exact ih (by omega) _ _

end Loop

/-! ## The counts that the cells hold -/

section Cells
variable {arr values : List UInt32} {freq : List Int}

/-- Up to INT_MAX the cells are the counts themselves. -/
theorem map_firstFew_small (small : ∀ c ∈ values, c.toNat ≤ intMax) :
    (firstFew 5 0 values).map uintToInt = (firstFew 5 0 (values.map UInt32.toNat)).map Int.ofNat := by
  have hnat : (firstFew 5 0 values).map UInt32.toNat = firstFew 5 0 (values.map UInt32.toNat) :=
    map_firstFew UInt32.toNat
  rw [← hnat, List.map_map]
  apply List.map_congr_left
  intro c hc
  apply uintToInt_small
  rcases List.mem_append.mp (List.mem_of_mem_take hc) with hvalue | hblank
  · exact small c hvalue
  · rw [List.eq_of_mem_replicate hblank]
    exact Nat.zero_le _

theorem mem_map_toNat (same : ∀ a, a ∈ values ↔ a ∈ arr) (n : Nat) :
    n ∈ values.map UInt32.toNat ↔ ∃ c ∈ arr, c.toNat = n := by
  simp only [List.mem_map, same]

/-- A cell never has more than INT_MAX, so the highest of the counts does not. -/
theorem small_of_most {counts : List Nat} {rank : UInt32 → Int} (kept : Kept rank arr freq)
    (falling : counts.Pairwise (· > ·)) (same : ∀ n, n ∈ counts ↔ ∃ c ∈ arr, c.toNat = n)
    (hfreq : freq = (firstFew 5 0 counts).map Int.ofNat) : ∀ c ∈ arr, c.toNat ≤ intMax := by
  obtain ⟨values, -, -, hvalues⟩ := kept
  intro c hc
  cases counts with
  | nil => exact absurd ((same c.toNat).mpr ⟨c, hc, rfl⟩) List.not_mem_nil
  | cons highest lower =>
    have hle : c.toNat ≤ highest := by
      rcases List.mem_cons.mp ((same c.toNat).mpr ⟨c, hc, rfl⟩) with he | hlower
      · exact Nat.le_of_eq he
      · exact Nat.le_of_lt ((List.pairwise_cons.mp falling).1 _ hlower)
    rw [firstFew_cons, List.map_cons] at hfreq
    have hmem : Int.ofNat highest ∈ (firstFew 5 0 values).map uintToInt := by
      rw [← hvalues, hfreq]
      exact List.mem_cons_self
    obtain ⟨u, -, hu⟩ := List.mem_map.mp hmem
    have hmax := uintToInt_le u
    rw [hu] at hmax
    exact Nat.le_trans hle (Int.ofNat_le.mp hmax)

theorem selected_of_kept {mostFreq leastFreq : List Int} (positive : 0 ∉ arr)
    (small : ∀ c ∈ arr, c.toNat ≤ intMax) (most : Kept rankMost arr mostFreq)
    (least : Kept rankLeast arr leastFreq) : Selected arr mostFreq leastFreq := by
  obtain ⟨highs, hranked, hmem, rfl⟩ := most
  obtain ⟨lows, lranked, lmem, rfl⟩ := least
  refine ⟨⟨highs.map UInt32.toNat, ?_, mem_map_toNat hmem, ?_⟩,
    ⟨lows.map UInt32.toNat, ?_, mem_map_toNat lmem, ?_⟩⟩
  · rw [List.pairwise_map]
    exact hranked.imp fun h => UInt32.lt_iff_toNat_lt.mp (rankMost_lt.mp h)
  · exact map_firstFew_small fun c hc => small c ((hmem c).mp hc)
  · rw [List.pairwise_map]
    refine List.Pairwise.imp_of_mem ?_ lranked
    intro a b ha hb hlt
    have hane : a ≠ 0 := fun he => positive (he ▸ (lmem a).mp ha)
    have hbne : b ≠ 0 := fun he => positive (he ▸ (lmem b).mp hb)
    exact UInt32.lt_iff_toNat_lt.mp (((rankLeast_lt hane).mp hlt).resolve_right hbne)
  · exact map_firstFew_small fun c hc => small c ((lmem c).mp hc)

end Cells

/-- The loop selects the five highest and lowest of the distinct counts, however they are
ordered, exactly if neither the number of the words nor any count is beyond INT_MAX. -/
theorem selectCounts_iff {σ : Type} {arr : List UInt32} {wordsSeen : UInt32} {s : σ}
    (hlen : arr.length = wordsSeen.toNat) (positive : 0 ∉ arr) :
    Selects arr wordsSeen s ↔ arr.length ≤ intMax ∧ ∀ c ∈ arr, c.toNat ≤ intMax := by
  constructor
  · intro ⟨mostFreq, leastFreq, selected, hall⟩
    have hrun := hall arr (.refl arr)
    have fits : arr.length ≤ intMax := by
      by_contra long
      obtain ⟨enough, hok⟩ := hrun
      exact selectLoop_overflow hlen (Nat.lt_of_not_le long) (Nat.zero_le _) enough _ _ _
        (hok enough (Nat.le_refl _))
    obtain ⟨mostFreq', leastFreq', hrun', most, -⟩ := selectCounts_ok (s := s) hlen fits positive
    obtain ⟨counts, falling, same, hfreq⟩ := selected.most
    have heq := hrun.unique hrun'
    injection heq with hmost
    rw [← hmost] at most
    exact ⟨fits, small_of_most most falling same hfreq⟩
  · intro ⟨fits, small⟩
    obtain ⟨mostFreq, leastFreq, -, most, least⟩ := selectCounts_ok (s := s) hlen fits positive
    refine ⟨mostFreq, leastFreq, selected_of_kept positive small most least, ?_⟩
    intro arr' perm
    have hlen' : arr'.length = wordsSeen.toNat := perm.length_eq.trans hlen
    have positive' : 0 ∉ arr' := fun h => positive (perm.mem_iff.mp h)
    obtain ⟨mostFreq', leastFreq', hrun', most', least'⟩ :=
      selectCounts_ok (s := s) hlen' (by rw [perm.length_eq]; exact fits) positive'
    rw [most.unique most' perm.symm, least.unique least' perm.symm]
    exact hrun'

/-- Three words, two of which occur twice. -/
theorem selectCounts_iff_three :
    Selects [2, 1, 2] 3 () ↔ [(2 : UInt32), 1, 2].length ≤ intMax ∧
      ∀ c ∈ [(2 : UInt32), 1, 2], c.toNat ≤ intMax :=
  selectCounts_iff rfl (by decide)

/-- A word that occurs 2^31 times. -/
theorem selectCounts_wraps : ¬ Selects [0x80000000] 1 () := by
  intro ⟨mostFreq, leastFreq, selected, hall⟩
  have hlen : [(0x80000000 : UInt32)].length = (1 : UInt32).toNat := rfl
  obtain ⟨mostFreq', leastFreq', hrun, most, -⟩ :=
    selectCounts_ok (s := ()) hlen (by decide) (by decide)
  obtain ⟨counts, falling, same, hfreq⟩ := selected.most
  have heq := (hall _ (.refl _)).unique hrun
  injection heq with hmost
  rw [← hmost] at most
  exact absurd (small_of_most most falling same hfreq _ List.mem_cons_self) (by decide)

end M65Tool.Guarantees.TopFive
