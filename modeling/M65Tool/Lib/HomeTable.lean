import Mathlib.Data.List.AList
import Mathlib.Data.List.Perm.Basic
import Mathlib.Data.List.Nodup

/-!
# Tables in which every key is at home

Each key has a home among the slots of a table. While no two of the keys that are stored
share one, the table is a finite map: a key is looked for at its home and nowhere else, it
is stored and removed there, and the slots in their order are the entries.
-/
namespace M65Tool.Lib.HomeTable

/-- The finite maps that are stored. -/
abbrev Store (K V : Type) := AList fun _ : K => V

variable {K V : Type} [DecidableEq K] {size : Nat} {home : K → Nat}
  {slot : Nat → Option (K × V)} {m : Store K V} {k k' : K} {v v' : V} {pos : Nat}

/-- The slots hold the entries of the finite map, each at the home of its key. -/
structure Homes (size : Nat) (home : K → Nat) (slot : Nat → Option (K × V)) (m : Store K V) :
    Prop where
  home_lt : ∀ k, home k < size
  slot_iff : ∀ pos < size, ∀ k v, slot pos = some (k, v) ↔ home k = pos ∧ m.lookup k = some v

/-- No other key of the finite map has this home. -/
def Apart (home : K → Nat) (m : Store K V) (k : K) : Prop := ∀ k' ∈ m, home k' = home k → k' = k

omit [DecidableEq K] in
theorem apart_empty (home : K → Nat) (k : K) : Apart home (∅ : Store K V) k :=
  fun k' hk => absurd hk (AList.notMem_empty k')

namespace Homes

theorem empty (home_lt : ∀ k, home k < size) (free : ∀ pos < size, slot pos = none) :
    Homes size home slot (∅ : Store K V) where
  home_lt := home_lt
  slot_iff pos hpos k v := by
    rw [free pos hpos, AList.lookup_empty]
    exact iff_of_false nofun fun h => by cases h.2

variable (h : Homes size home slot m)
include h

theorem slot_home (hk : m.lookup k = some v) : slot (home k) = some (k, v) :=
  (h.slot_iff _ (h.home_lt k) k v).mpr ⟨rfl, hk⟩

/-- The stored keys have different homes. -/
theorem apart_of_mem (hk : k ∈ m) : Apart home m k := by
  intro k' hk' hsame
  obtain ⟨v, hv⟩ := Option.isSome_iff_exists.mp (AList.lookup_isSome.mpr hk)
  obtain ⟨v', hv'⟩ := Option.isSome_iff_exists.mp (AList.lookup_isSome.mpr hk')
  have hslot := h.slot_home hv'
  rw [hsame, h.slot_home hv] at hslot
  exact (congrArg Prod.fst (Option.some.inj hslot)).symm

/-- At the home of a key is its own entry or none. -/
theorem slot_cases (apart : Apart home m k) :
    slot (home k) = none ∧ m.lookup k = none ∨
      ∃ v, slot (home k) = some (k, v) ∧ m.lookup k = some v := by
  cases hl : m.lookup k with
  | some v => exact Or.inr ⟨v, h.slot_home hl, rfl⟩
  | none =>
    refine Or.inl ⟨?_, rfl⟩
    cases hs : slot (home k) with
    | none => rfl
    | some entry =>
      obtain ⟨k', v'⟩ := entry
      obtain ⟨hsame, hl'⟩ := (h.slot_iff _ (h.home_lt k) k' v').mp hs
      have hmem : k' ∈ m := AList.lookup_isSome.mp (by rw [hl']; rfl)
      rw [apart k' hmem hsame, hl] at hl'
      cases hl'

/-- A key is stored at its home. -/
theorem put {slot' : Nat → Option (K × V)} (apart : Apart home m k) (v : V)
    (hslot : ∀ pos < size, slot' pos = if pos = home k then some (k, v) else slot pos) :
    Homes size home slot' (m.insert k v) where
  home_lt := h.home_lt
  slot_iff pos hpos k' v' := by
    rw [hslot pos hpos]
    by_cases hkey : k' = k
    · subst hkey
      rw [AList.lookup_insert]
      by_cases hp : pos = home k'
      · rw [if_pos hp, Option.some_inj, Option.some_inj, Prod.mk.injEq]
        exact ⟨fun he => ⟨hp.symm, he.2⟩, fun he => ⟨rfl, he.2⟩⟩
      · rw [if_neg hp, h.slot_iff pos hpos]
        exact iff_of_false (fun he => hp he.1.symm) fun he => hp he.1.symm
    · rw [AList.lookup_insert_ne hkey]
      by_cases hp : pos = home k
      · rw [if_pos hp, Option.some_inj, Prod.mk.injEq]
        refine iff_of_false (fun he => hkey he.1.symm) fun he => hkey ?_
        exact apart k' (AList.lookup_isSome.mp (by rw [he.2]; rfl)) (he.1.trans hp)
      · rw [if_neg hp, h.slot_iff pos hpos]

/-- A key is removed from its home. -/
theorem clear {slot' : Nat → Option (K × V)} (apart : Apart home m k)
    (hslot : ∀ pos < size, slot' pos = if pos = home k then none else slot pos) :
    Homes size home slot' (m.erase k) where
  home_lt := h.home_lt
  slot_iff pos hpos k' v' := by
    rw [hslot pos hpos]
    by_cases hkey : k' = k
    · subst hkey
      rw [AList.lookup_erase]
      by_cases hp : pos = home k'
      · rw [if_pos hp]
        exact iff_of_false nofun fun he => by cases he.2
      · rw [if_neg hp, h.slot_iff pos hpos]
        exact iff_of_false (fun he => hp he.1.symm) fun he => by cases he.2
    · rw [AList.lookup_erase_ne hkey]
      by_cases hp : pos = home k
      · rw [if_pos hp]
        refine iff_of_false nofun fun he => hkey ?_
        exact apart k' (AList.lookup_isSome.mp (by rw [he.2]; rfl)) (he.1.trans hp)
      · rw [if_neg hp, h.slot_iff pos hpos]

/-- The slots in their order are the entries of the finite map. -/
theorem entries_perm :
    ((List.range size).filterMap slot).Perm (m.entries.map fun entry => (entry.1, entry.2)) := by
  have slots_nodup : ((List.range size).filterMap slot).Nodup := by
    refine List.pairwise_filterMap.mpr (List.Pairwise.imp_of_mem ?_ List.nodup_range)
    rintro p q hp hq hne ⟨k, v⟩ hpk b hqk rfl
    have hpos := ((h.slot_iff p (List.mem_range.mp hp) k v).mp hpk).1
    exact hne (hpos.symm.trans ((h.slot_iff q (List.mem_range.mp hq) k v).mp hqk).1)
  have entries_nodup : (m.entries.map fun entry => (entry.1, entry.2)).Nodup := by
    refine List.Nodup.map ?_ m.nodupKeys.nodup
    rintro ⟨k, v⟩ ⟨k', v'⟩ he
    obtain ⟨rfl, rfl⟩ := Prod.mk.inj he
    rfl
  refine (List.perm_ext_iff_of_nodup slots_nodup entries_nodup).mpr fun ⟨k, v⟩ => ?_
  rw [List.mem_filterMap, List.mem_map]
  constructor
  · rintro ⟨pos, hpos, hs⟩
    have hl := ((h.slot_iff pos (List.mem_range.mp hpos) k v).mp hs).2
    exact ⟨⟨k, v⟩, List.of_mem_dlookup hl, rfl⟩
  · rintro ⟨entry, hentry, he⟩
    obtain ⟨rfl, rfl⟩ := Prod.mk.inj he
    have hl : m.lookup entry.1 = some entry.2 := List.mem_dlookup m.nodupKeys hentry
    exact ⟨home entry.1, List.mem_range.mpr (h.home_lt _), h.slot_home hl⟩

end Homes
end M65Tool.Lib.HomeTable
