import Mathlib.Data.Nat.ModEq
import Mathlib.Data.Nat.Find

/-!
# Linear probing on a ring of slots

A ring has `size` slots, each empty or holding one key, and every key has a home
slot. A probe for a key starts at its home and walks the ring until it meets the
key or an empty slot. `Finds` is that search as a relation; `WellPlaced` says the
search for every stored key ends where the key is stored, which is uniqueness and
reachability at once. The results say what storing, clearing and re-homing do to it.
-/
namespace M65Tool.Lib.LinearProbe

structure ProbeRing (κ : Type*) where
  size : Nat
  slot : Nat → Option κ
  home : κ → Nat

/-- The `j`-th slot that a probe starting at `start` looks at. -/
def seat (size start j : Nat) : Nat := (start + j) % size

theorem seat_lt {size : Nat} (start j : Nat) (hn : 0 < size) : seat size start j < size :=
  Nat.mod_lt _ hn

theorem seat_zero {size start : Nat} (h : start < size) : seat size start 0 = start :=
  Nat.mod_eq_of_lt h

/-- The first `size` seats are distinct. -/
theorem seat_injective {size start i j : Nat} (hi : i < size) (hj : j < size)
    (h : seat size start i = seat size start j) : i = j := by
  have hmod : i ≡ j [MOD size] := Nat.ModEq.add_left_cancel' start h
  have := hmod.eq_of_lt_of_lt hi hj
  exact this

/-- The first `size` seats cover the ring. -/
theorem exists_seat {size p : Nat} (start : Nat) (hp : p < size) :
    ∃ j < size, seat size start j = p := by
  have hn : 0 < size := Nat.lt_of_le_of_lt (Nat.zero_le p) hp
  have hs : start % size < size := Nat.mod_lt _ hn
  refine ⟨(p + (size - start % size)) % size, Nat.mod_lt _ hn, ?_⟩
  have hsplit : start + (p + (size - start % size)) = p + size * (start / size + 1) := by
    have := Nat.div_add_mod start size
    rw [Nat.mul_add, Nat.mul_one]
    omega
  rw [seat, Nat.add_mod_mod, hsplit, Nat.add_mul_mod_self_left, Nat.mod_eq_of_lt hp]

namespace ProbeRing
variable {κ : Type*} {r : ProbeRing κ} {k k' : κ} {p q : Nat}

/-- Where a probe for `k` stops: at an empty slot or at the key. -/
def Stops (r : ProbeRing κ) (k : κ) (p : Nat) : Prop := r.slot p = none ∨ r.slot p = some k

/-- The probe for `k` walks past `i` slots and stops at the next one. -/
def FindsAfter (r : ProbeRing κ) (k : κ) (i : Nat) : Prop :=
  i < r.size ∧ r.Stops k (seat r.size (r.home k) i) ∧
    ∀ j < i, ¬ r.Stops k (seat r.size (r.home k) j)

/-- The probe for `k` stops at slot `p`. -/
def Finds (r : ProbeRing κ) (k : κ) (p : Nat) : Prop :=
  ∃ i, r.FindsAfter k i ∧ seat r.size (r.home k) i = p

/-- Slot `p` comes before slot `q` on the walk from the home of `k`. -/
def Before (r : ProbeRing κ) (k : κ) (p q : Nat) : Prop :=
  ∃ i j, i < j ∧ j < r.size ∧ seat r.size (r.home k) i = p ∧ seat r.size (r.home k) j = q

/-- Every stored key is met by its own probe, at the slot that stores it. -/
def WellPlaced (r : ProbeRing κ) : Prop :=
  ∀ p < r.size, ∀ k, r.slot p = some k → r.Finds k p

/-- The key is stored in some slot of the ring. -/
def Stored (r : ProbeRing κ) (k : κ) : Prop := ∃ p < r.size, r.slot p = some k

theorem FindsAfter.unique {i j : Nat} (hi : r.FindsAfter k i) (hj : r.FindsAfter k j) : i = j := by
  rcases Nat.lt_trichotomy i j with h | h | h
  · exact absurd hi.2.1 (hj.2.2 i h)
  · exact h
  · exact absurd hj.2.1 (hi.2.2 j h)

theorem Finds.unique (hp : r.Finds k p) (hq : r.Finds k q) : p = q := by
  obtain ⟨i, hi, rfl⟩ := hp
  obtain ⟨j, hj, rfl⟩ := hq
  rw [hi.unique hj]

theorem Finds.lt (h : r.Finds k p) : p < r.size := by
  obtain ⟨i, hi, rfl⟩ := h
  exact seat_lt _ _ (Nat.lt_of_le_of_lt (Nat.zero_le i) hi.1)

theorem Finds.stops (h : r.Finds k p) : r.Stops k p := by
  obtain ⟨i, hi, rfl⟩ := h
  exact hi.2.1

/-- One empty slot is enough for every probe to stop. -/
theorem exists_finds (k : κ) (hp : p < r.size) (he : r.slot p = none) : ∃ q, r.Finds k q := by
  classical
  obtain ⟨j, hj, hjp⟩ := exists_seat (r.home k) hp
  have hex : ∃ i, i < r.size ∧ r.Stops k (seat r.size (r.home k) i) :=
    ⟨j, hj, Or.inl (by rw [hjp]; exact he)⟩
  refine ⟨_, Nat.find hex, ⟨(Nat.find_spec hex).1, (Nat.find_spec hex).2, ?_⟩, rfl⟩
  intro i hi hstop
  exact Nat.find_min hex hi ⟨Nat.lt_trans hi (Nat.find_spec hex).1, hstop⟩

namespace WellPlaced

/-- A key is stored once. -/
theorem unique (h : r.WellPlaced) (hp : p < r.size) (hq : q < r.size)
    (hpk : r.slot p = some k) (hqk : r.slot q = some k) : p = q :=
  (h p hp k hpk).unique (h q hq k hqk)

/-- The probe for a stored key stops at the key, for an absent key at an empty slot. -/
theorem slot_of_finds (h : r.WellPlaced) (hf : r.Finds k p) :
    (r.slot p = some k ∧ r.Stored k) ∨ (r.slot p = none ∧ ¬ r.Stored k) := by
  by_cases hs : r.Stored k
  · obtain ⟨q, hq, hqk⟩ := hs
    have hpq : p = q := hf.unique (h q hq k hqk)
    exact Or.inl ⟨by rw [hpq]; exact hqk, q, hq, hqk⟩
  · rcases hf.stops with he | hk
    · exact Or.inr ⟨he, hs⟩
    · exact absurd ⟨p, hf.lt, hk⟩ hs

end WellPlaced

/-! ## Chains of occupied slots -/

/-- No key is stored twice. -/
def Distinct (r : ProbeRing κ) : Prop :=
  ∀ p < r.size, ∀ q < r.size, ∀ k, r.slot p = some k → r.slot q = some k → p = q

/-- The slots from a stored key's home to where it is stored are occupied. -/
def Chained (r : ProbeRing κ) : Prop :=
  ∀ p < r.size, ∀ k, r.slot p = some k → ∀ i < r.size, seat r.size (r.home k) i = p →
    ∀ j < i, r.slot (seat r.size (r.home k) j) ≠ none

theorem wellPlaced_iff : r.WellPlaced ↔ r.Distinct ∧ r.Chained := by
  constructor
  · intro h
    refine ⟨fun p hp q hq k hpk hqk => h.unique hp hq hpk hqk, ?_⟩
    intro p hp k hpk i hi hip j hj he
    obtain ⟨i', hfinds, hi'p⟩ := h p hp k hpk
    have hsame : i = i' := seat_injective hi hfinds.1 (hip.trans hi'p.symm)
    exact hfinds.2.2 j (hsame ▸ hj) (Or.inl he)
  · rintro ⟨distinct, chained⟩ p hp k hpk
    obtain ⟨i, hi, hip⟩ := exists_seat (r.home k) hp
    refine ⟨i, ⟨hi, Or.inr (by rw [hip]; exact hpk), ?_⟩, hip⟩
    rintro j hj (he | hk)
    · exact chained p hp k hpk i hi hip j hj he
    · have hseat : seat r.size (r.home k) j < r.size :=
        seat_lt _ _ (Nat.lt_of_le_of_lt (Nat.zero_le p) hp)
      have hback := distinct _ hseat p hp k hk hpk
      exact absurd (seat_injective (Nat.lt_trans hj hi) hi (hback.trans hip.symm)) (by omega)

/-- Two rings with the same size and homes, where the second stops wherever the
first one does not pass, agree on a probe. -/
theorem FindsAfter.congr {r' : ProbeRing κ} {i : Nat} (h : r.FindsAfter k i)
    (hsize : r'.size = r.size) (hhome : r'.home k = r.home k)
    (hstop : r'.Stops k (seat r.size (r.home k) i))
    (hpass : ∀ j < i, ¬ r'.Stops k (seat r.size (r.home k) j)) : r'.FindsAfter k i := by
  unfold FindsAfter
  rw [hsize, hhome]
  exact ⟨h.1, hstop, hpass⟩

/-! ## Storing a key where its probe stops -/

def put (r : ProbeRing κ) (p : Nat) (k : κ) : ProbeRing κ :=
  { r with slot := fun q => if q = p then some k else r.slot q }

@[simp] theorem put_size : (r.put p k).size = r.size := rfl
@[simp] theorem put_home : (r.put p k).home = r.home := rfl
@[simp] theorem put_slot_self : (r.put p k).slot p = some k := by simp [put]
theorem put_slot_of_ne (h : q ≠ p) : (r.put p k).slot q = r.slot q := by simp [put, h]

/-- The probe for the stored key stops at its slot. -/
theorem Finds.put_self (h : r.Finds k p) : (r.put p k).Finds k p := by
  obtain ⟨i, hi, hip⟩ := h
  refine ⟨i, hi.congr rfl rfl (Or.inr (by rw [hip]; exact put_slot_self)) ?_, hip⟩
  intro j hj hstop
  have hne : seat r.size (r.home k) j ≠ p := by
    intro he
    exact absurd (seat_injective (Nat.lt_trans hj hi.1) hi.1 (he.trans hip.symm)) (by omega)
  refine hi.2.2 j hj ?_
  unfold Stops at hstop ⊢
  rwa [put_slot_of_ne hne] at hstop

/-- A probe that met its key elsewhere still meets it: the new key fills a slot
that was empty or already held it, and the probe did not stop there. -/
theorem Finds.put_other (h : r.Finds k' q) (hq : r.slot q = some k') (hqp : q ≠ p)
    (hne : k' ≠ k) : (r.put p k).Finds k' q := by
  obtain ⟨i, hi, hiq⟩ := h
  refine ⟨i, hi.congr rfl rfl (Or.inr (by rw [hiq, put_slot_of_ne hqp]; exact hq)) ?_, hiq⟩
  intro j hj hstop
  by_cases hjp : seat r.size (r.home k') j = p
  · rcases hstop with he | he <;> rw [hjp, put_slot_self] at he
    · cases he
    · exact hne (Option.some.inj he).symm
  · refine hi.2.2 j hj ?_
    unfold Stops at hstop ⊢
    rwa [put_slot_of_ne hjp] at hstop

/-- Storing a key where its own probe stops keeps every stored key reachable. -/
theorem WellPlaced.put (h : r.WellPlaced) (hf : r.Finds k p) : (r.put p k).WellPlaced := by
  intro q hq k' hk'
  by_cases hqp : q = p
  · subst hqp
    rw [put_slot_self] at hk'
    cases hk'
    exact hf.put_self
  · rw [put_slot_of_ne hqp] at hk'
    have hne : k' ≠ k := by
      rintro rfl
      exact hqp ((h q hq k' hk').unique hf)
    exact (h q hq k' hk').put_other hk' hqp hne

/-! ## Clearing a slot -/

def clear (r : ProbeRing κ) (p : Nat) : ProbeRing κ :=
  { r with slot := fun q => if q = p then none else r.slot q }

@[simp] theorem clear_size : (r.clear p).size = r.size := rfl
@[simp] theorem clear_home : (r.clear p).home = r.home := rfl
@[simp] theorem clear_slot_self : (r.clear p).slot p = none := by simp [clear]
theorem clear_slot_of_ne (h : q ≠ p) : (r.clear p).slot q = r.slot q := by simp [clear, h]

/-- The cleared slot is now the end of every probe that used to walk over it. -/
theorem Finds.clear_of_before (h : r.Finds k q) (hb : r.Before k p q) : (r.clear p).Finds k p := by
  obtain ⟨i, hi, hiq⟩ := h
  obtain ⟨a, b, hab, hb, hap, hbq⟩ := hb
  have hbi : b = i := seat_injective hb hi.1 (hbq.trans hiq.symm)
  refine ⟨a, ⟨by simpa using Nat.lt_trans hab hb, Or.inl ?_, ?_⟩, hap⟩
  · rw [clear_size, clear_home, hap, clear_slot_self]
  · intro j hj hstop
    rw [clear_size, clear_home] at hstop
    have hjp : seat r.size (r.home k) j ≠ p := by
      intro he
      exact absurd (seat_injective (by omega) (by omega) (he.trans hap.symm)) (by omega)
    refine hi.2.2 j (by omega) ?_
    unfold Stops at hstop ⊢
    rwa [clear_slot_of_ne hjp] at hstop

/-- A probe that does not walk over the cleared slot is not disturbed. -/
theorem Finds.clear_of_not_before (h : r.Finds k q) (hqp : q ≠ p) (hb : ¬ r.Before k p q) :
    (r.clear p).Finds k q := by
  obtain ⟨i, hi, hiq⟩ := h
  have hpass : ∀ j, j ≤ i → seat r.size (r.home k) j ≠ p := by
    intro j hj he
    rcases Nat.lt_or_eq_of_le hj with hlt | rfl
    · exact hb ⟨j, i, hlt, hi.1, he, hiq⟩
    · exact hqp (hiq.symm.trans he)
  refine ⟨i, hi.congr rfl rfl ?_ ?_, hiq⟩
  · have := hi.2.1
    unfold Stops at this ⊢
    rwa [clear_slot_of_ne (hpass i (Nat.le_refl i))]
  · intro j hj hstop
    refine hi.2.2 j hj ?_
    unfold Stops at hstop ⊢
    rwa [clear_slot_of_ne (hpass j (Nat.le_of_lt hj))] at hstop

/-- No other stored key has slot `p` on its way home. -/
def Unbridged (r : ProbeRing κ) (p : Nat) : Prop :=
  ∀ q < r.size, ∀ k, q ≠ p → r.slot q = some k → ¬ r.Before k p q

/-- Clearing a slot keeps the other keys reachable exactly when none of them
was reached across it. -/
theorem WellPlaced.clear_iff (h : r.WellPlaced) :
    (r.clear p).WellPlaced ↔ r.Unbridged p := by
  constructor
  · intro hw q hq k hqp hk hb
    have hfound := hw q hq k (by rw [clear_slot_of_ne hqp]; exact hk)
    exact hqp (hfound.unique ((h q hq k hk).clear_of_before hb))
  · intro hu q hq k hk
    have hqp : q ≠ p := by
      rintro rfl
      rw [clear_slot_self] at hk
      cases hk
    rw [clear_slot_of_ne hqp] at hk
    exact (h q hq k hk).clear_of_not_before hqp (hu q hq k hqp hk)

/-! ## Every key at home -/

/-- Every stored key sits in its own home slot. -/
def AtHome (r : ProbeRing κ) : Prop := ∀ p < r.size, ∀ k, r.slot p = some k → r.home k % r.size = p

theorem AtHome.finds (h : r.AtHome) (hp : p < r.size) (hk : r.slot p = some k) : r.Finds k p := by
  have hseat : seat r.size (r.home k) 0 = p := h p hp k hk
  refine ⟨0, ⟨Nat.lt_of_le_of_lt (Nat.zero_le p) hp, Or.inr (by rw [hseat]; exact hk), ?_⟩, hseat⟩
  intro j hj
  omega

theorem AtHome.wellPlaced (h : r.AtHome) : r.WellPlaced := fun _ hp _ hk => h.finds hp hk

/-! ## The way of a probe, slot by slot -/

/-- Slot `q` is passed on the way from `start` to `p`, around the end of the ring if need be. -/
def OnWay (start q p : Nat) : Prop := (start ≤ q ∧ q < p) ∨ (p < start ∧ (start ≤ q ∨ q < p))

theorem seat_onWay {size start p i : Nat} (hs : start < size) (hi : i < size)
    (hp : seat size start i = p) (hq : q < size) (hw : OnWay start q p) :
    ∃ j < i, seat size start j = q := by
  have hcases : (start + i < size ∧ p = start + i) ∨ (size ≤ start + i ∧ p + size = start + i) := by
    unfold seat at hp
    rcases Nat.lt_or_ge (start + i) size with hlt | hge
    · exact Or.inl ⟨hlt, by rw [← hp, Nat.mod_eq_of_lt hlt]⟩
    · rw [Nat.mod_eq_sub_mod hge, Nat.mod_eq_of_lt (by omega)] at hp
      exact Or.inr ⟨hge, by omega⟩
  unfold OnWay at hw
  by_cases hsq : start ≤ q
  · exact ⟨q - start, by omega, by rw [seat, Nat.add_sub_cancel' hsq, Nat.mod_eq_of_lt hq]⟩
  · refine ⟨q + size - start, by omega, ?_⟩
    rw [seat, Nat.add_sub_cancel' (by omega), Nat.add_mod_right, Nat.mod_eq_of_lt hq]

/-- The slots on the way to where a probe stops are occupied. -/
theorem Finds.occupied_onWay (h : r.Finds k p) (hhome : r.home k < r.size) (hq : q < r.size)
    (hw : OnWay (r.home k) q p) : r.slot q ≠ none := by
  obtain ⟨i, hi, hip⟩ := h
  obtain ⟨j, hj, rfl⟩ := seat_onWay hhome hi.1 hip hq hw
  exact fun he => hi.2.2 j hj (Or.inl he)

/-- A key that is found beyond an empty slot has its home beyond it too, and not after
the slot where it is. -/
theorem Finds.beyond_empty {b : Nat} (h : r.Finds k p) (hhome : r.home k < r.size) (hb : b < p)
    (he : r.slot b = none) : b < r.home k ∧ r.home k ≤ p := by
  have hlt := h.lt
  by_contra hn
  have hw : OnWay (r.home k) b p := by
    unfold OnWay
    omega
  exact h.occupied_onWay hhome (by omega) hw he

/-- Beyond a slot past which no key has strayed, distinct homes are homes kept. -/
theorem WellPlaced.home_eq_of_distinct (h : r.WellPlaced) (hhome : ∀ k, r.home k < r.size) {b : Nat}
    (inside : ∀ y, b < y → y < r.size → ∀ k, r.slot y = some k → b < r.home k ∧ r.home k ≤ y)
    (distinct : ∀ y z, b < y → b < z → ∀ k k', r.slot y = some k → r.slot z = some k' →
      r.home k = r.home k' → y = z)
    {y : Nat} (hby : b < y) (hy : y < r.size) (hk : r.slot y = some k) : r.home k = y := by
  induction y using Nat.strong_induction_on generalizing k with
  | _ y ih =>
    obtain ⟨hlow, hhigh⟩ := inside y hby hy k hk
    by_contra hne
    have hw : OnWay (r.home k) (r.home k) y := by
      unfold OnWay
      omega
    have hocc := (h y hy k hk).occupied_onWay (hhome k) (hhome k) hw
    obtain ⟨k', hk'⟩ := Option.ne_none_iff_exists'.mp hocc
    have hhome' := ih (r.home k) (by omega) hlow (hhome k) hk'
    exact hne (distinct _ _ hlow hby k' k hk' hk hhome')

/-- The lowest key of a ring with an empty slot: if the other keys have distinct homes
beyond it, they are at home. A key that strayed around the end would need all slots
from the last empty one to the end, and share a home with one of the keys there. -/
theorem WellPlaced.home_eq_of_lowest (h : r.WellPlaced) (hhome : ∀ k, r.home k < r.size)
    {low e : Nat} (hempty : e < r.size) (he : r.slot e = none)
    (lowest : ∀ q < low, r.slot q = none)
    (beyond : ∀ y, low < y → y < r.size → ∀ k, r.slot y = some k → low < r.home k)
    (distinct : ∀ y z, low < y → low < z → ∀ k k', r.slot y = some k → r.slot z = some k' →
      r.home k = r.home k' → y = z)
    {y : Nat} (hlow : low < y) (hy : y < r.size) (hk : r.slot y = some k) : r.home k = y := by
  classical
  have forward : ∀ y, low < y → y < r.size → ∀ k, r.slot y = some k → r.home k ≤ y := by
    intro y hlow hy k hk
    by_contra hstray
    have hway : ∀ q < r.size, r.home k ≤ q ∨ q < y → r.slot q ≠ none := by
      intro q hq hside
      refine (h y hy k hk).occupied_onWay (hhome k) hq ?_
      unfold OnWay
      omega
    have hlow0 : low = 0 := by
      by_contra hpos
      exact hway 0 (by omega) (Or.inr (by omega)) (lowest 0 (by omega))
    have hlast : ∃ b, b < r.size ∧ r.slot b = none ∧ ∀ q, b < q → q < r.size → r.slot q ≠ none := by
      let P : Nat → Prop := fun b => b < r.size ∧ r.slot b = none
      have hP : P e := ⟨hempty, he⟩
      have hle : e ≤ r.size := Nat.le_of_lt hempty
      refine ⟨Nat.findGreatest P r.size, (Nat.findGreatest_spec hle hP).1,
        (Nat.findGreatest_spec hle hP).2, ?_⟩
      intro q hq hqs hqe
      exact absurd (Nat.le_findGreatest (Nat.le_of_lt hqs) (show P q from ⟨hqs, hqe⟩)) (by omega)
    obtain ⟨b, hb, hbe, htail⟩ := hlast
    have hby : y < b ∧ b < r.home k := by
      have hyb : y ≠ b := by
        rintro rfl
        rw [hk] at hbe
        cases hbe
      by_contra hn
      exact hway b hb (by omega) hbe
    obtain ⟨k', hk'⟩ := Option.ne_none_iff_exists'.mp (htail (r.home k) hby.2 (hhome k))
    have hhome' : r.home k' = r.home k :=
      h.home_eq_of_distinct hhome
        (fun z hbz hz k hk => (h z hz k hk).beyond_empty (hhome k) hbz hbe)
        (fun y z hby hbz => distinct y z (by omega) (by omega)) hby.2 (hhome k) hk'
    have := distinct _ _ (by omega) hlow k' k hk' hk hhome'
    omega
  exact h.home_eq_of_distinct hhome
    (fun y hlow hy k hk => ⟨beyond y hlow hy k hk, forward y hlow hy k hk⟩) distinct hlow hy hk

end ProbeRing
end M65Tool.Lib.LinearProbe
