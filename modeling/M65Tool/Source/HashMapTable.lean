import M65Tool.Lib.LinearProbe
import M65Tool.Source.HashMap
import Mathlib.Data.List.Basic

/-!
# The entries table as a probe ring

`find_entry_pos` is the probe of a ring whose keys are the stored non-zero hashes.
This module makes that identification, reads `do_get` off it, and says what the two
stores of map.c and the copy loop of a resize do to the ring.
-/
namespace M65Tool.Source.HashMap
open Mem Lib.LinearProbe

namespace Map

/-- The hash stored at a position, if the slot is occupied. -/
def keyAt (mp : Map) (pos : Nat) : Option UInt32 :=
  if (mp.slot pos).keyHash = 0 then none else some (mp.slot pos).keyHash

def ring (mp : Map) : ProbeRing UInt32 := ⟨mp.tableSize, mp.keyAt, fun h => h.toNat % mp.tableSize⟩

/-- The entries block has one entry for each position. -/
def Shaped (mp : Map) : Prop := mp.entries.length = mp.tableSize

/-- Each stored hash occupies one slot and is found there. -/
def WellPlaced (mp : Map) : Prop := mp.ring.WellPlaced

/-- The number of slots with a non-zero hash. -/
def occupied (mp : Map) : Nat := mp.entries.countP fun entry => entry.keyHash != 0

/-- The stored values are handles that `map_set` accepts. -/
def ValuesValid (mp : Map) : Prop :=
  ∀ pos < mp.tableSize, (mp.slot pos).keyHash ≠ 0 → memIsValid (mp.slot pos).valueHandle = true

/-- Hash `h` is stored somewhere in the table with value `v`. -/
def Holds (mp : Map) (h : UInt32) (v : MemHandle) : Prop :=
  h ≠ 0 ∧ ∃ pos < mp.tableSize, mp.slot pos = ⟨h, v⟩

@[simp] theorem ring_size (mp : Map) : mp.ring.size = mp.tableSize := rfl
@[simp] theorem ring_slot (mp : Map) (pos : Nat) : mp.ring.slot pos = mp.keyAt pos := rfl
@[simp] theorem ring_home (mp : Map) (h : UInt32) : mp.ring.home h = h.toNat % mp.tableSize := rfl

theorem keyAt_eq_none {mp : Map} {pos : Nat} :
    mp.keyAt pos = none ↔ (mp.slot pos).keyHash = 0 := by
  unfold keyAt
  split <;> simp_all

theorem keyAt_eq_some {mp : Map} {pos : Nat} {h : UInt32} :
    mp.keyAt pos = some h ↔ (mp.slot pos).keyHash = h ∧ h ≠ 0 := by
  unfold keyAt
  split
  · rename_i hz
    simp only [reduceCtorEq, false_iff, not_and, not_not, hz]
    exact fun h => h.symm
  · rename_i hz
    simp only [Option.some.injEq]
    exact ⟨fun e => ⟨e, e ▸ hz⟩, fun e => e.1⟩

theorem ring_stops_iff {mp : Map} {h : UInt32} {pos : Nat} :
    mp.ring.Stops h pos ↔ (mp.slot pos).keyHash = h ∨ (mp.slot pos).keyHash = 0 := by
  unfold ProbeRing.Stops
  rw [ring_slot, keyAt_eq_none, keyAt_eq_some]
  constructor
  · rintro (hz | ⟨hh, -⟩)
    · exact Or.inr hz
    · exact Or.inl hh
  · rintro (hh | hz)
    · by_cases h0 : h = 0
      · exact Or.inl (hh.trans h0)
      · exact Or.inr ⟨hh, h0⟩
    · exact Or.inl hz

theorem holds_iff {mp : Map} {h : UInt32} {v : MemHandle} :
    mp.Holds h v ↔ ∃ pos < mp.tableSize, mp.keyAt pos = some h ∧ (mp.slot pos).valueHandle = v := by
  constructor
  · rintro ⟨hne, pos, hp, hs⟩
    exact ⟨pos, hp, keyAt_eq_some.mpr ⟨by rw [hs], hne⟩, by rw [hs]⟩
  · rintro ⟨pos, hp, hk, hv⟩
    obtain ⟨hh, hne⟩ := keyAt_eq_some.mp hk
    refine ⟨hne, pos, hp, ?_⟩
    cases hs : mp.slot pos with
    | mk keyHash valueHandle => simp_all

theorem stored_iff_holds {mp : Map} {h : UInt32} : mp.ring.Stored h ↔ ∃ v, mp.Holds h v := by
  simp only [holds_iff]
  constructor
  · rintro ⟨pos, hp, hk⟩
    exact ⟨_, pos, hp, hk, rfl⟩
  · rintro ⟨v, pos, hp, hk, -⟩
    exact ⟨pos, hp, hk⟩

end Map

namespace Map

theorem created_shaped {entriesMh : MemHandle} : (Map.created entriesMh).Shaped := by
  simp [Shaped, created]

@[simp] theorem created_slot (entriesMh : MemHandle) (pos : Nat) :
    (Map.created entriesMh).slot pos = .empty := by
  unfold slot created
  rw [List.getD_eq_getElem?_getD, List.getElem?_replicate]
  split <;> rfl

theorem created_keyAt (entriesMh : MemHandle) (pos : Nat) :
    (Map.created entriesMh).keyAt pos = none :=
  keyAt_eq_none.mpr (by rw [created_slot]; rfl)

theorem created_wellPlaced (entriesMh : MemHandle) : (Map.created entriesMh).WellPlaced := by
  intro pos hp k hk
  rw [ring_slot, created_keyAt] at hk
  cases hk

theorem created_holds (entriesMh : MemHandle) (h : UInt32) (v : MemHandle) :
    ¬ (Map.created entriesMh).Holds h v := by
  rw [holds_iff]
  rintro ⟨pos, -, hk, -⟩
  rw [created_keyAt] at hk
  cases hk

theorem valuesValid_iff {mp : Map} :
    mp.ValuesValid ↔ ∀ h v, mp.Holds h v → memIsValid v = true := by
  constructor
  · rintro hv h v ⟨hne, pos, hp, hs⟩
    have := hv pos hp (by rw [hs]; exact hne)
    rwa [hs] at this
  · intro hv pos hp hne
    exact hv _ _ ⟨hne, pos, hp, rfl⟩

end Map

/-! ## `find_entry_pos` is the probe -/

/-- The step `++pos; if (pos >= table_size) pos = 0` goes to the next seat, and is
back at the start exactly after `table_size` of them. -/
theorem next_seat {n start i : Nat} (hstart : start < n) (hi : i < n) :
    (if seat n start i + 1 ≥ n then 0 else seat n start i + 1) = seat n start (i + 1) ∧
      (seat n start (i + 1) = start ↔ i + 1 = n) := by
  have hlt : seat n start i < n := seat_lt start i (by omega)
  have hsucc : seat n start (i + 1) = (seat n start i + 1) % n := by
    unfold seat
    rw [Nat.mod_add_mod, Nat.add_assoc]
  refine ⟨?_, ?_⟩
  · rw [hsucc]
    by_cases hw : seat n start i + 1 ≥ n
    · have : seat n start i + 1 = n := by omega
      rw [if_pos hw, this, Nat.mod_self]
    · rw [if_neg hw, Nat.mod_eq_of_lt (by omega)]
  · constructor
    · intro h
      by_contra hne
      have hback : seat n start (i + 1) = seat n start 0 := by
        rw [h, seat_zero hstart]
      exact absurd (seat_injective (by omega) (by omega) hback) (by omega)
    · intro h
      rw [h, seat, Nat.add_mod_right, Nat.mod_eq_of_lt hstart]

/-- The rounds left go through the seats not looked at yet. -/
theorem findEntryPosLoop_finds (mp : Map) (h : UInt32) :
    ∀ rounds i, i + rounds = mp.tableSize →
      (∀ j < i, ¬ mp.ring.Stops h (seat mp.tableSize (mp.ring.home h) j)) →
      ∀ pos, findEntryPosLoop mp h (mp.ring.home h) rounds
          (seat mp.tableSize (mp.ring.home h) i) = some pos ↔ mp.ring.Finds h pos := by
  intro rounds
  induction rounds with
  | zero =>
    intro i hi hpast pos
    simp only [findEntryPosLoop, reduceCtorEq, false_iff]
    rintro ⟨j, hj, -⟩
    exact hpast j (by have := hj.1; simp only [Map.ring_size] at this; omega) hj.2.1
  | succ rounds ih =>
    intro i hi hpast pos
    have hlt : i < mp.tableSize := by omega
    have hstart : mp.ring.home h < mp.tableSize := Nat.mod_lt _ (by omega)
    obtain ⟨hnext, hback⟩ := next_seat hstart hlt
    rw [findEntryPosLoop]
    by_cases hstop : mp.ring.Stops h (seat mp.tableSize (mp.ring.home h) i)
    · have hfinds : mp.ring.Finds h (seat mp.tableSize (mp.ring.home h) i) :=
        ⟨i, ⟨hlt, hstop, hpast⟩, rfl⟩
      rw [if_pos (Map.ring_stops_iff.mp hstop)]
      constructor
      · intro he
        cases he
        exact hfinds
      · intro hf
        rw [hfinds.unique hf]
    · rw [if_neg (fun hs => hstop (Map.ring_stops_iff.mpr hs))]
      have hpast' : ∀ j < i + 1, ¬ mp.ring.Stops h (seat mp.tableSize (mp.ring.home h) j) := by
        intro j hj
        rcases Nat.lt_or_eq_of_le (Nat.le_of_lt_succ hj) with hlt' | rfl
        · exact hpast j hlt'
        · exact hstop
      simp only [hnext, ne_eq]
      by_cases hlast : i + 1 = mp.tableSize
      · rw [if_neg (by simpa using hback.mpr hlast)]
        simp only [reduceCtorEq, false_iff]
        rintro ⟨j, hj, -⟩
        exact hpast' j (by have := hj.1; simp only [Map.ring_size] at this; omega) hj.2.1
      · rw [if_pos (fun he => hlast (hback.mp he))]
        exact ih (i + 1) (by omega) hpast' pos

theorem findEntryPos_eq_some {mp : Map} {h : UInt32} {pos : Nat} :
    findEntryPos mp h = some pos ↔ mp.ring.Finds h pos := by
  rcases Nat.eq_zero_or_pos mp.tableSize with hz | hn
  · unfold findEntryPos
    simp only [hz, findEntryPosLoop, reduceCtorEq, false_iff]
    rintro ⟨i, hi, -⟩
    have := hi.1
    simp only [Map.ring_size] at this
    omega
  · have hloop := findEntryPosLoop_finds mp h mp.tableSize 0 (by omega) (by omega) pos
    have hstart : seat mp.tableSize (mp.ring.home h) 0 = h.toNat % mp.tableSize :=
      seat_zero (Nat.mod_lt _ hn)
    rwa [hstart] at hloop

theorem findEntryPos_lt {mp : Map} {h : UInt32} {pos : Nat} (hf : findEntryPos mp h = some pos) :
    pos < mp.tableSize := (findEntryPos_eq_some.mp hf).lt

/-! ## `do_get` -/

theorem lookup_eq_some {mp : Map} {h : UInt32} {v : MemHandle} :
    lookup mp h = some v ↔ ∃ pos, mp.ring.Finds h pos ∧
      v = if (mp.slot pos).keyHash = 0 then .zero else (mp.slot pos).valueHandle := by
  unfold lookup
  rw [Option.map_eq_some_iff]
  simp only [findEntryPos_eq_some, eq_comm (b := v)]

theorem lookup_isSome {mp : Map} {pos : Nat} (h : UInt32) (hp : pos < mp.tableSize)
    (he : (mp.slot pos).keyHash = 0) : ∃ v, lookup mp h = some v := by
  obtain ⟨q, hq⟩ := mp.ring.exists_finds h hp (Map.keyAt_eq_none.mpr he)
  exact ⟨_, lookup_eq_some.mpr ⟨q, hq, rfl⟩⟩

/-- Looking up the empty marker never yields a value. -/
theorem lookup_zero {mp : Map} {v : MemHandle} (h : lookup mp 0 = some v) : v = .zero := by
  obtain ⟨pos, hf, rfl⟩ := lookup_eq_some.mp h
  have := Map.ring_stops_iff.mp hf.stops
  simp_all

namespace Map
variable {mp : Map} {h : UInt32} {v : MemHandle}

theorem WellPlaced.lookup_of_holds (hw : mp.WellPlaced) (hh : mp.Holds h v) :
    lookup mp h = some v := by
  obtain ⟨pos, hp, hk, hv⟩ := holds_iff.mp hh
  refine lookup_eq_some.mpr ⟨pos, hw pos hp h hk, ?_⟩
  rw [if_neg (by rw [(keyAt_eq_some.mp hk).1]; exact hh.1), hv]

theorem WellPlaced.holds_unique (hw : mp.WellPlaced) {v' : MemHandle} (hv : mp.Holds h v)
    (hv' : mp.Holds h v') : v = v' := by
  have := (hw.lookup_of_holds hv).symm.trans (hw.lookup_of_holds hv')
  exact Option.some.inj this

/-- In a well-placed table a lookup that returns, returns the stored value, or the
zero handle where nothing is stored. -/
theorem WellPlaced.lookup_cases (hw : mp.WellPlaced) (hl : lookup mp h = some v) :
    mp.Holds h v ∨ (v = .zero ∧ ∀ u, ¬ mp.Holds h u) := by
  obtain ⟨pos, hf, rfl⟩ := lookup_eq_some.mp hl
  rcases hw.slot_of_finds hf with ⟨hk, -⟩ | ⟨he, hn⟩
  · have hne : (mp.slot pos).keyHash ≠ 0 := by
      obtain ⟨hh, hne⟩ := keyAt_eq_some.mp hk
      rwa [hh]
    rw [if_neg hne]
    exact Or.inl (holds_iff.mpr ⟨pos, hf.lt, hk, rfl⟩)
  · rw [if_pos (keyAt_eq_none.mp he)]
    exact Or.inr ⟨rfl, fun u hu => hn (stored_iff_holds.mpr ⟨u, hu⟩)⟩

/-- What is not stored is not answered, in any table. -/
theorem lookup_absent (hn : ∀ u, ¬ mp.Holds h u) (hl : lookup mp h = some v) : v = .zero := by
  obtain ⟨pos, hf, rfl⟩ := lookup_eq_some.mp hl
  rcases hf.stops with he | hk
  · rw [if_pos (keyAt_eq_none.mp he)]
  · exact absurd (holds_iff.mpr ⟨pos, hf.lt, hk, rfl⟩) (hn _)

/-! ## Stores into the table -/

theorem slot_store {pos : Nat} (hp : pos < mp.entries.length) (q : Nat) (entry : MapEntry) :
    (mp.store pos entry).slot q = if q = pos then entry else mp.slot q := by
  unfold slot store
  rw [List.getD_eq_getElem?_getD, List.getElem?_set]
  by_cases hq : q = pos
  · subst hq
    simp [hp]
  · rw [if_neg (fun he => hq he.symm), if_neg hq, List.getD_eq_getElem?_getD]

@[simp] theorem store_tableSize (mp : Map) (pos : Nat) (entry : MapEntry) :
    (mp.store pos entry).tableSize = mp.tableSize := rfl

@[simp] theorem store_entryCount (mp : Map) (pos : Nat) (entry : MapEntry) :
    (mp.store pos entry).entryCount = mp.entryCount := rfl

@[simp] theorem store_entriesMh (mp : Map) (pos : Nat) (entry : MapEntry) :
    (mp.store pos entry).entriesMh = mp.entriesMh := rfl

theorem Shaped.store (hs : mp.Shaped) (pos : Nat) (entry : MapEntry) :
    (mp.store pos entry).Shaped := by
  unfold Shaped at *
  simpa [Map.store] using hs

theorem ring_store {pos : Nat} (hp : pos < mp.entries.length) (hne : h ≠ 0) :
    (mp.store pos ⟨h, v⟩).ring = mp.ring.put pos h := by
  unfold ring ProbeRing.put keyAt
  congr 1
  funext q
  rw [slot_store hp]
  by_cases hq : q = pos
  · simp [hq, hne]
  · simp [hq]

theorem ring_store_empty {pos : Nat} (hp : pos < mp.entries.length) :
    (mp.store pos .empty).ring = mp.ring.clear pos := by
  unfold ring ProbeRing.clear keyAt
  congr 1
  funext q
  rw [slot_store hp]
  split <;> simp [MapEntry.empty]

/-- A lookup depends on the slots and the size alone. -/
theorem lookup_congr {mp' : Map} (hn : mp'.tableSize = mp.tableSize)
    (hs : ∀ q, mp'.slot q = mp.slot q) : lookup mp' h = lookup mp h := by
  have hr : mp'.ring = mp.ring := by
    unfold ring keyAt
    simp only [hs, hn]
  refine Option.ext fun v => ?_
  rw [lookup_eq_some, lookup_eq_some, hr]
  simp only [hs]

end Map
end M65Tool.Source.HashMap
