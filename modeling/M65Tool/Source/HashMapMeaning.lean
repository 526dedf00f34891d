import M65Tool.Source.HashMapSteps
import Mathlib.Logic.Function.Basic

/-!
# The finite map that a table stands for

map.h describes a map from keys to handles. `Represents` connects an entries table
to such a finite map, over the 32-bit hashes that the table keeps in place of keys:
each stored hash is found, and what is stored is exactly the finite map. The steps
of map.c that follow the finite map are the two stores of `do_set`, a delete that
no other entry was reached across, and a resize in which no two entries meet.
-/
namespace M65Tool.Source.HashMap
open Mem Lib.LinearProbe

structure Represents (mp : Map) (m : UInt32 → Option MemHandle) : Prop where
  wellPlaced : mp.WellPlaced
  holds_iff : ∀ h v, mp.Holds h v ↔ m h = some v

section Lookups
variable {mp : Map} {m : UInt32 → Option MemHandle} {h : UInt32} {v r : MemHandle}

theorem Map.WellPlaced.represents (hw : mp.WellPlaced) : ∃ m, Represents mp m := by
  classical
  refine ⟨fun h => if hv : ∃ v, mp.Holds h v then some hv.choose else none, hw, ?_⟩
  intro h v
  by_cases hv : ∃ v, mp.Holds h v
  · rw [dif_pos hv]
    constructor
    · exact fun hh => congrArg some (hw.holds_unique hv.choose_spec hh)
    · rintro ⟨⟩
      exact hv.choose_spec
  · rw [dif_neg hv]
    simp only [reduceCtorEq, iff_false]
    exact fun hh => hv ⟨v, hh⟩

/-- A lookup that returns answers what the finite map says, the zero handle for none. -/
theorem Represents.lookup_eq (hrep : Represents mp m) (hl : lookup mp h = some r) :
    r = (m h).getD .zero := by
  rcases hrep.wellPlaced.lookup_cases hl with hh | ⟨rfl, hnone⟩
  · rw [(hrep.holds_iff h r).mp hh]
    rfl
  · cases hm : m h with
    | none => rfl
    | some u => exact absurd ((hrep.holds_iff h u).mpr hm) (hnone u)

end Lookups

/-! ## Stores -/

section Stores
variable {mp : Map} {m : UInt32 → Option MemHandle} {h : UInt32} {v : MemHandle} {pos : Nat}

theorem Map.ring_store_zero (hp : pos < mp.entries.length) (hz : (mp.slot pos).keyHash = 0) :
    (mp.store pos ⟨0, v⟩).ring = mp.ring := by
  unfold Map.ring Map.keyAt
  congr 1
  funext q
  rw [Map.slot_store hp]
  by_cases hq : q = pos
  · simp [hq, hz]
  · simp [hq]

/-- Storing where the probe stopped keeps every stored hash found, also for hash 0. -/
theorem Map.WellPlaced.store (hw : mp.WellPlaced) (hshape : mp.Shaped)
    (found : findEntryPos mp h = some pos) : (mp.store pos ⟨h, v⟩).WellPlaced := by
  have hlen : pos < mp.entries.length := by rw [hshape]; exact findEntryPos_lt found
  have hf := findEntryPos_eq_some.mp found
  unfold Map.WellPlaced
  by_cases hz : h = 0
  · subst hz
    have hempty : (mp.slot pos).keyHash = 0 := by
      rcases Map.ring_stops_iff.mp hf.stops with he | he <;> exact he
    rw [Map.ring_store_zero hlen hempty]
    exact hw
  · rw [Map.ring_store hlen hz]
    exact ProbeRing.WellPlaced.put hw hf

/-- The store writes the entry for its hash and no other. -/
theorem Map.WellPlaced.holds_store (hw : mp.WellPlaced) (hshape : mp.Shaped)
    (found : findEntryPos mp h = some pos) (h' : UInt32) (u : MemHandle) :
    (mp.store pos ⟨h, v⟩).Holds h' u ↔ (h' = h ∧ h ≠ 0 ∧ u = v) ∨ (h' ≠ h ∧ mp.Holds h' u) := by
  have hp := findEntryPos_lt found
  have hlen : pos < mp.entries.length := by rw [hshape]; exact hp
  have hf := findEntryPos_eq_some.mp found
  have hstops := Map.ring_stops_iff.mp hf.stops
  constructor
  · rintro ⟨hne, q, hq, hs⟩
    rw [Map.slot_store hlen] at hs
    by_cases hqp : q = pos
    · rw [if_pos hqp] at hs
      obtain ⟨rfl, rfl⟩ := MapEntry.mk.inj hs
      exact Or.inl ⟨rfl, hne, rfl⟩
    · rw [if_neg hqp] at hs
      refine Or.inr ⟨?_, hne, q, hq, hs⟩
      rintro rfl
      have hk : mp.keyAt q = some h' := Map.keyAt_eq_some.mpr ⟨by rw [hs], hne⟩
      exact hqp ((hw q hq h' hk).unique hf)
  · rintro (⟨rfl, hne, rfl⟩ | ⟨hne', hne, q, hq, hs⟩)
    · exact ⟨hne, pos, hp, by rw [Map.slot_store hlen, if_pos rfl]⟩
    · refine ⟨hne, q, hq, ?_⟩
      rw [Map.slot_store hlen, if_neg, hs]
      rintro rfl
      rw [hs] at hstops
      rcases hstops with he | he
      · exact hne' he
      · exact hne he

theorem Represents.store (hrep : Represents mp m) (hshape : mp.Shaped) (hne : h ≠ 0)
    (found : findEntryPos mp h = some pos) :
    Represents (mp.store pos ⟨h, v⟩) (Function.update m h (some v)) where
  wellPlaced := hrep.wellPlaced.store hshape found
  holds_iff h' u := by
    rw [hrep.wellPlaced.holds_store hshape found]
    by_cases hh : h' = h
    · subst hh
      simp [hne, eq_comm]
    · simp [hh, hrep.holds_iff]

theorem Represents.store_zero (hrep : Represents mp m) (hshape : mp.Shaped)
    (found : findEntryPos mp 0 = some pos) : Represents (mp.store pos ⟨0, v⟩) m where
  wellPlaced := hrep.wellPlaced.store hshape found
  holds_iff h' u := by
    rw [hrep.wellPlaced.holds_store hshape found, ← hrep.holds_iff]
    constructor
    · rintro (⟨-, hne, -⟩ | ⟨-, hh⟩)
      · exact absurd rfl hne
      · exact hh
    · exact fun hh => Or.inr ⟨hh.1, hh⟩

theorem Represents.counted (hrep : Represents mp m) : Represents mp.counted m :=
  ⟨hrep.wellPlaced, hrep.holds_iff⟩

end Stores

/-! ## Deletes -/

section Deletes
variable {mp : Map} {m : UInt32 → Option MemHandle} {h : UInt32} {pos : Nat}

/-- The probe that stops at an occupied slot has met its hash. -/
theorem found_taken (found : findEntryPos mp h = some pos) (taken : (mp.slot pos).keyHash ≠ 0) :
    mp.keyAt pos = some h := by
  rcases Map.ring_stops_iff.mp (findEntryPos_eq_some.mp found).stops with he | he
  · exact Map.keyAt_eq_some.mpr ⟨he, he ▸ taken⟩
  · exact absurd he taken

/-- Emptying the slot of a hash removes its entry and no other. -/
theorem Map.WellPlaced.holds_emptied (hw : mp.WellPlaced) (hshape : mp.Shaped)
    (found : findEntryPos mp h = some pos) (taken : (mp.slot pos).keyHash ≠ 0) (h' : UInt32)
    (u : MemHandle) : (mp.emptied pos).Holds h' u ↔ h' ≠ h ∧ mp.Holds h' u := by
  have hp := findEntryPos_lt found
  have hlen : pos < mp.entries.length := by rw [hshape]; exact hp
  have hkey := found_taken found taken
  have hslot : ∀ q, (mp.emptied pos).slot q = if q = pos then .empty else mp.slot q := by
    intro q
    rw [Map.emptied_slot, Map.slot_store hlen]
  constructor
  · rintro ⟨hne, q, hq, hs⟩
    rw [hslot] at hs
    by_cases hqp : q = pos
    · rw [if_pos hqp] at hs
      exact absurd (MapEntry.mk.inj hs).1.symm hne
    · rw [if_neg hqp] at hs
      refine ⟨?_, hne, q, hq, hs⟩
      rintro rfl
      exact hqp (hw.unique hq hp (Map.keyAt_eq_some.mpr ⟨by rw [hs], hne⟩) hkey)
  · rintro ⟨hne', hne, q, hq, hs⟩
    refine ⟨hne, q, hq, ?_⟩
    rw [hslot, if_neg, hs]
    rintro rfl
    obtain ⟨hh, -⟩ := Map.keyAt_eq_some.mp hkey
    rw [hs] at hh
    exact hne' hh

theorem Represents.emptied (hrep : Represents mp m) (hshape : mp.Shaped)
    (found : findEntryPos mp h = some pos) (taken : (mp.slot pos).keyHash ≠ 0)
    (hbridge : mp.ring.Unbridged pos) :
    Represents (mp.emptied pos) (Function.update m h none) where
  wellPlaced := by
    have hlen : pos < mp.entries.length := by rw [hshape]; exact findEntryPos_lt found
    unfold Map.WellPlaced
    rw [Map.emptied_ring, Map.ring_store_empty hlen]
    exact (ProbeRing.WellPlaced.clear_iff hrep.wellPlaced).mpr hbridge
  holds_iff h' u := by
    rw [hrep.wellPlaced.holds_emptied hshape found taken, hrep.holds_iff]
    by_cases hh : h' = h
    · subst hh
      simp
    · simp [hh]

end Deletes

/-! ## Resizes -/

section Resizes
variable {mp : Map} {m : UInt32 → Option MemHandle} {n : Nat} {newMh : MemHandle}

/-- A resize of any table with distinct residues: the entries need not have been
reachable before it. -/
theorem represents_resized (hshape : mp.Shaped) (hn : 0 < n) (hd : mp.ResiduesDistinct n)
    (hholds : ∀ h v, mp.Holds h v ↔ m h = some v) : Represents (mp.resized newMh n) m where
  wellPlaced := Map.resized_wellPlaced
  holds_iff h v := by
    rw [← hholds]
    exact ⟨hshape.holds_of_resized, hshape.resized_holds hn hd⟩

end Resizes

/-! ## The calls -/

/-- The slot that deleting hash `h` empties is on the way of no other entry. -/
def DeleteKeeps (mp : Map) (h : UInt32) : Prop :=
  ∀ pos, findEntryPos mp h = some pos → (mp.slot pos).keyHash ≠ 0 → mp.ring.Unbridged pos

section Steps
variable {mp mp' : Map} {m : UInt32 → Option MemHandle} {h : UInt32} {v : MemHandle}

/-- A set leaves every stored hash found, whatever it loses. -/
theorem Map.WellPlaced.set_step {b : Bool} (hw : mp.WellPlaced) (hshape : mp.Shaped)
    (step : SetStep mp h v b mp') : mp'.WellPlaced := by
  cases step with
  | overwrite pos found taken => exact hw.store hshape found
  | insert pos found free fits =>
    rw [← findEntryPos_counted] at found
    have hw' : mp.counted.WellPlaced := hw
    exact hw'.store hshape found
  | grow => exact Map.resized_wellPlaced
  | growFailed => exact hw

/-- A set in the table as it is touches no other hash. -/
theorem Represents.set_step (hrep : Represents mp m) (hshape : mp.Shaped)
    (same : mp'.tableSize = mp.tableSize) (step : SetStep mp h v true mp') :
    ∃ m', Represents mp' m' ∧ ∀ h' ≠ h, m' h' = m h' := by
  have stored : ∀ mp₀ pos, Represents mp₀ m → mp₀.Shaped → findEntryPos mp₀ h = some pos →
      ∃ m', Represents (mp₀.store pos ⟨h, v⟩) m' ∧ ∀ h' ≠ h, m' h' = m h' := by
    intro mp₀ pos hrep hshape found
    by_cases hz : h = 0
    · subst hz
      exact ⟨m, hrep.store_zero hshape found, fun _ _ => rfl⟩
    · exact ⟨_, hrep.store hshape hz found, fun h' hne => Function.update_of_ne hne _ _⟩
  cases step with
  | overwrite pos found taken => exact stored mp pos hrep hshape found
  | insert pos found free fits =>
    rw [← findEntryPos_counted] at found
    exact stored mp.counted pos hrep.counted hshape found
  | grow pos found free crowded newMh size =>
    have hp := findEntryPos_lt found
    rw [Map.resized_tableSize] at same
    omega

/-- A delete in the table as it is, that keeps the other entries, is one in the finite map. -/
theorem Represents.delete_step (hrep : Represents mp m) (hshape : mp.Shaped)
    (hkeeps : DeleteKeeps mp h) (same : mp'.tableSize = mp.tableSize)
    (step : DeleteStep mp h true mp') : Represents mp' (Function.update m h none) := by
  cases step with
  | remove pos found taken stays =>
    exact hrep.emptied hshape found taken (hkeeps pos found taken)
  | shrink pos found taken shrinks newMh =>
    have hp := findEntryPos_lt found
    rw [Map.resized_tableSize] at same
    omega

theorem holds_of_emptied {pos : Nat} {h' : UInt32} {u : MemHandle}
    (hlen : pos < mp.entries.length) (hh : (mp.emptied pos).Holds h' u) : mp.Holds h' u := by
  obtain ⟨hne, q, hq, hs⟩ := hh
  rw [Map.emptied_slot, Map.slot_store hlen] at hs
  split at hs
  · exact absurd (MapEntry.mk.inj hs).1.symm hne
  · exact ⟨hne, q, hq, hs⟩

/-- A delete makes no entries. -/
theorem DeleteStep.holds {b : Bool} {h' : UInt32} {u : MemHandle} (hshape : mp.Shaped)
    (step : DeleteStep mp h b mp') (hh : mp'.Holds h' u) : mp.Holds h' u := by
  have hlen : ∀ pos, findEntryPos mp h = some pos → pos < mp.entries.length := by
    intro pos found
    rw [hshape]
    exact findEntryPos_lt found
  cases step with
  | absent => exact hh
  | remove pos found taken stays => exact holds_of_emptied (hlen pos found) hh
  | shrink pos found taken shrinks newMh =>
    exact holds_of_emptied (hlen pos found) ((hshape.emptied pos).holds_of_resized hh)
  | shrinkFailed pos found taken shrinks => exact holds_of_emptied (hlen pos found) hh

/-- A set makes no entry but its own. -/
theorem SetStep.holds {b : Bool} {h' : UInt32} {u : MemHandle} (hshape : mp.Shaped)
    (step : SetStep mp h v b mp') (hh : mp'.Holds h' u) : (h' = h ∧ u = v) ∨ mp.Holds h' u := by
  have stored : ∀ mp₀ pos, mp₀.Shaped → findEntryPos mp₀ h = some pos →
      (mp₀.store pos ⟨h, v⟩).Holds h' u → (h' = h ∧ u = v) ∨ mp₀.Holds h' u := by
    rintro mp₀ pos hshape found ⟨hne, q, hq, hs⟩
    have hlen : pos < mp₀.entries.length := by rw [hshape]; exact findEntryPos_lt found
    rw [Map.slot_store hlen] at hs
    split at hs
    · obtain ⟨rfl, rfl⟩ := MapEntry.mk.inj hs
      exact Or.inl ⟨rfl, rfl⟩
    · exact Or.inr ⟨hne, q, hq, hs⟩
  cases step with
  | overwrite pos found taken => exact stored mp pos hshape found hh
  | insert pos found free fits =>
    rw [← findEntryPos_counted] at found
    exact stored mp.counted pos hshape found hh
  | grow pos found free crowded newMh size =>
    have hshape' : mp.counted.Shaped := hshape
    exact Or.inr (hshape'.holds_of_resized hh)
  | growFailed => exact Or.inr hh

end Steps
end M65Tool.Source.HashMap
