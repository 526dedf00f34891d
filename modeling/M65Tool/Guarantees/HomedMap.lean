import M65Tool.Guarantees.MapIterates
import M65Tool.Lib.HomeTable
import M65Tool.Source.HashMapDrain
import M65Tool.Source.HashMapMeaning

/-!
# HOMED-MAP: a map of few entries, each in its home slot

While the map has its first table and no two stored hashes have the same home in it, the
table is a finite map: a set, a delete and a get of map.c are those of the finite map, the
entry count is the number of its keys, and an iteration goes through its entries. The
calls make no request to the allocator.
-/
namespace M65Tool.Guarantees.HomedMap
open Source Source.Mem Source.MapHash Source.HashMap Lib.Effect Lib.HomeTable MapSizing MapIterates

/-- The slot of a hash in the first table. -/
def homeOf (h : UInt32) : Nat := h.toNat % initialTableSize

/-- The entry at a position, if the slot is occupied. -/
def entryAt (mp : Map) (pos : Nat) : Option (UInt32 × MemHandle) :=
  if (mp.slot pos).keyHash = 0 then none
  else some ((mp.slot pos).keyHash, (mp.slot pos).valueHandle)

/-- The map has its first table, with the entries of the finite map in it. -/
structure Homed (mp : Map) (m : Store UInt32 MemHandle) : Prop where
  shaped : mp.Shaped
  tableSize : mp.tableSize = initialTableSize
  entryCount : mp.entryCount = m.keys.length
  few : m.keys.length ≤ initialTableSize / 2
  homes : Homes initialTableSize homeOf (entryAt mp) m
  cleared : ∀ pos, (mp.slot pos).keyHash = 0 → mp.slot pos = .empty

/-- The hash has a home of its own, and room if it is new. -/
structure Fits (m : Store UInt32 MemHandle) (h : UInt32) : Prop where
  hash_ne : h ≠ 0
  apart : Apart homeOf m h
  room : h ∈ m ∨ m.keys.length < initialTableSize / 2

section Entries
variable {mp : Map} {m : Store UInt32 MemHandle} {h : UInt32} {v : MemHandle} {pos : Nat}

theorem homeOf_lt (h : UInt32) : homeOf h < initialTableSize := Nat.mod_lt _ (by decide)

theorem entryAt_eq_none : entryAt mp pos = none ↔ (mp.slot pos).keyHash = 0 := by
  unfold entryAt
  split <;> simp_all

theorem entryAt_eq_some : entryAt mp pos = some (h, v) ↔ mp.slot pos = ⟨h, v⟩ ∧ h ≠ 0 := by
  unfold entryAt
  split
  · rename_i hz
    refine iff_of_false nofun fun he => he.2 ?_
    rw [← hz, he.1]
  · rename_i hz
    rw [Option.some_inj, Prod.mk.injEq]
    constructor
    · rintro ⟨rfl, rfl⟩
      exact ⟨rfl, hz⟩
    · intro he
      rw [he.1]
      exact ⟨rfl, rfl⟩

/-- A store of an entry puts it at its position. -/
theorem entryAt_store (hp : pos < mp.entries.length) (hne : h ≠ 0) (q : Nat) :
    entryAt (mp.store pos ⟨h, v⟩) q = if q = pos then some (h, v) else entryAt mp q := by
  unfold entryAt
  rw [Map.slot_store hp]
  by_cases hq : q = pos
  · simp [hq, hne]
  · simp [hq]

theorem entryAt_emptied (hp : pos < mp.entries.length) (q : Nat) :
    entryAt (mp.emptied pos) q = if q = pos then none else entryAt mp q := by
  unfold entryAt
  rw [Map.emptied_slot, Map.slot_store hp]
  by_cases hq : q = pos
  · simp [hq, MapEntry.empty]
  · simp [hq]

theorem created_homed (entriesMh : MemHandle) : Homed (.created entriesMh) ∅ where
  shaped := Map.created_shaped
  tableSize := rfl
  entryCount := rfl
  few := Nat.zero_le _
  homes := .empty homeOf_lt fun pos _ => by
    rw [entryAt_eq_none, Map.created_slot]
    rfl
  cleared pos _ := Map.created_slot entriesMh pos

namespace Homed
variable (homed : Homed mp m)
include homed

theorem home_lt_length (h : UInt32) : homeOf h < mp.entries.length := by
  rw [homed.shaped, homed.tableSize]
  exact homeOf_lt h

theorem slot_of_mem (hl : m.lookup h = some v) : mp.slot (homeOf h) = ⟨h, v⟩ ∧ h ≠ 0 :=
  entryAt_eq_some.mp (homed.homes.slot_home hl)

/-- The probe of a hash stops at its home. -/
theorem finds (apart : Apart homeOf m h) : findEntryPos mp h = some (homeOf h) := by
  have hstop : (mp.slot (homeOf h)).keyHash = h ∨ (mp.slot (homeOf h)).keyHash = 0 := by
    rcases homed.homes.slot_cases apart with ⟨hfree, -⟩ | ⟨v, -, hl⟩
    · exact Or.inr (entryAt_eq_none.mp hfree)
    · exact Or.inl (by rw [(homed.slot_of_mem hl).1])
  rw [findEntryPos, homed.tableSize]
  exact if_pos hstop

theorem taken_iff (apart : Apart homeOf m h) : (mp.slot (homeOf h)).keyHash ≠ 0 ↔ h ∈ m := by
  rcases homed.homes.slot_cases apart with ⟨hfree, hl⟩ | ⟨v, hs, hl⟩
  · exact iff_of_false (not_not_intro (entryAt_eq_none.mp hfree)) (AList.lookup_eq_none.mp hl)
  · refine iff_of_true ?_ (AList.lookup_isSome.mp (by rw [hl]; rfl))
    rw [(homed.slot_of_mem hl).1]
    exact (homed.slot_of_mem hl).2

/-- The occupied slots in their order are the entries. -/
theorem occupied_perm : ((mp.entries.filter fun entry => entry.keyHash ≠ 0).map fun entry =>
    (entry.keyHash, entry.valueHandle)).Perm (m.entries.map fun entry => (entry.1, entry.2)) := by
  have slots : ∀ positions : List Nat,
      ((positions.map mp.slot).filter fun entry => entry.keyHash ≠ 0).map (fun entry =>
        (entry.keyHash, entry.valueHandle)) = positions.filterMap (entryAt mp) := by
    intro positions
    induction positions with
    | nil => rfl
    | cons p positions ih =>
      rw [List.map_cons, List.filter_cons, List.filterMap_cons, entryAt]
      by_cases hfree : (mp.slot p).keyHash = 0
      · rw [if_pos hfree, if_neg (by simpa using hfree)]
        exact ih
      · rw [if_neg hfree, if_pos (by simpa using hfree), List.map_cons, ih]
  rw [← map_slot_range homed.shaped, homed.tableSize, slots]
  exact homed.homes.entries_perm

theorem occupied_eq : mp.occupied = m.keys.length := by
  have hlen := homed.occupied_perm.length_eq
  rw [List.length_map, List.length_map] at hlen
  rw [AList.keys, List.keys, List.length_map, ← hlen, Map.occupied, List.countP_eq_length_filter]
  congr 1
  exact List.filter_congr fun entry _ => Bool.eq_iff_iff.mpr (by simp)

theorem atHome : mp.ring.AtHome := by
  intro pos hpos h hk
  rw [Map.ring_size, homed.tableSize] at hpos
  have hentry : entryAt mp pos = some (h, (mp.slot pos).valueHandle) := by
    obtain ⟨hh, hne⟩ := Map.keyAt_eq_some.mp hk
    exact entryAt_eq_some.mpr ⟨by rw [← hh], hne⟩
  have hhome := ((homed.homes.slot_iff pos hpos _ _).mp hentry).1
  rw [Map.ring_home, Map.ring_size, homed.tableSize, Nat.mod_mod]
  exact hhome

theorem represents : Represents mp m.lookup where
  wellPlaced := homed.atHome.wellPlaced
  holds_iff h v := by
    constructor
    · rintro ⟨hne, pos, hpos, hs⟩
      rw [homed.tableSize] at hpos
      exact ((homed.homes.slot_iff pos hpos h v).mp (entryAt_eq_some.mpr ⟨hs, hne⟩)).2
    · intro hl
      obtain ⟨hs, hne⟩ := homed.slot_of_mem hl
      exact ⟨hne, homeOf h, by rw [homed.tableSize]; exact homeOf_lt h, hs⟩

/-- A lookup answers with the value in the finite map. -/
theorem lookup_eq (h : UInt32) : lookup mp h = some ((m.lookup h).getD .zero) := by
  have hfew := homed.few
  obtain ⟨pos, hpos, hempty⟩ := Map.exists_empty homed.shaped (by
    rw [homed.occupied_eq, homed.tableSize]
    unfold initialTableSize at *
    omega)
  obtain ⟨r, hr⟩ := lookup_isSome h hpos hempty
  rw [hr, homed.represents.lookup_eq hr]

/-! ## The steps -/

/-- A set of a hash that is there. -/
theorem overwrite (hk : h ∈ m) (v : MemHandle) :
    Homed (mp.store (homeOf h) ⟨h, v⟩) (m.insert h v) where
  shaped := homed.shaped.store _ _
  tableSize := homed.tableSize
  entryCount := by
    have hpos := List.length_pos_of_mem (AList.mem_keys.mp hk)
    rw [AList.keys_insert, List.length_cons, List.length_erase_of_mem (AList.mem_keys.mp hk)]
    rw [Map.store_entryCount, homed.entryCount]
    omega
  few := by
    have hpos := List.length_pos_of_mem (AList.mem_keys.mp hk)
    have hfew := homed.few
    rw [AList.keys_insert, List.length_cons, List.length_erase_of_mem (AList.mem_keys.mp hk)]
    omega
  homes := by
    obtain ⟨u, hu⟩ := Option.isSome_iff_exists.mp (AList.lookup_isSome.mpr hk)
    refine homed.homes.put (homed.homes.apart_of_mem hk) v fun pos _ => ?_
    exact entryAt_store (homed.home_lt_length h) (homed.slot_of_mem hu).2 pos
  cleared pos hzero := by
    obtain ⟨u, hu⟩ := Option.isSome_iff_exists.mp (AList.lookup_isSome.mpr hk)
    rw [Map.slot_store (homed.home_lt_length h)] at hzero ⊢
    split at hzero
    · exact absurd hzero (homed.slot_of_mem hu).2
    · rename_i hne
      rw [if_neg hne]
      exact homed.cleared pos hzero

/-- A set of a hash that is not, with room in the table. -/
theorem store_new (hne : h ≠ 0) (apart : Apart homeOf m h) (hk : h ∉ m)
    (room : m.keys.length < initialTableSize / 2) (v : MemHandle) :
    Homed (mp.counted.store (homeOf h) ⟨h, v⟩) (m.insert h v) := by
  have hlen : (m.insert h v).keys.length = m.keys.length + 1 := by
    rw [AList.keys_insert, List.erase_of_not_mem (by rwa [← AList.mem_keys]), List.length_cons]
  have hhome : homeOf h < mp.counted.entries.length := homed.home_lt_length h
  refine ⟨Map.Shaped.store homed.shaped _ _, homed.tableSize, ?_, ?_, ?_, ?_⟩
  · rw [Map.store_entryCount, Map.counted_entryCount, homed.entryCount, hlen]
    exact incrUint_eq (by unfold initialTableSize at room; omega)
  · rw [hlen]
    exact room
  · refine homed.homes.put apart v fun pos _ => ?_
    rw [entryAt_store hhome hne]
    rfl
  · intro pos hzero
    rw [Map.slot_store hhome] at hzero ⊢
    split at hzero
    · exact absurd hzero hne
    · rename_i hpos
      rw [if_neg hpos]
      exact homed.cleared pos hzero

/-- A delete of a hash that is there. -/
theorem remove (hk : h ∈ m) : Homed (mp.emptied (homeOf h)) (m.erase h) := by
  have hpos := List.length_pos_of_mem (AList.mem_keys.mp hk)
  have hfew := homed.few
  have hlen : (m.erase h).keys.length = m.keys.length - 1 := by
    rw [AList.keys_erase, List.length_erase_of_mem (AList.mem_keys.mp hk)]
  refine ⟨homed.shaped.emptied _, homed.tableSize, ?_, ?_, ?_, ?_⟩
  · rw [Map.emptied_entryCount, homed.entryCount, hlen]
    exact decrUint_eq hpos (by unfold initialTableSize at hfew; omega)
  · rw [hlen]
    omega
  · exact homed.homes.clear (homed.homes.apart_of_mem hk) fun pos _ =>
      entryAt_emptied (homed.home_lt_length h) pos
  · intro pos hzero
    rw [Map.emptied_slot, Map.slot_store (homed.home_lt_length h)] at hzero ⊢
    split
    · rfl
    · rename_i hne
      rw [if_neg hne] at hzero
      exact homed.cleared pos hzero

/-- The probe of a hash that is not there stops at an empty slot. -/
theorem finds_absent (hk : h ∉ m) :
    ∃ pos, findEntryPos mp h = some pos ∧ (mp.slot pos).keyHash = 0 := by
  have hl := homed.lookup_eq h
  rw [lookup, Option.map_eq_some_iff] at hl
  obtain ⟨pos, hpos, hr⟩ := hl
  refine ⟨pos, hpos, ?_⟩
  by_contra hne
  have hkey := (Map.ring_stops_iff.mp (findEntryPos_eq_some.mp hpos).stops).resolve_right hne
  have hholds : mp.Holds h (mp.slot pos).valueHandle := by
    refine ⟨by rwa [hkey] at hne, pos, findEntryPos_lt hpos, ?_⟩
    rw [← hkey]
  have hlook := (homed.represents.holds_iff h _).mp hholds
  exact hk (AList.lookup_isSome.mp (by rw [hlook]; rfl))

end Homed
end Entries

/-! ## The calls -/

section Calls
variable {σ : Type} {ops : MemOps σ} {mh : MemHandle} {mp : Map} {m : Store UInt32 MemHandle}
  {h : UInt32} {s : σ}

namespace Homed
variable (homed : Homed mp m) (stands : Standing ops mh mp s)
include homed stands

/-- `do_set` is an insertion; it makes no request. -/
theorem doSet_ok (fits : Fits m h) (v : MemHandle) :
    ∃ mp', doSet ops mh mp h v s = .ok (true, mp') s ∧ Homed mp' (m.insert h v) ∧
      mp'.entriesMh = mp.entriesMh := by
  obtain ⟨hne, apart, room⟩ := fits
  obtain ⟨entries, deref⟩ := stands
  rw [doSet, bind_of_ok deref, homed.finds apart]
  simp only [orNoEntryPos, pure_bind_run]
  by_cases hk : h ∈ m
  · rw [if_neg ((homed.taken_iff apart).mpr hk)]
    exact ⟨_, rfl, homed.overwrite hk v, rfl⟩
  · have hfree : (mp.slot (homeOf h)).keyHash = 0 :=
      not_not.mp (mt (homed.taken_iff apart).mp hk)
    have hroom := room.resolve_left hk
    have hstored := homed.store_new hne apart hk hroom v
    have hcount : ¬ mp.counted.entryCount > mp.counted.tableSize / 2 := by
      have hlen := hstored.few
      rw [← hstored.entryCount, Map.store_entryCount] at hlen
      rw [Map.counted_tableSize, homed.tableSize]
      exact Nat.not_lt.mpr hlen
    rw [if_pos hfree, if_neg hcount]
    exact ⟨_, rfl, hstored, rfl⟩

/-- `do_delete` is a removal, and tells whether the hash was there. -/
theorem doDelete_ok (h : UInt32) :
    ∃ mp', doDelete ops mh mp h s = .ok (decide (h ∈ m), mp') s ∧ Homed mp' (m.erase h) ∧
      mp'.entriesMh = mp.entriesMh := by
  obtain ⟨entries, deref⟩ := stands
  by_cases hk : h ∈ m
  · have apart := homed.homes.apart_of_mem hk
    have stays : ¬ Shrinks (mp.emptied (homeOf h)) := by
      rintro ⟨-, hbig⟩
      rw [Map.emptied_tableSize, homed.tableSize] at hbig
      exact Nat.lt_irrefl _ hbig
    rw [doDelete, bind_of_ok deref, homed.finds apart]
    simp only [orNoEntryPos, pure_bind_run]
    rw [if_neg ((homed.taken_iff apart).mpr hk), if_neg stays, decide_eq_true hk]
    exact ⟨_, rfl, homed.remove hk, rfl⟩
  · obtain ⟨pos, hpos, hfree⟩ := homed.finds_absent hk
    have hsame : m.erase h = m := AList.ext (List.kerase_of_notMem_keys (mt AList.mem_keys.mpr hk))
    rw [doDelete, bind_of_ok deref, hpos]
    simp only [orNoEntryPos, pure_bind_run]
    rw [if_pos hfree, decide_eq_false hk, hsame]
    exact ⟨_, rfl, homed, rfl⟩

end Homed
end Calls
end M65Tool.Guarantees.HomedMap
