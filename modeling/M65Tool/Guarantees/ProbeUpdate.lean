import M65Tool.Source.HashMapMeaning
import M65Tool.Source.HashMapRehash

/-!
# PROBE-UPDATE: a set that does not grow the table

In a table with an empty slot, whose entries are each reached from the home of their hash
over occupied slots, `find_entry_pos` ends at the hash or at a slot where it may be stored.
Storing a value there answers the hash and disturbs no other, as long as a slot is left
empty for the lookups of what is not stored; `entry_count` sees to that.
-/
namespace M65Tool.Guarantees.ProbeUpdate
open Source.Mem Source.MapHash Source.HashMap Lib.LinearProbe Lib.Effect

/-- The `j`-th slot from the home of a hash on. -/
def fromHome (mp : Map) (h : UInt32) (j : Nat) : Nat :=
  seat mp.tableSize (h.toNat % mp.tableSize) j

def HasEmpty (mp : Map) : Prop := ∃ p < mp.tableSize, (mp.slot p).keyHash = 0

structure ProbeTable (mp : Map) : Prop where
  shaped : mp.Shaped
  size_pos : 1 ≤ mp.tableSize
  distinct : ∀ p < mp.tableSize, ∀ q < mp.tableSize, (mp.slot p).keyHash ≠ 0 →
    (mp.slot p).keyHash = (mp.slot q).keyHash → p = q
  /-- the slots from the home of an entry to the entry are occupied -/
  chained : ∀ p < mp.tableSize, (mp.slot p).keyHash ≠ 0 → ∀ i < mp.tableSize,
    fromHome mp (mp.slot p).keyHash i = p →
      ∀ j < i, (mp.slot (fromHome mp (mp.slot p).keyHash j)).keyHash ≠ 0
  empty : HasEmpty mp

/-- `do_set` stores at the position without a resize. -/
def Fits (mp : Map) (pos : Nat) : Prop :=
  (mp.slot pos).keyHash ≠ 0 ∨ incrUint mp.entryCount ≤ mp.tableSize / 2

/-- The hash is stored in the table. -/
def Present (mp : Map) (h : UInt32) : Prop := ∃ p < mp.tableSize, (mp.slot p).keyHash = h

/-! ## The invariant of the probe -/

section Placed
variable {mp : Map}

theorem wellPlaced_iff_table : mp.WellPlaced ↔
    (∀ p < mp.tableSize, ∀ q < mp.tableSize, (mp.slot p).keyHash ≠ 0 →
      (mp.slot p).keyHash = (mp.slot q).keyHash → p = q) ∧
    ∀ p < mp.tableSize, (mp.slot p).keyHash ≠ 0 → ∀ i < mp.tableSize,
      fromHome mp (mp.slot p).keyHash i = p →
        ∀ j < i, (mp.slot (fromHome mp (mp.slot p).keyHash j)).keyHash ≠ 0 := by
  rw [Map.WellPlaced, ProbeRing.wellPlaced_iff]
  refine and_congr ?_ ?_
  · constructor
    · intro h p hp q hq hne heq
      exact h p hp q hq _ (Map.keyAt_eq_some.mpr ⟨rfl, hne⟩)
        (Map.keyAt_eq_some.mpr ⟨heq.symm, hne⟩)
    · intro h p hp q hq k hpk hqk
      obtain ⟨hp', hne⟩ := Map.keyAt_eq_some.mp hpk
      obtain ⟨hq', -⟩ := Map.keyAt_eq_some.mp hqk
      exact h p hp q hq (hp' ▸ hne) (hp'.trans hq'.symm)
  · constructor
    · intro h p hp hne i hi hip j hj he
      exact h p hp _ (Map.keyAt_eq_some.mpr ⟨rfl, hne⟩) i hi hip j hj (Map.keyAt_eq_none.mpr he)
    · intro h p hp k hpk i hi hip j hj he
      obtain ⟨rfl, hne⟩ := Map.keyAt_eq_some.mp hpk
      exact h p hp hne i hi hip j hj (Map.keyAt_eq_none.mp he)

theorem ProbeTable.wellPlaced (table : ProbeTable mp) : mp.WellPlaced :=
  wellPlaced_iff_table.mpr ⟨table.distinct, table.chained⟩

theorem probeTable_of (shaped : mp.Shaped) (placed : mp.WellPlaced) (empty : HasEmpty mp) :
    ProbeTable mp where
  shaped := shaped
  size_pos := by
    obtain ⟨p, hp, -⟩ := empty
    omega
  distinct := (wellPlaced_iff_table.mp placed).1
  chained := (wellPlaced_iff_table.mp placed).2
  empty := empty

end Placed

/-! ## Storing where the probe stops -/

section Store
variable {mp : Map} {h h' : UInt32} {v r r' : MemHandle} {pos : Nat}

/-- The probe ends in the table, at the hash if it is stored, else at an empty slot. -/
theorem ProbeTable.finds (table : ProbeTable mp) (h : UInt32) :
    ∃ pos < mp.tableSize, findEntryPos mp h = some pos ∧
      (h ≠ 0 → Present mp h → (mp.slot pos).keyHash = h) ∧
      (¬ Present mp h → (mp.slot pos).keyHash = 0) := by
  obtain ⟨e, he, hempty⟩ := table.empty
  obtain ⟨pos, hf⟩ := mp.ring.exists_finds h he (Map.keyAt_eq_none.mpr hempty)
  refine ⟨pos, hf.lt, findEntryPos_eq_some.mpr hf, ?_, ?_⟩
  · rintro hne ⟨q, hq, hqh⟩
    have hfound := table.wellPlaced q hq h (Map.keyAt_eq_some.mpr ⟨hqh, hne⟩)
    rw [hf.unique hfound, hqh]
  · intro habsent
    rcases Map.ring_stops_iff.mp hf.stops with hh | hz
    · exact absurd ⟨pos, hf.lt, hh⟩ habsent
    · exact hz

/-- What the store answers for a hash that is stored in the table. -/
theorem lookup_store_present (placed : mp.WellPlaced) (shaped : mp.Shaped)
    (found : findEntryPos mp h = some pos) (hne : h' ≠ h) (held : ∃ u, mp.Holds h' u) :
    lookup (mp.store pos ⟨h, v⟩) h' = lookup mp h' := by
  obtain ⟨u, hu⟩ := held
  have hstill := (placed.holds_store shaped found (v := v) h' u).mpr (Or.inr ⟨hne, hu⟩)
  rw [placed.lookup_of_holds hu, (placed.store shaped found).lookup_of_holds hstill]

/-- And for every other hash, while both tables have an empty slot. -/
theorem lookup_store_other (placed : mp.WellPlaced) (shaped : mp.Shaped)
    (found : findEntryPos mp h = some pos) (hne : h' ≠ h) (empty : HasEmpty mp)
    (remains : HasEmpty (mp.store pos ⟨h, v⟩)) :
    lookup (mp.store pos ⟨h, v⟩) h' = lookup mp h' := by
  by_cases held : ∃ u, mp.Holds h' u
  · exact lookup_store_present placed shaped found hne held
  · obtain ⟨e, he, hz⟩ := empty
    obtain ⟨e', he', hz'⟩ := remains
    obtain ⟨r, hr⟩ := lookup_isSome h' he hz
    obtain ⟨r', hr'⟩ := lookup_isSome h' he' hz'
    have habsent : ∀ u, ¬ mp.Holds h' u := fun u hu => held ⟨u, hu⟩
    have habsent' : ∀ u, ¬ (mp.store pos ⟨h, v⟩).Holds h' u := by
      intro u hu
      rcases (placed.holds_store shaped found h' u).mp hu with ⟨heq, -⟩ | ⟨-, hu⟩
      · exact hne heq
      · exact habsent u hu
    rw [hr, hr', Map.lookup_absent habsent hr, Map.lookup_absent habsent' hr']

/-- A store that `do_set` makes without a resize leaves a slot empty, if `entry_count`
counts each entry. -/
theorem empty_remains (shaped : mp.Shaped) (nonzero : h ≠ 0) (empty : HasEmpty mp)
    (found : findEntryPos mp h = some pos) (fits : Fits mp pos)
    (counted : mp.occupied ≤ mp.entryCount) (nowrap : mp.entryCount + 1 < 2 ^ 32) :
    HasEmpty (mp.store pos ⟨h, v⟩) := by
  have hlt := findEntryPos_lt found
  have hlen : pos < mp.entries.length := by rw [shaped]; exact hlt
  by_cases taken : (mp.slot pos).keyHash = 0
  · have hcount := fits.resolve_left (not_not.mpr taken)
    rw [incrUint, Nat.mod_eq_of_lt nowrap] at hcount
    have hstored := Map.occupied_store hlen ⟨h, v⟩
    rw [if_pos taken, if_neg nonzero] at hstored
    refine Map.exists_empty (shaped.store pos _) ?_
    rw [Map.store_tableSize]
    omega
  · obtain ⟨e, he, hz⟩ := empty
    refine ⟨e, he, ?_⟩
    rw [Map.slot_store hlen, if_neg, hz]
    rintro rfl
    exact taken hz

end Store

/-! ## `do_set` and `do_get` -/

section Calls
variable {σ : Type} {ops : MemOps σ} {mh : MemHandle} {mp mp' : Map} {h h' : UInt32}
  {v : MemHandle} {pos : Nat} {entries : Addr} {s : σ}

theorem doSet_stores (reads : derefTable ops mh mp s = .ok entries s)
    (found : findEntryPos mp h = some pos) (fits : Fits mp pos) :
    doSet ops mh mp h v s = .ok (true,
      (if (mp.slot pos).keyHash = 0 then mp.counted else mp).store pos ⟨h, v⟩) s := by
  have hpos : (orNoEntryPos (some pos) : C σ Nat) s = .ok pos s := rfl
  rw [doSet, bind_of_ok reads, found, bind_of_ok hpos]
  by_cases taken : (mp.slot pos).keyHash = 0
  · have hfits : ¬ mp.counted.entryCount > mp.counted.tableSize / 2 :=
      Nat.not_lt.mpr (fits.resolve_left (not_not.mpr taken))
    rw [if_pos taken, if_pos taken, if_neg hfits]
    rfl
  · rw [if_neg taken, if_neg taken]
    rfl

theorem doGet_eq (reads : derefTable ops mh mp s = .ok entries s) :
    doGet ops mh mp h s = (orNoEntryPos (lookup mp h) : C σ MemHandle) s := by
  rw [doGet, bind_of_ok reads]

/-- What a set without a resize does to the lookups. -/
structure Updates (ops : MemOps σ) (mh : MemHandle) (s : σ) (h : UInt32) (v : MemHandle)
    (mp mp' : Map) : Prop where
  answers : doGet ops mh mp' h s = .ok v s
  /-- also in a table that it has filled up -/
  stored : ∀ h' ≠ h, h' ≠ 0 → Present mp h' → doGet ops mh mp' h' s = doGet ops mh mp h' s
  table : HasEmpty mp' → ProbeTable mp'
  others : HasEmpty mp' → ∀ h' ≠ h, doGet ops mh mp' h' s = doGet ops mh mp h' s
  /-- a slot is left empty if each entry is counted -/
  remains : mp.occupied ≤ mp.entryCount → mp.entryCount + 1 < 2 ^ 32 → HasEmpty mp'

theorem store_updates (table : ProbeTable mp) (nonzero : h ≠ 0)
    (reads : derefTable ops mh mp s = .ok entries s) (found : findEntryPos mp h = some pos)
    (fits : Fits mp pos) : Updates ops mh s h v mp (mp.store pos ⟨h, v⟩) where
  answers := by
    have hlookup : lookup (mp.store pos ⟨h, v⟩) h = some v :=
      table.wellPlaced.store table.shaped found |>.lookup_of_holds
        ((table.wellPlaced.holds_store table.shaped found h v).mpr (Or.inl ⟨rfl, nonzero, rfl⟩))
    have hreads : derefTable ops mh (mp.store pos ⟨h, v⟩) s = .ok entries s := reads
    rw [doGet_eq hreads, hlookup]
    rfl
  stored := by
    rintro h' hne nonzero' ⟨p, hp, hh'⟩
    have hheld : ∃ u, mp.Holds h' u := by
      refine ⟨(mp.slot p).valueHandle, nonzero', p, hp, ?_⟩
      rw [← hh']
    have hreads : derefTable ops mh (mp.store pos ⟨h, v⟩) s = .ok entries s := reads
    rw [doGet_eq hreads, doGet_eq reads,
      lookup_store_present table.wellPlaced table.shaped found hne hheld]
  table := probeTable_of (table.shaped.store pos _) (table.wellPlaced.store table.shaped found)
  others := by
    intro remains h' hne
    have hreads : derefTable ops mh (mp.store pos ⟨h, v⟩) s = .ok entries s := reads
    rw [doGet_eq hreads, doGet_eq reads,
      lookup_store_other table.wellPlaced table.shaped found hne table.empty remains]
  remains := empty_remains table.shaped nonzero table.empty found fits

/-- Counting an entry changes nothing that a lookup reads. -/
theorem doGet_counted (entry : MapEntry) :
    doGet ops mh (mp.counted.store pos entry) h s = doGet ops mh (mp.store pos entry) h s := by
  have hlookup : lookup (mp.counted.store pos entry) h = lookup (mp.store pos entry) h :=
    Map.lookup_congr rfl fun _ => rfl
  rw [doGet, hlookup]
  rfl

theorem Updates.counted (u : Updates ops mh s h v mp (mp.store pos ⟨h, v⟩)) :
    Updates ops mh s h v mp (mp.counted.store pos ⟨h, v⟩) where
  answers := by
    rw [doGet_counted]
    exact u.answers
  stored := by
    intro h' hne nonzero' present
    rw [doGet_counted]
    exact u.stored h' hne nonzero' present
  table := by
    intro remains
    have table := u.table remains
    exact ⟨table.shaped, table.size_pos, table.distinct, table.chained, table.empty⟩
  others := by
    intro remains h' hne
    rw [doGet_counted]
    exact u.others remains h' hne
  remains := u.remains

/-- The probe ends where the hash is or may be stored, and a set that does not make the
table grow stores the value there: it keeps the table as it should be, answers the hash
and leaves every other lookup as it was. -/
theorem probe_update (ops : MemOps σ) (mh : MemHandle) (s : σ) (mp : Map) (table : ProbeTable mp)
    (entries : Addr) (reads : derefTable ops mh mp s = .ok entries s) (h : UInt32) (nonzero : h ≠ 0) :
    ∃ pos < mp.tableSize, findEntryPos mp h = some pos ∧
      (Present mp h → (mp.slot pos).keyHash = h) ∧
      (¬ Present mp h → (mp.slot pos).keyHash = 0) ∧
      (Fits mp pos → ∀ v, ∃ mp', doSet ops mh mp h v s = .ok (true, mp') s ∧
        Updates ops mh s h v mp mp') := by
  obtain ⟨pos, hpos, found, present, absent⟩ := table.finds h
  refine ⟨pos, hpos, found, present nonzero, absent, ?_⟩
  intro fits v
  refine ⟨_, doSet_stores reads found fits, ?_⟩
  have hstored := store_updates (v := v) table nonzero reads found fits
  split
  · exact hstored.counted
  · exact hstored

end Calls

/-- Two entries with the last slot for their home; one of them is in the first slot. -/
def wrappedTable : Map :=
  ⟨⟨32, 240, .plain⟩, [⟨11, ⟨64, 8, .plain⟩⟩, .empty, .empty, .empty, .empty,
    ⟨5, ⟨80, 8, .plain⟩⟩], 2, 6⟩

theorem wrappedTable_probes : ProbeTable wrappedTable where
  shaped := rfl
  size_pos := by decide
  distinct := by decide +kernel
  chained := by decide +kernel
  empty := ⟨1, by decide, rfl⟩

/-- A third entry with that home goes to the second slot. -/
theorem probe_update_wrapped : ∃ pos < wrappedTable.tableSize,
    findEntryPos wrappedTable 17 = some pos ∧
    (Present wrappedTable 17 → (wrappedTable.slot pos).keyHash = 17) ∧
    (¬ Present wrappedTable 17 → (wrappedTable.slot pos).keyHash = 0) ∧
    (Fits wrappedTable pos → ∀ v, ∃ mp',
      doSet scriptedOps ⟨16, 40, .plain⟩ wrappedTable 17 v [] = .ok (true, mp') [] ∧
        Updates scriptedOps ⟨16, 40, .plain⟩ [] 17 v wrappedTable mp') :=
  probe_update scriptedOps ⟨16, 40, .plain⟩ [] wrappedTable wrappedTable_probes 32 rfl 17 (by decide)

end M65Tool.Guarantees.ProbeUpdate
