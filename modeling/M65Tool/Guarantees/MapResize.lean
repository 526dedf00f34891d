import M65Tool.Source.HashMapMeaning
import M65Tool.Source.HashMapRun

/-!
# MAP-RESIZE: what a resize does to lookups

The copy loop of `resize_entries_table` writes each entry to its home slot in the
new block without looking whether another entry is there already. A resize
therefore keeps the answers of `do_get` exactly when no two stored hashes have the
same residue modulo the new size; of two that do, the one copied first is gone.
-/
namespace M65Tool.Guarantees.MapResize
open Source.Mem Source.HashMap

/-- Every stored hash is found where it is stored; a hash in two slots is not. -/
def EachFound (mp : Map) : Prop :=
  ∀ pos < mp.tableSize, (mp.slot pos).keyHash ≠ 0 → findEntryPos mp (mp.slot pos).keyHash = some pos

/-- A resize from the size that `do_set` grows or `do_delete` shrinks leaves room. -/
def LoadAllows (mp : Map) (isGrow : Bool) : Prop :=
  if isGrow then 0 < mp.tableSize ∧ mp.occupied ≤ mp.tableSize / 2
  else mp.occupied ≤ mp.entryCount ∧ mp.entryCount < mp.tableSize / 4

section Lookups
variable {mp : Map} {n : Nat} {newMh : MemHandle}

theorem eachFound_iff : EachFound mp ↔ mp.WellPlaced := by
  constructor
  · intro hf pos hp k hk
    obtain ⟨hh, hne⟩ := Map.keyAt_eq_some.mp hk
    have hpos := hf pos hp (by rw [hh]; exact hne)
    rw [hh] at hpos
    exact findEntryPos_eq_some.mp hpos
  · intro hw pos hp hne
    exact findEntryPos_eq_some.mpr (hw pos hp _ (Map.keyAt_eq_some.mpr ⟨rfl, hne⟩))

/-- With distinct residues every lookup answers as before. -/
theorem lookup_resized (hshape : mp.Shaped) (hw : mp.WellPlaced) (hold : mp.occupied < mp.tableSize)
    (hnew : mp.occupied < n) (hd : mp.ResiduesDistinct n) (h : UInt32) :
    lookup (mp.resized newMh n) h = lookup mp h := by
  obtain ⟨e, he, hempty⟩ := Map.exists_empty hshape hold
  obtain ⟨v, hv⟩ := lookup_isSome h he hempty
  have hocc : (mp.resized newMh n).occupied ≤ mp.occupied := Map.resized_occupied_le
  obtain ⟨e', he', hempty'⟩ := Map.exists_empty
    (Map.resized_shaped : (mp.resized newMh n).Shaped) (by rw [Map.resized_tableSize]; omega)
  obtain ⟨v', hv'⟩ := lookup_isSome h he' hempty'
  obtain ⟨m, hrep⟩ := hw.represents
  have hrep' : Represents (mp.resized newMh n) m :=
    represents_resized hshape (by omega) hd hrep.holds_iff
  rw [hv, hv', hrep.lookup_eq hv, hrep'.lookup_eq hv']

/-- Without them some lookup changes its answer. -/
theorem lookup_resized_lost (hw : mp.WellPlaced) (hv : mp.ValuesValid)
    (hd : ¬ mp.ResiduesDistinct n) : ∃ h, lookup (mp.resized newMh n) h ≠ lookup mp h := by
  obtain ⟨h, v, hh, hlost⟩ :
    ∃ h v, mp.Holds h v ∧ ∀ u, ¬ (mp.resized newMh n).Holds h u :=
    Map.resized_loses (fun _ hp _ hq _ hpk hqk => hw.unique hp hq hpk hqk) hd
  refine ⟨h, ?_⟩
  intro heq
  rw [hw.lookup_of_holds hh] at heq
  have hvalid := Map.valuesValid_iff.mp hv h v hh
  rw [Map.lookup_absent hlost heq] at hvalid
  cases hvalid

end Lookups

section Resize
variable {σ : Type} {ops : MemOps σ} {mh : MemHandle} {mp mp' : Map} {isGrow : Bool} {s s' : σ}

end Resize

/-- 64 slots with hashes 1 and 33, which share their home in a table of 32. -/
def twoEntries : Map :=
  ⟨⟨32, 2560, .plain⟩,
    ((List.replicate 64 MapEntry.empty).set 1 ⟨1, ⟨4096, 8, .plain⟩⟩).set 33
      ⟨33, ⟨8192, 8, .plain⟩⟩, 2, 64⟩

/-- Four hashes with homes of their own in a table of 64 and in one of 32. -/
def fourEntries : Map :=
  ⟨⟨32, 2560, .plain⟩,
    ((((List.replicate 64 MapEntry.empty).set 1 ⟨1, ⟨4096, 8, .plain⟩⟩).set 34
      ⟨34, ⟨8192, 8, .plain⟩⟩).set 40 ⟨40, ⟨12288, 8, .plain⟩⟩).set 63 ⟨63, ⟨16384, 8, .plain⟩⟩, 4, 64⟩

end M65Tool.Guarantees.MapResize
