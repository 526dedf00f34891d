import M65Tool.Guarantees.HomedMap
import M65Tool.Source.HashMapBlocks

/-!
# MAP-REFINES: up to sixteen hashes the map is a finite map from them

A program makes any number of calls on a map that it has just created. While the hashes of
the keys that are stored are at most sixteen, and have different homes in the first table,
each call answers what a finite map from hashes does, and makes no request to the allocator.
After them the entry count is the number of the stored hashes, and an iteration yields the
value of each once.
-/
namespace M65Tool.Guarantees.MapRefines
open Source Source.Mem Source.MapHash Source.HashMap Lib.Effect Lib.HomeTable HomedMap MapIterates

/-- What a call answers. -/
inductive Reply where
  | stored (success : Bool)
  | found (value : MemHandle)
  | deleted (success : Bool)
  deriving DecidableEq, Repr

/-- Calls on the map at `mh`, one after the other. -/
def mapCalls {σ : Type} (ops : MemOps σ) (target : Target) (mh : MemHandle) :
    List MapCall → Map → C σ (List Reply × Map)
  | [], mp => pure ([], mp)
  | .set key v :: calls, mp => do
    let (stored, mp) ← mapSet ops target mh mp key v
    let (replies, mp) ← mapCalls ops target mh calls mp
    pure (.stored stored :: replies, mp)
  | .get key :: calls, mp => do
    let value ← mapGet ops target mh mp key
    let (replies, mp) ← mapCalls ops target mh calls mp
    pure (.found value :: replies, mp)
  | .delete key :: calls, mp => do
    let (deleted, mp) ← mapDelete ops target mh mp key
    let (replies, mp) ← mapCalls ops target mh calls mp
    pure (.deleted deleted :: replies, mp)

/-! ## The finite map -/

/-- The hash that stands for the key in the finite map. -/
def hashOf (target : Target) (key : MapKey) : UInt32 := (key.hash target).getD 0

/-- A call on the finite map: an invalid value is not stored. -/
def storeCall (target : Target) (m : Store UInt32 MemHandle) :
    MapCall → Reply × Store UInt32 MemHandle
  | .set key v =>
    if memIsValid v then (.stored true, m.insert (hashOf target key) v) else (.stored false, m)
  | .get key => (.found ((m.lookup (hashOf target key)).getD .zero), m)
  | .delete key => (.deleted (decide (hashOf target key ∈ m)), m.erase (hashOf target key))

def storeCalls (target : Target) : List MapCall → Store UInt32 MemHandle →
    List Reply × Store UInt32 MemHandle
  | [], m => ([], m)
  | call :: calls, m =>
    ((storeCall target m call).1 :: (storeCalls target calls (storeCall target m call).2).1,
      (storeCalls target calls (storeCall target m call).2).2)

/-- A value that `mem_p` answers for. -/
structure Solid (v : MemHandle) : Prop where
  data : v.data ≠ 0
  allocator : v.allocator = .plain ∨ v.allocator = .notAllocated

section Calls
variable {σ : Type} {libc : Libc σ} {target : Target} {mh : MemHandle} {mp : Map}
  {m : Store UInt32 MemHandle} {s : σ}

/-- The key of the call can be hashed, and what it stores is a value that fits. -/
def Admits (ops : MemOps σ) (target : Target) (m : Store UInt32 MemHandle) : MapCall → Prop
  | .set key v => Hashed ops target key (hashOf target key) ∧
      (v.data ≠ 0 → Solid v ∧ Fits m (hashOf target key))
  | .get key => Hashed ops target key (hashOf target key)
  | .delete key => Hashed ops target key (hashOf target key)

def AdmitsAll (ops : MemOps σ) (target : Target) : List MapCall → Store UInt32 MemHandle → Prop
  | [], _ => True
  | call :: calls, m =>
    Admits ops target m call ∧ AdmitsAll ops target calls (storeCall target m call).2

/-- The map stands for the finite map. -/
structure Stands (mh : MemHandle) (mp : Map) (m : Store UInt32 MemHandle) : Prop where
  attached : Attached .plain mh mp
  homed : Homed mp m
  solid : ∀ h v, m.lookup h = some v → Solid v

namespace Stands
variable (stands : Stands mh mp m)
include stands

theorem insert {h : UInt32} {v : MemHandle} (solid : Solid v) :
    ∀ h' v', (m.insert h v).lookup h' = some v' → Solid v' := by
  intro h' v' hl
  by_cases hh : h' = h
  · subst hh
    rw [AList.lookup_insert] at hl
    exact Option.some.inj hl ▸ solid
  · rw [AList.lookup_insert_ne hh] at hl
    exact stands.solid h' v' hl

theorem erase {h : UInt32} : ∀ h' v', (m.erase h).lookup h' = some v' → Solid v' := by
  intro h' v' hl
  by_cases hh : h' = h
  · subst hh
    rw [AList.lookup_erase] at hl
    cases hl
  · rw [AList.lookup_erase_ne hh] at hl
    exact stands.solid h' v' hl

theorem set_ok {key : MapKey} {v : MemHandle} (admits : Admits (baseOps libc) target m (.set key v))
    (s : σ) : ∃ mp', mapSet (baseOps libc) target mh mp key v s =
        .ok (memIsValid v, mp') s ∧ Stands mh mp' (storeCall target m (.set key v)).2 := by
  obtain ⟨hashed, fits⟩ := admits
  have hvalid : mapIsValid (baseOps libc) mh mp s = .ok true s :=
    stands.attached.mapIsValid_run (baseOps_serves libc) s
  rw [storeCall]
  by_cases hv : memIsValid v = true
  · obtain ⟨solid, fits⟩ := fits (memIsValid_eq_true.mp hv)
    obtain ⟨mp', hrun, homed, hsame⟩ :=
      stands.homed.doSet_ok (stands.attached.standing (baseOps_serves libc) s) fits v
    refine ⟨mp', ?_, ?_⟩
    · cases key with
      | str key =>
        have hptr : (baseOps libc).memP v s = .ok v.data s := by
          change memP (baseSpec libc) v s = _
          rw [memP, if_pos hv]
          rcases solid.allocator with ha | ha <;> rw [ha] <;> rfl
        rw [mapSet, mapSetStr, bind_of_ok hvalid, if_pos rfl, bind_of_ok hptr, if_neg solid.data,
          bind_of_ok (hashStr_returns (hashed.readable s) hashed.hash), hrun, hv]
      | ptr key => rw [mapSet, mapSetPtr, bind_of_ok hvalid, if_pos rfl, if_pos hv, hv]; exact hrun
    · rw [if_pos hv]
      exact ⟨stands.attached.congr hsame, homed, stands.insert solid⟩
  · refine ⟨mp, ?_, ?_⟩
    · have hz : memIsValid v = false := by simpa using hv
      cases key with
      | str key =>
        have hptr : (baseOps libc).memP v s = .ok 0 s := by
          change memP (baseSpec libc) v s = _
          rw [memP, if_neg hv]
          rfl
        rw [mapSet, mapSetStr, bind_of_ok hvalid, if_pos rfl, bind_of_ok hptr, if_pos rfl, hz]
        rfl
      | ptr key => rw [mapSet, mapSetPtr, bind_of_ok hvalid, if_pos rfl, if_neg hv, hz]; rfl
    · rw [if_neg hv]
      exact stands

theorem get_ok {key : MapKey} (hashed : Hashed (baseOps libc) target key (hashOf target key))
    (s : σ) : mapGet (baseOps libc) target mh mp key s =
      .ok ((m.lookup (hashOf target key)).getD .zero) s :=
  mapGet_returns (baseOps_reads libc) (stands.attached.standing (baseOps_serves libc) s) (hashed.readable s) hashed.hash
    (stands.homed.lookup_eq _)

theorem delete_ok {key : MapKey} (hashed : Hashed (baseOps libc) target key (hashOf target key))
    (s : σ) : ∃ mp', mapDelete (baseOps libc) target mh mp key s =
        .ok (decide (hashOf target key ∈ m), mp') s ∧
      Stands mh mp' (m.erase (hashOf target key)) := by
  obtain ⟨mp', hrun, homed, hsame⟩ :=
    stands.homed.doDelete_ok (stands.attached.standing (baseOps_serves libc) s) (hashOf target key)
  refine ⟨mp', ?_, stands.attached.congr hsame, homed, stands.erase⟩
  rw [mapDelete_eq (hashed.readable s) hashed.hash, hrun]

/-- The calls answer as the finite map does. -/
theorem calls_ok (calls : List MapCall) (admits : AdmitsAll (baseOps libc) target calls m)
    (s : σ) : ∃ mp', mapCalls (baseOps libc) target mh calls mp s =
        .ok ((storeCalls target calls m).1, mp') s ∧
      Stands mh mp' (storeCalls target calls m).2 := by
  induction calls generalizing mp m with
  | nil => exact ⟨mp, rfl, stands⟩
  | cons call calls ih =>
    obtain ⟨here, admits⟩ := admits
    cases call with
    | set key v =>
      obtain ⟨mp₁, hcall, stands₁⟩ := stands.set_ok here s
      obtain ⟨mp', hrest, stands'⟩ := ih stands₁ admits
      refine ⟨mp', ?_, stands'⟩
      rw [mapCalls, bind_of_ok hcall]
      dsimp only
      rw [bind_of_ok hrest, storeCalls, storeCall]
      cases memIsValid v <;> rfl
    | get key =>
      obtain ⟨mp', hrest, stands'⟩ := ih stands admits
      refine ⟨mp', ?_, stands'⟩
      rw [mapCalls, bind_of_ok (stands.get_ok here s), bind_of_ok hrest]
      rfl
    | delete key =>
      obtain ⟨mp₁, hcall, stands₁⟩ := stands.delete_ok here s
      obtain ⟨mp', hrest, stands'⟩ := ih stands₁ admits
      refine ⟨mp', ?_, stands'⟩
      rw [mapCalls, bind_of_ok hcall]
      dsimp only
      rw [bind_of_ok hrest]
      rfl

/-! ## The iteration behind them -/

theorem tableAt (s : σ) : TableAt (baseOps libc) s mh mp where
  map_at := ⟨mh.data, plain_memP rfl stands.attached.map_allocator, stands.attached.map_data⟩
  entries_at := ⟨mp.entriesMh.data, plain_memP rfl stands.attached.entries_allocator,
    stands.attached.entries_data⟩
  shaped := stands.homed.shaped
  size_pos := by
    rw [stands.homed.tableSize]
    decide
  size_fits := by
    rw [stands.homed.tableSize]
    decide
  value_at pos hpos hocc := by
    rw [stands.homed.tableSize] at hpos
    have hentry : entryAt mp pos = some ((mp.slot pos).keyHash, (mp.slot pos).valueHandle) :=
      if_neg hocc
    have solid := stands.solid _ _ ((stands.homed.homes.slot_iff pos hpos _ _).mp hentry).2
    refine ⟨(mp.slot pos).valueHandle.data, ?_, solid.data⟩
    change memP (baseSpec libc) _ s = _
    rw [memP, if_pos (memIsValid_eq_true.mpr solid.data)]
    rcases solid.allocator with ha | ha <;> rw [ha] <;> rfl
  empty_zero pos _ hempty := by
    rw [stands.homed.cleared pos hempty]
    rfl

/-- An iteration yields the value of each key once. -/
theorem iterate_ok (s : σ) :
    ∃ its, (its.map mapIterValue).Perm (m.entries.map Sigma.snd) ∧ ∃ enough, ∀ tests ≥ enough,
      ∀ rounds ≥ enough, iterate (baseOps libc) mp tests rounds mh s = .ok its s := by
  have hat : TableAt (baseOps libc) s mh mp := stands.tableAt s
  have hlen : (occupiedFrom mp 0).length ≤ mp.tableSize := by
    have hle := List.length_filter_le (fun p => decide ((mp.slot p).keyHash ≠ 0))
      (List.range' 0 (mp.tableSize - 0))
    rw [List.length_range'] at hle
    exact hle
  refine ⟨(occupiedFrom mp 0).map fun p => ⟨mh, p, (mp.slot p).valueHandle⟩, ?_,
    mp.tableSize + 1, ?_⟩
  · have hall : Enumerates mh mp _ := enumerates_occupied stands.homed.shaped
    rw [hall.values]
    have hperm := stands.homed.occupied_perm.map Prod.snd
    rw [List.map_map, List.map_map] at hperm
    exact hperm
  · intro tests htests rounds hrounds
    rw [iterate, bind_of_ok (hat.firstIter_ok (by omega))]
    exact hat.iterLoop_ok (by omega) _ rfl (by omega)

end Stands

theorem created_stands {mh : MemHandle} {mp : Map} {s s' : σ}
    (created : mapCreate (baseOps libc) .plain s = .ok (mh, some mp) s') : Stands mh mp ∅ where
  attached := mapCreate_attached (baseOps_serves libc) created
  homed := by
    rw [(mapCreate_some created).2.2]
    exact created_homed _
  solid h v hl := by
    rw [AList.lookup_empty] at hl
    cases hl

/-- From its creation on the map answers every sequence of calls that fits as the finite map
does, without a request to the allocator; its count is the number of keys, and an iteration
yields the values. -/
theorem mapCalls_refine {created₀ created : σ} (calls : List MapCall)
    (creation : mapCreate (baseOps libc) .plain created₀ = .ok (mh, some mp) created)
    (admits : AdmitsAll (baseOps libc) target calls ∅) (s : σ) :
    ∃ mp', mapCalls (baseOps libc) target mh calls mp s =
        .ok ((storeCalls target calls ∅).1, mp') s ∧
      mp'.entryCount = (storeCalls target calls ∅).2.keys.length ∧
      ∃ its, (its.map mapIterValue).Perm ((storeCalls target calls ∅).2.entries.map Sigma.snd) ∧
        ∃ enough, ∀ tests ≥ enough, ∀ rounds ≥ enough,
          iterate (baseOps libc) mp' tests rounds mh s = .ok its s := by
  obtain ⟨mp', hrun, stands⟩ := (created_stands creation).calls_ok calls admits s
  exact ⟨mp', hrun, stands.homed.entryCount, stands.iterate_ok s⟩

end Calls

/-! ## Two keys with different homes -/

def twoKeysMh : MemHandle := ⟨16, 40, .plain⟩

def twoKeysCalls : List MapCall :=
  [.set (.ptr 4096) ⟨4096, 8, .plain⟩, .set (.ptr 8192) ⟨8192, 8, .plain⟩, .delete (.ptr 4096),
    .get (.ptr 8192)]

theorem twoKeys_admits : AdmitsAll (baseOps ScriptBlocks.libc) ⟨true⟩ twoKeysCalls ∅ := by
  have hashed : ∀ a : Addr, Hashed (baseOps ScriptBlocks.libc) ⟨true⟩ (.ptr a)
      (hashOf ⟨true⟩ (.ptr a)) := fun a => ⟨fun _ => trivial, rfl⟩
  refine ⟨⟨hashed _, fun _ => ⟨⟨by decide, Or.inl rfl⟩, by decide, apart_empty _ _,
    Or.inr (by decide)⟩⟩, ⟨hashed _, fun _ => ⟨⟨by decide, Or.inl rfl⟩, by decide, ?_,
    Or.inr (by decide)⟩⟩, hashed _, hashed _, trivial⟩
  intro k hk hsame
  obtain rfl : k = hashOf ⟨true⟩ (.ptr 4096) := by
    rw [storeCall, if_pos (by decide), AList.mem_insert] at hk
    exact hk.resolve_right (AList.notMem_empty k)
  exact absurd hsame (by decide)

theorem mapCalls_refine_twoKeys : ∃ mp', mapCalls (baseOps ScriptBlocks.libc) ⟨true⟩ twoKeysMh
      twoKeysCalls (.created ⟨64, 1280, .plain⟩) ⟨[], [64, 16]⟩ =
        .ok ([.stored true, .stored true, .deleted true, .found ⟨8192, 8, .plain⟩], mp')
          ⟨[], [64, 16]⟩ ∧ mp'.entryCount = 1 := by
  have created : mapCreate (baseOps ScriptBlocks.libc) .plain ⟨[16, 64], []⟩ =
      .ok (twoKeysMh, some (.created ⟨64, 1280, .plain⟩)) ⟨[], [64, 16]⟩ := rfl
  obtain ⟨mp', hrun, hcount, -⟩ :=
    mapCalls_refine twoKeysCalls created twoKeys_admits ⟨[], [64, 16]⟩
  exact ⟨mp', hrun, hcount⟩

end M65Tool.Guarantees.MapRefines
