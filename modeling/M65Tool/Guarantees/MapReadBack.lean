import M65Tool.Guarantees.MapSizing

/-!
# MAP-READ-BACK: a value that was set is the value that is read

`do_set` computes the entries pointer once. Where the insertion crosses the
half-full threshold the store goes through that pointer into the block that the
resize has just freed, and the table that `map_get` reads has no entry for the key.
A key whose hash is the empty marker 0 is never read back either. Everywhere else
the next `map_get` returns the value, over any allocator.
-/
namespace M65Tool.Guarantees.MapReadBack
open Source.Mem Source.MapHash Source.HashMap MapSizing

/-- Setting hash `h` takes a free slot and exceeds half of the table. -/
def Crosses (mp : Map) (h : UInt32) : Prop :=
  (∃ pos, findEntryPos mp h = some pos ∧ (mp.slot pos).keyHash = 0) ∧
    mp.tableSize / 2 < mp.entryCount + 1

section Steps
variable {mp mp' : Map} {h : UInt32} {v r : MemHandle}

/-- A value stored where the probe for its hash stops is found by that probe. -/
theorem lookup_store {pos : Nat} (hshape : mp.Shaped) (hne : h ≠ 0)
    (found : findEntryPos mp h = some pos) : lookup (mp.store pos ⟨h, v⟩) h = some v := by
  have hlen : pos < mp.entries.length := by rw [hshape]; exact findEntryPos_lt found
  refine lookup_eq_some.mpr ⟨pos, ?_, ?_⟩
  · rw [Map.ring_store hlen hne]
    exact (findEntryPos_eq_some.mp found).put_self
  · rw [Map.slot_store hlen, if_pos rfl, if_neg hne]

theorem lookup_set (hs : Sizing mp) (hne : h ≠ 0) (hcross : ¬ Crosses mp h)
    (step : SetStep mp h v true mp') : lookup mp' h = some v := by
  cases step with
  | overwrite pos found taken => exact lookup_store hs.shaped hne found
  | insert pos found free fits =>
    rw [← findEntryPos_counted] at found
    exact lookup_store (show mp.counted.Shaped from hs.shaped) hne found
  | grow pos found free crowded newMh size =>
    rw [hs.incr] at crowded
    exact absurd ⟨⟨pos, found, free⟩, crowded⟩ hcross

/-- A set that crosses the threshold leaves the table that the resize made. -/
theorem set_crossing (hs : Sizing mp) (hcross : Crosses mp h) (step : SetStep mp h v true mp') :
    mp.tableSize * 2 < 2 ^ 32 ∧
      ∃ newMh, mp' = mp.counted.resized newMh (mp.tableSize * 2) := by
  obtain ⟨⟨pos, hf, hfree⟩, hover⟩ := hcross
  cases step with
  | overwrite q found taken =>
    obtain rfl : q = pos := Option.some.inj (found.symm.trans hf)
    exact absurd hfree taken
  | insert q found free fits =>
    rw [hs.incr] at fits
    omega
  | grow q found free crowded newMh size => exact ⟨size, newMh, rfl⟩

/-- What that table answers does not depend on where its block is. -/
theorem lookup_resized_block (m₁ m₂ : MemHandle) (n : Nat) :
    lookup (mp.resized m₁ n) h = lookup (mp.resized m₂ n) h :=
  Map.lookup_congr rfl fun _ => rfl

end Steps

section Runs
variable {σ : Type} {ops : MemOps σ} {target : Target} {ma : MemAllocator} {mh : MemHandle}
  {mp mp' : Map} {key : MapKey} {h : UInt32} {v : MemHandle} {s s' : σ}

/-- Every `map_set` of a valid value that returns true is read back. -/
def ReadsBack (ops : MemOps σ) (target : Target) (mh : MemHandle) (mp : Map) (key : MapKey) :
    Prop :=
  ∀ v, memIsValid v = true → ∀ s mp' s', mapSet ops target mh mp key v s = .ok (true, mp') s' →
    Answers ops target mh mp' key v

/-- In some state of the allocator a set of this value returns true, and a get after it returns. -/
def Settable (ops : MemOps σ) (target : Target) (mh : MemHandle) (mp : Map) (key : MapKey)
    (v : MemHandle) : Prop :=
  memIsValid v = true ∧ ∃ s mp' s' r s'', mapSet ops target mh mp key v s = .ok (true, mp') s' ∧
    mapGet ops target mh mp' key s' = .ok r s''

theorem set_then_get (reads : PointerReads ops) (run : MapRun (granting ops) target ma mh mp)
    (hh : key.hash target = some h) (hne : h ≠ 0) (hcross : ¬ Crosses mp h)
    (call : mapSet ops target mh mp key v s = .ok (true, mp') s') :
    Answers ops target mh mp' key v := by
  obtain ⟨hmap, hentries⟩ := run.present reads.granting
  rcases mapSet_cases reads call with ⟨hf, -⟩ | ⟨h', hh', -, hstep⟩
  · cases hf
  · obtain rfl : h = h' := Option.some.inj (hh.symm.trans hh')
    exact answers_of_lookup reads hmap (mapSet_present reads hentries call) hh
      (lookup_set (run_sizing reads run) hne hcross hstep)

/-- A set that is read back leaves its value in the table. -/
theorem lookup_of_readsBack (reads : PointerReads ops) (run : MapRun (granting ops) target ma mh mp)
    (hh : key.hash target = some h) (hback : ReadsBack ops target mh mp key)
    (settable : Settable ops target mh mp key v) :
    ∃ mp', SetStep mp h v true mp' ∧ lookup mp' h = some v := by
  obtain ⟨hvalid, s, mp', s', r, s'', call, hget⟩ := settable
  obtain ⟨hmap, hentries⟩ := run.present reads.granting
  obtain rfl := (hback v hvalid s mp' s' call).only _ _ _ hget
  obtain ⟨h', hh', hl⟩ := mapGet_ok hmap (mapSet_present reads hentries call) hget
  obtain rfl : h = h' := Option.some.inj (hh.symm.trans hh')
  rcases mapSet_cases reads call with ⟨hf, -⟩ | ⟨h', hh', -, hstep⟩
  · cases hf
  · obtain rfl : h = h' := Option.some.inj (hh.symm.trans hh')
    exact ⟨mp', hstep, hl⟩

/-- In every reachable map a set is read back if and only if its hash is not the
empty marker and it does not make the table grow; from 2^31 slots on a growing set
does not return. Where the key can be set at all, two values can be. -/
theorem mapSet_readsBack (reads : PointerReads ops) (run : MapRun (granting ops) target ma mh mp)
    (settable : ∀ h, key.hash target = some h → (Crosses mp h → mp.tableSize < 2 ^ 31) →
      ∃ v₁ v₂, v₁ ≠ v₂ ∧ Settable ops target mh mp key v₁ ∧ Settable ops target mh mp key v₂) :
    ReadsBack ops target mh mp key ↔
      ∀ h, key.hash target = some h →
        (h ≠ 0 ∧ ¬ Crosses mp h) ∨ (Crosses mp h ∧ 2 ^ 31 ≤ mp.tableSize) := by
  have hs := run_sizing reads run
  constructor
  · intro hback h hh
    by_cases hcross : Crosses mp h
    · refine Or.inr ⟨hcross, ?_⟩
      by_contra hsize
      obtain ⟨v₁, v₂, hne, hset₁, hset₂⟩ := settable h hh fun _ => by omega
      obtain ⟨mp₁, step₁, hl₁⟩ := lookup_of_readsBack reads run hh hback hset₁
      obtain ⟨mp₂, step₂, hl₂⟩ := lookup_of_readsBack reads run hh hback hset₂
      -- both values would have to be in the one table that the growth makes
      obtain ⟨-, m₁, rfl⟩ := set_crossing hs hcross step₁
      obtain ⟨-, m₂, rfl⟩ := set_crossing hs hcross step₂
      rw [lookup_resized_block m₁ m₂, hl₂] at hl₁
      exact hne (Option.some.inj hl₁).symm
    · refine Or.inl ⟨?_, hcross⟩
      rintro rfl
      obtain ⟨v, -, -, hset, -⟩ := settable 0 hh fun hc => absurd hc hcross
      obtain ⟨mp', -, hl⟩ := lookup_of_readsBack reads run hh hback hset
      have hvalid := hset.1
      rw [lookup_zero hl] at hvalid
      cases hvalid
  · intro hcond v hv s mp' s' call
    rcases mapSet_cases reads call with ⟨hf, -⟩ | ⟨h, hh, -, hstep⟩
    · cases hf
    · rcases hcond h hh with ⟨hne, hcross⟩ | ⟨hcross, hsize⟩
      · exact set_then_get reads run hh hne hcross call
      · have := (set_crossing hs hcross hstep).1
        omega

end Runs

/-! ## Keys of one home -/

/-- The blocks at 4096, 4128 and 4192 have the same home. The first is deleted and set again. -/
def oneHome : List MapCall :=
  setBlocks [4096, 4128, 4192] ++ [.delete (.ptr 4096), .set (.ptr 4096) ⟨4096, 8, .plain⟩]

/-- Now 4256, of the same home again, is set and read back. -/
theorem mapSet_readsBack_oneHome : ∃ mp s mp' s',
    runCalls (granting bumpOps) ⟨true⟩ bumpMapMh anyCall oneHome bumpMap ⟨2, .dfl⟩ = some (mp, s) ∧
    mapSet bumpOps ⟨true⟩ bumpMapMh mp (.ptr 4256) ⟨4256, 8, .plain⟩ s = .ok (true, mp') s' ∧
    Answers bumpOps ⟨true⟩ bumpMapMh mp' (.ptr 4256) ⟨4256, 8, .plain⟩ := by
  obtain ⟨mp, s, all, hcount, hsettable, mp', s', call⟩ : ∃ mp s,
      runCalls (granting bumpOps) ⟨true⟩ bumpMapMh anyCall oneHome bumpMap ⟨2, .dfl⟩ = some (mp, s) ∧
      mp.entryCount + 1 ≤ mp.tableSize / 2 ∧
      (Settable bumpOps ⟨true⟩ bumpMapMh mp (.ptr 4256) ⟨16, 8, .plain⟩ ∧
        Settable bumpOps ⟨true⟩ bumpMapMh mp (.ptr 4256) ⟨32, 8, .plain⟩) ∧
      ∃ mp' s', mapSet bumpOps ⟨true⟩ bumpMapMh mp (.ptr 4256) ⟨4256, 8, .plain⟩ s =
        .ok (true, mp') s' :=
    ⟨_, _, rfl, by decide, ⟨⟨rfl, ⟨0, .dfl⟩, _, _, _, _, rfl, rfl⟩,
      ⟨rfl, ⟨0, .dfl⟩, _, _, _, _, rfl, rfl⟩⟩, _, _, rfl⟩
  refine ⟨mp, s, mp', s', all, call, ?_⟩
  refine (mapSet_readsBack bumpOps_reads (runCalls_run (.create bumpMap_created) all)
    fun _ _ _ => ⟨_, _, by decide, hsettable.1, hsettable.2⟩).mpr ?_ _ rfl _ _ _ call
  intro h hh
  obtain rfl : hashPtr ⟨true⟩ 4256 = h := Option.some.inj hh
  refine Or.inl ⟨by decide +kernel, ?_⟩
  rintro ⟨-, hover⟩
  omega

/-- The seventeenth block makes the table grow and is not found afterwards. -/
theorem mapSet_seventeenth_lost : ∃ mp mp' s s',
    MapRun (granting bumpOps) ⟨true⟩ .plain bumpMapMh mp ∧
    mapSet bumpOps ⟨true⟩ bumpMapMh mp (.ptr 8192) ⟨8192, 8, .plain⟩ s = .ok (true, mp') s' ∧
    mapGet bumpOps ⟨true⟩ bumpMapMh mp' (.ptr 8192) s' = .ok .zero s' := by
  obtain ⟨mp, s, sixteen, hlost⟩ : ∃ mp s,
      runCalls (granting bumpOps) ⟨true⟩ bumpMapMh anyCall
        (setBlocks ((List.range 16).map fun i => UInt64.ofNat (4096 + 16 * i))) bumpMap ⟨2, .dfl⟩ =
        some (mp, s) ∧ ∃ mp' s',
        mapSet bumpOps ⟨true⟩ bumpMapMh mp (.ptr 8192) ⟨8192, 8, .plain⟩ s = .ok (true, mp') s' ∧
        mapGet bumpOps ⟨true⟩ bumpMapMh mp' (.ptr 8192) s' = .ok .zero s' :=
    ⟨_, _, rfl, _, _, rfl, rfl⟩
  obtain ⟨mp', s', call, hget⟩ := hlost
  exact ⟨mp, mp', s, s', runCalls_run (.create bumpMap_created) sixteen, call, hget⟩

end M65Tool.Guarantees.MapReadBack
