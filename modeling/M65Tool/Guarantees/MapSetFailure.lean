import M65Tool.Source.HashMapRun

/-!
# MAP-SET-FAILURE: a set that cannot enlarge the table is not atomic

`do_set` counts the new entry before it asks for the larger table. When that is refused
the entry is not stored, and nothing takes the count back: the lookups and the table are
as before, `entry_count` is one higher. Failed sets in a row add up.
-/
namespace M65Tool.Guarantees.MapSetFailure
open Source Source.Mem Source.MapHash Source.HashMap Lib.Effect

section Calls
variable {σ : Type} (ops : MemOps σ) (target : Target) (mh : MemHandle)

/-- The tests that `map_set` makes before `do_set` pass. -/
def Accepts (mp : Map) (value : MemHandle) (s : σ) : MapKey → Prop
  | .str _ => ∃ s1 ptr s2, mapIsValid ops mh mp s = .ok true s1 ∧
      ops.memP value s1 = .ok ptr s2 ∧ ptr ≠ 0
  | .ptr _ => (∃ s1, mapIsValid ops mh mp s = .ok true s1) ∧ memIsValid value = true

/-- A `map_set` that returns false although the map and the value are good: the table
could not be enlarged. -/
structure FailedSet (mp : Map) (key : MapKey) (value : MemHandle) (s : σ) (mp' : Map) (s' : σ) :
    Prop where
  accepts : Accepts ops mh mp value s key
  call : mapSet ops target mh mp key value s = .ok (false, mp') s'

/-- So many failed sets, of any keys and values, lead from one map to the other. -/
inductive FailedSets (mp : Map) : Nat → Map → Prop
  | none : FailedSets mp 0 mp
  | more {k : Nat} {mp' mp'' : Map} {key : MapKey} {value : MemHandle} {s s' : σ}
      (sets : FailedSets mp k mp') (failed : FailedSet ops target mh mp' key value s mp'' s') :
      FailedSets mp (k + 1) mp''

/-- Every `map_get` runs as before, over the same table. -/
structure SameTable (mp mp' : Map) : Prop where
  gets : ∀ key s, mapGet ops target mh mp' key s = mapGet ops target mh mp key s
  entriesMh_eq : mp'.entriesMh = mp.entriesMh
  entries_eq : mp'.entries = mp.entries
  tableSize_eq : mp'.tableSize = mp.tableSize

/-- The map is exactly as before the call. -/
structure Unchanged (mp mp' : Map) : Prop extends SameTable ops target mh mp mp' where
  entryCount_eq : mp'.entryCount = mp.entryCount

end Calls

section Counting
variable {σ : Type} {ops : MemOps σ} {target : Target} {mh : MemHandle} {mp mp' : Map}
  {key : MapKey} {value : MemHandle} {s s' : σ} {k : Nat}

/-- Past its tests a set that returns false has only counted the entry. -/
theorem FailedSet.eq_counted (h : FailedSet ops target mh mp key value s mp' s') :
    mp' = mp.counted := by
  have hstep : ∃ h, SetStep mp h value false mp' := by
    obtain ⟨accepts, call⟩ := h
    cases key with
    | str key =>
      obtain ⟨s1, ptr, s2, hvalid, hptr, hne⟩ := accepts
      change mapSetStr ops target mh mp key value s = _ at call
      rw [mapSetStr, bind_of_ok hvalid, if_pos rfl, bind_of_ok hptr, if_neg hne] at call
      obtain ⟨h, s3, -, hset⟩ := bind_ok_inv call
      exact ⟨h, doSet_step hset⟩
    | ptr key =>
      obtain ⟨⟨s1, hvalid⟩, hvalue⟩ := accepts
      change mapSetPtr ops target mh mp key value s = _ at call
      rw [mapSetPtr, bind_of_ok hvalid, if_pos rfl, if_pos hvalue] at call
      exact ⟨_, doSet_step call⟩
  obtain ⟨h, hstep⟩ := hstep
  cases hstep
  rfl

theorem lookup_counted (mp : Map) (h : UInt32) : lookup mp.counted h = lookup mp h :=
  Map.lookup_congr rfl fun _ => rfl

theorem sameTable_counted (mp : Map) : SameTable ops target mh mp mp.counted where
  gets key s := by
    have hget : ∀ h, doGet ops mh mp.counted h = doGet ops mh mp h := by
      intro h
      rw [doGet, doGet, lookup_counted]
      rfl
    cases key with
    | str key =>
      change mapGetStr ops target mh mp.counted key s = mapGetStr ops target mh mp key s
      simp only [mapGetStr, hget]
      rfl
    | ptr key =>
      change mapGetPtr ops target mh mp.counted key s = mapGetPtr ops target mh mp key s
      simp only [mapGetPtr, hget]
      rfl
  entriesMh_eq := rfl
  entries_eq := rfl
  tableSize_eq := rfl

theorem SameTable.trans {mp'' : Map} (h : SameTable ops target mh mp mp')
    (h' : SameTable ops target mh mp' mp'') : SameTable ops target mh mp mp'' where
  gets key s := (h'.gets key s).trans (h.gets key s)
  entriesMh_eq := h'.entriesMh_eq.trans h.entriesMh_eq
  entries_eq := h'.entries_eq.trans h.entries_eq
  tableSize_eq := h'.tableSize_eq.trans h.tableSize_eq

/-- Failed sets in a row keep the table, and the count drifts by their number. -/
theorem FailedSets.drift (h : FailedSets ops target mh mp k mp') :
    SameTable ops target mh mp mp' ∧
      (0 < k → mp'.entryCount = (mp.entryCount + k) % 2 ^ 32) := by
  induction h with
  | none => exact ⟨⟨fun _ _ => rfl, rfl, rfl, rfl⟩, fun hk => absurd hk (Nat.lt_irrefl 0)⟩
  | @more k mp' mp'' key value s s' sets failed ih =>
    obtain ⟨hsame, hcount⟩ := ih
    rw [failed.eq_counted]
    refine ⟨hsame.trans (sameTable_counted mp'), ?_⟩
    intro _
    rw [Map.counted_entryCount, incrUint]
    cases sets with
    | none => rfl
    | more =>
      rw [hcount (Nat.succ_pos _)]
      omega

/-- No failed set is atomic: the table is as before and the count is not; and so for any
number of them. -/
theorem mapSet_failure_drifts (ops : MemOps σ) (target : Target) (mh : MemHandle) (mp : Map) :
    (∀ key value s mp' s', FailedSet ops target mh mp key value s mp' s' →
      ¬ Unchanged ops target mh mp mp') ∧
    ∀ k mp', FailedSets ops target mh mp k mp' → 0 < k →
      SameTable ops target mh mp mp' ∧ mp'.entryCount = (mp.entryCount + k) % 2 ^ 32 := by
  constructor
  · intro key value s mp' s' failed hsame
    have hcount := hsame.entryCount_eq
    rw [failed.eq_counted] at hcount
    exact incrUint_ne mp.entryCount hcount
  · intro k mp' sets hk
    exact ⟨sets.drift.1, sets.drift.2 hk⟩

end Counting

/-! ## A seventeenth key without memory for a larger table -/

/-- Sets pointer keys one after the other, each to the block of its address. -/
def setAll (target : Target) (mh : MemHandle) : List Addr → Map → Option Map
  | [], mp => some mp
  | a :: rest, mp =>
    match mapSet scriptedOps target mh mp (.ptr a) ⟨a, 8, .plain⟩ [] with
    | .ok (_, mp') _ => setAll target mh rest mp'
    | .error _ _ => none

theorem setAll_run {target : Target} {mh : MemHandle} {addrs : List Addr} {mp mp' : Map}
    (run : MapRun scriptedOps target .plain mh mp) (all : setAll target mh addrs mp = some mp') :
    MapRun scriptedOps target .plain mh mp' := by
  induction addrs generalizing mp with
  | nil =>
    cases all
    exact run
  | cons a rest ih =>
    simp only [setAll] at all
    split at all
    · rename_i call
      exact ih (run.step (.set call)) all
    · cases all

/-- Keys at 4096, 4112, ... -/
def sixteenKeys : List Addr := (List.range 16).map fun i => UInt64.ofNat (4096 + 16 * i)

/-- A map of sixteen keys, full to its high threshold: the next set asks for a larger table and
is refused. -/
theorem sixteenKeys_run : ∃ mp, MapRun scriptedOps ⟨true⟩ .plain ⟨16, 40, .plain⟩ mp ∧
    FailedSet scriptedOps ⟨true⟩ ⟨16, 40, .plain⟩ mp (.ptr 8192) ⟨8192, 8, .plain⟩ [] mp.counted
      [] := by
  have created : mapCreate scriptedOps .plain [16, 32] =
      .ok (⟨16, 40, .plain⟩, some (.created ⟨32, 1280, .plain⟩)) [] := rfl
  obtain ⟨mp, all, failed⟩ : ∃ mp,
      setAll ⟨true⟩ ⟨16, 40, .plain⟩ sixteenKeys (.created ⟨32, 1280, .plain⟩) = some mp ∧
      FailedSet scriptedOps ⟨true⟩ ⟨16, 40, .plain⟩ mp (.ptr 8192) ⟨8192, 8, .plain⟩ [] mp.counted
        [] :=
    ⟨_, rfl, ⟨⟨_, rfl⟩, rfl⟩, rfl⟩
  exact ⟨mp, setAll_run (.create created) all, failed⟩

/-- So a reachable map is not as before a set that failed. -/
theorem mapSet_seventeenth_counted : ∃ mp mp',
    MapRun scriptedOps ⟨true⟩ .plain ⟨16, 40, .plain⟩ mp ∧
    FailedSet scriptedOps ⟨true⟩ ⟨16, 40, .plain⟩ mp (.ptr 8192) ⟨8192, 8, .plain⟩ [] mp' [] ∧
    ¬ Unchanged scriptedOps ⟨true⟩ ⟨16, 40, .plain⟩ mp mp' := by
  obtain ⟨mp, run, failed⟩ := sixteenKeys_run
  refine ⟨mp, mp.counted, run, failed, ?_⟩
  intro same
  exact incrUint_ne mp.entryCount same.entryCount_eq

/-- At the sixteen keys: the table is kept, the count is one higher. -/
theorem mapSet_failure_drifts_sixteen : ∃ mp,
    MapRun scriptedOps ⟨true⟩ .plain ⟨16, 40, .plain⟩ mp ∧
    ¬ Unchanged scriptedOps ⟨true⟩ ⟨16, 40, .plain⟩ mp mp.counted ∧
    SameTable scriptedOps ⟨true⟩ ⟨16, 40, .plain⟩ mp mp.counted ∧
    mp.counted.entryCount = (mp.entryCount + 1) % 2 ^ 32 := by
  obtain ⟨mp, run, failed⟩ := sixteenKeys_run
  obtain ⟨unequal, drift⟩ :=
    mapSet_failure_drifts scriptedOps ⟨true⟩ ⟨16, 40, .plain⟩ mp
  exact ⟨mp, run, unequal _ _ _ _ _ failed, drift 1 _ (.more .none failed) Nat.one_pos⟩

end M65Tool.Guarantees.MapSetFailure
