import M65Tool.Source.HashMapRun
import M65Tool.Source.HeapBlocks
import M65Tool.Source.MemtblDestroy
import Mathlib.Tactic.Ring

/-!
# MAP-SIZING: table size, load and the decisions to resize

Over every run in which no allocation fails, and every allocator, the table has a power
of two times the initial size, holds at most as many entries as it counts, counts at most
half of its slots, and at least a quarter of them unless it has the initial size. Every
lookup that can read the table therefore stops, also the one that `do_set` makes in the
table it has just grown, so no call reaches the assert of `find_entry_pos`; and the two
thresholds are far enough apart that no resize undoes the one before it.

A lookup reads through `mem_p`, though, and a memory table can have lost the block: its own
map hides the record of the new entries when that of the old ones is deleted.
-/
namespace M65Tool.Guarantees.MapSizing
open Source Source.Mem Source.MapHash Source.HashMap Source.Machine Lib.Effect

structure Sizing (mp : Map) : Prop where
  shaped : mp.Shaped
  fits : mp.tableSize < 2 ^ 32
  power : ∃ k, mp.tableSize = initialTableSize * 2 ^ k
  occupied_le : mp.occupied ≤ mp.entryCount
  count_le : mp.entryCount ≤ mp.tableSize / 2
  quarter : mp.tableSize = initialTableSize ∨ mp.tableSize / 4 ≤ mp.entryCount

/-- The probe for the hash stops in the table, at a slot with this hash or an empty one. -/
def ProbeStops (mp : Map) (h : UInt32) : Prop :=
  ∃ pos < mp.tableSize, findEntryPos mp h = some pos ∧
    ((mp.slot pos).keyHash = h ∨ (mp.slot pos).keyHash = 0)

section Arithmetic

theorem incrUint_eq {n : Nat} (h : n + 1 < 2 ^ 32) : incrUint n = n + 1 := Nat.mod_eq_of_lt h

theorem decrUint_eq {n : Nat} (hpos : 0 < n) (h : n < 2 ^ 32) : decrUint n = n - 1 := by
  unfold decrUint
  omega

/-- A table that may shrink is a multiple of 64. -/
theorem halves {n : Nat} (hpow : ∃ k, n = initialTableSize * 2 ^ k) (hbig : n > initialTableSize) :
    ∃ k, n = initialTableSize * 2 ^ (k + 1) := by
  obtain ⟨k, hk⟩ := hpow
  cases k with
  | zero => simp only [pow_zero, Nat.mul_one] at hk; omega
  | succ k => exact ⟨k, hk⟩

theorem initialTableSize_le {n : Nat} (hpow : ∃ k, n = initialTableSize * 2 ^ k) :
    initialTableSize ≤ n := by
  obtain ⟨k, rfl⟩ := hpow
  exact Nat.le_mul_of_pos_right _ (Nat.two_pow_pos k)

end Arithmetic

namespace Sizing
variable {mp mp' : Map} {h : UInt32} {v : MemHandle}

/-- An empty slot is always left. -/
theorem exists_empty (hs : Sizing mp) : ∃ pos < mp.tableSize, (mp.slot pos).keyHash = 0 := by
  have hle := initialTableSize_le hs.power
  have hocc := hs.occupied_le
  have hcount := hs.count_le
  unfold initialTableSize at hle
  exact Map.exists_empty hs.shaped (by omega)

theorem finds (hs : Sizing mp) (h : UInt32) : ProbeStops mp h := by
  obtain ⟨e, he, hempty⟩ := hs.exists_empty
  obtain ⟨pos, hf⟩ := mp.ring.exists_finds h he (Map.keyAt_eq_none.mpr hempty)
  exact ⟨pos, hf.lt, findEntryPos_eq_some.mpr hf, Map.ring_stops_iff.mp hf.stops⟩

theorem lookup_returns (hs : Sizing mp) (h : UInt32) : ∃ r, lookup mp h = some r := by
  obtain ⟨e, he, hempty⟩ := hs.exists_empty
  exact lookup_isSome h he hempty

theorem incr (hs : Sizing mp) : incrUint mp.entryCount = mp.entryCount + 1 := by
  have := hs.count_le
  have := hs.fits
  exact incrUint_eq (by omega)

/-- An entry that is there to be deleted has been counted. -/
theorem decr (hs : Sizing mp) {pos : Nat} (hp : pos < mp.tableSize)
    (taken : (mp.slot pos).keyHash ≠ 0) :
    0 < mp.entryCount ∧ decrUint mp.entryCount = mp.entryCount - 1 := by
  have hlen : pos < mp.entries.length := by rw [hs.shaped]; exact hp
  have hocc : 0 < mp.occupied :=
    List.countP_pos_iff.mpr ⟨_, Map.slot_mem hlen, by simpa using taken⟩
  have := hs.occupied_le
  have := hs.count_le
  have := hs.fits
  exact ⟨by omega, decrUint_eq (by omega) (by omega)⟩

theorem created (entriesMh : MemHandle) : Sizing (.created entriesMh) where
  shaped := Map.created_shaped
  fits := show initialTableSize < 2 ^ 32 by decide
  power := ⟨0, rfl⟩
  occupied_le := by simp [Map.occupied, Map.created, List.countP_replicate, MapEntry.empty]
  count_le := Nat.zero_le _
  quarter := Or.inl rfl

theorem set_step (hs : Sizing mp) (step : SetStep mp h v true mp') : Sizing mp' := by
  have hincr := hs.incr
  have hocc := hs.occupied_le
  have hcount := hs.count_le
  cases step with
  | overwrite pos found taken =>
    have hlen : pos < mp.entries.length := by rw [hs.shaped]; exact findEntryPos_lt found
    have hstore := Map.occupied_store hlen ⟨h, v⟩
    rw [if_neg taken] at hstore
    refine ⟨hs.shaped.store _ _, hs.fits, hs.power, ?_, hcount, hs.quarter⟩
    simp only [Map.store_entryCount]
    split at hstore <;> omega
  | insert pos found free fits =>
    have hlen : pos < mp.counted.entries.length := by
      change pos < mp.entries.length
      rw [hs.shaped]
      exact findEntryPos_lt found
    have hstore := Map.occupied_store hlen ⟨h, v⟩
    rw [if_pos (show (mp.counted.slot pos).keyHash = 0 from free), Map.counted_occupied] at hstore
    refine ⟨Map.Shaped.store hs.shaped _ _, hs.fits, hs.power, ?_, ?_, ?_⟩
    · simp only [Map.store_entryCount, Map.counted_entryCount]
      split at hstore <;> omega
    · exact fits
    · have := hs.quarter
      simp only [Map.store_tableSize, Map.store_entryCount, Map.counted_tableSize,
        Map.counted_entryCount]
      omega
  | grow pos found free crowded newMh size =>
    have hle : (mp.counted.resized newMh (mp.tableSize * 2)).occupied ≤ mp.occupied :=
      Map.resized_occupied_le
    obtain ⟨k, hk⟩ := hs.power
    refine ⟨Map.resized_shaped, size, ⟨k + 1, ?_⟩, ?_, ?_, Or.inr ?_⟩
    · simp only [Map.resized_tableSize, hk, Nat.pow_succ]
      ring
    · simp only [Map.resized_entryCount, Map.counted_entryCount]
      omega
    · have := initialTableSize_le hs.power
      unfold initialTableSize at this
      simp only [Map.resized_entryCount, Map.counted_entryCount, Map.resized_tableSize]
      omega
    · simp only [Map.resized_entryCount, Map.counted_entryCount, Map.resized_tableSize]
      omega

/-- The table after the slot is emptied, before a shrink is considered. -/
theorem emptied (hs : Sizing mp) {pos : Nat} (hp : pos < mp.tableSize)
    (taken : (mp.slot pos).keyHash ≠ 0) :
    (mp.emptied pos).Shaped ∧ (mp.emptied pos).occupied + 1 = mp.occupied ∧
      (mp.emptied pos).entryCount + 1 = mp.entryCount := by
  have hlen : pos < mp.entries.length := by rw [hs.shaped]; exact hp
  have hstore := Map.occupied_store hlen .empty
  rw [if_neg taken, if_pos (show MapEntry.empty.keyHash = 0 from rfl)] at hstore
  obtain ⟨hpos, hdecr⟩ := hs.decr hp taken
  rw [← Map.emptied_occupied] at hstore
  refine ⟨hs.shaped.emptied pos, by omega, ?_⟩
  simp only [Map.emptied_entryCount]
  omega

theorem delete_step (hs : Sizing mp) (step : DeleteStep mp h true mp') : Sizing mp' := by
  have hocc := hs.occupied_le
  have hcount := hs.count_le
  have hquarter := hs.quarter
  cases step with
  | remove pos found taken stays =>
    obtain ⟨hshape, hoccE, hcountE⟩ := hs.emptied (findEntryPos_lt found) taken
    refine ⟨hshape, hs.fits, hs.power, by omega, ?_, ?_⟩
    · simp only [Map.emptied_tableSize]
      omega
    · have hle := initialTableSize_le hs.power
      simp only [Shrinks, Map.emptied_tableSize, not_and, not_lt] at stays
      simp only [Map.emptied_tableSize]
      omega
  | shrink pos found taken shrinks newMh =>
    obtain ⟨hshape, hoccE, hcountE⟩ := hs.emptied (findEntryPos_lt found) taken
    obtain ⟨hlow, hbig⟩ := shrinks
    rw [Map.emptied_tableSize] at hlow hbig
    have hle : ((mp.emptied pos).resized newMh (mp.tableSize / 2)).occupied ≤
        (mp.emptied pos).occupied := Map.resized_occupied_le
    obtain ⟨k, hk⟩ := halves hs.power hbig
    have hk2 : mp.tableSize = 64 * 2 ^ k := by
      rw [hk, Nat.pow_succ, initialTableSize]
      ring
    have hpow := Nat.two_pow_pos k
    have hfits := hs.fits
    refine ⟨Map.resized_shaped, ?_, ⟨k, ?_⟩, ?_, ?_, Or.inr ?_⟩ <;>
      simp only [Map.resized_tableSize, Map.resized_entryCount, initialTableSize] at * <;> omega

end Sizing

section Runs
variable {σ : Type} {ops : MemOps σ} {target : Target} {ma : MemAllocator} {mh : MemHandle}
  {mp : Map}

theorem run_sizing (reads : PointerReads ops) (run : MapRun (granting ops) target ma mh mp) :
    Sizing mp :=
  run.invariant reads Sizing.created (fun _ _ _ _ hs _ step => hs.set_step step)
    (fun _ _ _ hs step => hs.delete_step step)

end Runs

/-- In the table that `do_set` has just grown its second lookup stops too. -/
theorem grown_finds {mp : Map} (hs : Sizing mp) (newMh : MemHandle) (h : UInt32) :
    ProbeStops (mp.counted.resized newMh (mp.tableSize * 2)) h := by
  have hle : (mp.counted.resized newMh (mp.tableSize * 2)).occupied ≤ mp.occupied :=
    Map.resized_occupied_le
  have hocc := hs.occupied_le
  have hcount := hs.count_le
  have hinit := initialTableSize_le hs.power
  unfold initialTableSize at hinit
  obtain ⟨e, he, hempty⟩ := Map.exists_empty
    (Map.resized_shaped : (mp.counted.resized newMh (mp.tableSize * 2)).Shaped)
    (by simp only [Map.resized_tableSize]; omega)
  obtain ⟨pos, hpos⟩ :=
    (mp.counted.resized newMh (mp.tableSize * 2)).ring.exists_finds h he
      (Map.keyAt_eq_none.mpr hempty)
  exact ⟨pos, hpos.lt, findEntryPos_eq_some.mpr hpos, Map.ring_stops_iff.mp hpos.stops⟩

/-! ## No call reaches the assert -/

/-- No lookup in a table of the allocators themselves runs through it. -/
structure AllocatorsStop {σ : Type} (ops : MemOps σ) : Prop where
  memAlloc : ∀ ma n s s', ops.memAlloc ma n s ≠ .error .noEntryPos s'
  memFree : ∀ handle s s', ops.memFree handle s ≠ .error .noEntryPos s'
  memP : ∀ handle s s', ops.memP handle s ≠ .error .noEntryPos s'
  staleStore : ∀ ptr n s s', ops.staleStore ptr n s ≠ .error .noEntryPos s'

section FallThrough
variable {σ : Type} {ops : MemOps σ} {target : Target} {mh : MemHandle} {mp : Map} {h : UInt32}

/-- No run of `x` ends in the assert of `find_entry_pos`. -/
abbrev NeverFallsThrough {α : Type} (x : C σ α) : Prop :=
  Triple (fun _ => True) x (fun _ _ => True) (fun fault _ => fault ≠ .noEntryPos)

theorem NeverFallsThrough.ne {α : Type} {x : C σ α} (hx : NeverFallsThrough x) (s s' : σ) :
    x s ≠ .error .noEntryPos s' :=
  fun hrun => hx.of_error trivial hrun rfl

theorem ret_total {α : Type} (a : α) : NeverFallsThrough (pure a : C σ α) :=
  .ret fun _ _ => trivial

theorem orNoEntryPos_total {α : Type} {x : Option α} {a : α} (hx : x = some a) :
    NeverFallsThrough (orNoEntryPos x : C σ α) := by
  rw [hx]
  exact ret_total a

variable (stop : AllocatorsStop ops)
include stop

theorem deref_total (handle : MemHandle) : NeverFallsThrough (deref ops handle) :=
  .seq (.avoids (stop.memP handle)) fun _ => .cond (fun _ => .stop (by simp)) fun _ => ret_total _

theorem derefTable_total : NeverFallsThrough (derefTable ops mh mp) :=
  .seq (deref_total stop mh) fun _ => .seq (.avoids (stop.memP mp.entriesMh)) fun _ =>
    .cond (fun _ => .stop (by simp)) fun _ => ret_total _

theorem mapIsValid_total : NeverFallsThrough (mapIsValid ops mh mp) :=
  .cond (fun _ => .seq (deref_total stop mh) fun _ => ret_total _) fun _ => ret_total _

theorem hashStr_total (key : Str) : NeverFallsThrough (hashStr ops target key) := by
  refine .seq (.cond (fun _ => ret_total _) fun _ => deref_total stop _) fun _ => ?_
  cases hashBytes target key.bytes with
  | none => exact .stop (by simp)
  | some hash => exact ret_total hash

theorem resize_total (isGrow : Bool) : NeverFallsThrough (resizeEntriesTable ops mh mp isGrow) := by
  refine .seq (Q := fun _ _ => True) ?_ fun n => .seq (Q := fun _ _ => True) ?_ fun newMh =>
    .seq (.avoids (stop.memP newMh)) fun ptr => .cond (fun _ => ret_total _) fun _ =>
    .seq (deref_total stop _) fun _ => .seq (.avoids (stop.memFree _)) fun _ => ret_total _
  · unfold resizedTableSize
    exact .cond (fun _ => .cond (fun _ => ret_total _) fun _ => .stop (by simp)) fun _ =>
      ret_total _
  · refine .seq (.avoids (stop.memAlloc _ _)) fun handle => .cond (fun _ => ?_) fun _ => ret_total _
    exact .seq (deref_total stop handle) fun _ => ret_total handle

theorem doSet_total (hs : Sizing mp) (v : MemHandle) :
    NeverFallsThrough (doSet ops mh mp h v) := by
  obtain ⟨pos, -, hf, -⟩ := hs.finds h
  refine .seq (derefTable_total stop) fun entries => .seq (orNoEntryPos_total hf) fun pos =>
    .cond (fun _ => .cond (fun _ => ?_) fun _ => ret_total _) fun _ => ret_total _
  refine .seq ((resize_total stop true).knowing fun s r s' hrun => resizeEntriesTable_ok hrun) ?_
  rintro ⟨grown, resized⟩
  refine .given fun hshape => .cond (fun hgrown => ?_) fun _ => ret_total _
  rcases hshape with ⟨hfalse, -⟩ | ⟨-, -, newMh, hresized⟩
  · exact absurd (hfalse.symm.trans hgrown) Bool.false_ne_true
  · obtain ⟨q, -, hq, -⟩ := grown_finds hs newMh h
    have hq' : findEntryPos resized h = some q := by
      rw [show resized = _ from hresized]
      exact hq
    exact .seq (derefTable_total stop) fun _ => .seq (orNoEntryPos_total hq') fun _ =>
      .seq (.avoids (stop.staleStore _ _)) fun _ => ret_total _

theorem doDelete_total (hs : Sizing mp) : NeverFallsThrough (doDelete ops mh mp h) := by
  obtain ⟨pos, -, hf, -⟩ := hs.finds h
  exact .seq (derefTable_total stop) fun _ => .seq (orNoEntryPos_total hf) fun pos =>
    .cond (fun _ => ret_total _) fun _ => .cond (fun _ => resize_total stop false) fun _ =>
    ret_total _

theorem doGet_total (hs : Sizing mp) : NeverFallsThrough (doGet ops mh mp h) := by
  obtain ⟨r, hl⟩ := hs.lookup_returns h
  exact .seq (derefTable_total stop) fun _ => orNoEntryPos_total hl

theorem mapSet_total (hs : Sizing mp) (key : MapKey) (v : MemHandle) :
    NeverFallsThrough (mapSet ops target mh mp key v) := by
  cases key with
  | str key =>
    exact .seq (mapIsValid_total stop) fun _ => .cond (fun _ => .seq (.avoids (stop.memP v))
      fun _ => .cond (fun _ => ret_total _) fun _ => .seq (hashStr_total stop key) fun _ =>
      doSet_total stop hs v) fun _ => ret_total _
  | ptr key =>
    exact .seq (mapIsValid_total stop) fun _ => .cond (fun _ => .cond
      (fun _ => doSet_total stop hs v) fun _ => ret_total _) fun _ => ret_total _

theorem mapGet_total (hs : Sizing mp) (key : MapKey) :
    NeverFallsThrough (mapGet ops target mh mp key) := by
  cases key with
  | str key =>
    exact .seq (mapIsValid_total stop) fun _ => .cond (fun _ => .seq (hashStr_total stop key)
      fun _ => doGet_total stop hs) fun _ => ret_total _
  | ptr key =>
    exact .seq (mapIsValid_total stop) fun _ => .cond (fun _ => doGet_total stop hs) fun _ =>
      ret_total _

theorem mapDelete_total (hs : Sizing mp) (key : MapKey) :
    NeverFallsThrough (mapDelete ops target mh mp key) := by
  cases key with
  | str key => exact .seq (hashStr_total stop key) fun _ => doDelete_total stop hs
  | ptr key => exact doDelete_total stop hs

end FallThrough

/-! ## The thresholds are apart -/

section Hysteresis
variable {mp mp' mp'' : Map} {h h' : UInt32} {v : MemHandle}

/-- After a set that changed the table size a delete does not. -/
theorem delete_keeps_grown (hs : Sizing mp) (grew : SetStep mp h v true mp')
    (hne : mp'.tableSize ≠ mp.tableSize) (step : DeleteStep mp' h' true mp'') :
    mp''.tableSize = mp'.tableSize := by
  have hincr := hs.incr
  cases grew with
  | overwrite => exact absurd rfl hne
  | insert => exact absurd rfl hne
  | grow pos found free crowded newMh size =>
    cases step with
    | remove => rfl
    | shrink q found' taken shrinks newMh' =>
      exfalso
      have hocc := hs.incr
      obtain ⟨hlow, -⟩ := shrinks
      obtain ⟨hpos, hdecr⟩ := (hs.set_step (.grow (v := v) pos found free crowded newMh size)).decr
        (findEntryPos_lt found') taken
      simp only [Map.emptied_entryCount, Map.emptied_tableSize] at hlow
      rw [hdecr] at hlow
      simp only [Map.resized_entryCount, Map.resized_tableSize, Map.counted_entryCount] at hlow
      omega

/-- After a delete that changed the table size a set does not. -/
theorem set_keeps_shrunk (hs : Sizing mp) (shrank : DeleteStep mp h true mp')
    (hne : mp'.tableSize ≠ mp.tableSize) (step : SetStep mp' h' v true mp'') :
    mp''.tableSize = mp'.tableSize := by
  cases shrank with
  | remove => exact absurd rfl hne
  | shrink pos found taken shrinks newMh =>
    cases step with
    | overwrite => rfl
    | insert => rfl
    | grow q found' free crowded newMh' size =>
      exfalso
      have hs' := hs.delete_step (.shrink pos found taken shrinks newMh)
      obtain ⟨-, -, hcount⟩ := hs.emptied (findEntryPos_lt found) taken
      obtain ⟨hlow, hbig⟩ := shrinks
      rw [hs'.incr] at crowded
      simp only [Map.resized_entryCount, Map.resized_tableSize] at crowded
      simp only [Map.emptied_tableSize] at hlow
      obtain ⟨k, hk⟩ := halves hs.power hbig
      have hk2 : mp.tableSize = 64 * 2 ^ k := by
        rw [hk, Nat.pow_succ, initialTableSize]
        ring
      omega

end Hysteresis

/-! ## Every reachable map -/

section Lookups
variable {σ : Type} {ops : MemOps σ} {mh : MemHandle} {mp : Map} {h : UInt32} {s : σ}

/-- `find_entry_pos`, with its accesses through both handles. -/
def locate (ops : MemOps σ) (mh : MemHandle) (mp : Map) (keyHash : UInt32) : C σ Nat := do
  let _ ← derefTable ops mh mp
  orNoEntryPos (findEntryPos mp keyHash)

/-- `find_entry_pos` returns a position in the table, of a slot with this hash or an empty one. -/
def MeetsSlot (ops : MemOps σ) (mh : MemHandle) (mp : Map) (h : UInt32) (s : σ) : Prop :=
  ∃ pos s', locate ops mh mp h s = .ok pos s' ∧ pos < mp.tableSize ∧
    ((mp.slot pos).keyHash = h ∨ (mp.slot pos).keyHash = 0)

theorem meetsSlot_iff (reads : PointerReads ops) (stops : ProbeStops mp h) :
    MeetsSlot ops mh mp h s ↔ Standing ops mh mp s := by
  constructor
  · rintro ⟨pos, s', hrun, -⟩
    obtain ⟨entries, s1, htable, -⟩ := bind_ok_inv hrun
    exact standing_of_ok reads htable
  · rintro ⟨entries, htable⟩
    obtain ⟨pos, hp, hf, hstop⟩ := stops
    refine ⟨pos, s, ?_, hp, hstop⟩
    rw [locate, bind_of_ok htable, hf]
    rfl

end Lookups

section Runs
variable {σ : Type} {ops : MemOps σ} {target : Target} {ma : MemAllocator} {mh : MemHandle}
  {mp mp' : Map} {key : MapKey} {v : MemHandle} {b : Bool} {s s' : σ}

theorem set_of_resized (reads : PointerReads ops)
    (call : mapSet ops target mh mp key v s = .ok (b, mp') s')
    (hne : mp'.tableSize ≠ mp.tableSize) : ∃ h, SetStep mp h v true mp' := by
  rcases mapSet_cases reads call with ⟨-, rfl⟩ | ⟨h, -, -, hstep⟩
  · exact absurd rfl hne
  · cases b with
    | true => exact ⟨h, hstep⟩
    | false =>
      cases hstep
      exact absurd rfl hne

theorem delete_of_resized (reads : PointerReads ops)
    (call : mapDelete ops target mh mp key s = .ok (b, mp') s')
    (hne : mp'.tableSize ≠ mp.tableSize) : ∃ h, DeleteStep mp h true mp' := by
  obtain ⟨h, -, hstep⟩ := mapDelete_cases reads call
  cases b with
  | true => exact ⟨h, hstep⟩
  | false => cases hstep <;> exact absurd rfl hne

/-- A delete that reports success counts one entry off. -/
theorem delete_counts_off (reads : PointerReads ops) (hs : Sizing mp)
    (call : mapDelete ops target mh mp key s = .ok (true, mp') s') :
    mp'.entryCount + 1 = mp.entryCount := by
  obtain ⟨h, -, hstep⟩ := mapDelete_cases reads call
  cases hstep with
  | remove pos found taken => exact (hs.emptied (findEntryPos_lt found) taken).2.2
  | shrink pos found taken => exact (hs.emptied (findEntryPos_lt found) taken).2.2

/-- The sizing of every reachable map, over any allocator. The probe stops, also in the table
that a set grows it to, so that `find_entry_pos` meets a slot exactly where `mem_p` finds the
two blocks of the map: always over the plain allocator. And what follows from the sizing for
the calls. -/
theorem mapRun_sizing (reads : PointerReads ops) (run : MapRun (granting ops) target ma mh mp) :
    (mp.entries.length = mp.tableSize ∧ (∃ k, mp.tableSize = 32 * 2 ^ k) ∧
      mp.occupied ≤ mp.entryCount ∧ mp.entryCount ≤ mp.tableSize / 2 ∧
      (mp.tableSize = 32 ∨ mp.tableSize / 4 ≤ mp.entryCount)) ∧
    (∀ h, ProbeStops mp h ∧
      ∀ newMh, ProbeStops (mp.counted.resized newMh (mp.tableSize * 2)) h) ∧
    (∀ h s, MeetsSlot ops mh mp h s ↔ Standing ops mh mp s) ∧
    (∀ h newMh s, MeetsSlot ops mh (mp.counted.resized newMh (mp.tableSize * 2)) h s ↔
      Standing ops mh (mp.counted.resized newMh (mp.tableSize * 2)) s) ∧
    (PlainServes ops → ma = .plain → ∀ s, Standing ops mh mp s) ∧
    (AllocatorsStop ops → ∀ key v s s',
      mapSet ops target mh mp key v s ≠ .error .noEntryPos s' ∧
      mapGet ops target mh mp key s ≠ .error .noEntryPos s' ∧
      mapDelete ops target mh mp key s ≠ .error .noEntryPos s') ∧
    (∀ key s s' mp', mapDelete ops target mh mp key s = .ok (true, mp') s' →
      mp'.entryCount + 1 = mp.entryCount) ∧
    (∀ key v b s s' mp', mapSet ops target mh mp key v s = .ok (b, mp') s' →
      mp'.tableSize ≠ mp.tableSize →
      ∀ key' b' t t' mp'', mapDelete ops target mh mp' key' t = .ok (b', mp'') t' →
        mp''.tableSize = mp'.tableSize) ∧
    (∀ key b s s' mp', mapDelete ops target mh mp key s = .ok (b, mp') s' →
      mp'.tableSize ≠ mp.tableSize →
      ∀ key' v b' t t' mp'', mapSet ops target mh mp' key' v t = .ok (b', mp'') t' →
        mp''.tableSize = mp'.tableSize) := by
  have hs := run_sizing reads run
  refine ⟨⟨hs.shaped, hs.power, hs.occupied_le, hs.count_le, hs.quarter⟩, ?_, ?_, ?_, ?_, ?_, ?_,
    ?_, ?_⟩
  · exact fun h => ⟨hs.finds h, fun newMh => grown_finds hs newMh h⟩
  · exact fun h s => meetsSlot_iff reads (hs.finds h)
  · exact fun h newMh s => meetsSlot_iff reads (grown_finds hs newMh h)
  · rintro serves rfl s
    exact (run.attached serves.granting reads.granting).standing serves s
  · intro stop key v s s'
    exact ⟨(mapSet_total stop hs key v).ne s s', (mapGet_total stop hs key).ne s s',
      (mapDelete_total stop hs key).ne s s'⟩
  · exact fun key s s' mp' call => delete_counts_off reads hs call
  · intro key v b s s' mp' call hne key' b' t t' mp'' call'
    obtain ⟨h, hgrew⟩ := set_of_resized reads call hne
    by_contra hne'
    obtain ⟨h', hstep⟩ := delete_of_resized reads call' hne'
    exact hne' (delete_keeps_grown hs hgrew hne hstep)
  · intro key b s s' mp' call hne key' v b' t t' mp'' call'
    obtain ⟨h, hshrank⟩ := delete_of_resized reads call hne
    by_contra hne'
    obtain ⟨h', hstep⟩ := set_of_resized reads call' hne'
    exact hne' (set_keeps_shrunk hs hshrank hne hstep)

end Runs

/-! ## A table that grows and shrinks again -/

theorem bumpOps_stop : AllocatorsStop bumpOps where
  memAlloc ma n s s' := by cases ma <;> exact nofun
  memFree handle s s' := by
    change memFree bumpLibc (baseSpec bumpLibc) handle s ≠ _
    unfold memFree
    split
    · cases handle.allocator <;> exact nofun
    · exact nofun
  memP handle s s' := by
    have found : ∃ a, ∀ s, (baseOps bumpLibc).memP handle s = .ok a s := baseOps_memP handle
    obtain ⟨a, hrun⟩ := found
    change (baseOps bumpLibc).memP handle s ≠ _
    rw [hrun]
    exact nofun
  staleStore _ _ _ _ := nofun

/-- Blocks at 16384, 17424, ... -/
def blockAddrs (count : Nat) : List Addr :=
  (List.range count).map fun i => UInt64.ofNat (16384 + 1040 * i)

/-- Seventeen keys are set, so that the table grows, and two deleted, so that it shrinks. -/
def grownAndShrunk : List MapCall :=
  setBlocks (blockAddrs 17) ++ (blockAddrs 2).map fun a => .delete (.ptr a)

/-! ## A map in the blocks of a memory table -/

/-- Requests are answered from the script. -/
def scriptedHeap : HeapOps (List Addr) :=
  ⟨scriptedLibc.malloc, scriptedLibc.realloc, scriptedLibc.free, scriptedLibc.staleStore⟩

/-- The allocators of mem.c, and the table whose struct is at 16. -/
def tableOps : MemOps (World (List Addr)) := chainOps scriptedHeap ⟨true⟩ [16]

/-- The table gets the blocks at 16, 64 and 256; the map those at 2048 and 4096, and for its
larger table the one at 8208, whose record has the home of the record of 4096. -/
def startWorld : World (List Addr) :=
  ⟨.dfl, [], fun _ => none, fun _ => none, [16, 64, 256, 2048, 4096, 8208]⟩

def tableMapMh : MemHandle := ⟨2048, 40, .memtbl 16⟩

/-- The table is created, then the map in its blocks, then sixteen keys are set. -/
structure SixteenKeys (mp₀ mp : Map) (w₁ w₂ w : World (List Addr)) : Prop where
  table : memtblCreate (chainOps scriptedHeap ⟨true⟩ []) .plain startWorld =
    .ok ⟨16, 32, .plain⟩ w₁
  created : mapCreate (granting tableOps) (.memtbl 16) w₁ = .ok (tableMapMh, some mp₀) w₂
  set : runCalls (granting tableOps) ⟨true⟩ tableMapMh anyCall (setBlocks (blockAddrs 16)) mp₀ w₂ =
    some (mp, w)

theorem SixteenKeys.run {mp₀ mp : Map} {w₁ w₂ w : World (List Addr)}
    (sixteen : SixteenKeys mp₀ mp w₁ w₂ w) :
    MapRun (granting tableOps) ⟨true⟩ (.memtbl 16) tableMapMh mp :=
  runCalls_run (.create sixteen.created) sixteen.set

/-- Seventeen keys and two deletes over the plain allocator, and sixteen over the table. -/
theorem mapRun_sizing_resized :
    (∃ mp s, runCalls (granting bumpOps) ⟨true⟩ bumpMapMh anyCall grownAndShrunk bumpMap ⟨2, .dfl⟩ =
        some (mp, s) ∧ mp.tableSize = 32 ∧ mp.entryCount = 15 ∧ mp.occupied ≤ 15 ∧
      (∀ h, MeetsSlot bumpOps bumpMapMh mp h s) ∧
      ∀ key v s', mapSet bumpOps ⟨true⟩ bumpMapMh mp key v s ≠ .error .noEntryPos s') ∧
    ∃ mp₀ mp w₁ w₂ w, SixteenKeys mp₀ mp w₁ w₂ w ∧ mp.occupied ≤ mp.entryCount ∧
      MeetsSlot tableOps tableMapMh mp (hashPtr ⟨true⟩ 65536) w := by
  constructor
  · obtain ⟨mp, s, all, hsize, hcount⟩ : ∃ mp s,
        runCalls (granting bumpOps) ⟨true⟩ bumpMapMh anyCall grownAndShrunk bumpMap ⟨2, .dfl⟩ =
          some (mp, s) ∧ mp.tableSize = 32 ∧ mp.entryCount = 15 := ⟨_, _, rfl, rfl, rfl⟩
    obtain ⟨⟨-, -, hocc, -⟩, -, hmeets, -, hstands, hstop, -⟩ :=
      mapRun_sizing bumpOps_reads (runCalls_run (.create bumpMap_created) all)
    exact ⟨mp, s, all, hsize, hcount, hcount ▸ hocc,
      fun h => (hmeets h s).mpr (hstands (memOps_plainServes rfl) rfl s),
      fun key v s' => (hstop bumpOps_stop key v s s').1⟩
  · obtain ⟨mp₀, mp, w₁, w₂, w, sixteen, stands⟩ : ∃ mp₀ mp w₁ w₂ w,
        SixteenKeys mp₀ mp w₁ w₂ w ∧ Standing tableOps tableMapMh mp w :=
      ⟨_, _, _, _, _, ⟨rfl, rfl, rfl⟩, _, rfl⟩
    obtain ⟨⟨-, -, hocc, -⟩, -, hmeets, -⟩ :=
      mapRun_sizing (memOps_pointerReads (chainSpec_keeps [16])) sixteen.run
    exact ⟨mp₀, mp, w₁, w₂, w, sixteen, hocc, (hmeets _ w).mpr stands⟩

/-- The seventeenth key over the memory table: every request is granted, but the second
`find_entry_pos` reads through a null pointer. The table of the allocator had the record of the
new entries behind that of the old ones, which `mem_free` has just deleted. -/
theorem entries_not_found : ∃ mp₀ mp w₁ w₂ w w' grown w'', SixteenKeys mp₀ mp w₁ w₂ w ∧
    resizeEntriesTable (granting tableOps) tableMapMh mp.counted true w = .ok (true, grown) w' ∧
    locate tableOps tableMapMh grown (hashPtr ⟨true⟩ 65536) w' = .error .nullDereference w' ∧
    ¬ MeetsSlot tableOps tableMapMh grown (hashPtr ⟨true⟩ 65536) w' ∧
    mapSet tableOps ⟨true⟩ tableMapMh mp (.ptr 65536) ⟨65536, 8, .plain⟩ w =
      .error .nullDereference w'' := by
  obtain ⟨mp₀, mp, w₁, w₂, w, w', grown, w'', sixteen, hresize, hlocate, hset⟩ :
      ∃ mp₀ mp w₁ w₂ w w' grown w'', SixteenKeys mp₀ mp w₁ w₂ w ∧
        resizeEntriesTable (granting tableOps) tableMapMh mp.counted true w =
          .ok (true, grown) w' ∧
        locate tableOps tableMapMh grown (hashPtr ⟨true⟩ 65536) w' =
          .error .nullDereference w' ∧
        mapSet tableOps ⟨true⟩ tableMapMh mp (.ptr 65536) ⟨65536, 8, .plain⟩ w =
          .error .nullDereference w'' :=
    ⟨_, _, _, _, _, _, _, _, ⟨rfl, rfl, rfl⟩, rfl, rfl, rfl⟩
  refine ⟨mp₀, mp, w₁, w₂, w, w', grown, w'', sixteen, hresize, hlocate, ?_, hset⟩
  rintro ⟨pos, w₃, hrun, -⟩
  rw [hlocate] at hrun
  cases hrun

end M65Tool.Guarantees.MapSizing
