import M65Tool.Guarantees.MapSizing
import M65Tool.Source.HashMapBlocks

/-!
# MAP-REFUSALS: a map whose table is never enlarged

A program works with one map, and does what it likes with its own blocks in between. Any
request may be refused; none for a larger table is granted, since what a set does then is
not defined. A set that fails has counted its entry all the same, so the count drifts;
while fewer than 2^31 sets have failed it stays above the number of the entries and below
the range of an unsigned int, at most half of the slots are taken, and every lookup stops.
The map has its two blocks throughout, and its destruction gives both back.
-/
namespace M65Tool.Guarantees.MapRefusals
open Source Source.Mem Source.MapHash Source.HashMap Lib.Effect Lib.Ownership MapSizing

/-- The map when this many sets have failed, in the table that it was created with. -/
structure Steady (failed : Nat) (mp : Map) : Prop where
  shaped : mp.Shaped
  tableSize : mp.tableSize = 32
  occupied_le : mp.occupied ≤ mp.entryCount
  half : mp.occupied ≤ 16
  count_le : mp.entryCount ≤ 16 + failed

namespace Steady
variable {failed : Nat} {mp mp' : Map} {h : UInt32} {v : MemHandle} {b : Bool}

theorem created (entriesMh : MemHandle) : Steady 0 (.created entriesMh) where
  shaped := Map.created_shaped
  tableSize := rfl
  occupied_le := (Sizing.created entriesMh).occupied_le
  half := (Sizing.created entriesMh).occupied_le.trans (Nat.zero_le 16)
  count_le := Nat.zero_le 16

theorem free_slot (hs : Steady failed mp) : ∃ pos < mp.tableSize, (mp.slot pos).keyHash = 0 := by
  have hhalf := hs.half
  have hsize := hs.tableSize
  exact Map.exists_empty hs.shaped (by omega)

theorem lookup_stops (hs : Steady failed mp) (h : UInt32) : ∃ pos, findEntryPos mp h = some pos := by
  obtain ⟨e, he, hempty⟩ := hs.free_slot
  obtain ⟨pos, hf⟩ := mp.ring.exists_finds h he (Map.keyAt_eq_none.mpr hempty)
  exact ⟨pos, findEntryPos_eq_some.mpr hf⟩

theorem lookup_returns (hs : Steady failed mp) (h : UInt32) : ∃ r, lookup mp h = some r := by
  obtain ⟨pos, hpos⟩ := hs.lookup_stops h
  exact ⟨_, by rw [lookup, hpos]; rfl⟩

theorem slot_stored (hs : Steady failed mp) {pos : Nat} (hp : pos < mp.tableSize) :
    pos < mp.entries.length := by
  rw [hs.shaped]
  exact hp

/-- Every outcome of a set that leaves the size keeps the map steady; one that fails counts. -/
theorem set_step (hs : Steady failed mp) (few : failed < 2 ^ 31)
    (same : mp'.tableSize = mp.tableSize) (step : SetStep mp h v b mp') :
    Steady (failed + (!b).toNat) mp' := by
  have hsize := hs.tableSize
  have hocc := hs.occupied_le
  have hhalf := hs.half
  have hcount := hs.count_le
  have hincr : incrUint mp.entryCount = mp.entryCount + 1 := incrUint_eq (by omega)
  cases step with
  | overwrite pos found taken =>
    have hstore := Map.occupied_store (hs.slot_stored (findEntryPos_lt found)) ⟨h, v⟩
    rw [if_neg taken] at hstore
    have hle : (mp.store pos ⟨h, v⟩).occupied ≤ mp.occupied := by
      split at hstore <;> omega
    exact ⟨hs.shaped.store _ _, hsize, Nat.le_trans hle hocc, Nat.le_trans hle hhalf, hcount⟩
  | insert pos found free fits =>
    have hlen : pos < mp.counted.entries.length := hs.slot_stored (findEntryPos_lt found)
    have hstore := Map.occupied_store hlen ⟨h, v⟩
    rw [if_pos (show (mp.counted.slot pos).keyHash = 0 from free), Map.counted_occupied] at hstore
    have hle : (mp.counted.store pos ⟨h, v⟩).occupied ≤ mp.occupied + 1 := by
      split at hstore <;> omega
    have hfit : mp.entryCount + 1 ≤ 16 := by
      rw [hincr, hsize] at fits
      exact fits
    refine ⟨Map.Shaped.store hs.shaped _ _, hsize, ?_, by omega, ?_⟩ <;>
      simp only [Map.store_entryCount, Map.counted_entryCount] <;> omega
  | grow pos found free crowded newMh size =>
    rw [Map.resized_tableSize] at same
    omega
  | growFailed pos found free crowded =>
    refine ⟨hs.shaped, hsize, ?_, hhalf, ?_⟩ <;>
      simp only [Map.counted_entryCount, Map.counted_occupied, Bool.not_false, Bool.toNat_true] <;>
      omega

/-- The table when a slot has been emptied. -/
theorem emptied (hs : Steady failed mp) (few : failed < 2 ^ 31) {pos : Nat}
    (hp : pos < mp.tableSize) (taken : (mp.slot pos).keyHash ≠ 0) :
    Steady failed (mp.emptied pos) := by
  have hocc := hs.occupied_le
  have hhalf := hs.half
  have hcount := hs.count_le
  have hlen := hs.slot_stored hp
  have hstore := Map.occupied_store hlen .empty
  rw [if_neg taken, if_pos (show MapEntry.empty.keyHash = 0 from rfl), ← Map.emptied_occupied]
    at hstore
  have hpos : 0 < mp.occupied :=
    List.countP_pos_iff.mpr ⟨_, Map.slot_mem hlen, by simpa using taken⟩
  have hdecr : decrUint mp.entryCount = mp.entryCount - 1 := decrUint_eq (by omega) (by omega)
  refine ⟨hs.shaped.emptied pos, hs.tableSize, ?_, by omega, ?_⟩ <;>
    simp only [Map.emptied_entryCount] <;> omega

/-- The table is never larger than at first, so no delete shrinks it. -/
theorem delete_step (hs : Steady failed mp) (few : failed < 2 ^ 31) (step : DeleteStep mp h b mp') :
    Steady failed mp' := by
  have stays : ∀ pos, ¬ Shrinks (mp.emptied pos) := by
    intro pos shrinks
    have hbig := shrinks.2
    rw [Map.emptied_tableSize, hs.tableSize] at hbig
    exact absurd hbig (by decide)
  cases step with
  | absent => exact hs
  | remove pos found taken stays => exact hs.emptied few (findEntryPos_lt found) taken
  | shrink pos found taken shrinks newMh => exact absurd shrinks (stays pos)
  | shrinkFailed pos found taken shrinks => exact absurd shrinks (stays pos)

end Steady

/-! ## A program with a map -/

section Program
variable {σ : Type} {libc : Libc σ} {live : σ → Addr → Prop} {target : Target} {rest : Set Addr}
  {mh v : MemHandle} {mp mp' : Map} {failed : Nat} {key : MapKey} {b : Bool} {s s' : σ}

/-- What a program with a map at `mh` comes to: its own blocks, the map, and how many sets
have failed. -/
inductive Program (libc : Libc σ) (live : σ → Addr → Prop) (target : Target) (mh : MemHandle) :
    Set Addr → Map → Nat → σ → Prop
  | create {rest : Set Addr} {mp : Map} {s s' : σ} (before : ∀ a, live s a ↔ a ∈ rest)
      (call : mapCreate (baseOps libc) .plain s = .ok (mh, some mp) s') :
      Program libc live target mh rest mp 0 s'
  | set {rest : Set Addr} {mp mp' : Map} {failed : Nat} {key : MapKey} {v : MemHandle} {b : Bool}
      {s s' : σ} (before : Program libc live target mh rest mp failed s)
      (call : mapSet (baseOps libc) target mh mp key v s = .ok (b, mp') s')
      (same : mp'.tableSize = mp.tableSize) :
      Program libc live target mh rest mp' (failed + (!b).toNat) s'
  | get {rest : Set Addr} {mp : Map} {failed : Nat} {key : MapKey} {r : MemHandle} {s s' : σ}
      (before : Program libc live target mh rest mp failed s)
      (call : mapGet (baseOps libc) target mh mp key s = .ok r s') :
      Program libc live target mh rest mp failed s'
  | delete {rest : Set Addr} {mp mp' : Map} {failed : Nat} {key : MapKey} {b : Bool} {s s' : σ}
      (before : Program libc live target mh rest mp failed s)
      (call : mapDelete (baseOps libc) target mh mp key s = .ok (b, mp') s') :
      Program libc live target mh rest mp' failed s'
  /-- anything else, that neither frees the map's blocks nor makes blocks out of them -/
  | other {rest rest' : Set Addr} {mp : Map} {failed : Nat} {s s' : σ}
      (before : Program libc live target mh rest mp failed s)
      (apart : ∀ a ∈ mapBlocks mh mp, a ∉ rest')
      (live_iff : ∀ a, live s' a ↔ a ∈ mapBlocks mh mp ∨ a ∈ rest') :
      Program libc live target mh rest' mp failed s'

theorem housed_set (blocks : BlockHeap libc live) (housed : Housed live rest mh mp s)
    (call : mapSet (baseOps libc) target mh mp key v s = .ok (b, mp') s')
    (same : mp'.tableSize = mp.tableSize) : Housed live rest mh mp' s' := by
  rcases mapSet_inv (baseOps_reads libc) call with ⟨-, rfl, rfl⟩ | ⟨h, -, -, hset⟩
  · exact housed
  · exact (doSet_owns blocks housed.attached v).of_ok housed.owns hset same

theorem housed_delete (blocks : BlockHeap libc live) (housed : Housed live rest mh mp s)
    (call : mapDelete (baseOps libc) target mh mp key s = .ok (b, mp') s') :
    Housed live rest mh mp' s' := by
  obtain ⟨h, -, hdelete⟩ := mapDelete_inv (baseOps_reads libc) call
  obtain ⟨pos, found, -⟩ := doDelete_inv hdelete
  exact (doDelete_owns blocks housed.attached found).of_ok housed.owns hdelete

/-- The map is steady and in its two blocks, and the others are those of the program. -/
theorem Program.keeps (blocks : BlockHeap libc live)
    (program : Program libc live target mh rest mp failed s) (few : failed < 2 ^ 31) :
    Steady failed mp ∧ Housed live rest mh mp s := by
  induction program with
  | create before call =>
    have hcreate := (mapCreate_owns blocks).of_ok (Owns.nothing.mpr before) call
    exact ⟨(mapCreate_some call).2.2 ▸ Steady.created _, hcreate.2⟩
  | @set rest mp mp' failed key v b s s' before call same ih =>
    obtain ⟨steady, housed⟩ := ih (by omega)
    refine ⟨?_, housed_set blocks housed call same⟩
    rcases mapSet_inv (baseOps_reads libc) call with ⟨rfl, rfl, -⟩ | ⟨h, -, -, hset⟩
    · exact { steady with count_le := Nat.le_trans steady.count_le (by omega) }
    · exact steady.set_step (by omega) same (doSet_step hset)
  | @get rest mp failed key r s s' before call ih =>
    obtain rfl := (mapGet_keeps (baseOps_reads libc).keeps target mh mp key).eq_of_ok call
    exact ih few
  | @delete rest mp mp' failed key b s s' before call ih =>
    obtain ⟨steady, housed⟩ := ih few
    obtain ⟨h, -, hdelete⟩ := mapDelete_inv (baseOps_reads libc) call
    exact ⟨steady.delete_step few (doDelete_step hdelete), housed_delete blocks housed call⟩
  | @other rest rest' mp failed s s' before apart live_iff ih =>
    obtain ⟨steady, housed⟩ := ih few
    exact ⟨steady, housed.attached, live_iff, housed.owns.nodup, apart⟩

/-- Whatever the program has done and the allocator has refused, the table has a free slot
and the map two live blocks of its own, and its destruction returns and leaves exactly the
program's blocks. -/
theorem program_releases (blocks : BlockHeap libc live)
    (program : Program libc live target mh rest mp failed s) (few : failed < 2 ^ 31) :
    (∃ pos < mp.tableSize, (mp.slot pos).keyHash = 0) ∧
    mp.entriesMh.data ≠ mh.data ∧ mp.entriesMh.data ∉ rest ∧ mh.data ∉ rest ∧
    (∀ a, live s a ↔ (a = mp.entriesMh.data ∨ a = mh.data) ∨ a ∈ rest) ∧
    ∃ s', mapDestroy (baseOps libc) mh mp s = .ok () s' ∧ ∀ a, live s' a ↔ a ∈ rest := by
  obtain ⟨steady, attached, owns⟩ := program.keeps blocks few
  refine ⟨steady.free_slot, ?_, owns.apart _ List.mem_cons_self,
    owns.apart _ (List.mem_cons_of_mem _ List.mem_cons_self), fun a => ?_, ?_⟩
  · exact fun hsame => (List.nodup_cons.mp owns.nodup).1 (List.mem_singleton.mpr hsame)
  · rw [owns.live_iff, mapBlocks, List.mem_cons, List.mem_singleton]
  · obtain ⟨_, s', hrun, hleft⟩ := (mapDestroy_owns blocks attached).returns owns
    exact ⟨s', hrun, Owns.nothing.mp hleft⟩

/-- The count stays above the entries, at most half of the slots are taken, and every call
with a key whose hash can be computed returns, a set unless it is granted a larger table. -/
theorem program_returns (blocks : BlockHeap libc live)
    (program : Program libc live target mh rest mp failed s) (few : failed < 2 ^ 31) :
    (mp.occupied ≤ mp.entryCount ∧ mp.entryCount ≤ 16 + failed ∧ mp.occupied ≤ 16) ∧
    ∀ key h, Hashed (baseOps libc) target key h →
      (∃ r, mapGet (baseOps libc) target mh mp key s = .ok r s) ∧
      (∃ b mp' s', mapDelete (baseOps libc) target mh mp key s = .ok (b, mp') s') ∧
      (¬ Enlarges libc mh mp h s → ∀ v, ∃ b mp' s',
        mapSet (baseOps libc) target mh mp key v s = .ok (b, mp') s' ∧
        mp'.tableSize = mp.tableSize) := by
  obtain ⟨steady, attached, owns⟩ := program.keeps blocks few
  refine ⟨⟨steady.occupied_le, steady.count_le, steady.half⟩, fun key h hashed => ?_⟩
  obtain ⟨pos, found⟩ := steady.lookup_stops h
  refine ⟨?_, ?_, fun spared v => ?_⟩
  · obtain ⟨r, hl⟩ := steady.lookup_returns h
    exact ⟨r, mapGet_returns (baseOps_reads libc) (attached.standing (baseOps_serves libc) s) (hashed.readable s)
      hashed.hash hl⟩
  · rw [mapDelete_eq (hashed.readable s) hashed.hash]
    obtain ⟨result, s', hrun, -⟩ := (doDelete_owns blocks attached found).returns owns
    exact ⟨result.1, result.2, s', hrun⟩
  · have fits : mp.tableSize * 2 < 2 ^ 32 := by
      rw [steady.tableSize]
      decide
    exact mapSet_returns blocks attached hashed found fits v owns spared

/-! ## Programs that are computed -/

/-- The map, the failures and the state after a call that returns and leaves the size of the
table. -/
def programCall (libc : Libc σ) (target : Target) (mh : MemHandle) (mp : Map) (failed : Nat)
    (s : σ) : MapCall → Option (Map × Nat × σ)
  | .set key v =>
    match mapSet (baseOps libc) target mh mp key v s with
    | .ok (b, mp') s' =>
      if mp'.tableSize = mp.tableSize then some (mp', failed + (!b).toNat, s') else none
    | .error _ _ => none
  | .get key =>
    match mapGet (baseOps libc) target mh mp key s with
    | .ok _ s' => some (mp, failed, s')
    | .error _ _ => none
  | .delete key =>
    match mapDelete (baseOps libc) target mh mp key s with
    | .ok (_, mp') s' => some (mp', failed, s')
    | .error _ _ => none

def programCalls (libc : Libc σ) (target : Target) (mh : MemHandle) :
    List MapCall → Map → Nat → σ → Option (Map × Nat × σ)
  | [], mp, failed, s => some (mp, failed, s)
  | c :: rest, mp, failed, s =>
    (programCall libc target mh mp failed s c).bind fun r =>
      programCalls libc target mh rest r.1 r.2.1 r.2.2

variable {failed' : Nat}

theorem Program.call (program : Program libc live target mh rest mp failed s) {c : MapCall}
    (hcall : programCall libc target mh mp failed s c = some (mp', failed', s')) :
    Program libc live target mh rest mp' failed' s' := by
  cases c with
  | set key v =>
    rw [programCall] at hcall
    split at hcall
    · rename_i hrun
      split at hcall
      · rename_i same
        cases hcall
        exact program.set hrun same
      · cases hcall
    · cases hcall
  | get key =>
    rw [programCall] at hcall
    split at hcall
    · rename_i hrun
      cases hcall
      exact program.get hrun
    · cases hcall
  | delete key =>
    rw [programCall] at hcall
    split at hcall
    · rename_i hrun
      cases hcall
      exact program.delete hrun
    · cases hcall

theorem Program.calls {calls : List MapCall}
    (program : Program libc live target mh rest mp failed s)
    (all : programCalls libc target mh calls mp failed s = some (mp', failed', s')) :
    Program libc live target mh rest mp' failed' s' := by
  induction calls generalizing mp failed s with
  | nil =>
    cases all
    exact program
  | cons c calls ih =>
    rw [programCalls] at all
    obtain ⟨r, hcall, hrest⟩ := Option.bind_eq_some_iff.mp all
    exact ih (program.call hcall) hrest

end Program

/-! ## Seventeen keys -/

def firstMap : Map := .created ⟨64, 1280, .plain⟩
def firstMh : MemHandle := ⟨16, 40, .plain⟩

/-- The block at 4096 is the program's, and no request is granted after the map's. -/
def startBlocks : ScriptBlocks := ⟨[16, 64], [4096]⟩

/-- Sixteen keys, most of them in two chains, fill half of the table; the seventeenth is
refused, and one is deleted. -/
def seventeenCalls : List MapCall :=
  setBlocks [4096, 4352, 4608, 4112, 4128, 4144, 4160, 4176, 4192, 4208, 4224, 4240, 4256, 4272,
    4288, 4304, 8192] ++ [.get (.ptr 4352), .delete (.ptr 4112)]

theorem seventeen_program : ∃ mp s, Program ScriptBlocks.libc ScriptBlocks.Live ⟨true⟩ firstMh
    {4096} mp 1 s ∧ mp.entryCount = 16 ∧ mp.occupied = 15 := by
  have created : Program ScriptBlocks.libc ScriptBlocks.Live ⟨true⟩ firstMh {4096} firstMap 0
      ⟨[], [64, 16, 4096]⟩ := by
    refine .create (s := startBlocks) (fun a => ?_) rfl
    unfold ScriptBlocks.Live startBlocks
    rw [Set.mem_singleton_iff, List.mem_singleton]
    exact ⟨fun h => h.2, fun h => ⟨by rw [h]; decide, h⟩⟩
  obtain ⟨mp, s, all, hcount, hocc⟩ : ∃ mp s, programCalls ScriptBlocks.libc ⟨true⟩ firstMh
      seventeenCalls firstMap 0 ⟨[], [64, 16, 4096]⟩ = some (mp, 1, s) ∧ mp.entryCount = 16 ∧
        mp.occupied = 15 := ⟨_, _, rfl, rfl, rfl⟩
  exact ⟨mp, s, created.calls all, hcount, hocc⟩

theorem program_releases_seventeen : ∃ mp s s', mp.entryCount = 16 ∧ mp.occupied = 15 ∧
    mapDestroy (baseOps ScriptBlocks.libc) firstMh mp s = .ok () s' ∧
      ∀ a, s'.Live a ↔ a ∈ ({4096} : Set Addr) := by
  obtain ⟨mp, s, program, hcount, hocc⟩ := seventeen_program
  obtain ⟨-, -, -, -, -, s', hrun, hleft⟩ :=
    program_releases ScriptBlocks.blockHeap program (by decide)
  exact ⟨mp, s, s', hcount, hocc, hrun, hleft⟩

theorem program_returns_seventeen : ∃ mp s, mp.entryCount = 16 ∧ mp.occupied = 15 ∧
    ∀ a, ∃ r, mapGet (baseOps ScriptBlocks.libc) ⟨true⟩ firstMh mp (.ptr a) s = .ok r s := by
  obtain ⟨mp, s, program, hcount, hocc⟩ := seventeen_program
  refine ⟨mp, s, hcount, hocc, fun a => ?_⟩
  exact ((program_returns ScriptBlocks.blockHeap program (by decide)).2 (.ptr a) _
    ⟨fun _ => trivial, rfl⟩).1

end M65Tool.Guarantees.MapRefusals
