import M65Tool.Source.HashMapRehash

/-!
# What a call of map.c can do to the map

`SetStep` and `DeleteStep` list the outcomes of `do_set` and `do_delete`; every
invariant of the map is derived from them.
-/
namespace M65Tool.Source.HashMap
open Mem MapHash Lib.Effect

namespace Map

@[simp] theorem counted_tableSize (mp : Map) : mp.counted.tableSize = mp.tableSize := rfl
@[simp] theorem counted_entriesMh (mp : Map) : mp.counted.entriesMh = mp.entriesMh := rfl
@[simp] theorem counted_entryCount (mp : Map) :
    mp.counted.entryCount = incrUint mp.entryCount := rfl
@[simp] theorem counted_ring (mp : Map) : mp.counted.ring = mp.ring := rfl
@[simp] theorem counted_occupied (mp : Map) : mp.counted.occupied = mp.occupied := rfl
@[simp] theorem emptied_tableSize (mp : Map) (pos : Nat) :
    (mp.emptied pos).tableSize = mp.tableSize := rfl
@[simp] theorem emptied_entriesMh (mp : Map) (pos : Nat) :
    (mp.emptied pos).entriesMh = mp.entriesMh := rfl
@[simp] theorem emptied_entryCount (mp : Map) (pos : Nat) :
    (mp.emptied pos).entryCount = decrUint mp.entryCount := rfl

@[simp] theorem emptied_entries (mp : Map) (pos : Nat) :
    (mp.emptied pos).entries = mp.entries.set pos .empty := rfl
@[simp] theorem store_entries (mp : Map) (pos : Nat) (entry : MapEntry) :
    (mp.store pos entry).entries = mp.entries.set pos entry := rfl

theorem emptied_occupied (mp : Map) (pos : Nat) :
    (mp.emptied pos).occupied = (mp.store pos .empty).occupied := by
  simp only [occupied, emptied_entries, store_entries]

theorem emptied_slot (mp : Map) (pos q : Nat) :
    (mp.emptied pos).slot q = (mp.store pos .empty).slot q := by
  simp only [slot, emptied_entries, store_entries]

theorem emptied_ring (mp : Map) (pos : Nat) :
    (mp.emptied pos).ring = (mp.store pos .empty).ring := by
  have hkey : (mp.emptied pos).keyAt = (mp.store pos .empty).keyAt := by
    funext q
    simp only [keyAt, emptied_slot]
  simp only [ring, hkey, emptied_tableSize, store_tableSize]

theorem Shaped.emptied {mp : Map} (hs : mp.Shaped) (pos : Nat) : (mp.emptied pos).Shaped := by
  unfold Shaped at *
  simpa only [emptied_entries, emptied_tableSize, List.length_set] using hs

end Map

theorem findEntryPos_counted (mp : Map) (h : UInt32) :
    findEntryPos mp.counted h = findEntryPos mp h := by
  apply Option.ext
  intro pos
  rw [findEntryPos_eq_some, findEntryPos_eq_some, Map.counted_ring]

/-- The outcomes of `do_set` for hash `h` and value `v`. -/
inductive SetStep (mp : Map) (h : UInt32) (v : MemHandle) : Bool → Map → Prop
  | overwrite (pos : Nat) (found : findEntryPos mp h = some pos)
      (taken : (mp.slot pos).keyHash ≠ 0) : SetStep mp h v true (mp.store pos ⟨h, v⟩)
  | insert (pos : Nat) (found : findEntryPos mp h = some pos)
      (free : (mp.slot pos).keyHash = 0) (fits : incrUint mp.entryCount ≤ mp.tableSize / 2) :
      SetStep mp h v true (mp.counted.store pos ⟨h, v⟩)
  | grow (pos : Nat) (found : findEntryPos mp h = some pos)
      (free : (mp.slot pos).keyHash = 0) (crowded : mp.tableSize / 2 < incrUint mp.entryCount)
      (newMh : MemHandle) (size : mp.tableSize * 2 < 2 ^ 32) :
      SetStep mp h v true (mp.counted.resized newMh (mp.tableSize * 2))
  | growFailed (pos : Nat) (found : findEntryPos mp h = some pos)
      (free : (mp.slot pos).keyHash = 0) (crowded : mp.tableSize / 2 < incrUint mp.entryCount) :
      SetStep mp h v false mp.counted

/-- The test by which `do_delete` decides to shrink the table. -/
abbrev Shrinks (mp : Map) : Prop :=
  mp.entryCount < mp.tableSize / 4 ∧ mp.tableSize > initialTableSize

/-- The outcomes of `do_delete` for hash `h`. -/
inductive DeleteStep (mp : Map) (h : UInt32) : Bool → Map → Prop
  | absent (pos : Nat) (found : findEntryPos mp h = some pos)
      (free : (mp.slot pos).keyHash = 0) : DeleteStep mp h false mp
  | remove (pos : Nat) (found : findEntryPos mp h = some pos)
      (taken : (mp.slot pos).keyHash ≠ 0) (stays : ¬ Shrinks (mp.emptied pos)) :
      DeleteStep mp h true (mp.emptied pos)
  | shrink (pos : Nat) (found : findEntryPos mp h = some pos)
      (taken : (mp.slot pos).keyHash ≠ 0) (shrinks : Shrinks (mp.emptied pos))
      (newMh : MemHandle) :
      DeleteStep mp h true ((mp.emptied pos).resized newMh (mp.tableSize / 2))
  | shrinkFailed (pos : Nat) (found : findEntryPos mp h = some pos)
      (taken : (mp.slot pos).keyHash ≠ 0) (shrinks : Shrinks (mp.emptied pos)) :
      DeleteStep mp h false (mp.emptied pos)

theorem incrUint_ne (n : Nat) : incrUint n ≠ n := by
  unfold incrUint
  omega

theorem decrUint_ne (n : Nat) : decrUint n ≠ n := by
  unfold decrUint
  omega

/-- A set never reports false and leaves the map alone. -/
theorem SetStep.map_ne {mp mp' : Map} {h : UInt32} {v : MemHandle}
    (step : SetStep mp h v false mp') : mp' ≠ mp := by
  cases step
  intro hsame
  exact incrUint_ne mp.entryCount (congrArg Map.entryCount hsame)

/-- A delete that reports false and leaves the map alone has found nothing. -/
theorem DeleteStep.free_of_eq {mp mp' : Map} {h : UInt32} (step : DeleteStep mp h false mp')
    (hsame : mp' = mp) : ∃ pos, findEntryPos mp h = some pos ∧ (mp.slot pos).keyHash = 0 := by
  cases step with
  | absent pos found free => exact ⟨pos, found, free⟩
  | shrinkFailed pos => exact absurd (congrArg Map.entryCount hsame) (decrUint_ne mp.entryCount)

section Inversion
variable {σ : Type} {ops : MemOps σ} {target : Target} {mh : MemHandle} {mp mp' : Map}
  {h : UInt32} {v r : MemHandle} {b : Bool} {s s' : σ}

theorem orNoEntryPos_ok {α : Type} {x : Option α} {a : α}
    (hrun : (orNoEntryPos x : C σ α) s = .ok a s') : x = some a ∧ s' = s := by
  cases x with
  | none => cases hrun
  | some y => cases hrun; exact ⟨rfl, rfl⟩

theorem resizedTableSize_ok {isGrow : Bool} {n m : Nat}
    (hrun : (resizedTableSize n isGrow : C σ Nat) s = .ok m s') :
    s' = s ∧ m = (if isGrow then n * 2 else n / 2) ∧ (isGrow = true → n * 2 < 2 ^ 32) := by
  unfold resizedTableSize at hrun
  cases isGrow with
  | true =>
    simp only [if_true] at hrun
    by_cases hfit : n * 2 < 2 ^ 32
    · rw [if_pos hfit] at hrun
      cases hrun
      exact ⟨rfl, rfl, fun _ => hfit⟩
    · rw [if_neg hfit] at hrun
      cases hrun
  | false =>
    cases hrun
    exact ⟨rfl, rfl, by simp⟩

/-- A resize either leaves the map alone or rehashes it into the new size. -/
theorem resizeEntriesTable_ok {isGrow : Bool}
    (hrun : resizeEntriesTable ops mh mp isGrow s = .ok (b, mp') s') :
    (b = false ∧ mp' = mp) ∨
      (b = true ∧ (isGrow = true → mp.tableSize * 2 < 2 ^ 32) ∧ ∃ newMh,
        mp' = mp.resized newMh (if isGrow then mp.tableSize * 2 else mp.tableSize / 2)) := by
  unfold resizeEntriesTable at hrun
  obtain ⟨n, s1, hn, hrun⟩ := bind_ok_inv hrun
  obtain ⟨-, rfl, hfit⟩ := resizedTableSize_ok hn
  obtain ⟨newMh, s2, -, hrun⟩ := bind_ok_inv hrun
  obtain ⟨ptr, s3, -, hrun⟩ := bind_ok_inv hrun
  by_cases hz : ptr = 0
  · rw [if_pos hz] at hrun
    cases hrun
    exact Or.inl ⟨rfl, rfl⟩
  · rw [if_neg hz] at hrun
    obtain ⟨-, s4, -, hrun⟩ := bind_ok_inv hrun
    obtain ⟨-, s5, -, hrun⟩ := bind_ok_inv hrun
    cases hrun
    exact Or.inr ⟨rfl, hfit, newMh, rfl⟩

/-- Where a `do_set` that returns has come from: a store, or a resize. -/
theorem doSet_inv (hrun : doSet ops mh mp h v s = .ok (b, mp') s') :
    ∃ pos, findEntryPos mp h = some pos ∧
      (((mp.slot pos).keyHash ≠ 0 ∧ b = true ∧ mp' = mp.store pos ⟨h, v⟩) ∨
        ((mp.slot pos).keyHash = 0 ∧ mp.counted.entryCount ≤ mp.counted.tableSize / 2 ∧ b = true ∧
          mp' = mp.counted.store pos ⟨h, v⟩) ∨
        ((mp.slot pos).keyHash = 0 ∧ mp.counted.entryCount > mp.counted.tableSize / 2 ∧
          ∃ s1 s2, resizeEntriesTable ops mh mp.counted true s1 = .ok (b, mp') s2)) := by
  unfold doSet at hrun
  obtain ⟨entries, s1, -, hrun⟩ := bind_ok_inv hrun
  obtain ⟨pos, s2, hpos, hrun⟩ := bind_ok_inv hrun
  obtain ⟨found, -⟩ := orNoEntryPos_ok hpos
  refine ⟨pos, found, ?_⟩
  by_cases free : (mp.slot pos).keyHash = 0
  · rw [if_pos free] at hrun
    by_cases crowded : mp.counted.entryCount > mp.counted.tableSize / 2
    · rw [if_pos crowded] at hrun
      obtain ⟨⟨grown, resized⟩, s3, hres, hrun⟩ := bind_ok_inv hrun
      refine Or.inr (Or.inr ⟨free, crowded, s2, s3, ?_⟩)
      cases grown with
      | true =>
        obtain ⟨-, s4, -, hrun⟩ := bind_ok_inv hrun
        obtain ⟨_, s5, -, hrun⟩ := bind_ok_inv hrun
        obtain ⟨-, s6, -, hrun⟩ := bind_ok_inv hrun
        cases hrun
        exact hres
      | false =>
        cases hrun
        exact hres
    · rw [if_neg crowded] at hrun
      cases hrun
      exact Or.inr (Or.inl ⟨free, Nat.le_of_not_gt crowded, rfl, rfl⟩)
  · rw [if_neg free] at hrun
    cases hrun
    exact Or.inl ⟨free, rfl, rfl⟩

theorem doSet_step (hrun : doSet ops mh mp h v s = .ok (b, mp') s') : SetStep mp h v b mp' := by
  obtain ⟨pos, found, ⟨taken, rfl, rfl⟩ | ⟨free, fits, rfl, rfl⟩ | ⟨free, crowded, s1, s2, hres⟩⟩ :=
    doSet_inv hrun
  · exact .overwrite pos found taken
  · exact .insert pos found free fits
  · rcases resizeEntriesTable_ok hres with ⟨rfl, rfl⟩ | ⟨rfl, hfit, newMh, rfl⟩
    · exact .growFailed pos found free crowded
    · exact .grow pos found free crowded newMh (hfit rfl)

/-- Where a `do_delete` that returns has come from: nothing found, an emptied slot, or a resize. -/
theorem doDelete_inv (hrun : doDelete ops mh mp h s = .ok (b, mp') s') :
    ∃ pos, findEntryPos mp h = some pos ∧
      (((mp.slot pos).keyHash = 0 ∧ b = false ∧ mp' = mp) ∨
        ((mp.slot pos).keyHash ≠ 0 ∧ ¬ Shrinks (mp.emptied pos) ∧ b = true ∧
          mp' = mp.emptied pos) ∨
        ((mp.slot pos).keyHash ≠ 0 ∧ Shrinks (mp.emptied pos) ∧
          ∃ s1 s2, resizeEntriesTable ops mh (mp.emptied pos) false s1 = .ok (b, mp') s2)) := by
  unfold doDelete at hrun
  obtain ⟨-, s1, -, hrun⟩ := bind_ok_inv hrun
  obtain ⟨pos, s2, hpos, hrun⟩ := bind_ok_inv hrun
  obtain ⟨found, -⟩ := orNoEntryPos_ok hpos
  refine ⟨pos, found, ?_⟩
  by_cases free : (mp.slot pos).keyHash = 0
  · rw [if_pos free] at hrun
    cases hrun
    exact Or.inl ⟨free, rfl, rfl⟩
  · rw [if_neg free] at hrun
    by_cases shrinks : Shrinks (mp.emptied pos)
    · rw [if_pos shrinks] at hrun
      exact Or.inr (Or.inr ⟨free, shrinks, s2, s', hrun⟩)
    · rw [if_neg shrinks] at hrun
      cases hrun
      exact Or.inr (Or.inl ⟨free, shrinks, rfl, rfl⟩)

theorem doDelete_step (hrun : doDelete ops mh mp h s = .ok (b, mp') s') :
    DeleteStep mp h b mp' := by
  obtain ⟨pos, found, ⟨free, rfl, rfl⟩ | ⟨taken, stays, rfl, rfl⟩ | ⟨taken, shrinks, s1, s2, hres⟩⟩ :=
    doDelete_inv hrun
  · exact .absent pos found free
  · exact .remove pos found taken stays
  · rcases resizeEntriesTable_ok hres with ⟨rfl, rfl⟩ | ⟨rfl, -, newMh, rfl⟩
    · exact .shrinkFailed pos found taken shrinks
    · exact .shrink pos found taken shrinks newMh

theorem doGet_ok (hrun : doGet ops mh mp h s = .ok r s') : lookup mp h = some r := by
  unfold doGet at hrun
  obtain ⟨-, s1, -, hrun⟩ := bind_ok_inv hrun
  exact (orNoEntryPos_ok hrun).1

/-- The hash that a key is set, looked up and deleted under, if it is ever computed. -/
def MapKey.hash (target : Target) : MapKey → Option UInt32
  | .str key => hashBytes target key.bytes
  | .ptr key => some (hashPtr target key)

theorem hashStr_ok {key : Str} (hrun : hashStr ops target key s = .ok h s') :
    hashBytes target key.bytes = some h := by
  unfold hashStr at hrun
  obtain ⟨-, s1, -, hrun⟩ := bind_ok_inv hrun
  cases hk : hashBytes target key.bytes with
  | none => simp [hk] at hrun
  | some x =>
    simp only [hk] at hrun
    cases hrun
    rfl

end Inversion
end M65Tool.Source.HashMap
