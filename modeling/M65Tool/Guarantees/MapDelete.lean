import M65Tool.Guarantees.MapReadBack
import M65Tool.Guarantees.MapResize

/-!
# MAP-DELETE: a delete removes its key and leaves the others

`do_delete` empties a slot, and a probe stops at an empty slot: an entry that was
stored past that slot on its own probe is not reached any more. `DeleteKeeps` excludes
exactly these. The deleted key itself is gone in any case, and stays gone until a key of
its hash is set. Runs in which a set makes the table grow are left out, because its store
goes where the old entries were; without one the table keeps its size, the calls ask the
allocator for nothing but `mem_p`, and any allocator will do.
-/
namespace M65Tool.Guarantees.MapDelete
open Source.Mem Source.MapHash Source.HashMap MapSizing MapReadBack MapResize Lib.LinearProbe

/-! ## A table that no call has resized -/

structure Unresized (mp : Map) : Prop where
  sizing : Sizing mp
  initial : mp.tableSize = initialTableSize

namespace Unresized
variable {mp mp' : Map} {h : UInt32} {v : MemHandle} {b : Bool}

theorem created (entriesMh : MemHandle) : Unresized (.created entriesMh) :=
  ⟨Sizing.created entriesMh, rfl⟩

theorem not_shrinks (hu : Unresized mp) (pos : Nat) : ¬ Shrinks (mp.emptied pos) := by
  intro hshrinks
  have hbig := hshrinks.2
  rw [Map.emptied_tableSize, hu.initial] at hbig
  exact Nat.lt_irrefl _ hbig

/-- A set that does not make the table grow succeeds and leaves it its size. -/
theorem set_step (hu : Unresized mp) (hcross : ¬ Crosses mp h) (step : SetStep mp h v b mp') :
    b = true ∧ SetStep mp h v true mp' ∧ Unresized mp' := by
  have hcount := hu.sizing.incr
  cases step with
  | overwrite pos found taken =>
    have hstep : SetStep mp h v true _ := .overwrite pos found taken
    exact ⟨rfl, hstep, hu.sizing.set_step hstep, hu.initial⟩
  | insert pos found free fits =>
    have hstep : SetStep mp h v true _ := .insert pos found free fits
    exact ⟨rfl, hstep, hu.sizing.set_step hstep, hu.initial⟩
  | grow pos found free crowded newMh size =>
    rw [hcount] at crowded
    exact absurd ⟨⟨pos, found, free⟩, crowded⟩ hcross
  | growFailed pos found free crowded =>
    rw [hcount] at crowded
    exact absurd ⟨⟨pos, found, free⟩, crowded⟩ hcross

/-- A delete empties the slot that it finds, if there is one. -/
theorem delete_cases (hu : Unresized mp) (step : DeleteStep mp h b mp') :
    (b = false ∧ mp' = mp) ∨ (b = true ∧ ∃ pos, findEntryPos mp h = some pos ∧
      (mp.slot pos).keyHash ≠ 0 ∧ mp' = mp.emptied pos) := by
  cases step with
  | absent => exact Or.inl ⟨rfl, rfl⟩
  | remove pos found taken => exact Or.inr ⟨rfl, pos, found, taken, rfl⟩
  | shrink pos found taken shrinks => exact absurd shrinks (hu.not_shrinks pos)
  | shrinkFailed pos found taken shrinks => exact absurd shrinks (hu.not_shrinks pos)

theorem delete_step (hu : Unresized mp) (step : DeleteStep mp h b mp') : Unresized mp' := by
  rcases hu.delete_cases step with ⟨-, rfl⟩ | ⟨rfl, pos, -, -, rfl⟩
  · exact hu
  · exact ⟨hu.sizing.delete_step step, hu.initial⟩

end Unresized

section Steps
variable {mp mp' : Map} {h : UInt32} {v : MemHandle} {pos : Nat}

/-- The slot of a hash that is looked up with a valid value is occupied. -/
theorem taken_of_lookup (found : findEntryPos mp h = some pos) (hl : lookup mp h = some v)
    (hv : memIsValid v = true) : (mp.slot pos).keyHash ≠ 0 := by
  intro hz
  rw [lookup, found] at hl
  simp only [Option.map_some, hz, if_true, Option.some.injEq] at hl
  rw [← hl] at hv
  cases hv

/-- After the delete the hash is stored nowhere. -/
theorem delete_absent (hu : Unresized mp) (hw : mp.WellPlaced) (step : DeleteStep mp h true mp')
    (u : MemHandle) : ¬ mp'.Holds h u := by
  intro hh
  obtain ⟨hb, -⟩ | ⟨-, pos, found, taken, rfl⟩ := hu.delete_cases step
  · cases hb
  · exact ((hw.holds_emptied hu.sizing.shaped found taken h u).mp hh).1 rfl

/-- A delete that does not keep the others answers some other hash differently. -/
theorem delete_loses (hu : Unresized mp) (hw : mp.WellPlaced) (hvals : mp.ValuesValid)
    (hloses : ¬ DeleteKeeps mp h) (step : DeleteStep mp h true mp') :
    ∃ h', h' ≠ h ∧ lookup mp' h' ≠ lookup mp h' := by
  unfold DeleteKeeps ProbeRing.Unbridged at hloses
  push Not at hloses
  obtain ⟨pos, found, taken, q, hq, k, hqp, hk, hbefore⟩ := hloses
  have hlen : pos < mp.entries.length := by
    rw [hu.sizing.shaped]
    exact findEntryPos_lt found
  have hkey := found_taken found taken
  obtain ⟨hb, -⟩ | ⟨-, pos', found', -, rfl⟩ := hu.delete_cases step
  · cases hb
  obtain rfl : pos = pos' := Option.some.inj (found.symm.trans found')
  have hcleared := (hw q hq k hk).clear_of_before hbefore
  rw [← Map.ring_store_empty hlen, ← Map.emptied_ring] at hcleared
  have hzero : lookup (mp.emptied pos) k = some .zero := by
    refine lookup_eq_some.mpr ⟨pos, hcleared, ?_⟩
    rw [Map.emptied_slot, Map.slot_store hlen, if_pos rfl]
    rfl
  have hh := Map.holds_iff.mpr ⟨q, hq, hk, rfl⟩
  refine ⟨k, ?_, ?_⟩
  · rintro rfl
    exact hqp (hw.unique hq (findEntryPos_lt found) hk hkey)
  · rw [hzero, hw.lookup_of_holds hh]
    intro heq
    have hvalid := Map.valuesValid_iff.mp hvals k _ hh
    rw [← Option.some.inj heq] at hvalid
    cases hvalid

/-- A delete leaves the answers for the other hashes exactly when it keeps them. -/
theorem delete_others_iff (hu : Unresized mp) (hw : mp.WellPlaced) (hvals : mp.ValuesValid)
    (step : DeleteStep mp h true mp') :
    (∀ h' ≠ h, lookup mp' h' = lookup mp h') ↔ DeleteKeeps mp h := by
  constructor
  · intro hall
    by_contra hloses
    obtain ⟨h', hne, hdiff⟩ := delete_loses hu hw hvals hloses step
    exact hdiff (hall h' hne)
  · intro hkeeps h' hne
    obtain ⟨m, hrep⟩ := hw.represents
    have hu' := hu.delete_step step
    have hrep' := hrep.delete_step hu.sizing.shaped hkeeps (hu'.initial.trans hu.initial.symm) step
    obtain ⟨r, hl⟩ := hu.sizing.lookup_returns h'
    obtain ⟨r', hl'⟩ := hu'.sizing.lookup_returns h'
    rw [hl, hl', hrep.lookup_eq hl, hrep'.lookup_eq hl', Function.update_of_ne hne]

end Steps

/-! ## Runs without a growing set -/

section Runs
variable {σ : Type} {ops : MemOps σ} {target : Target} {ma : MemAllocator} {mh : MemHandle}
  {mp₀ mp mp' : Map} {key : MapKey} {h : UInt32} {v : MemHandle} {b : Bool} {s s' : σ}
  {allowed : Map → MapCall → Prop}

/-- The call is not a set that makes the table grow. -/
def FitsIn (target : Target) (mp : Map) : MapCall → Prop
  | .set key _ => ∀ h, key.hash target = some h → ¬ Crosses mp h
  | _ => True

/-- The call is not a delete that loses other entries. -/
def DeletesKeep (target : Target) (mp : Map) : MapCall → Prop
  | .delete key => ∀ h, key.hash target = some h → DeleteKeeps mp h
  | _ => True

/-- The call does not set a key of hash `h`. -/
def SetsOther (target : Target) (h : UInt32) : MapCall → Prop
  | .set key _ => key.hash target ≠ some h
  | _ => True

/-- Neither does the call make the table grow nor does it lose other entries. -/
def Harmless (target : Target) (mp : Map) (c : MapCall) : Prop :=
  FitsIn target mp c ∧ DeletesKeep target mp c

/-- The call neither makes the table grow nor sets a key of hash `h`. -/
def Leaves (target : Target) (h : UInt32) (mp : Map) (c : MapCall) : Prop :=
  FitsIn target mp c ∧ SetsOther target h c

/-- What the table is while the calls are harmless: every stored hash is found, under a
valid value. -/
structure Kept (mp : Map) : Prop where
  unresized : Unresized mp
  wellPlaced : mp.WellPlaced
  valuesValid : mp.ValuesValid

theorem Kept.created (entriesMh : MemHandle) : Kept (.created entriesMh) where
  unresized := .created entriesMh
  wellPlaced := Map.created_wellPlaced entriesMh
  valuesValid := Map.valuesValid_iff.mpr fun h v hh => absurd hh (Map.created_holds entriesMh h v)

theorem Kept.set_step (hk : Kept mp) (hcross : ¬ Crosses mp h) (hv : v.data ≠ 0)
    (step : SetStep mp h v b mp') : Kept mp' where
  unresized := (hk.unresized.set_step hcross step).2.2
  wellPlaced := hk.wellPlaced.set_step hk.unresized.sizing.shaped step
  valuesValid := by
    refine Map.valuesValid_iff.mpr fun h' u hh => ?_
    rcases step.holds hk.unresized.sizing.shaped hh with ⟨-, rfl⟩ | hh
    · exact memIsValid_eq_true.mpr hv
    · exact Map.valuesValid_iff.mp hk.valuesValid h' u hh

theorem Kept.delete_step (hk : Kept mp) (hkeeps : DeleteKeeps mp h)
    (step : DeleteStep mp h b mp') : Kept mp' where
  unresized := hk.unresized.delete_step step
  wellPlaced := by
    obtain ⟨m, hrep⟩ := hk.wellPlaced.represents
    have hu' := hk.unresized.delete_step step
    cases b with
    | true => exact (hrep.delete_step hk.unresized.sizing.shaped hkeeps
        (hu'.initial.trans hk.unresized.initial.symm) step).wellPlaced
    | false =>
      rcases hk.unresized.delete_cases step with ⟨-, rfl⟩ | ⟨hb, -⟩
      · exact hk.wellPlaced
      · cases hb
  valuesValid := Map.valuesValid_iff.mpr fun h' u hh =>
    Map.valuesValid_iff.mp hk.valuesValid h' u (step.holds hk.unresized.sizing.shaped hh)

theorem steps_kept (reads : PointerReads ops) (hk : Kept mp)
    (steps : MapSteps ops target mh (Harmless target) mp mp') : Kept mp' := by
  refine steps.invariant reads ?_ ?_ hk
  · exact fun mp key h v b mp' hk ok hh hv step => hk.set_step (ok.1 h hh) hv step
  · exact fun mp key h b mp' hk ok hh step => hk.delete_step (ok.2 h hh) step

/-- A hash that is stored nowhere stays so until a key of that hash is set. -/
theorem steps_absent (reads : PointerReads ops) (hu : Unresized mp)
    (hn : ∀ u, ¬ mp.Holds h u) (steps : MapSteps ops target mh (Leaves target h) mp mp') :
    Unresized mp' ∧ ∀ u, ¬ mp'.Holds h u := by
  refine steps.invariant reads (P := fun mp => Unresized mp ∧ ∀ u, ¬ mp.Holds h u) ?_ ?_ ⟨hu, hn⟩
  · rintro mp key h₁ v b mp' ⟨hu, hn⟩ ok hh _ step
    refine ⟨(hu.set_step (ok.1 h₁ hh) step).2.2, fun u hheld => ?_⟩
    rcases step.holds hu.sizing.shaped hheld with ⟨rfl, -⟩ | hheld
    · exact ok.2 hh
    · exact hn u hheld
  · rintro mp key h₁ b mp' ⟨hu, hn⟩ _ _ step
    exact ⟨hu.delete_step step, fun u hheld => hn u (step.holds hu.sizing.shaped hheld)⟩

/-- A key whose hash is stored nowhere is answered with the invalid handle. -/
theorem answers_zero (reads : PointerReads ops) (hu : Unresized mp) (hmap : mh.data ≠ 0)
    (hentries : mp.entriesMh.data ≠ 0) (hh : key.hash target = some h)
    (hn : ∀ u, ¬ mp.Holds h u) : Answers ops target mh mp key .zero := by
  obtain ⟨r, hl⟩ := hu.sizing.lookup_returns h
  obtain rfl := Map.lookup_absent hn hl
  exact answers_of_lookup reads hmap hentries hh hl

/-- A delete of a present key returns wherever the map's blocks and the key are found. -/
theorem delete_returns (hu : Unresized mp) (stands : Standing ops mh mp s)
    (hread : key.ReadableAt ops s) (hh : key.hash target = some h) (hl : lookup mp h = some v)
    (hv : memIsValid v = true) :
    ∃ mp', mapDelete ops target mh mp key s = .ok (true, mp') s := by
  obtain ⟨pos, -, found, -⟩ := hu.sizing.finds h
  obtain ⟨entries, htable⟩ := stands
  refine ⟨mp.emptied pos, ?_⟩
  rw [mapDelete_eq hread hh, doDelete, Lib.Effect.bind_of_ok htable, found]
  simp only [orNoEntryPos, Lib.Effect.pure_bind_run]
  rw [if_neg (taken_of_lookup found hl hv), if_neg (hu.not_shrinks pos)]
  rfl

/-- In every run without a growing set whose deletes keep the other entries: deleting a
present key makes its lookup invalid, for good until a key of that hash is set; and the
lookups of the other hashes are unchanged if and only if this delete keeps them too. -/
theorem mapDelete_exact (reads : PointerReads ops) {t t' : σ}
    (created : mapCreate ops ma t = .ok (mh, some mp₀) t')
    (steps : MapSteps ops target mh (Harmless target) mp₀ mp)
    (present : mapGet ops target mh mp key s = .ok v s') (hv : memIsValid v = true) :
    ∃ h, key.hash target = some h ∧
    (∀ u, Standing ops mh mp u → key.ReadableAt ops u →
      ∃ mp', mapDelete ops target mh mp key u = .ok (true, mp') u) ∧
    ∀ b mp' u u', mapDelete ops target mh mp key u = .ok (b, mp') u' → b = true ∧
      (∀ mp'', MapSteps ops target mh (Leaves target h) mp' mp'' →
        Answers ops target mh mp'' key .zero) ∧
      ((∀ h' ≠ h, lookup mp' h' = lookup mp h') ↔ DeleteKeeps mp h) ∧
      (DeleteKeeps mp h → ∀ key' h', key'.hash target = some h' → h' ≠ h →
        ∃ r, Answers ops target mh mp key' r ∧ Answers ops target mh mp' key' r) := by
  obtain ⟨hmap, hentries₀, hmp₀⟩ := mapCreate_some created
  have hk : Kept mp := steps_kept reads (hmp₀ ▸ Kept.created _) steps
  have hu := hk.unresized
  have hentries := steps.present reads hentries₀
  obtain ⟨h, hh, hl⟩ := mapGet_ok hmap hentries present
  refine ⟨h, hh, fun u stands hread => delete_returns hu stands hread hh hl hv, ?_⟩
  intro b mp' u u' call
  obtain ⟨h', hh', step⟩ := mapDelete_cases reads call
  obtain rfl : h = h' := Option.some.inj (hh.symm.trans hh')
  have hentries' := mapDelete_present reads hentries call
  have hu' := hu.delete_step step
  cases b with
  | false =>
    cases step with
    | absent pos found free => exact absurd free (taken_of_lookup found hl hv)
    | shrinkFailed pos found taken shrinks => exact absurd shrinks (hu.not_shrinks pos)
  | true =>
    have hothers := delete_others_iff hu hk.wellPlaced hk.valuesValid step
    refine ⟨rfl, ?_, hothers, ?_⟩
    · intro mp'' steps'
      obtain ⟨hu'', hn⟩ := steps_absent reads hu' (delete_absent hu hk.wellPlaced step) steps'
      exact answers_zero reads hu'' hmap (steps'.present reads hentries') hh hn
    · intro hkeeps key' h' hh' hne
      obtain ⟨r, hl'⟩ := hu.sizing.lookup_returns h'
      exact ⟨r, answers_of_lookup reads hmap hentries hh' hl',
        answers_of_lookup reads hmap hentries' hh' ((hothers.mpr hkeeps h' hne).trans hl')⟩

end Runs

/-! ## Keys on one chain -/

section Chain
variable {target : Target} {mp : Map} {h : UInt32} {pos : Nat}

/-- Every stored hash is found where it is stored. -/
def eachFound (mp : Map) : Bool :=
  (List.range mp.tableSize).all fun pos =>
    (mp.slot pos).keyHash == 0 || findEntryPos mp (mp.slot pos).keyHash == some pos

theorem eachFound_of_eq (h : eachFound mp = true) : mp.WellPlaced := by
  refine eachFound_iff.mp fun pos hpos hne => ?_
  have hslot := List.all_eq_true.mp h pos (List.mem_range.mpr hpos)
  rcases Bool.or_eq_true_iff.mp hslot with hz | hf
  · exact absurd (beq_iff_eq.mp hz) hne
  · exact beq_iff_eq.mp hf

/-- A test that harmless calls pass: a set leaves half of the slots empty, and around a delete
every hash is found. -/
def harmless (target : Target) (mp : Map) : MapCall → Bool
  | .set _ _ => mp.entryCount + 1 ≤ mp.tableSize / 2
  | .get _ => true
  | .delete key =>
    match key.hash target with
    | none => false
    | some h =>
      match findEntryPos mp h with
      | none => false
      | some pos => mp.entries.length == mp.tableSize && eachFound mp && eachFound (mp.emptied pos)

/-- A delete keeps the others if each is found after it. -/
theorem deleteKeeps_of_found (hshape : mp.Shaped) (hw : mp.WellPlaced)
    (found : findEntryPos mp h = some pos) (after : (mp.emptied pos).WellPlaced) :
    DeleteKeeps mp h := by
  intro pos' found' _
  obtain rfl : pos = pos' := Option.some.inj (found.symm.trans found')
  have hlen : pos < mp.entries.length := by
    rw [hshape]
    exact findEntryPos_lt found
  unfold Map.WellPlaced at after
  rw [Map.emptied_ring, Map.ring_store_empty hlen] at after
  exact (ProbeRing.WellPlaced.clear_iff hw).mp after

theorem harmless_sound (mp : Map) (c : MapCall) (h : harmless target mp c = true) :
    Harmless target mp c := by
  cases c with
  | set key v =>
    have room := of_decide_eq_true h
    refine ⟨fun h _ hcross => ?_, trivial⟩
    have := hcross.2
    omega
  | get key => exact ⟨trivial, trivial⟩
  | delete key =>
    refine ⟨trivial, fun h' hh => ?_⟩
    simp only [harmless, hh] at h
    split at h
    · cases h
    · rename_i pos found
      obtain ⟨hboth, hafter⟩ := Bool.and_eq_true_iff.mp h
      obtain ⟨hshape, hbefore⟩ := Bool.and_eq_true_iff.mp hboth
      exact deleteKeeps_of_found (beq_iff_eq.mp hshape) (eachFound_of_eq hbefore) found
        (eachFound_of_eq hafter)

end Chain

/-- The blocks at 4096, 4128, 4192 and 4256 have the same home. The last is deleted again. -/
def chainCalls : List MapCall := setBlocks [4096, 4128, 4192, 4256] ++ [.delete (.ptr 4256)]

/-- Deleting the third keeps the second, and the third is gone. -/
theorem mapDelete_exact_chain : ∃ mp mp' s s',
    runCalls bumpOps ⟨true⟩ bumpMapMh (harmless ⟨true⟩) chainCalls bumpMap ⟨2, .dfl⟩ =
      some (mp, s) ∧
    mapDelete bumpOps ⟨true⟩ bumpMapMh mp (.ptr 4192) s = .ok (true, mp') s' ∧
    Answers bumpOps ⟨true⟩ bumpMapMh mp' (.ptr 4192) .zero ∧
    ∃ r, Answers bumpOps ⟨true⟩ bumpMapMh mp (.ptr 4128) r ∧
      Answers bumpOps ⟨true⟩ bumpMapMh mp' (.ptr 4128) r := by
  have created : mapCreate bumpOps .plain ⟨0, .dfl⟩ = .ok (bumpMapMh, some bumpMap) ⟨2, .dfl⟩ := rfl
  obtain ⟨mp, s, all, present, test, mp', s', call⟩ : ∃ mp s,
      runCalls bumpOps ⟨true⟩ bumpMapMh (harmless ⟨true⟩) chainCalls bumpMap ⟨2, .dfl⟩ =
        some (mp, s) ∧
      mapGet bumpOps ⟨true⟩ bumpMapMh mp (.ptr 4192) s = .ok ⟨4192, 8, .plain⟩ s ∧
      harmless ⟨true⟩ mp (.delete (.ptr 4192)) = true ∧
      ∃ mp' s', mapDelete bumpOps ⟨true⟩ bumpMapMh mp (.ptr 4192) s = .ok (true, mp') s' :=
    ⟨_, _, rfl, rfl, rfl, _, _, rfl⟩
  obtain ⟨h, hh, -, hdelete⟩ := mapDelete_exact bumpOps_reads created
    (runCalls_steps harmless_sound .refl all) present rfl
  obtain ⟨-, hgone, -, hothers⟩ := hdelete _ _ _ _ call
  refine ⟨mp, mp', s, s', all, call, hgone mp' .refl, ?_⟩
  refine hothers ((harmless_sound mp _ test).2 h hh) (.ptr 4128) _ rfl ?_
  obtain rfl : hashPtr ⟨true⟩ 4192 = h := Option.some.inj hh
  decide +kernel

/-- The blocks at 4096 and 4128 have the same home; deleting the first hides the second. -/
theorem mapDelete_hides_other : hashPtr ⟨true⟩ 4096 ≠ hashPtr ⟨true⟩ 4128 ∧
    ∃ mp mp' s s', MapRun (granting bumpOps) ⟨true⟩ .plain bumpMapMh mp ∧
      mapGet bumpOps ⟨true⟩ bumpMapMh mp (.ptr 4096) s = .ok ⟨4096, 8, .plain⟩ s ∧
      mapGet bumpOps ⟨true⟩ bumpMapMh mp (.ptr 4128) s = .ok ⟨4128, 8, .plain⟩ s ∧
      mapDelete bumpOps ⟨true⟩ bumpMapMh mp (.ptr 4096) s = .ok (true, mp') s' ∧
      mapGet bumpOps ⟨true⟩ bumpMapMh mp' (.ptr 4128) s' = .ok .zero s' := by
  refine ⟨by decide +kernel, ?_⟩
  have set : runCalls (granting bumpOps) ⟨true⟩ bumpMapMh anyCall (setBlocks [4096, 4128])
      bumpMap ⟨2, .dfl⟩ = some (_, _) := rfl
  exact ⟨_, _, ⟨2, .dfl⟩, _, runCalls_run (.create bumpMap_created) set, rfl, rfl, rfl, rfl⟩

end M65Tool.Guarantees.MapDelete
