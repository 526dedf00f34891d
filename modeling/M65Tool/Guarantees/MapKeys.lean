import M65Tool.Guarantees.MapDelete

/-!
# MAP-KEYS: what one key's calls do to another key

An entry holds the 32-bit hash of its key and not the key. Two keys with one
non-zero hash are therefore one key to the map: a value set under the first is the
value read under the second. Keys of different hashes do not disturb each other,
except where a set makes the table grow or a delete loses entries.
-/
namespace M65Tool.Guarantees.MapKeys
open Source.Mem Source.MapHash Source.HashMap MapSizing MapReadBack MapDelete

variable {σ : Type} {ops : MemOps σ} {target : Target} {ma : MemAllocator} {mh : MemHandle}
  {mp₀ mp mp' : Map} {key key' : MapKey} {h h' : UInt32} {v : MemHandle} {b : Bool} {s s' : σ}

/-- A call of a key leaves the answer of another, where it leaves its lookup. -/
theorem same_answer (reads : PointerReads ops) (hk : Kept mp) (hmap : mh.data ≠ 0)
    (hentries : mp.entriesMh.data ≠ 0) (hentries' : mp'.entriesMh.data ≠ 0)
    (hh' : key'.hash target = some h') (same : lookup mp' h' = lookup mp h') :
    ∃ r, Answers ops target mh mp key' r ∧ Answers ops target mh mp' key' r := by
  obtain ⟨r, hl⟩ := hk.unresized.sizing.lookup_returns h'
  exact ⟨r, answers_of_lookup reads hmap hentries hh' hl,
    answers_of_lookup reads hmap hentries' hh' (same.trans hl)⟩

theorem lookup_set_other (hk : Kept mp) (hne : h' ≠ h) (hcross : ¬ Crosses mp h)
    (step : SetStep mp h v b mp') : lookup mp' h' = lookup mp h' := by
  obtain ⟨rfl, hstep, hu'⟩ := hk.unresized.set_step hcross step
  obtain ⟨m, hrep⟩ := hk.wellPlaced.represents
  obtain ⟨m', hrep', hsame⟩ := hrep.set_step hk.unresized.sizing.shaped
    (hu'.initial.trans hk.unresized.initial.symm) hstep
  obtain ⟨r, hl⟩ := hk.unresized.sizing.lookup_returns h'
  obtain ⟨r', hl'⟩ := hu'.sizing.lookup_returns h'
  rw [hl, hl', hrep.lookup_eq hl, hrep'.lookup_eq hl', hsame h' hne]

theorem lookup_delete_other (hk : Kept mp) (hne : h' ≠ h) (hkeeps : DeleteKeeps mp h)
    (step : DeleteStep mp h b mp') : lookup mp' h' = lookup mp h' := by
  cases b with
  | true =>
    exact (delete_others_iff hk.unresized hk.wellPlaced hk.valuesValid step).mpr hkeeps h' hne
  | false =>
    rcases hk.unresized.delete_cases step with ⟨-, rfl⟩ | ⟨hb, -⟩
    · rfl
    · cases hb

/-- In every run without a growing set whose deletes keep the other entries: a set that
does not grow the table, or a delete that keeps the others, does not change the answer for
a key of another hash; and a key is answered with the invalid handle until some key of its
hash is set. A set of a key with the same hash, though, is read back under both keys. -/
theorem mapKeys_separate (reads : PointerReads ops) {t t' : σ}
    (created : mapCreate ops ma t = .ok (mh, some mp₀) t')
    (steps : MapSteps ops target mh (Harmless target) mp₀ mp)
    (hh : key.hash target = some h) (hh' : key'.hash target = some h') :
    (∀ v b s s' mp', mapSet ops target mh mp key v s = .ok (b, mp') s' → h' ≠ h →
      ¬ Crosses mp h → ∃ r, Answers ops target mh mp key' r ∧ Answers ops target mh mp' key' r) ∧
    (∀ b s s' mp', mapDelete ops target mh mp key s = .ok (b, mp') s' → h' ≠ h →
      DeleteKeeps mp h → ∃ r, Answers ops target mh mp key' r ∧ Answers ops target mh mp' key' r) ∧
    (MapSteps ops target mh (Leaves target h') mp₀ mp →
      Answers ops target mh mp key' .zero) ∧
    (h = h' → h ≠ 0 → ¬ Crosses mp h →
      ∀ v s s' mp', mapSet ops target mh mp key v s = .ok (true, mp') s' →
        Answers ops target mh mp' key' v) := by
  obtain ⟨hmap, hentries₀, hmp₀⟩ := mapCreate_some created
  have hk : Kept mp := steps_kept reads (hmp₀ ▸ Kept.created _) steps
  have hentries := steps.present reads hentries₀
  refine ⟨?_, ?_, ?_, ?_⟩
  · intro v b s s' mp' call hne hcross
    refine same_answer reads hk hmap hentries (mapSet_present reads hentries call) hh' ?_
    rcases mapSet_cases reads call with ⟨-, rfl⟩ | ⟨h₁, hh₁, -, step⟩
    · rfl
    · obtain rfl : h = h₁ := Option.some.inj (hh.symm.trans hh₁)
      exact lookup_set_other hk hne hcross step
  · intro b s s' mp' call hne hkeeps
    refine same_answer reads hk hmap hentries (mapDelete_present reads hentries call) hh' ?_
    obtain ⟨h₁, hh₁, step⟩ := mapDelete_cases reads call
    obtain rfl : h = h₁ := Option.some.inj (hh.symm.trans hh₁)
    exact lookup_delete_other hk hne hkeeps step
  · intro others
    have hnone : ∀ u, ¬ mp₀.Holds h' u := by
      rw [hmp₀]
      exact Map.created_holds _ _
    obtain ⟨hu, hn⟩ := steps_absent reads (hmp₀ ▸ Unresized.created _) hnone others
    exact answers_zero reads hu hmap hentries hh' hn
  · rintro rfl hne hcross v s s' mp' call
    rcases mapSet_cases reads call with ⟨hf, -⟩ | ⟨h₁, hh₁, -, step⟩
    · cases hf
    · obtain rfl : h = h₁ := Option.some.inj (hh.symm.trans hh₁)
      exact answers_of_lookup reads hmap (mapSet_present reads hentries call) hh'
        (lookup_set hk.unresized.sizing hne hcross step)

/-- The block at 4128 beside a set and a delete of the one at 4192, which has its home. -/
theorem mapKeys_separate_chain : ∃ mp s mp₁ s₁ mp₂ s₂,
    runCalls bumpOps ⟨true⟩ bumpMapMh (harmless ⟨true⟩) chainCalls bumpMap ⟨2, .dfl⟩ =
      some (mp, s) ∧
    mapSet bumpOps ⟨true⟩ bumpMapMh mp (.ptr 4192) ⟨64, 8, .plain⟩ s = .ok (true, mp₁) s₁ ∧
    mapDelete bumpOps ⟨true⟩ bumpMapMh mp (.ptr 4192) s = .ok (true, mp₂) s₂ ∧
    (∃ r, Answers bumpOps ⟨true⟩ bumpMapMh mp (.ptr 4128) r ∧
      Answers bumpOps ⟨true⟩ bumpMapMh mp₁ (.ptr 4128) r) ∧
    (∃ r, Answers bumpOps ⟨true⟩ bumpMapMh mp (.ptr 4128) r ∧
      Answers bumpOps ⟨true⟩ bumpMapMh mp₂ (.ptr 4128) r) := by
  have created : mapCreate bumpOps .plain ⟨0, .dfl⟩ = .ok (bumpMapMh, some bumpMap) ⟨2, .dfl⟩ := rfl
  obtain ⟨mp, s, all, room, test, ⟨mp₁, s₁, set⟩, mp₂, s₂, delete⟩ : ∃ mp s,
      runCalls bumpOps ⟨true⟩ bumpMapMh (harmless ⟨true⟩) chainCalls bumpMap ⟨2, .dfl⟩ =
        some (mp, s) ∧
      harmless ⟨true⟩ mp (.set (.ptr 4192) ⟨64, 8, .plain⟩) = true ∧
      harmless ⟨true⟩ mp (.delete (.ptr 4192)) = true ∧
      (∃ mp₁ s₁, mapSet bumpOps ⟨true⟩ bumpMapMh mp (.ptr 4192) ⟨64, 8, .plain⟩ s =
        .ok (true, mp₁) s₁) ∧
      ∃ mp₂ s₂, mapDelete bumpOps ⟨true⟩ bumpMapMh mp (.ptr 4192) s = .ok (true, mp₂) s₂ :=
    ⟨_, _, rfl, rfl, rfl, ⟨_, _, rfl⟩, _, _, rfl⟩
  have hh : (MapKey.ptr 4192).hash ⟨true⟩ = some (hashPtr ⟨true⟩ 4192) := rfl
  have hne : hashPtr ⟨true⟩ 4128 ≠ hashPtr ⟨true⟩ 4192 := by decide +kernel
  obtain ⟨bySet, byDelete, -⟩ := mapKeys_separate bumpOps_reads created
    (runCalls_steps harmless_sound .refl all) hh (show (MapKey.ptr 4128).hash ⟨true⟩ = _ from rfl)
  exact ⟨mp, s, mp₁, s₁, mp₂, s₂, all, set, delete,
    bySet _ _ _ _ _ set hne ((harmless_sound mp _ room).1 _ hh),
    byDelete _ _ _ _ delete hne ((harmless_sound mp _ test).2 _ hh)⟩

/-- Two addresses of one hash: the second is found although it was never set. -/
theorem mapKeys_share_entry : (8255216 : Addr) ≠ 8456944 ∧
    ∃ mp s, runCalls bumpOps ⟨true⟩ bumpMapMh anyCall (setBlocks [8255216]) bumpMap ⟨2, .dfl⟩ =
        some (mp, s) ∧
      mapGet bumpOps ⟨true⟩ bumpMapMh mp (.ptr 8456944) s = .ok ⟨8255216, 8, .plain⟩ s := by
  refine ⟨by decide, ?_⟩
  have set : runCalls bumpOps ⟨true⟩ bumpMapMh anyCall (setBlocks [8255216]) bumpMap ⟨2, .dfl⟩ =
      some (_, _) := rfl
  exact ⟨_, _, set, rfl⟩

end M65Tool.Guarantees.MapKeys
