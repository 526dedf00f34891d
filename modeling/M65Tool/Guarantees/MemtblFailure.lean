import M65Tool.Source.MemtblLedger

/-!
# MEMTBL-FAILURE: which failures leave a memory table sound

A call is sound if afterwards the table records only live blocks and no block of the
allocator has dropped out of it. `mem_alloc` and `mem_free` are sound under any
failure. `memtbl_realloc` is not: when realloc has moved the block and `map_set` or
the shrink of `map_delete` fails, it frees the new block although the table still
records the old one or already records the new one; and for a handle that is not in
the table it records a fresh block that it then frees.
-/
namespace M65Tool.Guarantees.MemtblFailure
open Source.Mem Source.Memtbl Source.Machine Source.MemtblLedger

/-- After a call on the table the recorded addresses are live, and a live block that is
not recorded was not the allocator's before either. -/
structure StillSound (w w' : Ledger) : Prop where
  recorded_live : ∀ a handle, w'.recorded a = some handle → w'.live a = true
  live_recorded : ∀ a, w'.live a = true → w'.recorded a = none →
    w.live a = true ∧ w.recorded a = none

/-- The call returns in a sound state; one that frees a dead block does not return. -/
def Sound (plan : Plan) (tblp : Addr) (w : Ledger) (call : MemCall) : Prop :=
  match call.run (ledgerOps plan tblp) w with
  | .ok _ w' => StillSound w w'
  | .error _ _ => False

/-- Every `mem_alloc` and `mem_free`; a `mem_realloc` of a recorded block that fails
without freeing it, stays in place, or moves it with both map calls succeeding; one of
a handle that is not recorded only if nothing is allocated or recorded for it. -/
def Tolerates (plan : Plan) (w : Ledger) : MemCall → Prop
  | .alloc _ _ => True
  | .free _ => True
  | .realloc handle _ =>
    memIsValid handle = true →
      if w.recorded handle.data = none then plan.malloc = 0 ∨ plan.setFails = true
      else match plan.realloc with
        | .null freed => freed = false
        | .inPlace => True
        | .moved _ => plan.setFails = false ∧ plan.shrinkFails = false

section Calls
variable {plan : Plan} {tblp : Addr} {w : Ledger} {handle r : MemHandle} {size : Nat}

theorem StillSound.refl (ht : w.Tracks) : StillSound w w :=
  ⟨fun a h hr => (ht.recorded_live a h hr).2, fun _ hl hr => ⟨hl, hr⟩⟩

/-- A block that is born and freed again leaves the ledger sound. -/
theorem stillSound_born_freed (ht : w.Tracks) {a : Addr} (hfresh : w.live a = false) :
    StillSound w ((w.birth a).kill a) where
  recorded_live b h hr := by
    have hlive := (ht.recorded_live b h hr).2
    have hne : b ≠ a := by
      rintro rfl
      rw [hfresh] at hlive
      cases hlive
    rw [Ledger.kill_live, if_neg hne, Ledger.birth_live, if_neg hne]
    exact hlive
  live_recorded b hl hr := by
    rw [Ledger.kill_live, Ledger.birth_live] at hl
    by_cases hb : b = a
    · rw [if_pos hb] at hl
      cases hl
    · rw [if_neg hb, if_neg hb] at hl
      exact ⟨hl, hr⟩

/-- A record of a dead block is not sound. -/
theorem not_stillSound {w' : Ledger} {a : Addr} (hr : w'.recorded a = some r)
    (hd : w'.live a = false) : ¬ StillSound w w' := by
  intro hs
  have := hs.recorded_live a r hr
  rw [hd] at this
  cases this

theorem alloc_sound (htbl : tblp ≠ 0) (ht : w.Tracks) (hv : plan.Valid w size) :
    Sound plan tblp w (.alloc (.memtbl tblp) size) := by
  unfold Sound MemCall.run
  dsimp only
  rw [memAlloc_ledger htbl]
  by_cases hm : plan.malloc = 0
  · rw [if_pos hm]
    exact StillSound.refl ht
  · rw [if_neg hm]
    by_cases hs : plan.setFails = true
    · rw [if_pos hs]
      exact stillSound_born_freed ht hv.malloc_fresh
    · rw [if_neg hs]
      constructor
      · intro b h hr
        rw [Ledger.enter_recorded] at hr
        rw [Ledger.enter_live, Ledger.birth_live]
        by_cases hb : b = plan.malloc
        · rw [if_pos hb]
        · rw [if_neg hb] at hr ⊢
          exact (ht.recorded_live b h hr).2
      · intro b hl hr
        rw [Ledger.enter_recorded] at hr
        rw [Ledger.enter_live, Ledger.birth_live] at hl
        by_cases hb : b = plan.malloc
        · rw [if_pos hb] at hr
          cases hr
        · rw [if_neg hb] at hr hl
          exact ⟨hl, hr⟩

theorem free_sound (htbl : tblp ≠ 0) (ht : w.Tracks) (ha : handle.allocator = .memtbl tblp) :
    Sound plan tblp w (.free handle) := by
  unfold Sound MemCall.run
  dsimp only
  by_cases hd : handle.data = 0
  · have hcall : (ledgerOps plan tblp).memFree handle w = .ok .zero w := by
      unfold ledgerOps memOps memFree
      dsimp only
      rw [if_neg (by simpa using hd)]
      rfl
    rw [hcall]
    exact StillSound.refl ht
  · cases hr : w.recorded handle.data with
    | none =>
      rw [memFree_absent htbl ht ha hd hr]
      exact StillSound.refl ht
    | some r =>
      rw [memFree_recorded htbl ht ha hd hr]
      constructor
      · intro b h hb
        rw [Ledger.kill_recorded, Ledger.strike_recorded] at hb
        rw [Ledger.kill_live, Ledger.strike_live]
        by_cases he : b = handle.data
        · rw [if_pos he] at hb
          cases hb
        · rw [if_neg he] at hb ⊢
          exact (ht.recorded_live b h hb).2
      · intro b hl hb
        rw [Ledger.kill_live, Ledger.strike_live] at hl
        rw [Ledger.kill_recorded, Ledger.strike_recorded] at hb
        by_cases he : b = handle.data
        · rw [if_pos he] at hl
          cases hl
        · rw [if_neg he] at hl hb
          exact ⟨hl, hb⟩

/-- A realloc of a handle that the table does not record. -/
theorem realloc_absent_sound_iff (htbl : tblp ≠ 0) (ht : w.Tracks) (hv : plan.Valid w size)
    (ha : handle.allocator = .memtbl tblp) (hd : handle.data ≠ 0)
    (hr : w.recorded handle.data = none) :
    Sound plan tblp w (.realloc handle size) ↔ plan.malloc = 0 ∨ plan.setFails = true := by
  unfold Sound MemCall.run
  dsimp only
  rw [memRealloc_absent htbl ht ha hd hr]
  by_cases hm : plan.malloc = 0
  · rw [if_pos hm]
    exact ⟨fun _ => Or.inl hm, fun _ => StillSound.refl ht⟩
  · rw [if_neg hm]
    by_cases hs : plan.setFails = true
    · rw [if_pos hs]
      exact ⟨fun _ => Or.inr hs, fun _ => stillSound_born_freed ht hv.malloc_fresh⟩
    · rw [if_neg hs]
      constructor
      · intro hsound
        refine absurd hsound (not_stillSound (r := ⟨plan.malloc, size, .memtbl tblp⟩)
          (a := plan.malloc) ?_ ?_)
        · rw [Ledger.kill_recorded, Ledger.enter_recorded, if_pos rfl]
        · rw [Ledger.kill_live, if_pos rfl]
      · rintro (h | h)
        · exact absurd h hm
        · exact absurd h hs

/-- A realloc that moved a recorded block. -/
theorem reallocMoved_sound_iff (ht : w.Tracks) (hr : w.recorded handle.data = some r)
    {newData : Addr} (hfresh : w.live newData = false) :
    (match reallocMoved plan w handle.data ⟨newData, size, .memtbl tblp⟩ with
      | .ok _ w' => StillSound w w'
      | .error _ _ => False) ↔ plan.setFails = false ∧ plan.shrinkFails = false := by
  have hlive := (ht.recorded_live _ _ hr).2
  have hne : handle.data ≠ newData := by
    intro he
    rw [he, hfresh] at hlive
    cases hlive
  unfold reallocMoved
  dsimp only
  cases hs : plan.setFails with
  | true =>
    refine ⟨fun hsound => absurd hsound (not_stillSound (a := handle.data) hr ?_), by simp⟩
    rw [Ledger.kill_live, if_neg hne, Ledger.birth_live, if_neg hne, Ledger.kill_live, if_pos rfl]
  | false =>
    cases hshrink : plan.shrinkFails with
    | true =>
      refine ⟨fun hsound => absurd hsound (not_stillSound (a := newData)
        (r := ⟨newData, size, .memtbl tblp⟩) ?_ ?_), by simp⟩
      · rw [Ledger.kill_recorded, Ledger.strike_recorded, if_neg (Ne.symm hne),
          Ledger.enter_recorded, if_pos rfl]
      · rw [Ledger.kill_live, if_pos rfl]
    | false =>
      refine ⟨fun _ => ⟨rfl, rfl⟩, fun _ => ?_⟩
      constructor
      · intro b h hb
        rw [Ledger.strike_recorded, Ledger.enter_recorded] at hb
        rw [Ledger.strike_live, Ledger.enter_live, Ledger.birth_live, Ledger.kill_live]
        by_cases hold : b = handle.data
        · rw [if_pos hold] at hb
          cases hb
        · rw [if_neg hold] at hb ⊢
          by_cases hnew : b = newData
          · rw [if_pos hnew]
          · rw [if_neg hnew] at hb ⊢
            exact (ht.recorded_live b h hb).2
      · intro b hl hb
        rw [Ledger.strike_recorded, Ledger.enter_recorded] at hb
        rw [Ledger.strike_live, Ledger.enter_live, Ledger.birth_live, Ledger.kill_live] at hl
        by_cases hold : b = handle.data
        · rw [if_neg (by rw [hold]; exact hne), if_pos hold] at hl
          cases hl
        · rw [if_neg hold] at hb hl
          by_cases hnew : b = newData
          · rw [if_pos hnew] at hb
            cases hb
          · rw [if_neg hnew] at hb hl
            exact ⟨hl, hb⟩

theorem realloc_recorded_sound_iff (htbl : tblp ≠ 0) (ht : w.Tracks) (hv : plan.Valid w size)
    (ha : handle.allocator = .memtbl tblp) (hd : handle.data ≠ 0)
    (hr : w.recorded handle.data = some r) :
    Sound plan tblp w (.realloc handle size) ↔ match plan.realloc with
      | .null freed => freed = false
      | .inPlace => True
      | .moved _ => plan.setFails = false ∧ plan.shrinkFails = false := by
  unfold Sound MemCall.run
  dsimp only
  rw [memRealloc_recorded htbl ht hv ha hd hr]
  cases hp : plan.realloc with
  | null freed =>
    cases freed with
    | false => exact ⟨fun _ => rfl, fun _ => StillSound.refl ht⟩
    | true =>
      refine ⟨fun hsound => absurd hsound (not_stillSound (a := handle.data) hr ?_), by simp⟩
      rw [if_pos rfl, Ledger.kill_live, if_pos rfl]
  | inPlace => exact ⟨fun _ => trivial, fun _ => StillSound.refl ht⟩
  | moved newData => exact reallocMoved_sound_iff ht hr (hv.moved_fresh newData hp).2

/-- From every table whose recorded addresses are live, under every pattern of
failures, a call on the allocator leaves the table sound if and only if it is one that
tolerates the failures. -/
theorem memCall_sound_iff (htbl : tblp ≠ 0) (ht : w.Tracks) (call : MemCall)
    (hon : call.allocator = .memtbl tblp) (hv : plan.Valid w call.size) :
    Sound plan tblp w call ↔ Tolerates plan w call := by
  cases call with
  | alloc allocator size =>
    obtain rfl : allocator = .memtbl tblp := hon
    exact ⟨fun _ => trivial, fun _ => alloc_sound htbl ht hv⟩
  | free handle => exact ⟨fun _ => trivial, fun _ => free_sound htbl ht hon⟩
  | realloc handle size =>
    have hv' : plan.Valid w size := hv
    unfold Tolerates
    dsimp only
    by_cases hd : handle.data = 0
    · have hcall : (ledgerOps plan tblp).memRealloc handle size w = .ok .zero w := by
        unfold ledgerOps memOps memRealloc
        dsimp only
        rw [if_neg (by simpa using hd)]
        rfl
      have hsound : Sound plan tblp w (.realloc handle size) := by
        unfold Sound MemCall.run
        dsimp only
        rw [hcall]
        exact StillSound.refl ht
      exact ⟨fun _ hvalid => absurd hd (memIsValid_eq_true.mp hvalid), fun _ => hsound⟩
    · have hvalid := memIsValid_eq_true.mpr hd
      cases hr : w.recorded handle.data with
      | none =>
        rw [realloc_absent_sound_iff htbl ht hv' hon hd hr, if_pos rfl]
        exact ⟨fun h _ => h, fun h => h hvalid⟩
      | some r =>
        rw [realloc_recorded_sound_iff htbl ht hv' hon hd hr, if_neg (by simp)]
        exact ⟨fun h _ => h, fun h => h hvalid⟩

end Calls

/-- One recorded block at 4096. -/
def oneBlock : Ledger where
  sigint := .dfl
  live := fun a => a = 4096
  recorded := fun a => if a = 4096 then some ⟨4096, 8, .memtbl 64⟩ else none

/-- realloc moves the block to 8192, and the table cannot grow. -/
def setFailing : Plan := ⟨0, .moved 8192, true, false⟩

theorem oneBlock_tracks : oneBlock.Tracks where
  null_dead := rfl
  recorded_live a handle hr := by
    by_cases ha : a = 4096
    · subst ha
      cases hr
      exact ⟨rfl, rfl⟩
    · have hn : oneBlock.recorded a = none := if_neg ha
      rw [hn] at hr
      cases hr

theorem plan_valid {plan : Plan} (size : Nat) (malloc : plan.malloc = 0)
    (moved : ∀ newData, plan.realloc = .moved newData → newData = 8192)
    (kept : plan.realloc ≠ .null true) : plan.Valid oneBlock size where
  malloc_fresh := by
    rw [malloc]
    rfl
  moved_fresh newData hm := by
    rw [moved newData hm]
    exact ⟨by decide, rfl⟩
  freed_size hfreed := absurd hfreed kept

theorem setFailing_valid (size : Nat) : setFailing.Valid oneBlock size :=
  plan_valid size rfl (fun _ hm => (ReallocAnswer.moved.inj hm).symm) (by decide)

/-- A realloc that is refused or moves the block is sound, and one that moves it while
map_set fails is not. -/
theorem memCall_sound_iff_realloc :
    Sound ⟨0, .null false, false, false⟩ 64 oneBlock (.realloc ⟨4096, 8, .memtbl 64⟩ 16) ∧
    Sound ⟨0, .moved 8192, false, false⟩ 64 oneBlock (.realloc ⟨4096, 8, .memtbl 64⟩ 16) ∧
    ¬ Sound setFailing 64 oneBlock (.realloc ⟨4096, 8, .memtbl 64⟩ 16) := by
  have hiff : ∀ plan : Plan, plan.Valid oneBlock 16 →
      (Sound plan 64 oneBlock (.realloc ⟨4096, 8, .memtbl 64⟩ 16) ↔
        Tolerates plan oneBlock (.realloc ⟨4096, 8, .memtbl 64⟩ 16)) := fun _ valid =>
    memCall_sound_iff (by decide) oneBlock_tracks _ rfl valid
  refine ⟨(hiff _ ?_).mpr fun _ => rfl, (hiff _ ?_).mpr fun _ => ⟨rfl, rfl⟩, fun sound => ?_⟩
  · exact plan_valid 16 rfl (fun _ hm => by cases hm) (by decide)
  · exact plan_valid 16 rfl (fun _ hm => (ReallocAnswer.moved.inj hm).symm) (by decide)
  · have tolerates := (hiff setFailing (setFailing_valid 16)).mp sound rfl
    exact Bool.noConfusion tolerates.1

/-- The realloc reports failure, the block that the table records is gone. -/
theorem realloc_leaves_dead_record : oneBlock.Tracks ∧ setFailing.Valid oneBlock 16 ∧
    ∃ w', (ledgerOps setFailing 64).memRealloc ⟨4096, 8, .memtbl 64⟩ 16 oneBlock = .ok .zero w' ∧
      w'.recorded 4096 = some ⟨4096, 8, .memtbl 64⟩ ∧ w'.live 4096 = false :=
  ⟨oneBlock_tracks, setFailing_valid 16, _, rfl, rfl, rfl⟩

end M65Tool.Guarantees.MemtblFailure
