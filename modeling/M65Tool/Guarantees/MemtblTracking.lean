import M65Tool.Source.MemtblLedger
import Mathlib.Data.List.Nodup

/-!
# MEMTBL-TRACKING: the table is the set of blocks in use

In a run over an exact map in which no allocation fails, and which uses a handle only
until it is reallocated or freed, the table records exactly the addresses of the
handles in use, each of them a live block. Every further call of such a run returns,
so nothing is freed twice; and freeing a handle that is not in use does nothing.
-/
namespace M65Tool.Guarantees.MemtblTracking
open Source.Mem Source.Memtbl Source.Machine Source.MemtblLedger Lib.Effect

/-- Nothing fails: a new address is not live, and the map is exact. -/
structure Succeeds (plan : Plan) (w : Ledger) : Prop where
  malloc_fresh : plan.malloc ≠ 0 ∧ w.live plan.malloc = false
  realloc_answers : plan.realloc = .inPlace ∨
    ∃ newData, plan.realloc = .moved newData ∧ newData ≠ 0 ∧ w.live newData = false
  set_succeeds : plan.setFails = false
  shrink_succeeds : plan.shrinkFails = false

/-- The runs of a table, with the handles in use. Between its calls the rest of the
program may allocate and free blocks that are not the table's. -/
inductive TableRun (tblp : Addr) : Ledger → List MemHandle → Prop
  | start {w : Ledger} (null_dead : w.live 0 = false) (empty : ∀ a, w.recorded a = none) :
      TableRun tblp w []
  | outside {w w' : Ledger} {held : List MemHandle} (run : TableRun tblp w held)
      (null_dead : w'.live 0 = false) (same : w'.recorded = w.recorded)
      (kept : ∀ a, w.recorded a ≠ none → w'.live a = w.live a) : TableRun tblp w' held
  | alloc {w w' : Ledger} {held : List MemHandle} {plan : Plan} {size : Nat} {handle : MemHandle}
      (run : TableRun tblp w held) (succeeds : Succeeds plan w)
      (call : (ledgerOps plan tblp).memAlloc (.memtbl tblp) size w = .ok handle w') :
      TableRun tblp w' (handle :: held)
  | realloc {w w' : Ledger} {held : List MemHandle} {plan : Plan} {size : Nat}
      {handle result : MemHandle} (run : TableRun tblp w held) (succeeds : Succeeds plan w)
      (inUse : handle ∈ held) (size_pos : 1 ≤ size)
      (call : (ledgerOps plan tblp).memRealloc handle size w = .ok result w') :
      TableRun tblp w' (result :: held.erase handle)
  | duplicate {w w' : Ledger} {held : List MemHandle} {plan : Plan} {handle result : MemHandle}
      (run : TableRun tblp w held) (succeeds : Succeeds plan w) (inUse : handle ∈ held)
      (call : memDuplicate (ledgerOps plan tblp) handle w = .ok result w') :
      TableRun tblp w' (result :: held)
  | free {w w' : Ledger} {held : List MemHandle} {plan : Plan} {handle result : MemHandle}
      (run : TableRun tblp w held) (succeeds : Succeeds plan w) (inUse : handle ∈ held)
      (call : (ledgerOps plan tblp).memFree handle w = .ok result w') :
      TableRun tblp w' (held.erase handle)

/-- The table and the handles in use agree. -/
structure InStep (tblp : Addr) (w : Ledger) (held : List MemHandle) : Prop where
  tracks : w.Tracks
  recorded_iff : ∀ a, w.recorded a ≠ none ↔ ∃ handle ∈ held, handle.data = a
  distinct : (held.map (·.data)).Nodup
  allocator : ∀ handle ∈ held, handle.allocator = .memtbl tblp

section Calls
variable {plan : Plan} {tblp : Addr} {w w' : Ledger} {held : List MemHandle}
  {handle result : MemHandle} {size : Nat}

theorem Succeeds.valid (size : Nat) (hp : Succeeds plan w) : plan.Valid w size where
  malloc_fresh := hp.malloc_fresh.2
  moved_fresh newData hm := by
    rcases hp.realloc_answers with hr | ⟨n, hr, hfresh⟩
    · rw [hr] at hm
      cases hm
    · rw [hr] at hm
      cases hm
      exact hfresh
  freed_size hr := by
    rcases hp.realloc_answers with hr' | ⟨n, hr', -⟩ <;> rw [hr'] at hr <;> cases hr

namespace InStep

theorem recorded (hi : InStep tblp w held) (hm : handle ∈ held) :
    ∃ r, w.recorded handle.data = some r := by
  have := (hi.recorded_iff handle.data).mpr ⟨handle, hm, rfl⟩
  exact Option.ne_none_iff_exists'.mp this

theorem data_ne (hi : InStep tblp w held) (hm : handle ∈ held) : handle.data ≠ 0 := by
  obtain ⟨r, hr⟩ := hi.recorded hm
  intro hz
  rw [hz, hi.tracks.zero_absent] at hr
  cases hr

theorem live (hi : InStep tblp w held) (hm : handle ∈ held) : w.live handle.data = true := by
  obtain ⟨r, hr⟩ := hi.recorded hm
  exact (hi.tracks.recorded_live _ _ hr).2

/-- A new block and its handle. -/
theorem enter (size : Nat) (hi : InStep tblp w held) {a : Addr} (hne : a ≠ 0) (hfresh : w.live a = false) :
    InStep tblp ((w.birth a).enter a ⟨a, size, .memtbl tblp⟩) (⟨a, size, .memtbl tblp⟩ :: held) where
  tracks := by
    constructor
    · rw [Ledger.enter_live, Ledger.birth_live, if_neg (Ne.symm hne)]
      exact hi.tracks.null_dead
    · intro b h hb
      rw [Ledger.enter_recorded] at hb
      rw [Ledger.enter_live, Ledger.birth_live]
      by_cases he : b = a
      · rw [if_pos he] at hb ⊢
        cases hb
        exact ⟨he.symm, rfl⟩
      · rw [if_neg he] at hb ⊢
        exact hi.tracks.recorded_live b h hb
  recorded_iff b := by
    rw [Ledger.enter_recorded]
    by_cases he : b = a
    · simp [he]
    · rw [if_neg he, Ledger.birth_recorded, hi.recorded_iff b]
      simp [Ne.symm he]
  distinct := by
    rw [List.map_cons, List.nodup_cons]
    refine ⟨?_, hi.distinct⟩
    intro hm
    obtain ⟨h, hh, hd⟩ := List.mem_map.mp hm
    have hlive := hi.live hh
    rw [hd, hfresh] at hlive
    cases hlive
  allocator h hm := by
    rcases List.mem_cons.mp hm with rfl | hm
    · rfl
    · exact hi.allocator h hm

theorem mem_erase_iff (hi : InStep tblp w held) (hm : handle ∈ held) (a : Addr) :
    (∃ g ∈ held.erase handle, g.data = a) ↔ a ≠ handle.data ∧ ∃ g ∈ held, g.data = a := by
  have hnodup : held.Nodup := List.Nodup.of_map _ hi.distinct
  have hinj := List.inj_on_of_nodup_map hi.distinct
  constructor
  · rintro ⟨g, hg, rfl⟩
    obtain ⟨hne, hg⟩ := hnodup.mem_erase_iff.mp hg
    exact ⟨fun he => hne (hinj hg hm he), g, hg, rfl⟩
  · rintro ⟨hne, g, hg, rfl⟩
    refine ⟨g, hnodup.mem_erase_iff.mpr ⟨?_, hg⟩, rfl⟩
    rintro rfl
    exact hne rfl

/-- A block that is struck off and freed. -/
theorem leave (hi : InStep tblp w held) (hm : handle ∈ held) :
    InStep tblp ((w.strike handle.data).kill handle.data) (held.erase handle) where
  tracks := by
    constructor
    · rw [Ledger.kill_live, if_neg (Ne.symm (hi.data_ne hm))]
      exact hi.tracks.null_dead
    · intro b h hb
      rw [Ledger.kill_recorded, Ledger.strike_recorded] at hb
      rw [Ledger.kill_live]
      by_cases he : b = handle.data
      · rw [if_pos he] at hb
        cases hb
      · rw [if_neg he] at hb ⊢
        exact hi.tracks.recorded_live b h hb
  recorded_iff b := by
    rw [hi.mem_erase_iff hm, Ledger.kill_recorded, Ledger.strike_recorded]
    by_cases he : b = handle.data
    · simp [he]
    · rw [if_neg he, hi.recorded_iff b]
      simp [he]
  distinct := hi.distinct.sublist (List.Sublist.map _ List.erase_sublist)
  allocator h hh := hi.allocator h (List.mem_of_mem_erase hh)

/-- The handle of a block that was reallocated in place replaces the old one. -/
theorem resize (hi : InStep tblp w held) (hm : handle ∈ held) :
    InStep tblp w (⟨handle.data, size, .memtbl tblp⟩ :: held.erase handle) where
  tracks := hi.tracks
  recorded_iff b := by
    simp only [List.mem_cons, exists_eq_or_imp]
    rw [hi.mem_erase_iff hm, hi.recorded_iff b]
    constructor
    · rintro ⟨g, hg, rfl⟩
      by_cases he : g.data = handle.data
      · exact Or.inl he.symm
      · exact Or.inr ⟨he, g, hg, rfl⟩
    · rintro (rfl | ⟨-, h⟩)
      · exact ⟨handle, hm, rfl⟩
      · exact h
  distinct := by
    rw [List.map_cons, List.nodup_cons]
    refine ⟨?_, hi.distinct.sublist (List.Sublist.map _ List.erase_sublist)⟩
    intro hmem
    obtain ⟨g, hg, hd⟩ := List.mem_map.mp hmem
    exact ((hi.mem_erase_iff hm handle.data).mp ⟨g, hg, hd⟩).1 rfl
  allocator h hh := by
    rcases List.mem_cons.mp hh with rfl | hh
    · rfl
    · exact hi.allocator h (List.mem_of_mem_erase hh)

end InStep

/-! ## The calls -/

theorem alloc_call (htbl : tblp ≠ 0) (hp : Succeeds plan w) :
    (ledgerOps plan tblp).memAlloc (.memtbl tblp) size w =
      .ok ⟨plan.malloc, size, .memtbl tblp⟩
        ((w.birth plan.malloc).enter plan.malloc ⟨plan.malloc, size, .memtbl tblp⟩) := by
  rw [memAlloc_ledger htbl, if_neg hp.malloc_fresh.1, if_neg (by simp [hp.set_succeeds])]

theorem memP_call (htbl : tblp ≠ 0) (hi : InStep tblp w held) (hm : handle ∈ held) :
    (ledgerOps plan tblp).memP handle w = .ok handle.data w := by
  obtain ⟨r, hr⟩ := hi.recorded hm
  rw [memP_eq (hi.allocator _ hm) (hi.data_ne hm),
    memtblP_recorded htbl hi.tracks (hi.allocator _ hm) (hi.data_ne hm) hr]

theorem deref_call (htbl : tblp ≠ 0) (hi : InStep tblp w held) (hm : handle ∈ held) :
    deref (ledgerOps plan tblp) handle w = .ok () w := by
  rw [deref, bind_of_ok (memP_call htbl hi hm), if_neg (hi.data_ne hm)]
  rfl

theorem duplicate_call (htbl : tblp ≠ 0) (hi : InStep tblp w held) (hm : handle ∈ held)
    (hp : Succeeds plan w) :
    memDuplicate (ledgerOps plan tblp) handle w =
      .ok ⟨plan.malloc, handle.size, .memtbl tblp⟩ ((w.birth plan.malloc).enter plan.malloc
        ⟨plan.malloc, handle.size, .memtbl tblp⟩) := by
  have hi' := hi.enter handle.size hp.malloc_fresh.1 hp.malloc_fresh.2
  unfold memDuplicate memDuplicateWithAllocator
  rw [if_pos (memIsValid_eq_true.mpr (hi.data_ne hm)), hi.allocator _ hm,
    bind_of_ok (alloc_call htbl hp), if_pos (memIsValid_eq_true.mpr hp.malloc_fresh.1),
    bind_of_ok (deref_call htbl hi' List.mem_cons_self),
    bind_of_ok (deref_call htbl hi' (List.mem_cons_of_mem _ hm))]
  rfl

theorem free_call (htbl : tblp ≠ 0) (hi : InStep tblp w held) (hm : handle ∈ held) :
    (ledgerOps plan tblp).memFree handle w =
      .ok .zero ((w.strike handle.data).kill handle.data) := by
  obtain ⟨r, hr⟩ := hi.recorded hm
  exact memFree_recorded htbl hi.tracks (hi.allocator _ hm) (hi.data_ne hm) hr

/-- Freeing a handle of the allocator that is not in use. -/
theorem free_unused (htbl : tblp ≠ 0) (hi : InStep tblp w held)
    (ha : handle.allocator = .memtbl tblp) (hunused : ∀ g ∈ held, g.data ≠ handle.data) :
    (ledgerOps plan tblp).memFree handle w = .ok .zero w := by
  by_cases hd : handle.data = 0
  · unfold ledgerOps memOps memFree
    dsimp only
    rw [if_neg (by simpa using hd)]
    rfl
  · have hn : w.recorded handle.data = none := by
      by_contra hne
      obtain ⟨g, hg, hgd⟩ := (hi.recorded_iff handle.data).mp hne
      exact hunused g hg hgd
    exact memFree_absent htbl hi.tracks ha hd hn

/-- A reallocation stays in place, or moves the block and its entry. -/
theorem realloc_call (htbl : tblp ≠ 0) (hi : InStep tblp w held) (hm : handle ∈ held)
    (hp : Succeeds plan w) (size : Nat) :
    ∃ result w', (ledgerOps plan tblp).memRealloc handle size w = .ok result w' ∧
      InStep tblp w' (result :: held.erase handle) := by
  obtain ⟨r, hr⟩ := hi.recorded hm
  have hcall := memRealloc_recorded htbl hi.tracks (hp.valid size) (hi.allocator _ hm)
    (hi.data_ne hm) hr
  rcases hp.realloc_answers with hans | ⟨newData, hans, hnew, hfresh⟩
  · rw [hans] at hcall
    exact ⟨_, _, hcall, hi.resize hm⟩
  · rw [hans] at hcall
    unfold reallocMoved at hcall
    dsimp only at hcall
    rw [if_neg (by simp [hp.set_succeeds]), if_neg (by simp [hp.shrink_succeeds])] at hcall
    have hne : newData ≠ handle.data := by
      rintro rfl
      rw [hi.live hm] at hfresh
      cases hfresh
    have hleft := hi.leave hm
    have hfresh' : ((w.strike handle.data).kill handle.data).live newData = false := by
      rw [Ledger.kill_live, if_neg hne, Ledger.strike_live]
      exact hfresh
    have hentered := hleft.enter size hnew hfresh'
    have hcomm : (((w.kill handle.data).birth newData).enter newData
        ⟨newData, size, .memtbl tblp⟩).strike handle.data =
        (((w.strike handle.data).kill handle.data).birth newData).enter newData
          ⟨newData, size, .memtbl tblp⟩ := by
      unfold Ledger.strike Ledger.enter Ledger.birth Ledger.kill
      dsimp only
      rw [Function.update_comm hne]
    rw [hcomm] at hcall
    exact ⟨_, _, hcall, hentered⟩

/-! ## Runs -/

theorem tableRun_inStep (htbl : tblp ≠ 0) (run : TableRun tblp w held) : InStep tblp w held := by
  induction run with
  | start null_dead empty =>
    refine ⟨⟨null_dead, ?_⟩, ?_, List.nodup_nil, ?_⟩
    · intro a h hr
      rw [empty a] at hr
      cases hr
    · simp [empty]
    · simp
  | outside run null_dead same kept ih =>
    refine ⟨⟨null_dead, ?_⟩, ?_, ih.distinct, ih.allocator⟩
    · intro a h hr
      rw [same] at hr
      rw [kept a (by rw [hr]; simp)]
      exact ih.tracks.recorded_live a h hr
    · rw [same]
      exact ih.recorded_iff
  | alloc run succeeds call ih =>
    rw [alloc_call htbl succeeds] at call
    cases call
    exact ih.enter _ succeeds.malloc_fresh.1 succeeds.malloc_fresh.2
  | realloc run succeeds inUse size_pos call ih =>
    obtain ⟨result, w', hcall, hi⟩ := realloc_call htbl ih inUse succeeds _
    rw [hcall] at call
    cases call
    exact hi
  | duplicate run succeeds inUse call ih =>
    rw [duplicate_call htbl ih inUse succeeds] at call
    cases call
    exact ih.enter _ succeeds.malloc_fresh.1 succeeds.malloc_fresh.2
  | free run succeeds inUse call ih =>
    rw [free_call htbl ih inUse] at call
    cases call
    exact ih.leave inUse

/-- After every step of a run: the table records the blocks in use, `mem_p` is the
address of each, every allowed call returns (a second free of a block would not), and
freeing a handle that is no longer in use changes nothing. -/
theorem tableRun_tracking (htbl : tblp ≠ 0) (run : TableRun tblp w held) :
    ((∀ a, w.recorded a ≠ none ↔ ∃ handle ∈ held, handle.data = a) ∧
      (held.map (·.data)).Nodup ∧ ∀ handle ∈ held, w.live handle.data = true) ∧
    (∀ plan, ∀ handle ∈ held, (ledgerOps plan tblp).memP handle w = .ok handle.data w) ∧
    (∀ plan, Succeeds plan w →
      (∀ size, ∃ result w',
        (ledgerOps plan tblp).memAlloc (.memtbl tblp) size w = .ok result w') ∧
      ∀ handle ∈ held,
        (∀ size ≥ 1, ∃ result w',
          (ledgerOps plan tblp).memRealloc handle size w = .ok result w') ∧
        (∃ result w', memDuplicate (ledgerOps plan tblp) handle w = .ok result w') ∧
        ∃ w', (ledgerOps plan tblp).memFree handle w = .ok .zero w' ∧
          w'.live = Function.update w.live handle.data false) ∧
    (∀ plan handle, handle.allocator = .memtbl tblp → (∀ g ∈ held, g.data ≠ handle.data) →
      (ledgerOps plan tblp).memFree handle w = .ok .zero w) := by
  have hi := tableRun_inStep htbl run
  refine ⟨⟨hi.recorded_iff, hi.distinct, fun _ hm => hi.live hm⟩,
    fun _ _ hm => memP_call htbl hi hm, ?_, fun _ _ ha hu => free_unused htbl hi ha hu⟩
  intro plan hp
  refine ⟨fun size => ⟨_, _, alloc_call htbl hp⟩, ?_⟩
  intro handle hm
  refine ⟨?_, ⟨_, _, duplicate_call htbl hi hm hp⟩, _, free_call htbl hi hm, rfl⟩
  intro size _
  obtain ⟨result, w', hcall, -⟩ := realloc_call htbl hi hm hp size
  exact ⟨result, w', hcall⟩

end Calls

/-- A heap with no blocks and a table with no entries. -/
def freshLedger : Ledger := ⟨.dfl, fun _ => false, fun _ => none⟩

/-- malloc answers with one address, realloc moves to another. -/
def granting (malloc newData : Addr) : Plan := ⟨malloc, .moved newData, false, false⟩

def ledgerAfter {α : Type} : EStateM.Result Fault Ledger α → Ledger
  | .ok _ w => w
  | .error _ w => w

def allocated : Ledger :=
  ledgerAfter ((ledgerOps (granting 4096 8192) 64).memAlloc (.memtbl 64) 8 freshLedger)

def reallocated : Ledger :=
  ledgerAfter
    ((ledgerOps (granting 12288 8192) 64).memRealloc ⟨4096, 8, .memtbl 64⟩ 16 allocated)

def duplicated : Ledger :=
  ledgerAfter (memDuplicate (ledgerOps (granting 4096 12288) 64) ⟨8192, 16, .memtbl 64⟩ reallocated)

def freed : Ledger :=
  ledgerAfter ((ledgerOps (granting 12288 16384) 64).memFree ⟨8192, 16, .memtbl 64⟩ duplicated)

theorem freed_run : TableRun 64 freed [⟨4096, 16, .memtbl 64⟩] := by
  have succeeds : ∀ {malloc newData : Addr} {w : Ledger}, malloc ≠ 0 → newData ≠ 0 →
      w.live malloc = false → w.live newData = false → Succeeds (granting malloc newData) w :=
    fun {_ newData _} hmalloc hmoved hfresh hapart =>
      ⟨⟨hmalloc, hfresh⟩, Or.inr ⟨newData, rfl, hmoved, hapart⟩, rfl, rfl⟩
  have start : TableRun 64 freshLedger [] := .start rfl fun _ => rfl
  have call₁ : (ledgerOps (granting 4096 8192) 64).memAlloc (.memtbl 64) 8 freshLedger =
      .ok ⟨4096, 8, .memtbl 64⟩ allocated := rfl
  have call₂ : (ledgerOps (granting 12288 8192) 64).memRealloc ⟨4096, 8, .memtbl 64⟩ 16
      allocated = .ok ⟨8192, 16, .memtbl 64⟩ reallocated := rfl
  have call₃ : memDuplicate (ledgerOps (granting 4096 12288) 64) ⟨8192, 16, .memtbl 64⟩
      reallocated = .ok ⟨4096, 16, .memtbl 64⟩ duplicated := rfl
  have call₄ : (ledgerOps (granting 12288 16384) 64).memFree ⟨8192, 16, .memtbl 64⟩
      duplicated = .ok .zero freed := rfl
  have run₁ := start.alloc (succeeds (by decide) (by decide) rfl rfl) call₁
  have run₂ := run₁.realloc (succeeds (by decide) (by decide) rfl rfl) List.mem_cons_self
    (by decide) call₂
  have run₃ := run₂.duplicate (succeeds (by decide) (by decide) rfl rfl) List.mem_cons_self call₃
  exact run₃.free (succeeds (by decide) (by decide) rfl rfl)
    (List.mem_cons_of_mem _ List.mem_cons_self) call₄

/-- A block is moved and duplicated and then freed: the duplicate is the block in use, and
the handle that was freed is freed again in vain. -/
theorem tableRun_tracking_freed :
    (∀ a, freed.recorded a ≠ none ↔
      ∃ handle ∈ [(⟨4096, 16, .memtbl 64⟩ : MemHandle)], handle.data = a) ∧
    (ledgerOps (granting 12288 16384) 64).memP ⟨4096, 16, .memtbl 64⟩ freed = .ok 4096 freed ∧
    (ledgerOps (granting 12288 16384) 64).memFree ⟨8192, 16, .memtbl 64⟩ freed =
      .ok .zero freed := by
  obtain ⟨⟨hrecorded, -⟩, hknown, -, hunused⟩ := tableRun_tracking (by decide) freed_run
  exact ⟨hrecorded, hknown _ _ List.mem_cons_self, hunused _ _ rfl (by decide)⟩

end M65Tool.Guarantees.MemtblTracking
