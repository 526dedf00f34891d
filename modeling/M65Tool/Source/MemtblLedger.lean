import M65Tool.Lib.Effect
import M65Tool.Source.Machine
import Mathlib.Logic.Function.Basic

/-!
# A memory table over a map that keeps its contract

The world of one memory table at `tblp` as map.h and the C library document it: the
heap is the set of live blocks, the map an exact finite map keyed by address. A
`Plan` fixes what the library and the map answer during one call, failures included:
`map_set` may fail and leave the map as it was, and `map_delete` reports false for an
absent key or after a delete whose shrink failed.
-/
namespace M65Tool.Source.MemtblLedger
open Mem HashMap Memtbl Machine Lib.Effect

structure Ledger where
  sigint : SigHandler
  /-- blocks not yet passed to free or consumed by realloc -/
  live : Addr → Bool
  /-- the entries of the table's map -/
  recorded : Addr → Option MemHandle

inductive ReallocAnswer where
  /-- null; with size 0 the library may have freed the block -/
  | null (freed : Bool)
  | inPlace
  | moved (newData : Addr)
  deriving DecidableEq, Repr

structure Plan where
  /-- what malloc returns, and realloc of a null pointer -/
  malloc : Addr
  realloc : ReallocAnswer
  setFails : Bool
  shrinkFails : Bool
  deriving DecidableEq, Repr

namespace Ledger

def birth (w : Ledger) (a : Addr) : Ledger := { w with live := Function.update w.live a true }
def kill (w : Ledger) (a : Addr) : Ledger := { w with live := Function.update w.live a false }
def enter (w : Ledger) (a : Addr) (handle : MemHandle) : Ledger :=
  { w with recorded := Function.update w.recorded a (some handle) }
def strike (w : Ledger) (a : Addr) : Ledger :=
  { w with recorded := Function.update w.recorded a none }

@[simp] theorem birth_recorded (w : Ledger) (a : Addr) : (w.birth a).recorded = w.recorded := rfl
@[simp] theorem kill_recorded (w : Ledger) (a : Addr) : (w.kill a).recorded = w.recorded := rfl
@[simp] theorem enter_live (w : Ledger) (a : Addr) (handle : MemHandle) :
    (w.enter a handle).live = w.live := rfl
@[simp] theorem strike_live (w : Ledger) (a : Addr) : (w.strike a).live = w.live := rfl

theorem birth_live (w : Ledger) (a b : Addr) :
    (w.birth a).live b = if b = a then true else w.live b := Function.update_apply _ _ _ _

theorem kill_live (w : Ledger) (a b : Addr) :
    (w.kill a).live b = if b = a then false else w.live b := Function.update_apply _ _ _ _

theorem enter_recorded (w : Ledger) (a b : Addr) (handle : MemHandle) :
    (w.enter a handle).recorded b = if b = a then some handle else w.recorded b :=
  Function.update_apply _ _ _ _

theorem strike_recorded (w : Ledger) (a b : Addr) :
    (w.strike a).recorded b = if b = a then none else w.recorded b := Function.update_apply _ _ _ _

end Ledger

section Library
variable (plan : Plan)

def planMalloc (_ : Nat) : C Ledger Addr := fun w =>
  if plan.malloc = 0 then .ok 0 w else .ok plan.malloc (w.birth plan.malloc)

def planRealloc (ptr : Addr) (size : Nat) : C Ledger Addr := fun w =>
  if ptr = 0 then planMalloc plan size w
  else if w.live ptr then
    match plan.realloc with
    | .null freed => .ok 0 (if freed then w.kill ptr else w)
    | .inPlace => .ok ptr w
    | .moved newData => .ok newData ((w.kill ptr).birth newData)
  else .error .deadBlock w

def planFree (ptr : Addr) : C Ledger Unit := fun w =>
  if ptr = 0 then .ok () w
  else if w.live ptr then .ok () (w.kill ptr) else .error .deadBlock w

def planLibc : Libc Ledger where
  malloc := planMalloc plan
  realloc := planRealloc plan
  free := planFree
  signal handler := fun w => .ok w.sigint { w with sigint := handler }
  staleStore _ _ := throw .deadBlock

def planSet (key : Addr) (value : MemHandle) : C Ledger Bool := fun w =>
  if plan.setFails then .ok false w else .ok true (w.enter key value)

def planGet (key : Addr) : C Ledger MemHandle := fun w => .ok ((w.recorded key).getD .zero) w

def planDelete (key : Addr) : C Ledger Bool := fun w =>
  if w.recorded key = none then .ok false w else .ok (!plan.shrinkFails) (w.strike key)

/-- The handle of the table's map; the map itself is in the ledger. -/
def ledgerMapHandle : MemHandle := ⟨1, sizeofMap, .plain⟩

def ledgerEnv (tblp : Addr) : MemtblEnv Ledger where
  libc := planLibc plan
  memMapHandle ptr := if ptr = tblp then pure ledgerMapHandle else throw .strayPointer
  mapSet _ := planSet plan
  mapGet _ := planGet
  mapDelete _ := planDelete plan

def ledgerSpec (tblp : Addr) (allocator : MemAllocator) : Option (MemAllocatorSpec Ledger) :=
  if allocator = .memtbl tblp then some (memtblSpec (ledgerEnv plan tblp))
  else baseSpec (planLibc plan) allocator

def ledgerOps (tblp : Addr) : MemOps Ledger := memOps (planLibc plan) (ledgerSpec plan tblp)

end Library

/-- malloc and realloc answer with an address that is not live; realloc frees a block
without replacing it only where the size is 0. -/
structure Plan.Valid (plan : Plan) (w : Ledger) (size : Nat) : Prop where
  malloc_fresh : w.live plan.malloc = false
  moved_fresh : ∀ newData, plan.realloc = .moved newData →
    newData ≠ 0 ∧ w.live newData = false
  freed_size : plan.realloc = .null true → size = 0

/-- Each entry is the handle of a live block under its own address. -/
structure Ledger.Tracks (w : Ledger) : Prop where
  null_dead : w.live 0 = false
  recorded_live : ∀ a handle, w.recorded a = some handle → handle.data = a ∧ w.live a = true

/-! ## What the allocator functions do to the ledger -/

section Runs
variable {plan : Plan} {tblp : Addr} {w w' : Ledger} {handle r : MemHandle} {size : Nat}

theorem Ledger.Tracks.zero_absent (ht : w.Tracks) : w.recorded 0 = none := by
  cases hr : w.recorded 0 with
  | none => rfl
  | some handle =>
    have := (ht.recorded_live 0 handle hr).2
    rw [ht.null_dead] at this
    cases this

theorem free_live {a : Addr} (hne : a ≠ 0) (hlive : w.live a = true) :
    (ledgerEnv plan tblp).libc.free a w = .ok () (w.kill a) := by
  change planFree a w = _
  rw [planFree, if_neg hne, if_pos hlive]

theorem memtblMap_ledger (htbl : tblp ≠ 0) (w : Ledger) :
    memtblMap (ledgerEnv plan tblp) (.memtbl tblp) w = .ok (some ledgerMapHandle) w := by
  unfold memtblMap
  have hne : allocatorData (.memtbl tblp) ≠ 0 := htbl
  rw [if_neg hne]
  have hread : (ledgerEnv plan tblp).memMapHandle (allocatorData (.memtbl tblp)) =
      pure ledgerMapHandle := if_pos rfl
  rw [hread, pure_bind_run]
  rfl

/-- `memtbl_p` answers the recorded address. -/
theorem memtblP_ledger (htbl : tblp ≠ 0) (ha : handle.allocator = .memtbl tblp)
    (hd : handle.data ≠ 0) (w : Ledger) :
    memtblP (ledgerEnv plan tblp) handle w = .ok ((w.recorded handle.data).getD .zero).data w := by
  unfold memtblP
  rw [if_pos (memIsValid_eq_true.mpr hd), ha, bind_of_ok (memtblMap_ledger htbl w)]
  rfl

theorem memtblP_recorded (htbl : tblp ≠ 0) (ht : w.Tracks) (ha : handle.allocator = .memtbl tblp)
    (hd : handle.data ≠ 0) (hr : w.recorded handle.data = some r) :
    memtblP (ledgerEnv plan tblp) handle w = .ok handle.data w := by
  rw [memtblP_ledger htbl ha hd, hr, Option.getD_some, (ht.recorded_live _ _ hr).1]

theorem memtblP_absent (htbl : tblp ≠ 0) (ha : handle.allocator = .memtbl tblp)
    (hd : handle.data ≠ 0) (hr : w.recorded handle.data = none) :
    memtblP (ledgerEnv plan tblp) handle w = .ok 0 w := by
  rw [memtblP_ledger htbl ha hd, hr]
  rfl

/-- Freeing a recorded block strikes its entry, whether or not a shrink fails. -/
theorem memtblFree_recorded (htbl : tblp ≠ 0) (ht : w.Tracks)
    (ha : handle.allocator = .memtbl tblp) (hd : handle.data ≠ 0)
    (hr : w.recorded handle.data = some r) :
    memtblFree (ledgerEnv plan tblp) handle w =
      .ok .zero ((w.strike handle.data).kill handle.data) := by
  have hlive : (w.strike handle.data).live handle.data = true := (ht.recorded_live _ _ hr).2
  have hdel : (ledgerEnv plan tblp).mapDelete ledgerMapHandle handle.data w =
      .ok (!plan.shrinkFails) (w.strike handle.data) := by
    change planDelete plan handle.data w = _
    rw [planDelete, hr]
    rfl
  unfold memtblFree
  rw [if_pos (memIsValid_eq_true.mpr hd), ha, bind_of_ok (memtblMap_ledger htbl w)]
  dsimp only
  rw [bind_of_ok (memtblP_recorded htbl ht ha hd hr), bind_of_ok hdel, bind_of_ok (free_live hd hlive)]
  rfl

/-- Freeing a handle that is not recorded frees the null pointer. -/
theorem memtblFree_absent (htbl : tblp ≠ 0) (ht : w.Tracks)
    (ha : handle.allocator = .memtbl tblp) (hd : handle.data ≠ 0)
    (hr : w.recorded handle.data = none) :
    memtblFree (ledgerEnv plan tblp) handle w = .ok .zero w := by
  have hdel : (ledgerEnv plan tblp).mapDelete ledgerMapHandle 0 w = .ok false w := by
    change planDelete plan 0 w = _
    rw [planDelete, if_pos ht.zero_absent]
  have hfree : (ledgerEnv plan tblp).libc.free 0 w = .ok () w := rfl
  unfold memtblFree
  rw [if_pos (memIsValid_eq_true.mpr hd), ha, bind_of_ok (memtblMap_ledger htbl w)]
  dsimp only
  rw [bind_of_ok (memtblP_absent htbl ha hd hr), bind_of_ok hdel, bind_of_ok hfree]
  rfl

/-- An allocation enters its block, or leaves no trace. -/
theorem memtblAlloc_ledger (htbl : tblp ≠ 0) (w : Ledger) (size : Nat) :
    memtblAlloc (ledgerEnv plan tblp) (.memtbl tblp) size w =
      if plan.malloc = 0 then .ok .zero w
      else if plan.setFails then .ok .zero ((w.birth plan.malloc).kill plan.malloc)
      else .ok ⟨plan.malloc, size, .memtbl tblp⟩
        ((w.birth plan.malloc).enter plan.malloc ⟨plan.malloc, size, .memtbl tblp⟩) := by
  unfold memtblAlloc
  rw [bind_of_ok (memtblMap_ledger htbl w)]
  by_cases hm : plan.malloc = 0
  · have hcall : (ledgerEnv plan tblp).libc.malloc size w = .ok 0 w := if_pos hm
    rw [if_pos hm]
    dsimp only
    rw [bind_of_ok hcall]
    rfl
  · have hcall : (ledgerEnv plan tblp).libc.malloc size w =
        .ok plan.malloc (w.birth plan.malloc) := if_neg hm
    rw [if_neg hm]
    dsimp only
    rw [bind_of_ok hcall, if_neg hm]
    cases hs : plan.setFails with
    | true =>
      have hset : (ledgerEnv plan tblp).mapSet ledgerMapHandle plan.malloc
          ⟨plan.malloc, size, .memtbl tblp⟩ (w.birth plan.malloc) =
          .ok false (w.birth plan.malloc) := by
        change planSet plan _ _ _ = _
        rw [planSet, if_pos hs]
      have hborn : (w.birth plan.malloc).live plan.malloc = true := by simp [Ledger.birth]
      rw [bind_of_ok hset, if_neg (by simp), bind_of_ok (free_live hm hborn), if_pos rfl]
      rfl
    | false =>
      have hset : (ledgerEnv plan tblp).mapSet ledgerMapHandle plan.malloc
          ⟨plan.malloc, size, .memtbl tblp⟩ (w.birth plan.malloc) =
          .ok true ((w.birth plan.malloc).enter plan.malloc ⟨plan.malloc, size, .memtbl tblp⟩) := by
        change planSet plan _ _ _ = _
        rw [planSet, if_neg (by simp [hs])]
      rw [bind_of_ok hset, if_pos rfl, if_neg (by simp)]
      rfl

theorem memtblMove_ledger (oldData : Addr) (v : MemHandle) (w : Ledger) :
    memtblMove (ledgerEnv plan tblp) ledgerMapHandle oldData v w =
      if plan.setFails then .ok false w else planDelete plan oldData (w.enter v.data v) := by
  unfold memtblMove
  cases hs : plan.setFails with
  | true =>
    have hset : (ledgerEnv plan tblp).mapSet ledgerMapHandle v.data v w = .ok false w := if_pos hs
    rw [bind_of_ok hset]
    rfl
  | false =>
    have hset : (ledgerEnv plan tblp).mapSet ledgerMapHandle v.data v w =
        .ok true (w.enter v.data v) := if_neg (by simp [hs])
    rw [bind_of_ok hset]
    rfl

/-- What a realloc that moved the block leaves: the old block is gone, and unless
both the entry of the new one and the delete of the old one succeed, so is the new. -/
def reallocMoved (plan : Plan) (w : Ledger) (oldData : Addr) (v : MemHandle) :
    EStateM.Result Fault Ledger MemHandle :=
  let w' := (w.kill oldData).birth v.data
  if plan.setFails then .ok .zero (w'.kill v.data)
  else if plan.shrinkFails then .ok .zero (((w'.enter v.data v).strike oldData).kill v.data)
  else .ok v ((w'.enter v.data v).strike oldData)

theorem memtblRealloc_recorded (htbl : tblp ≠ 0) (ht : w.Tracks) (hv : plan.Valid w size)
    (ha : handle.allocator = .memtbl tblp) (hd : handle.data ≠ 0)
    (hr : w.recorded handle.data = some r) :
    memtblRealloc (ledgerEnv plan tblp) handle size w =
      match plan.realloc with
      | .null freed => .ok .zero (if freed then w.kill handle.data else w)
      | .inPlace => .ok ⟨handle.data, size, .memtbl tblp⟩ w
      | .moved newData => reallocMoved plan w handle.data ⟨newData, size, .memtbl tblp⟩ := by
  have hlive : w.live handle.data = true := (ht.recorded_live _ _ hr).2
  unfold memtblRealloc
  rw [if_pos (memIsValid_eq_true.mpr hd), ha, bind_of_ok (memtblMap_ledger htbl w)]
  dsimp only
  rw [bind_of_ok (memtblP_recorded htbl ht ha hd hr)]
  have hcall : (ledgerEnv plan tblp).libc.realloc handle.data size w = match plan.realloc with
      | .null freed => .ok 0 (if freed then w.kill handle.data else w)
      | .inPlace => .ok handle.data w
      | .moved newData => .ok newData ((w.kill handle.data).birth newData) := by
    change planRealloc plan handle.data size w = _
    rw [planRealloc, if_neg hd, if_pos hlive]
  cases hp : plan.realloc with
  | null freed =>
    rw [hp] at hcall
    rw [bind_of_ok hcall, if_pos rfl]
    rfl
  | inPlace =>
    rw [hp] at hcall
    rw [bind_of_ok hcall, if_neg hd, if_pos rfl]
    rfl
  | moved newData =>
    rw [hp] at hcall
    obtain ⟨hnew, hfresh⟩ := hv.moved_fresh newData hp
    have hne : newData ≠ handle.data := by
      rintro rfl
      rw [hlive] at hfresh
      cases hfresh
    rw [bind_of_ok hcall, if_neg hnew, if_neg hne]
    unfold reallocMoved
    cases hs : plan.setFails with
    | true =>
      have hmove : memtblMove (ledgerEnv plan tblp) ledgerMapHandle handle.data
          ⟨newData, size, .memtbl tblp⟩ ((w.kill handle.data).birth newData) =
          .ok false ((w.kill handle.data).birth newData) := by
        rw [memtblMove_ledger, if_pos hs]
      have hborn : ((w.kill handle.data).birth newData).live newData = true := by
        simp [Ledger.birth]
      rw [bind_of_ok hmove, if_neg (by simp), bind_of_ok (free_live hnew hborn)]
      rfl
    | false =>
      have hold : (((w.kill handle.data).birth newData).enter newData
          ⟨newData, size, .memtbl tblp⟩).recorded handle.data = some r := by
        simp [Ledger.enter, Ledger.birth, Ledger.kill, Function.update_of_ne (Ne.symm hne), hr]
      have hmove : memtblMove (ledgerEnv plan tblp) ledgerMapHandle handle.data
          ⟨newData, size, .memtbl tblp⟩ ((w.kill handle.data).birth newData) =
          .ok (!plan.shrinkFails) ((((w.kill handle.data).birth newData).enter newData
            ⟨newData, size, .memtbl tblp⟩).strike handle.data) := by
        rw [memtblMove_ledger, if_neg (by simp [hs]), planDelete, if_neg (by rw [hold]; simp)]
      rw [bind_of_ok hmove]
      cases hshrink : plan.shrinkFails with
      | true =>
        have hborn : ((((w.kill handle.data).birth newData).enter newData
            ⟨newData, size, .memtbl tblp⟩).strike handle.data).live newData = true := by
          simp [Ledger.birth, Ledger.enter, Ledger.strike]
        rw [if_neg (by simp), bind_of_ok (free_live hnew hborn)]
        rfl
      | false => rfl

/-- A realloc of a handle that is not recorded allocates a block, frees it again, and
leaves its entry. -/
theorem memtblRealloc_absent (htbl : tblp ≠ 0) (ht : w.Tracks)
    (ha : handle.allocator = .memtbl tblp) (hd : handle.data ≠ 0)
    (hr : w.recorded handle.data = none) :
    memtblRealloc (ledgerEnv plan tblp) handle size w =
      if plan.malloc = 0 then .ok .zero w
      else if plan.setFails then .ok .zero ((w.birth plan.malloc).kill plan.malloc)
      else .ok .zero (((w.birth plan.malloc).enter plan.malloc
        ⟨plan.malloc, size, .memtbl tblp⟩).kill plan.malloc) := by
  unfold memtblRealloc
  rw [if_pos (memIsValid_eq_true.mpr hd), ha, bind_of_ok (memtblMap_ledger htbl w)]
  dsimp only
  rw [bind_of_ok (memtblP_absent htbl ha hd hr)]
  by_cases hm : plan.malloc = 0
  · have hcall : (ledgerEnv plan tblp).libc.realloc 0 size w = .ok 0 w := if_pos hm
    rw [bind_of_ok hcall, if_pos rfl, if_pos hm]
    rfl
  · have hcall : (ledgerEnv plan tblp).libc.realloc 0 size w =
        .ok plan.malloc (w.birth plan.malloc) := if_neg hm
    rw [bind_of_ok hcall, if_neg hm, if_neg hm, if_neg hm]
    cases hs : plan.setFails with
    | true =>
      have hmove : memtblMove (ledgerEnv plan tblp) ledgerMapHandle 0
          ⟨plan.malloc, size, .memtbl tblp⟩ (w.birth plan.malloc) =
          .ok false (w.birth plan.malloc) := by
        rw [memtblMove_ledger, if_pos hs]
      have hborn : (w.birth plan.malloc).live plan.malloc = true := by simp [Ledger.birth]
      rw [bind_of_ok hmove, if_neg (by simp), bind_of_ok (free_live hm hborn)]
      rfl
    | false =>
      have hzero : ((w.birth plan.malloc).enter plan.malloc
          ⟨plan.malloc, size, .memtbl tblp⟩).recorded 0 = none := by
        simp [Ledger.enter, Ledger.birth, Function.update_of_ne (Ne.symm hm), ht.zero_absent]
      have hmove : memtblMove (ledgerEnv plan tblp) ledgerMapHandle 0
          ⟨plan.malloc, size, .memtbl tblp⟩ (w.birth plan.malloc) =
          .ok false ((w.birth plan.malloc).enter plan.malloc ⟨plan.malloc, size, .memtbl tblp⟩) := by
        rw [memtblMove_ledger, if_neg (by simp [hs]), planDelete, if_pos hzero]
      have hborn : ((w.birth plan.malloc).enter plan.malloc
          ⟨plan.malloc, size, .memtbl tblp⟩).live plan.malloc = true := by
        simp [Ledger.birth, Ledger.enter]
      rw [bind_of_ok hmove, if_neg (by simp), bind_of_ok (free_live hm hborn)]
      rfl

/-! ## Under the guards of mem.c -/

/-- A guard changes the ledger as its block does. -/
theorem sigintGuard_ledger {α : Type} {block : C Ledger α} {a : α}
    (hblock : block { w with sigint := .ign } = .ok a w') :
    sigintGuard (planLibc plan) block w = .ok a { w' with sigint := w.sigint } := by
  have enter : (planLibc plan).signal .ign w = .ok w.sigint { w with sigint := .ign } := rfl
  unfold sigintGuard
  rw [bind_of_ok enter, bind_of_ok hblock]
  rfl

theorem Ledger.Tracks.ignoring (ht : w.Tracks) : Tracks { w with sigint := .ign } :=
  ⟨ht.null_dead, ht.recorded_live⟩

theorem Plan.Valid.ignoring (hv : plan.Valid w size) : plan.Valid { w with sigint := .ign } size :=
  ⟨hv.malloc_fresh, hv.moved_fresh, hv.freed_size⟩

/-- The record that mem.c finds for the table's allocator. -/
theorem ledgerSpec_self : ledgerSpec plan tblp (.memtbl tblp) =
    some (memtblSpec (ledgerEnv plan tblp)) := if_pos rfl

theorem memFree_eq (ha : handle.allocator = .memtbl tblp) (hd : handle.data ≠ 0) :
    (ledgerOps plan tblp).memFree handle =
      sigintGuard (planLibc plan) (memtblFree (ledgerEnv plan tblp) handle) := by
  unfold ledgerOps memOps
  dsimp only
  unfold memFree
  rw [if_pos (memIsValid_eq_true.mpr hd), ha, ledgerSpec_self]
  rfl

theorem memRealloc_eq (ha : handle.allocator = .memtbl tblp) (hd : handle.data ≠ 0) :
    (ledgerOps plan tblp).memRealloc handle size =
      sigintGuard (planLibc plan) (memtblRealloc (ledgerEnv plan tblp) handle size) := by
  unfold ledgerOps memOps
  dsimp only
  unfold memRealloc
  rw [if_pos (memIsValid_eq_true.mpr hd), ha, ledgerSpec_self]
  rfl

theorem memAlloc_eq : (ledgerOps plan tblp).memAlloc (.memtbl tblp) size =
    sigintGuard (planLibc plan) (memtblAlloc (ledgerEnv plan tblp) (.memtbl tblp) size) := by
  unfold ledgerOps memOps
  dsimp only
  unfold memAlloc
  rw [ledgerSpec_self]
  rfl

theorem memP_eq (ha : handle.allocator = .memtbl tblp) (hd : handle.data ≠ 0) :
    (ledgerOps plan tblp).memP handle = memtblP (ledgerEnv plan tblp) handle := by
  unfold ledgerOps memOps
  dsimp only
  unfold memP
  rw [if_pos (memIsValid_eq_true.mpr hd), ha, ledgerSpec_self]
  rfl

theorem memFree_recorded (htbl : tblp ≠ 0) (ht : w.Tracks)
    (ha : handle.allocator = .memtbl tblp) (hd : handle.data ≠ 0)
    (hr : w.recorded handle.data = some r) :
    (ledgerOps plan tblp).memFree handle w =
      .ok .zero ((w.strike handle.data).kill handle.data) := by
  rw [memFree_eq ha hd]
  exact (sigintGuard_ledger (memtblFree_recorded htbl ht.ignoring ha hd hr)).trans rfl

theorem memFree_absent (htbl : tblp ≠ 0) (ht : w.Tracks)
    (ha : handle.allocator = .memtbl tblp) (hd : handle.data ≠ 0)
    (hr : w.recorded handle.data = none) :
    (ledgerOps plan tblp).memFree handle w = .ok .zero w := by
  rw [memFree_eq ha hd]
  exact (sigintGuard_ledger (memtblFree_absent htbl ht.ignoring ha hd hr)).trans rfl

theorem memAlloc_ledger (htbl : tblp ≠ 0) (w : Ledger) (size : Nat) :
    (ledgerOps plan tblp).memAlloc (.memtbl tblp) size w =
      if plan.malloc = 0 then .ok .zero w
      else if plan.setFails then .ok .zero ((w.birth plan.malloc).kill plan.malloc)
      else .ok ⟨plan.malloc, size, .memtbl tblp⟩
        ((w.birth plan.malloc).enter plan.malloc ⟨plan.malloc, size, .memtbl tblp⟩) := by
  rw [memAlloc_eq]
  have hblock := @memtblAlloc_ledger plan tblp htbl { w with sigint := .ign } size
  by_cases hm : plan.malloc = 0
  · rw [if_pos hm] at hblock ⊢
    exact (sigintGuard_ledger hblock).trans rfl
  · rw [if_neg hm] at hblock ⊢
    by_cases hs : plan.setFails = true
    · rw [if_pos hs] at hblock ⊢
      exact (sigintGuard_ledger hblock).trans rfl
    · rw [if_neg hs] at hblock ⊢
      exact (sigintGuard_ledger hblock).trans rfl

theorem memRealloc_recorded (htbl : tblp ≠ 0) (ht : w.Tracks) (hv : plan.Valid w size)
    (ha : handle.allocator = .memtbl tblp) (hd : handle.data ≠ 0)
    (hr : w.recorded handle.data = some r) :
    (ledgerOps plan tblp).memRealloc handle size w =
      match plan.realloc with
      | .null freed => .ok .zero (if freed then w.kill handle.data else w)
      | .inPlace => .ok ⟨handle.data, size, .memtbl tblp⟩ w
      | .moved newData => reallocMoved plan w handle.data ⟨newData, size, .memtbl tblp⟩ := by
  rw [memRealloc_eq ha hd]
  have hblock := memtblRealloc_recorded htbl ht.ignoring hv.ignoring ha hd hr
  cases hp : plan.realloc with
  | null freed =>
    rw [hp] at hblock
    cases freed <;> exact (sigintGuard_ledger hblock).trans rfl
  | inPlace =>
    rw [hp] at hblock
    exact (sigintGuard_ledger hblock).trans rfl
  | moved newData =>
    rw [hp] at hblock
    unfold reallocMoved at hblock ⊢
    dsimp only at hblock ⊢
    by_cases hs : plan.setFails = true
    · rw [if_pos hs] at hblock ⊢
      exact (sigintGuard_ledger hblock).trans rfl
    · rw [if_neg hs] at hblock ⊢
      by_cases hshrink : plan.shrinkFails = true
      · rw [if_pos hshrink] at hblock ⊢
        exact (sigintGuard_ledger hblock).trans rfl
      · rw [if_neg hshrink] at hblock ⊢
        exact (sigintGuard_ledger hblock).trans rfl

theorem memRealloc_absent (htbl : tblp ≠ 0) (ht : w.Tracks)
    (ha : handle.allocator = .memtbl tblp) (hd : handle.data ≠ 0)
    (hr : w.recorded handle.data = none) :
    (ledgerOps plan tblp).memRealloc handle size w =
      if plan.malloc = 0 then .ok .zero w
      else if plan.setFails then .ok .zero ((w.birth plan.malloc).kill plan.malloc)
      else .ok .zero (((w.birth plan.malloc).enter plan.malloc
        ⟨plan.malloc, size, .memtbl tblp⟩).kill plan.malloc) := by
  rw [memRealloc_eq ha hd]
  have hblock := @memtblRealloc_absent plan tblp _ handle size htbl ht.ignoring ha hd hr
  by_cases hm : plan.malloc = 0
  · rw [if_pos hm] at hblock ⊢
    exact (sigintGuard_ledger hblock).trans rfl
  · rw [if_neg hm] at hblock ⊢
    by_cases hs : plan.setFails = true
    · rw [if_pos hs] at hblock ⊢
      exact (sigintGuard_ledger hblock).trans rfl
    · rw [if_neg hs] at hblock ⊢
      exact (sigintGuard_ledger hblock).trans rfl

end Runs
end M65Tool.Source.MemtblLedger
