import M65Tool.Lib.Effect
import M65Tool.Source.Machine

/-!
# SIGINT-DISCIPLINE: no table is updated while SIGINT can be taken

The guards of mem.c nest: the map of a memory table allocates through the guarded
functions of the allocator below. A guard restores what it found, so under an outer
guard every inner one only ever puts SIG_IGN back. At every moment of every call,
also one that does not return, an update is in progress only while SIGINT is
ignored, and a call that returns leaves the disposition it found.
-/
namespace M65Tool.Guarantees.SigintDiscipline
open Source.Mem Source.MapHash Source.HashMap Source.Memtbl Source.Machine Lib.Effect

/-- The disposition after these events, which started from `start`. -/
def disposition (start : SigHandler) : List Event → SigHandler
  | [] => start
  | .signal handler :: _ => handler
  | _ :: earlier => disposition start earlier

/-- How many updates have begun and not ended. -/
def openUpdates : List Event → Nat
  | [] => 0
  | .updateBegin _ :: earlier => openUpdates earlier + 1
  | .updateEnd _ :: earlier => openUpdates earlier - 1
  | .signal _ :: earlier => openUpdates earlier

/-- After each event: if an update is open, SIGINT is ignored. -/
def Disciplined (start : SigHandler) : List Event → Prop
  | [] => True
  | event :: earlier =>
    (0 < openUpdates (event :: earlier) → disposition start (event :: earlier) = .ign) ∧
      Disciplined start earlier

/-- A moment of a disciplined history at which `d` is installed and `k` updates are open. -/
structure Moment (start d : SigHandler) (k : Nat) {τ : Type} (w : World τ) : Prop where
  installed : w.sigint = d
  replayed : disposition start w.history = d
  updates : openUpdates w.history = k
  disciplined : Disciplined start w.history

/-- Run with `d` installed, `x` keeps the history disciplined, and if it returns, the
disposition and the open updates are as before. -/
def Quiet {τ α : Type} (d : SigHandler) (x : C (World τ) α) : Prop :=
  ∀ start k, (0 < k → d = .ign) →
    Triple (Moment start d k) x (fun _ => Moment start d k)
      (fun _ w => Disciplined start w.history)

namespace Quiet
variable {τ α β : Type} {d : SigHandler}

theorem ret (a : α) : Quiet d (pure a : C (World τ) α) :=
  fun _ _ _ => Triple.ret fun _ hm => hm

theorem stop (fault : Fault) : Quiet d (throw fault : C (World τ) α) :=
  fun _ _ _ => Triple.stop fun _ hm => hm.disciplined

theorem seq {x : C (World τ) α} {f : α → C (World τ) β} (hx : Quiet d x)
    (hf : ∀ a, Quiet d (f a)) : Quiet d (x >>= f) :=
  fun start k hk => Triple.seq (hx start k hk) fun a => hf a start k hk

theorem cond {c : Prop} [Decidable c] {x y : C (World τ) α} (hx : Quiet d x) (hy : Quiet d y) :
    Quiet d (if c then x else y) :=
  fun start k hk => Triple.cond (fun _ => hx start k hk) fun _ => hy start k hk

/-- What neither signals nor updates a table is quiet. -/
theorem of_frame {x : C (World τ) α} (h : ∀ w, match x w with
    | .ok _ w' => w'.sigint = w.sigint ∧ w'.history = w.history
    | .error _ w' => w'.sigint = w.sigint ∧ w'.history = w.history) : Quiet d x := by
  intro start k hk w hm
  have := h w
  cases hr : x w with
  | ok a w' =>
    rw [hr] at this
    obtain ⟨hs, hh⟩ := this
    exact ⟨by rw [hs]; exact hm.installed, by rw [hh]; exact hm.replayed,
      by rw [hh]; exact hm.updates, by rw [hh]; exact hm.disciplined⟩
  | error e w' =>
    rw [hr] at this
    change Disciplined start w'.history
    rw [this.2]
    exact hm.disciplined

end Quiet

/-! ## The machine -/

section Machine
variable {τ : Type} {heap : HeapOps τ} {target : Target} {d : SigHandler}

theorem onHeap_quiet {α : Type} (x : C τ α) : Quiet d (onHeap x) := by
  apply Quiet.of_frame
  intro w
  unfold onHeap
  cases x w.heap <;> exact ⟨rfl, rfl⟩

theorem readMemMapHandle_quiet (tblp : Addr) :
    Quiet d (readMemMapHandle tblp : C (World τ) MemHandle) := by
  apply Quiet.of_frame
  intro w
  unfold readMemMapHandle
  cases w.memtbls tblp <;> exact ⟨rfl, rfl⟩

theorem readMap_quiet (mh : MemHandle) : Quiet d (readMap mh : C (World τ) Map) := by
  apply Quiet.of_frame
  intro w
  unfold readMap
  cases w.maps mh.data <;> exact ⟨rfl, rfl⟩

theorem writeMap_quiet (mh : MemHandle) (mp : Map) : Quiet d (writeMap mh mp : C (World τ) Unit) :=
  Quiet.of_frame fun _ => ⟨rfl, rfl⟩

/-- A guard ignores SIGINT around its block and puts back what it found. -/
theorem sigintGuard_quiet {α : Type} {block : C (World τ) α} (hb : Quiet .ign block) :
    Quiet d (sigintGuard (machineLibc heap) block) := by
  intro start k hk
  have enter : Triple (Moment start d k) (setSignal .ign : C (World τ) SigHandler)
      (fun found w => found = d ∧ Moment start .ign k w)
      (fun _ w => Disciplined start w.history) := by
    intro w hm
    exact ⟨hm.installed, rfl, rfl, hm.updates, fun _ => rfl, hm.disciplined⟩
  have leave : Triple (Moment start .ign k) (setSignal d : C (World τ) SigHandler)
      (fun _ => Moment start d k) (fun _ w => Disciplined start w.history) := by
    intro w hm
    refine ⟨rfl, rfl, hm.updates, fun hopen => hk ?_, hm.disciplined⟩
    rw [← hm.updates]
    exact hopen
  apply Triple.seq enter
  intro found w hw
  obtain ⟨rfl, hm⟩ := hw
  have body : Triple (Moment start .ign k) (block >>= fun result => do
      let _ ← setSignal found
      pure result) (fun _ => Moment start found k) (fun _ w => Disciplined start w.history) :=
    Triple.seq (hb start k fun _ => rfl) fun result =>
      Triple.seq leave fun _ => Triple.ret fun _ hm => hm
  exact body w hm

/-- An update of a table is in order where SIGINT is ignored. -/
theorem updateMap_quiet {α : Type} {mh : MemHandle} {call : Map → C (World τ) (α × Map)}
    (hc : ∀ mp, Quiet .ign (call mp)) : Quiet .ign (updateMap mh call) := by
  intro start k hk
  have enter : Triple (Moment start .ign k) (record (.updateBegin mh.data) : C (World τ) Unit)
      (fun _ => Moment start .ign (k + 1)) (fun _ w => Disciplined start w.history) := by
    intro w hm
    exact ⟨hm.installed, hm.replayed, congrArg (· + 1) hm.updates, fun _ => hm.replayed,
      hm.disciplined⟩
  have leave : Triple (Moment start .ign (k + 1)) (record (.updateEnd mh.data) : C (World τ) Unit)
      (fun _ => Moment start .ign k) (fun _ w => Disciplined start w.history) := by
    intro w hm
    refine ⟨hm.installed, hm.replayed, ?_, fun _ => hm.replayed, hm.disciplined⟩
    change openUpdates w.history - 1 = k
    rw [hm.updates]
    rfl
  have inside : 0 < k + 1 → SigHandler.ign = .ign := fun _ => rfl
  apply Triple.seq enter
  intro _
  apply Triple.seq (readMap_quiet mh start (k + 1) inside)
  intro mp
  apply Triple.seq (hc mp start (k + 1) inside)
  rintro ⟨result, mp'⟩
  apply Triple.seq (writeMap_quiet mh mp' start (k + 1) inside)
  intro _
  exact Triple.seq leave fun _ => Triple.ret fun _ hm => hm

/-! ## map.c over quiet memory functions -/

structure OpsQuiet (ops : MemOps (World τ)) : Prop where
  memAlloc : ∀ d allocator size, Quiet d (ops.memAlloc allocator size)
  memRealloc : ∀ d handle size, Quiet d (ops.memRealloc handle size)
  memFree : ∀ d handle, Quiet d (ops.memFree handle)
  memP : ∀ d handle, Quiet d (ops.memP handle)
  staleStore : ∀ d ptr size, Quiet d (ops.staleStore ptr size)

namespace OpsQuiet
variable {ops : MemOps (World τ)} {mh : MemHandle} {mp : Map}

theorem deref (ho : OpsQuiet ops) (handle : MemHandle) : Quiet d (deref ops handle) :=
  (ho.memP d handle).seq fun _ => Quiet.cond (Quiet.stop _) (Quiet.ret _)

theorem derefTable (ho : OpsQuiet ops) : Quiet d (derefTable ops mh mp) :=
  (ho.deref _).seq fun _ => (ho.memP d _).seq fun _ => Quiet.cond (Quiet.stop _) (Quiet.ret _)

theorem orNoEntryPos {α : Type} (x : Option α) : Quiet d (orNoEntryPos x : C (World τ) α) := by
  cases x with
  | none => exact Quiet.stop _
  | some a => exact Quiet.ret a

theorem memAllocClear (ho : OpsQuiet ops) (allocator : MemAllocator) (size : Nat) :
    Quiet d (memAllocClear ops allocator size) :=
  (ho.memAlloc d allocator size).seq fun handle =>
    Quiet.cond ((ho.deref handle).seq fun _ => Quiet.ret _) (Quiet.ret _)

theorem mapIsValid (ho : OpsQuiet ops) : Quiet d (mapIsValid ops mh mp) :=
  Quiet.cond ((ho.deref mh).seq fun _ => Quiet.ret _) (Quiet.ret _)

theorem resizeEntriesTable (ho : OpsQuiet ops) (isGrow : Bool) :
    Quiet d (resizeEntriesTable ops mh mp isGrow) := by
  have hsize : Quiet d (resizedTableSize mp.tableSize isGrow : C (World τ) Nat) :=
    Quiet.cond (Quiet.cond (Quiet.ret _) (Quiet.stop _)) (Quiet.ret _)
  apply hsize.seq
  intro newTableSize
  apply (ho.memAllocClear mh.allocator _).seq
  intro newEntriesMh
  apply (ho.memP d newEntriesMh).seq
  intro newEntries
  apply Quiet.cond (Quiet.ret _)
  apply (ho.deref mp.entriesMh).seq
  intro _
  exact (ho.memFree d mp.entriesMh).seq fun _ => Quiet.ret _

theorem doSet (ho : OpsQuiet ops) (keyHash : UInt32) (value : MemHandle) :
    Quiet d (doSet ops mh mp keyHash value) := by
  apply ho.derefTable.seq
  intro _
  apply (orNoEntryPos _).seq
  intro pos
  apply Quiet.cond
  · apply Quiet.cond
    · apply (ho.resizeEntriesTable true).seq
      rintro ⟨grown, resized⟩
      exact Quiet.cond (ho.derefTable.seq fun _ => (orNoEntryPos _).seq fun _ =>
        (ho.staleStore d _ _).seq fun _ => Quiet.ret _) (Quiet.ret _)
    · exact Quiet.ret _
  · exact Quiet.ret _

theorem doDelete (ho : OpsQuiet ops) (keyHash : UInt32) : Quiet d (doDelete ops mh mp keyHash) := by
  apply ho.derefTable.seq
  intro _
  apply (orNoEntryPos _).seq
  intro pos
  exact Quiet.cond (Quiet.ret _) (Quiet.cond (ho.resizeEntriesTable false) (Quiet.ret _))

theorem doGet (ho : OpsQuiet ops) (keyHash : UInt32) : Quiet d (doGet ops mh mp keyHash) :=
  ho.derefTable.seq fun _ => orNoEntryPos _

theorem mapSetPtr (ho : OpsQuiet ops) (key : Addr) (value : MemHandle) :
    Quiet d (mapSetPtr ops target mh mp key value) :=
  ho.mapIsValid.seq fun _ =>
    Quiet.cond (Quiet.cond (ho.doSet _ value) (Quiet.ret _)) (Quiet.ret _)

theorem mapGetPtr (ho : OpsQuiet ops) (key : Addr) : Quiet d (mapGetPtr ops target mh mp key) :=
  ho.mapIsValid.seq fun _ => Quiet.cond (ho.doGet _) (Quiet.ret _)

theorem mapDeletePtr (ho : OpsQuiet ops) (key : Addr) :
    Quiet d (mapDeletePtr ops target mh mp key) := ho.doDelete _

end OpsQuiet

/-! ## memtbl.c over a map that is updated quietly -/

/-- What a table needs of its environment: the updates are in order where SIGINT is
ignored, the rest everywhere. -/
structure EnvQuiet (env : MemtblEnv (World τ)) : Prop where
  malloc : ∀ d size, Quiet d (env.libc.malloc size)
  realloc : ∀ d ptr size, Quiet d (env.libc.realloc ptr size)
  free : ∀ d ptr, Quiet d (env.libc.free ptr)
  memMapHandle : ∀ d tblp, Quiet d (env.memMapHandle tblp)
  mapSet : ∀ mh key value, Quiet .ign (env.mapSet mh key value)
  mapGet : ∀ d mh key, Quiet d (env.mapGet mh key)
  mapDelete : ∀ mh key, Quiet .ign (env.mapDelete mh key)

theorem tableEnv_quiet {ops : MemOps (World τ)} (ho : OpsQuiet ops) :
    EnvQuiet (tableEnv heap target ops) where
  malloc _ _ := onHeap_quiet _
  realloc _ _ _ := onHeap_quiet _
  free _ _ := onHeap_quiet _
  memMapHandle _ tblp := readMemMapHandle_quiet tblp
  mapSet _ key value := updateMap_quiet fun _ => ho.mapSetPtr key value
  mapGet _ mh key := (readMap_quiet mh).seq fun _ => ho.mapGetPtr key
  mapDelete _ key := updateMap_quiet fun _ => ho.mapDeletePtr key

namespace EnvQuiet
variable {env : MemtblEnv (World τ)}

theorem memtblMap (he : EnvQuiet env) (allocator : MemAllocator) :
    Quiet d (memtblMap env allocator) :=
  Quiet.cond (Quiet.ret _) ((he.memMapHandle d _).seq fun _ =>
    Quiet.cond (Quiet.ret _) (Quiet.ret _))

theorem memtblP (he : EnvQuiet env) (handle : MemHandle) : Quiet d (memtblP env handle) := by
  apply Quiet.cond
  · apply (he.memtblMap handle.allocator).seq
    intro mapHandle
    cases mapHandle with
    | none => exact Quiet.ret _
    | some mapHandle => exact (he.mapGet d mapHandle handle.data).seq fun _ => Quiet.ret _
  · exact Quiet.ret _

theorem memtblAlloc (he : EnvQuiet env) (allocator : MemAllocator) (size : Nat) :
    Quiet .ign (memtblAlloc env allocator size) := by
  apply (he.memtblMap allocator).seq
  intro mapHandle
  cases mapHandle with
  | none => exact Quiet.ret _
  | some mapHandle =>
    apply (he.malloc _ size).seq
    intro data
    apply Quiet.cond (Quiet.ret _)
    apply (he.mapSet mapHandle data _).seq
    intro success
    exact Quiet.cond (Quiet.ret _) ((he.free _ data).seq fun _ => Quiet.ret _)

theorem memtblMove (he : EnvQuiet env) (mapHandle : MemHandle) (oldData : Addr)
    (result : MemHandle) : Quiet .ign (memtblMove env mapHandle oldData result) :=
  (he.mapSet mapHandle result.data result).seq fun _ =>
    Quiet.cond (he.mapDelete mapHandle oldData) (Quiet.ret _)

theorem memtblRealloc (he : EnvQuiet env) (handle : MemHandle) (size : Nat) :
    Quiet .ign (memtblRealloc env handle size) := by
  apply Quiet.cond
  · apply (he.memtblMap handle.allocator).seq
    intro mapHandle
    cases mapHandle with
    | none => exact Quiet.ret _
    | some mapHandle =>
      apply (he.memtblP handle).seq
      intro oldData
      apply (he.realloc _ oldData size).seq
      intro newData
      apply Quiet.cond (Quiet.ret _)
      apply Quiet.cond (Quiet.ret _)
      apply (he.memtblMove mapHandle oldData _).seq
      intro moved
      exact Quiet.cond (Quiet.ret _) ((he.free _ newData).seq fun _ => Quiet.ret _)
  · exact Quiet.ret _

theorem memtblFree (he : EnvQuiet env) (handle : MemHandle) :
    Quiet .ign (memtblFree env handle) := by
  apply Quiet.cond
  · apply (he.memtblMap handle.allocator).seq
    intro mapHandle
    cases mapHandle with
    | none => exact Quiet.ret _
    | some mapHandle =>
      apply (he.memtblP handle).seq
      intro data
      apply (he.mapDelete mapHandle data).seq
      intro _
      exact (he.free _ data).seq fun _ => Quiet.ret _
  · exact Quiet.ret _

end EnvQuiet

/-! ## The chain -/

/-- Allocator records whose functions are in order under a guard. -/
structure SpecQuiet (spec : MemAllocatorSpec (World τ)) : Prop where
  allocFunc : ∀ f ∈ spec.allocFunc, ∀ allocator size, Quiet .ign (f allocator size)
  reallocFunc : ∀ f ∈ spec.reallocFunc, ∀ handle size, Quiet .ign (f handle size)
  freeFunc : ∀ f ∈ spec.freeFunc, ∀ handle, Quiet .ign (f handle)
  pFunc : ∀ f ∈ spec.pFunc, ∀ d handle, Quiet d (f handle)

theorem memtblSpec_quiet {env : MemtblEnv (World τ)} (he : EnvQuiet env) :
    SpecQuiet (memtblSpec env) := by
  constructor
  · rintro f ⟨⟩ allocator size
    exact he.memtblAlloc allocator size
  · rintro f ⟨⟩ handle size
    exact he.memtblRealloc handle size
  · rintro f ⟨⟩ handle
    exact he.memtblFree handle
  · rintro f ⟨⟩ d handle
    exact he.memtblP handle

theorem plainSpec_quiet : SpecQuiet (plainSpec (machineLibc heap)) := by
  constructor
  · rintro f ⟨⟩ allocator size
    exact (onHeap_quiet _).seq fun _ => Quiet.ret _
  · rintro f ⟨⟩ handle size
    exact Quiet.cond ((onHeap_quiet _).seq fun _ => Quiet.ret _) (Quiet.ret _)
  · rintro f ⟨⟩ handle
    exact (onHeap_quiet _).seq fun _ => Quiet.ret _
  · rintro f ⟨⟩ d handle
    exact Quiet.ret _

theorem notAllocatedSpec_quiet : SpecQuiet (notAllocatedSpec : MemAllocatorSpec (World τ)) := by
  constructor
  · rintro f ⟨⟩
  · rintro f ⟨⟩
  · rintro f ⟨⟩
  · rintro f ⟨⟩ d handle
    exact Quiet.ret _

/-- Guarded calls through quiet records are quiet, whatever disposition they find. -/
theorem memOps_quiet {spec : MemAllocator → Option (MemAllocatorSpec (World τ))}
    (hs : ∀ allocator, ∀ record ∈ spec allocator, SpecQuiet record) :
    OpsQuiet (memOps (machineLibc heap) spec) := by
  have found : ∀ {α : Type} {allocator : MemAllocator}
      (field : MemAllocatorSpec (World τ) → Option α) {f : α},
      (spec allocator).bind field = some f → ∃ record, SpecQuiet record ∧ field record = some f := by
    intro α allocator field f hf
    obtain ⟨record, hr, hf⟩ := Option.bind_eq_some_iff.mp hf
    exact ⟨record, hs allocator record hr, hf⟩
  constructor
  · intro d allocator size
    change Quiet d (memAlloc (machineLibc heap) spec allocator size)
    unfold memAlloc
    split
    · exact Quiet.ret _
    · rename_i f hf
      obtain ⟨record, hq, hf⟩ := found _ hf
      exact sigintGuard_quiet (hq.allocFunc f hf allocator size)
  · intro d handle size
    change Quiet d (memRealloc (machineLibc heap) spec handle size)
    unfold memRealloc
    apply Quiet.cond _ (Quiet.ret _)
    split
    · exact Quiet.ret _
    · rename_i f hf
      obtain ⟨record, hq, hf⟩ := found _ hf
      exact sigintGuard_quiet (hq.reallocFunc f hf handle size)
  · intro d handle
    change Quiet d (memFree (machineLibc heap) spec handle)
    unfold memFree
    apply Quiet.cond _ (Quiet.ret _)
    split
    · exact Quiet.ret _
    · rename_i f hf
      obtain ⟨record, hq, hf⟩ := found _ hf
      exact sigintGuard_quiet (hq.freeFunc f hf handle)
  · intro d handle
    change Quiet d (memP spec handle)
    unfold memP
    apply Quiet.cond _ (Quiet.ret _)
    split
    · exact Quiet.ret _
    · rename_i f hf
      obtain ⟨record, hq, hf⟩ := found _ hf
      exact hq.pFunc f hf d handle
  · exact fun d ptr size => onHeap_quiet _

theorem baseSpec_quiet (allocator : MemAllocator) :
    ∀ record ∈ baseSpec (machineLibc heap) allocator, SpecQuiet record := by
  cases allocator with
  | zero => rintro record ⟨⟩
  | notAllocated => rintro record ⟨⟩; exact notAllocatedSpec_quiet
  | plain => rintro record ⟨⟩; exact plainSpec_quiet
  | memtbl tblp => rintro record ⟨⟩

/-- By induction on the chain: the map of each table works with the tables below it. -/
theorem chainSpec_quiet (chain : List Addr) :
    ∀ allocator, ∀ record ∈ chainSpec heap target chain allocator, SpecQuiet record := by
  induction chain with
  | nil => exact baseSpec_quiet
  | cons tblp below ih =>
    intro allocator record hr
    unfold chainSpec at hr
    split at hr
    · cases hr
      exact memtblSpec_quiet (tableEnv_quiet (memOps_quiet ih))
    · exact ih allocator record hr

theorem chainOps_quiet (chain : List Addr) : OpsQuiet (chainOps heap target chain) :=
  memOps_quiet (chainSpec_quiet chain)

theorem memCall_quiet (chain : List Addr) (call : MemCall) :
    Quiet d (call.run (chainOps heap target chain)) := by
  have ho : OpsQuiet (chainOps heap target chain) := chainOps_quiet chain
  cases call with
  | alloc allocator size => exact ho.memAlloc d allocator size
  | realloc handle size => exact ho.memRealloc d handle size
  | free handle => exact ho.memFree d handle

/-- For every chain, call and machine state: the call returns with the disposition it
found, and at every moment on the way, also of a call that stops early, SIGINT is
ignored while an update of a table is in progress. -/
theorem memCall_disciplined (heap : HeapOps τ) (target : Target) (chain : List Addr)
    (call : MemCall) (w : World τ) :
    match call.run (chainOps heap target chain) { w with history := [] } with
    | .ok _ w' => w'.sigint = w.sigint ∧ Disciplined w.sigint w'.history
    | .error _ w' => Disciplined w.sigint w'.history := by
  have start : Moment w.sigint w.sigint 0 { w with history := [] } := ⟨rfl, rfl, rfl, trivial⟩
  have hquiet : Quiet w.sigint (call.run (chainOps heap target chain)) := memCall_quiet chain call
  have hrun := hquiet w.sigint 0 (fun h => absurd h (Nat.lt_irrefl 0)) _ start
  cases hr : call.run (chainOps heap target chain) { w with history := [] } with
  | ok a w' =>
    rw [hr] at hrun
    exact ⟨hrun.installed, hrun.disciplined⟩
  | error e w' =>
    rw [hr] at hrun
    exact hrun

end Machine
end M65Tool.Guarantees.SigintDiscipline
