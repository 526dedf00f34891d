import M65Tool.Source.Machine
import M65Tool.Source.StringBuffer

/-!
# Calls that only read

`mem_p` leaves the state as it is: over the allocators of mem.c because the pointer is
in the handle, over a memory table because it is looked up in the table's map, through
the allocators below. So do the calls that are made of nothing but `mem_p`.
-/
namespace M65Tool.Source
open Mem MapHash HashMap Memtbl Machine StringBuffer Lib.Effect

/-- `mem_p` only reads. -/
def ReadsOnly {σ : Type} (ops : MemOps σ) : Prop := ∀ handle, Keeps (ops.memP handle)

section Reads
variable {σ : Type} {ops : MemOps σ}

theorem deref_keeps (reads : ReadsOnly ops) (handle : MemHandle) : Keeps (deref ops handle) :=
  (reads handle).seq fun _ => .cond (fun _ => .stop _) fun _ => .ret _

theorem mapIsValid_keeps (reads : ReadsOnly ops) (mh : MemHandle) (mp : Map) :
    Keeps (mapIsValid ops mh mp) :=
  .cond (fun _ => (deref_keeps reads mh).seq fun _ => .ret _) fun _ => .ret _

theorem orNoEntryPos_keeps {α : Type} (found : Option α) : Keeps (orNoEntryPos found : C σ α) := by
  cases found with
  | none => exact .stop _
  | some a => exact .ret a

theorem derefTable_keeps (reads : ReadsOnly ops) (mh : MemHandle) (mp : Map) :
    Keeps (derefTable ops mh mp) :=
  (deref_keeps reads mh).seq fun _ => (reads mp.entriesMh).seq fun _ =>
    .cond (fun _ => .stop _) fun _ => .ret _

theorem doGet_keeps (reads : ReadsOnly ops) (mh : MemHandle) (mp : Map) (keyHash : UInt32) :
    Keeps (doGet ops mh mp keyHash) :=
  (derefTable_keeps reads mh mp).seq fun _ => orNoEntryPos_keeps _

theorem hashStr_keeps (reads : ReadsOnly ops) (target : Target) (key : Str) :
    Keeps (hashStr ops target key) := by
  refine .seq (.cond (fun _ => .ret _) fun _ => deref_keeps reads key.handle) fun _ => ?_
  cases hashBytes target key.bytes with
  | none => exact .stop _
  | some h => exact .ret h

theorem mapGet_keeps (reads : ReadsOnly ops) (target : Target) (mh : MemHandle) (mp : Map)
    (key : MapKey) : Keeps (mapGet ops target mh mp key) := by
  cases key with
  | str key =>
    exact (mapIsValid_keeps reads mh mp).seq fun _ => .cond
      (fun _ => (hashStr_keeps reads target key).seq fun h => doGet_keeps reads mh mp h)
      fun _ => .ret _
  | ptr key =>
    exact (mapIsValid_keeps reads mh mp).seq fun _ => .cond
      (fun _ => doGet_keeps reads mh mp _) fun _ => .ret _

theorem strbufIsValid_keeps (reads : ReadsOnly ops) (bufHandle : MemHandle) (bufp : Strbuf) :
    Keeps (strbufIsValid ops bufHandle bufp) :=
  .cond (fun _ => (deref_keeps reads bufHandle).seq fun _ => .ret _) fun _ => .ret _

theorem storeAtEnd_keeps (reads : ReadsOnly ops) (bufp : Strbuf) (bytes : Cells) :
    Keeps (storeAtEnd ops bufp bytes) :=
  (deref_keeps reads bufp.data).seq fun _ => .cond (fun _ => .ret _) fun _ => .stop _

theorem readRegion_keeps (bufp bufp' : Strbuf) (cstr : Region) (length : Nat) :
    Keeps (readRegion bufp bufp' cstr length : C σ Cells) :=
  .cond (fun _ => .stop _) fun _ => .cond (fun _ => .stop _) fun _ =>
    .cond (fun _ => .stop _) fun _ => .ret _

theorem incrInt_keeps (i : Int) : Keeps (incrInt i : C σ Int) :=
  .cond (fun _ => .stop _) fun _ => .ret _

end Reads

/-! ## The allocators -/

/-- Every `p_func` only reads. -/
def PFuncsKeep {σ : Type} (spec : MemAllocator → Option (MemAllocatorSpec σ)) : Prop :=
  ∀ allocator record pFunc, spec allocator = some record → record.pFunc = some pFunc →
    ∀ handle, Keeps (pFunc handle)

/-- `mem_p` calls the `p_func` of the handle's allocator, if there is one. -/
theorem PFuncsKeep.readsOnly {σ : Type} {libc : Libc σ}
    {spec : MemAllocator → Option (MemAllocatorSpec σ)} (funcs : PFuncsKeep spec) :
    ReadsOnly (memOps libc spec) := by
  intro handle
  refine .cond (fun _ => ?_) fun _ => .ret _
  cases hspec : spec handle.allocator with
  | none => exact .ret _
  | some record =>
    cases hfunc : record.pFunc with
    | none =>
      rw [Option.bind_some, hfunc]
      exact .ret _
    | some pFunc =>
      rw [Option.bind_some, hfunc]
      exact funcs _ record pFunc hspec hfunc handle

theorem baseSpec_keeps {σ : Type} (libc : Libc σ) : PFuncsKeep (baseSpec libc) := by
  intro allocator record pFunc hspec hfunc handle
  cases allocator with
  | notAllocated | plain =>
    cases hspec
    cases hfunc
    exact .ret _
  | zero | memtbl => cases hspec

section Chains
variable {τ : Type} {heap : HeapOps τ} {target : Target}

theorem readMap_keeps (mh : MemHandle) : Keeps (readMap mh : C (World τ) Map) := by
  intro P w hw
  unfold readMap
  cases w.maps mh.data with
  | none => exact hw
  | some mp => exact hw

theorem readMemMapHandle_keeps (tblp : Addr) :
    Keeps (readMemMapHandle tblp : C (World τ) MemHandle) := by
  intro P w hw
  unfold readMemMapHandle
  cases w.memtbls tblp with
  | none => exact hw
  | some mapHandle => exact hw

/-- The `p_func` of a table whose map works with allocators that only read in `mem_p`. -/
theorem memtblP_keeps {ops : MemOps (World τ)} (reads : ReadsOnly ops) (handle : MemHandle) :
    Keeps (memtblP (tableEnv heap target ops) handle) := by
  have hmap : Keeps (memtblMap (tableEnv heap target ops) handle.allocator) :=
    .cond (fun _ => .ret _) fun _ =>
      (readMemMapHandle_keeps _).seq fun _ => .cond (fun _ => .ret _) fun _ => .ret _
  refine .cond (fun _ => hmap.seq ?_) fun _ => .ret _
  intro mapHandle
  cases mapHandle with
  | none => exact .ret _
  | some mapHandle =>
    refine .seq ((readMap_keeps mapHandle).seq fun mp => ?_) fun _ => .ret _
    exact (mapIsValid_keeps reads mapHandle mp).seq fun _ =>
      .cond (fun _ => doGet_keeps reads mapHandle mp _) fun _ => .ret _

theorem chainSpec_keeps (chain : List Addr) : PFuncsKeep (chainSpec heap target chain) := by
  induction chain with
  | nil => exact baseSpec_keeps _
  | cons tblp below ih =>
    intro allocator record pFunc hspec hfunc
    unfold chainSpec at hspec
    by_cases htable : allocator = .memtbl tblp
    · rw [if_pos htable] at hspec
      cases hspec
      cases hfunc
      exact memtblP_keeps ih.readsOnly
    · rw [if_neg htable] at hspec
      exact ih allocator record pFunc hspec hfunc

end Chains
end M65Tool.Source
