import M65Tool.Guarantees.StockedTable

/-!
# MEMTBL-LIFECYCLE: a program with a memory table

A program creates a memory table over the plain allocator and asks it for blocks, moves
them and frees them, with anything else in between that leaves the table alone. Any
request may be refused. While each address that the heap hands out has a home of its own
beside those in use, the table holds exactly the blocks in use, and its destruction
leaves exactly those that are not its own.
-/
namespace M65Tool.Guarantees.MemtblLifecycle
open Source.Mem Source.MapHash Source.HashMap Source.Memtbl Source.Machine
open Lib.Ownership StockedTable

section Program
variable {τ : Type} {heap : HeapOps τ} {live : τ → Addr → Prop} {target : Target}
  {rest : Set Addr} {mth handle r : MemHandle} {blocks : List Addr} {w w' : World τ} {a : Addr}
  {n : Nat}

/-- What a program with a table at `mth` comes to: the blocks that are not the table's, and
those that it has from the table. -/
inductive TableProgram (heap : HeapOps τ) (live : τ → Addr → Prop) (target : Target)
    (mth : MemHandle) : Set Addr → List Addr → World τ → Prop
  | create {rest : Set Addr} {w w' : World τ} (before : ∀ a, live w.heap a ↔ a ∈ rest)
      (call : memtblCreate (chainOps heap target []) .plain w = .ok mth w')
      (made : memIsValid mth = true) : TableProgram heap live target mth rest [] w'
  | alloc {rest : Set Addr} {blocks : List Addr} {n : Nat} {r : MemHandle} {w w' : World τ}
      (before : TableProgram heap live target mth rest blocks w)
      (spaced : ∀ a t, heap.malloc n w.heap = .ok a t → a ≠ 0 → Spaced target blocks a)
      (call : (chainOps heap target [mth.data]).memAlloc (memAllocatorMemtbl mth) n w =
        .ok r w') :
      TableProgram heap live target mth rest
        (if memIsValid r then r.data :: blocks else blocks) w'
  | realloc {rest : Set Addr} {blocks : List Addr} {n : Nat} {handle r : MemHandle}
      {w w' : World τ} (before : TableProgram heap live target mth rest blocks w)
      (own : handle.allocator = memAllocatorMemtbl mth) (inUse : handle.data ∈ blocks)
      (bytes : 0 < n)
      (spaced : ∀ a t, heap.realloc handle.data n w.heap = .ok a t → a ≠ 0 → a ≠ handle.data →
        Spaced target blocks a)
      (call : (chainOps heap target [mth.data]).memRealloc handle n w = .ok r w') :
      TableProgram heap live target mth rest
        (if memIsValid r then r.data :: blocks.erase handle.data else blocks) w'
  | free {rest : Set Addr} {blocks : List Addr} {handle r : MemHandle} {w w' : World τ}
      (before : TableProgram heap live target mth rest blocks w)
      (own : handle.allocator = memAllocatorMemtbl mth) (inUse : handle.data ∈ blocks)
      (call : (chainOps heap target [mth.data]).memFree handle w = .ok r w') :
      TableProgram heap live target mth rest (blocks.erase handle.data) w'
  /-- anything else, that leaves the table, its map and its blocks as they are -/
  | other {rest rest' : Set Addr} {blocks : List Addr} {w w' : World τ}
      (before : TableProgram heap live target mth rest blocks w)
      (table : w'.memtbls mth.data = w.memtbls mth.data)
      (map : ∀ mh, w.memtbls mth.data = some mh → w'.maps mh.data = w.maps mh.data)
      (apart : ∀ a, live w.heap a → a ∉ rest → a ∉ rest')
      (live_iff : ∀ a, live w'.heap a ↔ (live w.heap a ∧ a ∉ rest) ∨ a ∈ rest') :
      TableProgram heap live target mth rest' blocks w'

/-- What is in use when an answer of the heap has become one of the table. -/
theorem blocks_of_answer {alloc : MemAllocator} {blocks' : List Addr}
    (hr : r = if a = 0 then .zero else ⟨a, n, alloc⟩) :
    (if memIsValid r then r.data :: blocks' else blocks) =
      if a = 0 then blocks else a :: blocks' := by
  subst hr
  by_cases ha : a = 0
  · rw [if_pos ha, if_pos ha]
    rfl
  · rw [if_neg ha, if_neg ha, if_pos (memIsValid_eq_true.mpr ha)]

theorem other_inUse {rest' : Set Addr} {mh : MemHandle}
    (inUse : InUse live target rest mth mh blocks w)
    (table : w'.memtbls mth.data = w.memtbls mth.data)
    (map : ∀ mh, w.memtbls mth.data = some mh → w'.maps mh.data = w.maps mh.data)
    (apart : ∀ a, live w.heap a → a ∉ rest → a ∉ rest')
    (live_iff : ∀ a, live w'.heap a ↔ (live w.heap a ∧ a ∉ rest) ∨ a ∈ rest') :
    InUse live target rest' mth mh blocks w' := by
  obtain ⟨mp, m, stocked⟩ := inUse
  have hat := stocked.table
  have owns := stocked.owns
  refine ⟨mp, m, ?_, stocked.homed, stocked.records, ?_, owns.nodup, ?_⟩
  · exact { hat with
      map_at := table.trans hat.map_at
      struct_at := (map mh hat.map_at).trans hat.struct_at }
  · intro a
    rw [heapLive, live_iff]
    refine or_congr_left ⟨fun h => ((owns.live_iff a).mp h.1).resolve_right h.2, fun ha => ?_⟩
    exact ⟨owns.live_own ha, owns.apart a ha⟩
  · exact fun a ha => apart a (owns.live_own ha) (owns.apart a ha)

/-- The table holds the blocks in use, whatever has been done and refused. -/
theorem TableProgram.keeps (laws : Heap live 0 heap.malloc heap.realloc heap.free)
    (program : TableProgram heap live target mth rest blocks w) :
    ∃ mh, InUse live target rest mth mh blocks w := by
  induction program with
  | create before call made =>
    rcases (memtblCreate_owns laws).of_ok (Owns.nothing.mpr before) call with h | h
    · exact h.2
    · exact absurd h.1 (memIsValid_eq_true.mp made)
  | alloc before spaced call ih =>
    obtain ⟨mh, mp, m, stocked⟩ := ih
    obtain ⟨a, t, hmalloc, answer⟩ := laws.malloc _ _
    obtain ⟨w1, hrun, inUse⟩ := stocked.memAlloc_ok hmalloc answer (spaced a t hmalloc)
    obtain ⟨hr, rfl⟩ := EStateM.Result.ok.inj (call.symm.trans hrun)
    rw [blocks_of_answer hr]
    exact ⟨mh, inUse⟩
  | realloc before own mem bytes spaced call ih =>
    obtain ⟨mh, mp, m, stocked⟩ := ih
    obtain ⟨a, t, hrealloc, moved⟩ := laws.realloc _ _ _ bytes
      (stocked.owns.live_own (List.mem_append_left _ mem))
    obtain ⟨w1, hrun, inUse⟩ := stocked.memRealloc_ok own mem hrealloc moved (spaced a t hrealloc)
    obtain ⟨hr, rfl⟩ := EStateM.Result.ok.inj (call.symm.trans hrun)
    rw [blocks_of_answer hr]
    exact ⟨mh, inUse⟩
  | free before own mem call ih =>
    obtain ⟨mh, mp, m, stocked⟩ := ih
    obtain ⟨w1, hrun, mp1, stocked1⟩ := stocked.memFree_ok laws own mem
    obtain ⟨-, rfl⟩ := EStateM.Result.ok.inj (call.symm.trans hrun)
    exact ⟨mh, mp1, _, stocked1⟩
  | other before table map apart live_iff ih =>
    obtain ⟨mh, inUse⟩ := ih
    exact ⟨mh, other_inUse inUse table map apart live_iff⟩

end Program

/-! ## A table with a block that is moved -/

def scriptHeap : HeapOps ScriptBlocks :=
  ⟨fun _ => ScriptBlocks.grant 0, fun old _ => ScriptBlocks.grant old, ScriptBlocks.release,
    fun _ _ => throw .deadBlock⟩

theorem scriptHeap_laws : Heap ScriptBlocks.Live 0 scriptHeap.malloc scriptHeap.realloc
    scriptHeap.free := ScriptBlocks.blockHeap.heap

/-- The block at 4096 is the program's. After the table and its map one request is granted,
the next is refused, and then the block is moved. -/
def startWorld : World ScriptBlocks :=
  ⟨.dfl, [], fun _ => none, fun _ => none, ⟨[16, 64, 256, 8192, 0, 12288], [4096]⟩⟩

def tableMth : MemHandle := ⟨16, 32, .plain⟩
def tableOps : MemOps (World ScriptBlocks) := chainOps scriptHeap ⟨true⟩ [16]

/-- The machine after a call. -/
def after (x : C (World ScriptBlocks) MemHandle) (w : World ScriptBlocks) : World ScriptBlocks :=
  match x w with
  | .ok _ w' => w'
  | .error _ w' => w'

def createdWorld : World ScriptBlocks :=
  after (memtblCreate (chainOps scriptHeap ⟨true⟩ []) .plain) startWorld
def grantedWorld : World ScriptBlocks := after (tableOps.memAlloc (.memtbl 16) 100) createdWorld
def refusedWorld : World ScriptBlocks := after (tableOps.memAlloc (.memtbl 16) 100) grantedWorld
def movedWorld : World ScriptBlocks :=
  after (tableOps.memRealloc ⟨8192, 100, .memtbl 16⟩ 200) refusedWorld

theorem moved_program :
    TableProgram scriptHeap ScriptBlocks.Live ⟨true⟩ tableMth {4096} [12288] movedWorld := by
  have created : TableProgram scriptHeap ScriptBlocks.Live ⟨true⟩ tableMth {4096} []
      createdWorld := by
    refine .create (w := startWorld) (fun a => ?_) rfl rfl
    change a ≠ 0 ∧ a ∈ [4096] ↔ a ∈ {4096}
    rw [Set.mem_singleton_iff, List.mem_singleton]
    exact ⟨fun h => h.2, fun h => ⟨by rw [h]; decide, h⟩⟩
  have granted : TableProgram scriptHeap ScriptBlocks.Live ⟨true⟩ tableMth {4096} [8192]
      grantedWorld := by
    refine .alloc (n := 100) (r := ⟨8192, 100, .memtbl 16⟩) created (fun a t h _ => ?_) rfl
    have hmalloc : scriptHeap.malloc 100 createdWorld.heap = .ok 8192 _ := rfl
    obtain ⟨rfl, -⟩ := EStateM.Result.ok.inj (hmalloc.symm.trans h)
    exact ⟨by decide, fun b hb => absurd hb List.not_mem_nil, by decide⟩
  have refused : TableProgram scriptHeap ScriptBlocks.Live ⟨true⟩ tableMth {4096} [8192]
      refusedWorld := by
    refine .alloc (n := 100) (r := .zero) granted (fun a t h ha => ?_) rfl
    have hmalloc : scriptHeap.malloc 100 grantedWorld.heap = .ok 0 _ := rfl
    obtain ⟨rfl, -⟩ := EStateM.Result.ok.inj (hmalloc.symm.trans h)
    exact absurd rfl ha
  have moved : tableOps.memRealloc ⟨8192, 100, .memtbl 16⟩ 200 refusedWorld =
      .ok ⟨12288, 200, .memtbl 16⟩ movedWorld := rfl
  refine .realloc refused ?_ ?_ (by decide) ?_ moved
  · rfl
  · exact List.mem_cons_self
  intro a t h _ _
  have hrealloc : scriptHeap.realloc 8192 200 refusedWorld.heap = .ok 12288 _ := rfl
  obtain ⟨rfl, -⟩ := EStateM.Result.ok.inj (hrealloc.symm.trans h)
  exact ⟨by decide, fun b hb => by rw [List.mem_singleton.mp hb]; decide, by decide⟩

end M65Tool.Guarantees.MemtblLifecycle
