import M65Tool.Lib.Ownership
import M65Tool.Source.Mem

/-!
# The plain allocator over the blocks of the C heap

Source: src/datastruct/mem.c. What `mem_alloc`, `mem_realloc` and `mem_free` do to the
blocks that a data structure owns, when its handles are of the plain allocator. Any
request may be refused.
-/
namespace M65Tool.Source.Mem
open Lib.Effect Lib.Ownership

/-- The heap of the C library; `signal` leaves it as it is. -/
structure BlockHeap {σ : Type} (libc : Libc σ) (live : σ → Addr → Prop) : Prop where
  heap : Heap live 0 libc.malloc libc.realloc libc.free
  signal : ∀ h s, ∃ h' s', libc.signal h s = .ok h' s' ∧ ∀ b, live s' b ↔ live s b

/-- The entry points of mem.c with its own allocators. -/
abbrev baseOps {σ : Type} (libc : Libc σ) : MemOps σ := memOps libc (baseSpec libc)

/-- A request for a block of this size has been answered, and the block, if there is one,
is owned. -/
structure Allocated {σ : Type} (live : σ → Addr → Prop) (rest : Set Addr) (own : List Addr)
    (n : Nat) (handle : MemHandle) (s : σ) : Prop where
  plain : handle.allocator = .plain
  size : handle.size = n
  owned : (handle.data = 0 ∧ Owns live rest own s) ∨
    (handle.data ≠ 0 ∧ Owns live rest (handle.data :: own) s)

section Pointers
variable {σ : Type} {libc : Libc σ}

/-- `mem_p` of these allocators does not touch the heap. -/
theorem baseOps_memP (handle : MemHandle) :
    ∃ a, ∀ s : σ, (baseOps libc).memP handle s = .ok a s := by
  change ∃ a, ∀ s, memP (baseSpec libc) handle s = .ok a s
  unfold memP
  split
  · cases handle.allocator <;> exact ⟨_, fun _ => rfl⟩
  · exact ⟨_, fun _ => rfl⟩

theorem baseOps_deref {handle : MemHandle} (ha : handle.allocator = .plain) (hd : handle.data ≠ 0)
    (s : σ) : deref (baseOps libc) handle s = .ok () s := plain_deref rfl ha hd

end Pointers

section Blocks
variable {σ : Type} {libc : Libc σ} {live : σ → Addr → Prop} {rest : Set Addr}
  {own : List Addr} {handle : MemHandle} {E : Fault → σ → Prop}

/-- What follows a request is given the block, or told that it is refused. -/
theorem Allocated.cases {α : Type} {n : Nat} {x : C σ α} {Q : α → σ → Prop}
    (granted : handle.allocator = .plain → handle.size = n → handle.data ≠ 0 →
      Triple (Owns live rest (handle.data :: own)) x Q E)
    (refused : handle.allocator = .plain → handle.size = n → handle.data = 0 →
      Triple (Owns live rest own) x Q E) :
    Triple (Allocated live rest own n handle) x Q E := by
  intro s h
  rcases h.owned with ⟨hnull, howns⟩ | ⟨hne, howns⟩
  · exact refused h.plain h.size hnull s howns
  · exact granted h.plain h.size hne s howns

namespace BlockHeap
variable (blocks : BlockHeap libc live)
include blocks

/-- A guarded call owns after it what the call does. -/
theorem guard_owns {α : Type} {x : C σ α} {Q : α → σ → Prop}
    (hx : Triple (Owns live rest own) x Q E)
    (frame : ∀ a s s', (∀ b, live s' b ↔ live s b) → Q a s → Q a s') :
    Triple (Owns live rest own) (sigintGuard libc x) Q E := by
  refine .seq (Q := fun _ => Owns live rest own) ?_ fun handler => .seq hx fun result => .seq
    (Q := fun _ => Q result) ?_ fun _ => .ret fun _ h => h
  · intro s h
    obtain ⟨h', s', hrun, same⟩ := blocks.signal .ign s
    rw [hrun]
    exact h.congr same
  · intro s h
    obtain ⟨h', s', hrun, same⟩ := blocks.signal handler s
    rw [hrun]
    exact frame _ _ _ same h

theorem memAlloc_owns (n : Nat) : Triple (Owns live rest own) ((baseOps libc).memAlloc .plain n)
    (Allocated live rest own n) E := by
  refine blocks.guard_owns (x := plainAlloc libc .plain n) (.seq (blocks.heap.malloc_owns n) ?_) ?_
  · exact fun a => .ret fun s h => ⟨rfl, rfl, h⟩
  · intro handle s s' same h
    exact ⟨h.plain, h.size, h.owned.imp (fun h => ⟨h.1, h.2.congr same⟩)
      fun h => ⟨h.1, h.2.congr same⟩⟩

/-- A cleared block is one that has been allocated. -/
theorem memAllocClear_owns (n : Nat) :
    Triple (Owns live rest own) (memAllocClear (baseOps libc) .plain n)
      (Allocated live rest own n) E := by
  refine .seq (blocks.memAlloc_owns n) fun handle => Allocated.cases ?_ ?_
  · intro hplain hsize hne
    rw [if_pos (memIsValid_eq_true.mpr hne)]
    refine .past (fun s _ => baseOps_deref hplain hne s) (.ret fun s howns => ?_)
    exact ⟨hplain, hsize, Or.inr ⟨hne, howns⟩⟩
  · intro hplain hsize hnull
    rw [if_neg (by simpa using hnull)]
    exact .ret fun s howns => ⟨hplain, hsize, Or.inl ⟨hnull, howns⟩⟩

theorem memRealloc_owns (ha : handle.allocator = .plain) (hd : handle.data ≠ 0) {n : Nat}
    (hn : 0 < n) :
    Triple (Owns live rest (handle.data :: own)) ((baseOps libc).memRealloc handle n)
      (fun moved s => moved.allocator = .plain ∧ moved.size = n ∧
        ((moved.data = 0 ∧ Owns live rest (handle.data :: own) s) ∨
          (moved.data ≠ 0 ∧ Owns live rest (moved.data :: own) s))) E := by
  have hrealloc : (baseOps libc).memRealloc handle n =
      sigintGuard libc (plainRealloc libc handle n) := by
    change memRealloc libc (baseSpec libc) handle n = _
    rw [memRealloc, if_pos (memIsValid_eq_true.mpr hd), ha]
    rfl
  rw [hrealloc]
  refine blocks.guard_owns ?_ ?_
  · rw [plainRealloc, if_pos (memIsValid_eq_true.mpr hd)]
    exact .seq (blocks.heap.realloc_owns hn) fun a => .ret fun s h => ⟨ha, rfl, h⟩
  · rintro moved s s' same ⟨hplain, hsize, h⟩
    exact ⟨hplain, hsize, h.imp (fun h => ⟨h.1, h.2.congr same⟩) fun h => ⟨h.1, h.2.congr same⟩⟩

/-- Also where other allocators are known beside the plain one. -/
theorem memFree_plain_owns {spec : MemAllocator → Option (MemAllocatorSpec σ)}
    (plain : spec .plain = some (plainSpec libc)) (ha : handle.allocator = .plain)
    (hd : handle.data ≠ 0) :
    Triple (Owns live rest (handle.data :: own)) ((memOps libc spec).memFree handle)
      (fun freed s => freed = .zero ∧ Owns live rest own s) E := by
  have hfree : (memOps libc spec).memFree handle = sigintGuard libc (plainFree libc handle) := by
    change memFree libc spec handle = _
    rw [memFree, if_pos (memIsValid_eq_true.mpr hd), ha, plain]
    rfl
  rw [hfree]
  refine blocks.guard_owns ?_ fun freed s s' same h => ⟨h.1, h.2.congr same⟩
  exact .seq blocks.heap.free_owns fun _ => .ret fun s h => ⟨rfl, h⟩

theorem memFree_owns (ha : handle.allocator = .plain) (hd : handle.data ≠ 0) :
    Triple (Owns live rest (handle.data :: own)) ((baseOps libc).memFree handle)
      (fun freed s => freed = .zero ∧ Owns live rest own s) E :=
  blocks.memFree_plain_owns rfl ha hd

end BlockHeap
end Blocks

/-! ## A heap that follows a script -/

/-- What the requests are to be answered with, and the live blocks. -/
structure ScriptBlocks where
  script : List Addr
  live : List Addr
  deriving DecidableEq

namespace ScriptBlocks

/-- The next address of the script, if a block can be there. -/
def grant (old : Addr) : C ScriptBlocks Addr := fun s =>
  match s.script with
  | [] => .ok 0 s
  | a :: script =>
    if a ≠ 0 ∧ (a ∈ s.live → a = old) then
      .ok a ⟨script, a :: s.live.filter (· != old)⟩
    else .ok 0 { s with script := script }

def release (a : Addr) : C ScriptBlocks Unit := fun s =>
  if a ∈ s.live then .ok () { s with live := s.live.filter (· != a) }
  else .error .deadBlock s

def Live (s : ScriptBlocks) (a : Addr) : Prop := a ≠ 0 ∧ a ∈ s.live

def libc : Libc ScriptBlocks :=
  ⟨fun _ => grant 0, fun old _ => grant old, release, fun _ => pure .dfl, fun _ _ => throw .deadBlock⟩

variable {s : ScriptBlocks} {old : Addr}

theorem grant_moved (old : Addr) (s : ScriptBlocks) :
    ∃ a s', grant old s = .ok a s' ∧ Moved Live 0 old s s' a := by
  unfold grant
  split
  · exact ⟨_, _, rfl, .refused fun _ => Iff.rfl⟩
  · split
    · rename_i hnew
      refine ⟨_, _, rfl, .granted hnew.1 (fun h => hnew.2 h.2) ?_⟩
      intro b
      simp only [Live, List.mem_cons, List.mem_filter, bne_iff_ne]
      constructor
      · rintro ⟨hb, rfl | ⟨hmem, hne⟩⟩
        · exact Or.inl rfl
        · exact Or.inr ⟨hne, hb, hmem⟩
      · rintro (rfl | ⟨hne, hb, hmem⟩)
        · exact ⟨hnew.1, Or.inl rfl⟩
        · exact ⟨hb, Or.inr ⟨hmem, hne⟩⟩
    · exact ⟨_, _, rfl, .refused fun _ => Iff.rfl⟩

theorem blockHeap : BlockHeap libc Live where
  signal _ s := ⟨_, s, rfl, fun _ => Iff.rfl⟩
  heap.malloc _ s := by
    obtain ⟨a, s', hrun, moved⟩ := grant_moved 0 s
    refine ⟨a, s', hrun, ?_⟩
    cases moved with
    | granted ne_null fresh live_iff =>
      refine .granted ne_null (fun h => ne_null (fresh h)) fun b => (live_iff b).trans ?_
      exact ⟨Or.imp_right And.right, Or.imp_right fun h => ⟨h.1, h⟩⟩
    | refused live_iff => exact .refused live_iff
  heap.realloc old _ s _ _ := grant_moved old s
  heap.free a s h := by
    refine ⟨{ s with live := s.live.filter (· != a) }, if_pos h.2, fun b => ?_⟩
    simp only [Live, List.mem_filter, bne_iff_ne]
    exact ⟨fun h => ⟨h.2.2, h.1, h.2.1⟩, fun h => ⟨h.2.1, h.2.2, h.1⟩⟩

end ScriptBlocks
end M65Tool.Source.Mem
