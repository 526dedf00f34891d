import M65Tool.Guarantees.CountedWords
import M65Tool.Guarantees.StringContents
import M65Tool.Source.ReadOnly

/-!
# LOST-WORD: the seventeenth word

The seventeenth new word makes the table grow, and its entry is stored in the block that
the growth has freed: the map does not have the word. No word that follows is counted at
its element, whatever the words are.
-/
namespace M65Tool.Guarantees.LostWord
open Source Source.Mem Source.MapHash Source.HashMap Source.StringBuffer Source.StrFunctions
  Source.WordFreq Lib.Effect Lib.FirstSeen StringContents CountedWords

/-! ## A platform that refuses no request of the program -/

theorem grant_placed {n : Nat} {heap heap' : LimitHeap} {a : Addr}
    (h : heap.grant n = (a, heap')) (ha : a ≠ 0) : Placed 8 a n := by
  unfold LimitHeap.grant at h
  split at h
  · rename_i hn
    cases h
    have hto : (UInt64.ofNat (16 * (heap.next % 2 ^ 32 + 1))).toNat =
        16 * (heap.next % 2 ^ 32 + 1) := by
      rw [UInt64.toNat_ofNat']
      omega
    have hstack : (8 : Addr).toNat = 8 := rfl
    unfold ptrdiffMax at hn
    unfold Placed
    rw [hto, hstack]
    omega
  · cases h
    exact absurd rfl ha

theorem modifyGet_grant {n : Nat} {heap heap' : LimitHeap} {a : Addr}
    (h : (modifyGet (LimitHeap.grant n) : C LimitHeap Addr) heap = .ok a heap') :
    heap.grant n = (a, heap') := by
  cases h
  rfl

/-- The heap, and what its memory does with a store into a block that has been freed. -/
def heapPlatform (staleStore : Addr → Nat → C LimitHeap Unit) : Platform LimitHeap where
  libc := { limitLibc with staleStore := staleStore }
  spec := baseSpec { limitLibc with staleStore := staleStore }
  refusals := LimitHeap.refused
  live _ _ := True
  stack := 8
  plain := rfl
  unowned := rfl
  allocates := ⟨limitLibc_allocates.malloc, limitLibc_allocates.realloc, limitLibc_allocates.signal⟩
  free_calm _ _ := .ret fun _ h => h
  malloc_placed _ _ _ _ hrun := grant_placed (modifyGet_grant hrun)
  realloc_placed _ _ _ _ _ hrun := grant_placed (modifyGet_grant hrun)
  stack_ne := by decide

/-- The memory takes the store. -/
abbrev limitPlatform : Platform LimitHeap := heapPlatform fun _ _ => pure ()

/-- The memory traps the store. -/
abbrev trapPlatform : Platform LimitHeap := heapPlatform fun _ _ => throw .deadBlock

/-- Nothing has been refused. -/
def Granted (heap : LimitHeap) : Prop := heap.refused = 0

/-- The heap before the program. -/
def firstHeap : LimitHeap := ⟨0, 0, .dfl⟩

section Requests
variable {staleStore : Addr → Nat → C LimitHeap Unit} {n : Nat}

theorem not_refuses {n : Nat} {heap heap' : LimitHeap} (hn : n ≤ ptrdiffMax) :
    ¬ (heapPlatform staleStore).Refuses n heap heap' := by
  rintro ⟨-, ptr, s1, s2, hrun⟩
  have hgrant := modifyGet_grant hrun
  have hanswered := grant_answered n s1
  rw [hgrant] at hanswered
  have hcalm : s2.refused = s1.refused := by
    rw [LimitHeap.grant, if_pos hn] at hgrant
    rw [← (Prod.mk.inj hgrant).2]
  unfold Answered at hanswered
  rw [if_pos rfl, hcalm] at hanswered
  exact Nat.lt_irrefl _ hanswered

theorem created_firstHeap (staleStore : Addr → Nat → C LimitHeap Unit) :
    ∃ buf g, createAll (heapPlatform staleStore).ops (start firstHeap) = .ok buf g := ⟨_, _, rfl⟩

theorem signal_granted (handler : SigHandler) :
    Triple Granted (limitLibc.signal handler) (fun _ => Granted) fun _ => Granted :=
  fun _ h => h

theorem malloc_granted (hn : n ≤ ptrdiffMax) :
    Triple Granted (limitLibc.malloc n) (fun _ => Granted) fun _ => Granted := by
  intro heap h
  change Granted (heap.grant n).2
  rw [LimitHeap.grant, if_pos hn]
  exact h

theorem sigintGuard_granted {α : Type} {block : C LimitHeap α}
    (h : Triple Granted block (fun _ => Granted) fun _ => Granted) :
    Triple Granted (sigintGuard (heapPlatform staleStore).libc block) (fun _ => Granted)
      fun _ => Granted :=
  .seq (signal_granted _) fun handler => .seq h fun _ =>
    .seq (signal_granted handler) fun _ => .ret fun _ h => h

theorem memAlloc_granted (ma : MemAllocator) (hn : n ≤ ptrdiffMax) :
    Triple Granted ((heapPlatform staleStore).ops.memAlloc ma n) (fun _ => Granted) fun _ => Granted := by
  cases ma with
  | plain => exact sigintGuard_granted (.seq (malloc_granted hn) fun _ => .ret fun _ h => h)
  | notAllocated | zero | memtbl => exact .ret fun _ h => h

theorem memFree_granted (handle : MemHandle) :
    Triple Granted ((heapPlatform staleStore).ops.memFree handle) (fun _ => Granted) fun _ => Granted := by
  refine .cond (fun _ => ?_) fun _ => .ret fun _ h => h
  cases handle.allocator with
  | plain => exact sigintGuard_granted (.seq (.ret fun _ h => h) fun _ => .ret fun _ h => h)
  | notAllocated | zero | memtbl => exact .ret fun _ h => h

theorem reads_granted {α : Type} {x : C LimitHeap α} (h : Keeps x) :
    Triple Granted x (fun _ => Granted) fun _ => Granted := h Granted

theorem heap_readsOnly : ReadsOnly (heapPlatform staleStore).ops := (baseSpec_keeps _).readsOnly

theorem memAllocClear_granted (ma : MemAllocator) (hn : n ≤ ptrdiffMax) :
    Triple Granted (memAllocClear (heapPlatform staleStore).ops ma n) (fun _ => Granted) fun _ => Granted := by
  refine .seq (memAlloc_granted ma hn) fun handle => .cond (fun _ => ?_) fun _ => .ret fun _ h => h
  exact .seq (reads_granted (deref_keeps heap_readsOnly handle)) fun _ => .ret fun _ h => h

/-- The size of a table is an unsigned int, and that of its block is granted. -/
theorem growTable_granted (mh : MemHandle) (mp : Map) :
    Triple Granted (resizeEntriesTable (heapPlatform staleStore).ops mh mp true) (fun _ => Granted)
      fun _ => Granted := by
  unfold resizeEntriesTable resizedTableSize
  rw [if_pos rfl]
  by_cases hsize : mp.tableSize * 2 < 2 ^ 32
  · rw [if_pos hsize, pure_bind]
    have hn : sizeofMapEntry * (mp.tableSize * 2) ≤ ptrdiffMax := by
      unfold sizeofMapEntry ptrdiffMax
      omega
    refine .seq (memAllocClear_granted _ hn) fun newMh => .seq (reads_granted
      (heap_readsOnly newMh)) fun ptr => .cond (fun _ => .ret fun _ h => h) fun _ => ?_
    exact .seq (reads_granted (deref_keeps heap_readsOnly _)) fun _ =>
      .seq (memFree_granted _) fun _ => .ret fun _ h => h
  · rw [if_neg hsize]
    exact fun _ h => h

/-- The store into the block that has been freed changes nothing else. -/
theorem mapSetStr_granted (target : Target) (mh : MemHandle) (mp : Map) (word : Str)
    (value : MemHandle) :
    Triple Granted (mapSetStr limitPlatform.ops target mh mp word value) (fun _ => Granted)
      fun _ => Granted := by
  refine .seq (reads_granted (mapIsValid_keeps heap_readsOnly mh mp)) fun valid =>
    .cond (fun _ => ?_) fun _ => .ret fun _ h => h
  refine .seq (reads_granted (heap_readsOnly value)) fun ptr =>
    .cond (fun _ => .ret fun _ h => h) fun _ => ?_
  refine .seq (reads_granted (hashStr_keeps heap_readsOnly target word)) fun h => ?_
  refine .seq (reads_granted (derefTable_keeps heap_readsOnly mh mp)) fun entries => ?_
  refine .seq (reads_granted (orNoEntryPos_keeps _)) fun pos => .cond (fun _ => ?_) fun _ =>
    .ret fun _ h => h
  refine .cond (fun _ => ?_) fun _ => .ret fun _ h => h
  refine .seq (growTable_granted mh _) fun (grown, resized) => .cond (fun _ => ?_) fun _ =>
    .ret fun _ h => h
  refine .seq (reads_granted (derefTable_keeps heap_readsOnly mh resized)) fun _ => ?_
  refine .seq (reads_granted (orNoEntryPos_keeps _)) fun pos => ?_
  exact .seq (.ret fun _ h => h) fun _ => .ret fun _ h => h

/-- Where the store is trapped, a key for which the table has to grow is not set. -/
theorem mapSetStr_trapped {target : Target} {mh value : MemHandle} {mp : Map} {word : Str}
    {h : UInt32} {pos : Nat} (attached : Attached .plain mh mp)
    (ha : word.handle.allocator = .notAllocated) (hd : word.handle.data ≠ 0)
    (hh : hashBytes target word.bytes = some h) (hva : value.allocator = .notAllocated)
    (hvd : value.data ≠ 0) (found : findEntryPos mp h = some pos)
    (free : (mp.slot pos).keyHash = 0)
    (crowded : mp.counted.entryCount > mp.counted.tableSize / 2) :
    Triple Granted (mapSetStr trapPlatform.ops target mh mp word value)
      (fun result heap => Granted heap ∧ result.1 = false) fun _ => Granted := by
  have hdoSet : Triple Granted (doSet trapPlatform.ops mh mp h value)
      (fun result heap => Granted heap ∧ result.1 = false) fun _ => Granted := by
    refine .past (fun s _ => attached.derefTable_run trapPlatform.plainServes s) ?_
    rw [found]
    refine .past (fun _ _ => rfl) ?_
    rw [if_pos free, if_pos crowded]
    refine .seq (growTable_granted mh _) fun result => .cond (fun _ => ?_) fun _ =>
      .ret fun _ hg => ⟨hg, rfl⟩
    refine .seq (reads_granted (derefTable_keeps heap_readsOnly mh result.2)) fun _ =>
      .seq (reads_granted (orNoEntryPos_keeps _)) fun _ => ?_
    exact Triple.seq (Q := fun _ _ => False) (.stop fun _ hg => hg) fun _ _ hfalse => hfalse.elim
  intro heap hgranted
  rw [mapSetStr_word trapPlatform attached ha hd hh hva hvd]
  exact hdoSet heap hgranted

end Requests

/-! ## What the calls on the map return -/

section Inversions
variable {σ : Type} {ops : MemOps σ} {target : Target} {mh value : MemHandle} {mp mp' : Map}
  {word : Str} {r : MemHandle} {s s' : σ}

theorem mapGetStr_inv (hrun : mapGetStr ops target mh mp word s = .ok r s') :
    r = .zero ∨ ∃ h, lookup mp h = some r := by
  obtain ⟨valid, s1, -, hrun⟩ := bind_ok_inv hrun
  split at hrun
  · obtain ⟨h, s2, -, hrun⟩ := bind_ok_inv hrun
    exact Or.inr ⟨h, doGet_ok hrun⟩
  · cases hrun
    exact Or.inl rfl

theorem mapSetStr_inv (hrun : mapSetStr ops target mh mp word value s = .ok (true, mp') s') :
    ∃ h, hashBytes target word.bytes = some h ∧ SetStep mp h value true mp' := by
  obtain ⟨valid, s1, -, hrun⟩ := bind_ok_inv hrun
  split at hrun
  · obtain ⟨ptr, s2, -, hrun⟩ := bind_ok_inv hrun
    split at hrun
    · cases hrun
    · obtain ⟨h, s3, hhash, hrun⟩ := bind_ok_inv hrun
      exact ⟨h, hashStr_ok hhash, doSet_step hrun⟩
  · cases hrun

theorem onWorld_fault {α : Type} {x : C σ α} {g : Globals σ} {fault : Fault}
    (h : x g.world = .error fault s') :
    onWorld x g = .error (.fault fault) { g with world := s' } := by
  rw [onWorld, h]

theorem SetStep.shaped {h : UInt32} {v : MemHandle} {b : Bool} (hshape : mp.Shaped)
    (step : SetStep mp h v b mp') : mp'.Shaped := by
  cases step with
  | overwrite pos found taken => exact hshape.store pos _
  | insert pos found free fits => exact Map.Shaped.store hshape pos _
  | grow pos found free crowded newMh size => exact Map.resized_shaped
  | growFailed pos found free crowded => exact hshape

end Inversions

/-! ## The word is lost -/

/-- No entry of the map leads to the seventeenth element. -/
structure Lost {σ : Type} (g : Globals σ) : Prop extends FirstArray g where
  counted_once : g.cells[16]? = some (some 1)
  seen : 16 < g.wordsSeen.toNat
  few : g.wordsSeen.toNat ≤ initialCountsSize
  shaped : g.mapStruct.Shaped
  wellPlaced : g.mapStruct.WellPlaced
  elsewhere : ∀ (h : UInt32) (v : MemHandle), g.mapStruct.Holds h v →
    ∃ i < initialCountsSize, i ≠ 16 ∧ v = element g i

section Steps
variable {staleStore : Addr → Nat → C LimitHeap Unit} {target : Target} {g : Globals LimitHeap}

/-- A word that the map takes is at an element of the array, or the program stops. -/
theorem newWord_sets {P : Map → Prop} {R : Globals LimitHeap → Prop} (word : Str)
    (array : FirstArray g) (few : g.wordsSeen.toNat ≤ initialCountsSize)
    (granted : Granted g.world)
    (sets : Triple Granted (mapSetStr (heapPlatform staleStore).ops target g.mymap g.mapStruct word
        (element g g.wordsSeen.toNat))
      (fun result heap => Granted heap ∧ (result.1 = true → P result.2)) fun _ => Granted)
    (next : g.wordsSeen.toNat < initialCountsSize → ∀ mp' world, P mp' →
      R { withWord g mp' with world := world }) :
    Triple (fun g' => g' = g) (newWord (heapPlatform staleStore).ops target word)
      (fun _ g' => Granted g'.world ∧ R g') fun _ g' => Granted g'.world := by
  intro g' hsame
  rw [hsame, newWord_eq (heapPlatform staleStore) array few target word]
  have hsets := sets g.world granted
  cases hset : mapSetStr (heapPlatform staleStore).ops target g.mymap g.mapStruct word
      (element g g.wordsSeen.toNat) g.world with
  | error fault world =>
    rw [hset] at hsets
    have hcall : onWorld (mapSetStr (heapPlatform staleStore).ops target g.mymap g.mapStruct word
        (element g g.wordsSeen.toNat)) (withSeen g) =
          .error (.fault fault) { withSeen g with world := world } := onWorld_fault hset
    have hstop : setWord (heapPlatform staleStore).ops target word (element g g.wordsSeen.toNat)
        (withSeen g) = .error (.fault fault) { withSeen g with world := world } :=
      bind_of_error hcall _
    rw [bind_of_error hstop]
    exact hsets
  | ok result world =>
    rw [hset] at hsets
    obtain ⟨stored, mp'⟩ := result
    have hstep : setWord (heapPlatform staleStore).ops target word (element g g.wordsSeen.toNat)
        (withSeen g) = .ok stored { withSeen g with world := world, mapStruct := mp' } :=
      setWord_ok hset
    rw [bind_of_ok hstep]
    cases stored with
    | false => exact hsets.1
    | true =>
      rw [if_pos rfl]
      obtain ⟨hlt, hstore⟩ | ⟨stop, hstore⟩ := storeCount_cases
        { withSeen g with world := world, mapStruct := mp' } g.counts.data g.wordsSeen 1
      · rw [hstore]
        have hlt' : g.wordsSeen.toNat < initialCountsSize := Nat.lt_of_lt_of_eq hlt array.length
        exact ⟨hsets.1, next hlt' mp' world (hsets.2 rfl)⟩
      · rw [hstore]
        exact hsets.1

/-- On memory that takes the store, the map does what one of its steps does. -/
theorem newWord_lost (word : Str) (array : FirstArray g)
    (few : g.wordsSeen.toNat ≤ initialCountsSize) (granted : Granted g.world)
    (next : g.wordsSeen.toNat < initialCountsSize → ∀ h mp',
      hashBytes target word.bytes = some h →
      SetStep g.mapStruct h (element g g.wordsSeen.toNat) true mp' → Lost (withWord g mp')) :
    Triple (fun g' => g' = g) (newWord limitPlatform.ops target word)
      (fun _ g' => Granted g'.world ∧ Lost g') fun _ g' => Granted g'.world := by
  refine newWord_sets (P := fun mp' => ∃ h, hashBytes target word.bytes = some h ∧
    SetStep g.mapStruct h (element g g.wordsSeen.toNat) true mp') word array few granted ?_ ?_
  · intro heap hgranted
    have hafter := mapSetStr_granted target g.mymap g.mapStruct word
      (element g g.wordsSeen.toNat) heap hgranted
    cases hset : mapSetStr limitPlatform.ops target g.mymap g.mapStruct word
        (element g g.wordsSeen.toNat) heap with
    | error fault heap' =>
      rw [hset] at hafter
      exact hafter
    | ok result heap' =>
      rw [hset] at hafter
      obtain ⟨stored, mp'⟩ := result
      refine ⟨hafter, fun hstored => ?_⟩
      subst hstored
      exact mapSetStr_inv hset
  · rintro hlt mp' world ⟨h, hh, step⟩
    exact { next hlt h mp' hh step with }

theorem Lost.frame (lost : Lost g) (world : LimitHeap) : Lost { g with world := world } :=
  { lost with }

/-- The map leads to no element but the others. -/
theorem getWord_lost (word : Str) (lost : Lost g) :
    Triple (fun g' => g' = g ∧ Granted g'.world)
      (onWorld (mapGetStr limitPlatform.ops target g.mymap g.mapStruct word))
      (fun entry g' => (g' = g ∧ Granted g'.world) ∧
        (entry = .zero ∨ ∃ i < initialCountsSize, i ≠ 16 ∧ entry = element g i))
      fun _ g' => Granted g'.world := by
  have hkeeps : Keeps (mapGetStr limitPlatform.ops target g.mymap g.mapStruct word) :=
    mapGet_keeps heap_readsOnly target _ _ (.str word)
  rintro g' ⟨hsame, hgranted⟩
  subst hsame
  unfold onWorld
  have hworld := hkeeps (· = g'.world) g'.world rfl
  cases hrun : mapGetStr limitPlatform.ops target g'.mymap g'.mapStruct word g'.world with
  | error fault world =>
    rw [hrun] at hworld
    exact hworld ▸ hgranted
  | ok entry world =>
    rw [hrun] at hworld
    refine ⟨⟨?_, hworld ▸ hgranted⟩, ?_⟩
    · rw [hworld]
    · rcases mapGetStr_inv hrun with hzero | ⟨h, hl⟩
      · exact Or.inl hzero
      · rcases lost.wellPlaced.lookup_cases hl with hholds | ⟨hzero, -⟩
        · exact Or.inr (lost.elsewhere h entry hholds)
        · exact Or.inl hzero

theorem Lost.with_word (lost : Lost g) {h : UInt32} {mp' : Map}
    (hlt : g.wordsSeen.toNat < initialCountsSize)
    (step : SetStep g.mapStruct h (element g g.wordsSeen.toNat) true mp') :
    Lost (withWord g mp') where
  size := lost.size
  length := List.length_set.trans lost.length
  plain := lost.plain
  data := lost.data
  ends := lost.ends
  counted_once := by
    have hseen := lost.seen
    change (g.cells.set g.wordsSeen.toNat (some 1))[16]? = _
    rw [List.getElem?_set_ne (by omega), lost.counted_once]
  seen := by
    have hseen := lost.seen
    rw [withWord_seen hlt]
    omega
  few := by
    rw [withWord_seen hlt]
    exact hlt
  shaped := SetStep.shaped lost.shaped step
  wellPlaced := lost.wellPlaced.set_step lost.shaped step
  elsewhere h' v' hholds := by
    have hseen := lost.seen
    rcases step.holds lost.shaped hholds with ⟨-, rfl⟩ | hold
    · exact ⟨g.wordsSeen.toNat, hlt, by omega, rfl⟩
    · exact lost.elsewhere h' v' hold

/-- No word is counted at the seventeenth element. -/
theorem countWord_lost (word : Str) :
    Triple (fun g : Globals LimitHeap => Granted g.world ∧ Lost g)
      (countWord limitPlatform.ops target word) (fun _ g => Granted g.world ∧ Lost g)
      fun _ g => Granted g.world := by
  refine .read ?_
  rintro g ⟨hgranted, lost⟩
  refine .seq ((getWord_lost word lost).weaken (by rintro _ rfl; exact ⟨rfl, hgranted⟩)
    fun _ _ h => h) fun entry => ?_
  refine .cond (fun hvalid => ?_) fun _ => ?_
  · rintro g' ⟨⟨hsame, -⟩, hentry⟩
    subst hsame
    rcases hentry with rfl | ⟨i, hi, hne, rfl⟩
    · simp [MemHandle.zero] at hvalid
    · rw [bind_of_ok (onWorld_ok (memP_unowned limitPlatform rfl (lost.element_ne hi) _))]
      have hindex := lost.countIndex_element hi
      obtain ⟨j, count, hj, -, hrun⟩ | ⟨stop, hrun⟩ := incrCount_cases g' (element g' i).data
      · obtain rfl : i = j := Option.some.inj (hindex.symm.trans hj)
        rw [hrun]
        refine ⟨hgranted, { lost with
          length := List.length_set.trans lost.length
          counted_once := ?_ }⟩
        dsimp only
        rw [List.getElem?_set_ne hne, lost.counted_once]
      · rw [hrun]
        exact hgranted
  · refine (newWord_lost word lost.toFirstArray lost.few hgranted
      fun hlt h mp' _ step => lost.with_word hlt step).weaken ?_ fun _ _ h => h
    rintro g' ⟨⟨hsame, -⟩, -⟩
    exact hsame

/-- The table grows with the seventeenth word, and does not have it then. -/
theorem loses_word {done : List (List UInt8)} {w : List UInt8} {h : UInt32} {mp' : Map}
    (counted : Counted target done g) (keys : Distinguished target (done ++ [w]))
    (hnew : w ∉ done) (full : (firstSeen done).length = 16) (hh : hashBytes target w = some h)
    (step : SetStep g.mapStruct h (element g g.wordsSeen.toNat) true mp') :
    Lost (withWord g mp') := by
  have hin := counted.seen_lt
  have hseen : g.wordsSeen.toNat = 16 := counted.seen.trans full
  have hcells : g.wordsSeen.toNat < g.cells.length := by
    rw [counted.length]
    exact hin
  have hholds : ∀ (h' : UInt32) (v' : MemHandle), mp'.Holds h' v' → g.mapStruct.Holds h' v' := by
    have hshape : g.mapStruct.counted.Shaped := counted.sizing.shaped
    intro h' v' hh'
    cases step with
    | overwrite pos found taken =>
      exact absurd (Map.holds_iff.mpr ⟨pos, findEntryPos_lt found, found_taken found taken, rfl⟩)
        (counted.absent keys hnew hh _)
    | insert pos found free fits =>
      rw [counted.sizing.incr, counted.entryCount, counted.tableSize, full] at fits
      exact absurd fits (by decide)
    | grow pos found free crowded newMh size => exact hshape.holds_of_resized hh'
  refine { counted with
    length := List.length_set.trans counted.length
    counted_once := ?_
    seen := ?_
    few := ?_
    shaped := SetStep.shaped counted.sizing.shaped step
    wellPlaced := counted.wellPlaced.set_step counted.sizing.shaped step
    elsewhere := ?_ }
  · change (g.cells.set g.wordsSeen.toNat (some 1))[16]? = _
    rw [← hseen, List.getElem?_set_self hcells]
  · rw [withWord_seen hin, hseen]
    decide
  · rw [withWord_seen hin]
    exact hin
  · intro h' v' hh'
    obtain ⟨i, w', hi, -, -, rfl⟩ := (counted.holds_iff h' v').mp (hholds h' v' hh')
    have hlt := (List.getElem?_eq_some_iff.mp hi).1
    exact ⟨i, by unfold initialCountsSize; omega, by omega, rfl⟩

/-- Where the store is trapped, the program stops with the seventeenth word. -/
theorem newWord_trapped {done : List (List UInt8)} {w : List UInt8} {word : Str}
    (counted : Counted target done g) (keys : Distinguished target (done ++ [w]))
    (hnew : w ∉ done) (full : (firstSeen done).length = 16) (hbytes : word.bytes = w)
    (ha : word.handle.allocator = .notAllocated) (hd : word.handle.data ≠ 0)
    (granted : Granted g.world) :
    Triple (fun g' => g' = g) (newWord trapPlatform.ops target word) (fun _ _ => False)
      fun _ g' => Granted g'.world := by
  obtain ⟨h, hh, -⟩ := keys.keyed w (mem_append_single done)
  obtain ⟨-, pos, found, free⟩ := counted.lookup_new keys hnew hh
  have crowded : g.mapStruct.counted.entryCount > g.mapStruct.counted.tableSize / 2 := by
    change incrUint g.mapStruct.entryCount > g.mapStruct.tableSize / 2
    rw [counted.sizing.incr, counted.entryCount, counted.tableSize, full]
    decide
  have sets := mapSetStr_trapped counted.attached ha hd (hbytes ▸ hh) rfl
    (counted.element_ne counted.seen_lt) found free crowded
  refine (newWord_sets (P := fun _ => False) (R := fun _ => False) word counted.toFirstArray
    (Nat.le_of_lt counted.seen_lt) granted
    (sets.weaken (fun _ hg => hg) fun _ _ hq => ⟨hq.1, fun htrue => ?_⟩)
    fun _ _ _ hfalse => hfalse.elim).weaken (fun _ hg => hg) fun _ _ hq => hq.2
  rw [hq.2] at htrue
  cases htrue

end Steps
end M65Tool.Guarantees.LostWord
