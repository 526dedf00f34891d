import M65Tool.Source.WordFreq

/-!
# COUNTS-BOUNDS: the elements of the counts array lie in its block

The array is created with 128 elements, and grows when the number of the words exceeds
its size in bytes, 512: before that the element of the 129th word is stored behind its
end. A run stays in the block exactly if each of its words that was taken for new was
among the first 128.
-/
namespace M65Tool.Guarantees.CountsBounds
open Source Source.Mem Source.MapHash Source.HashMap Source.StringBuffer Source.StrFunctions
  Source.WordFreq Lib.Effect

/-- The elements of all words so far lie in the block. -/
structure Inside {σ : Type} (g : Globals σ) : Prop where
  size : g.wordsSeen.toNat * sizeofUint ≤ g.counts.size
  elements : ∀ i < g.wordsSeen.toNat, i < g.cells.length

section Invariant
variable {σ : Type} {g : Globals σ}

/-- The block as it is created. -/
structure Block (g : Globals σ) : Prop where
  size : g.counts.size = sizeofUint * initialCountsSize
  length : g.cells.length = initialCountsSize

/-- Every new word was among the first. -/
structure Few (g : Globals σ) : Prop where
  few : g.wordsSeen.toNat ≤ initialCountsSize
  new : ∀ n ∈ g.newAt, n.toNat < initialCountsSize

/-- One word more than there are elements. -/
structure Beyond (g : Globals σ) : Prop where
  beyond : g.wordsSeen.toNat = initialCountsSize + 1
  new : ∃ n ∈ g.newAt, n.toNat = initialCountsSize

/-- Before each word. -/
def Roomy (g : Globals σ) : Prop := Block g ∧ Few g

/-- Where a run has stopped, and between `++words_seen` and the store. -/
def Bounded (g : Globals σ) : Prop := Block g ∧ (Few g ∨ Beyond g)

/-- Before the counts array is there. -/
def Fresh (g : Globals σ) : Prop := g.wordsSeen = 0 ∧ g.newAt = []

theorem Roomy.bounded (h : Roomy g) : Bounded g := ⟨h.1, Or.inl h.2⟩

theorem Roomy.frame {world : σ} (h : Roomy g) : Roomy { g with world := world } :=
  ⟨⟨h.1.size, h.1.length⟩, ⟨h.2.few, h.2.new⟩⟩

theorem Bounded.frame {world : σ} (h : Bounded g) : Bounded { g with world := world } :=
  ⟨⟨h.1.size, h.1.length⟩,
    h.2.imp (fun few => ⟨few.few, few.new⟩) fun beyond => ⟨beyond.beyond, beyond.new⟩⟩

theorem Fresh.inside_iff (h : Fresh g) :
    Inside g ↔ ∀ n ∈ g.newAt, n.toNat < initialCountsSize := by
  have hzero : g.wordsSeen.toNat = 0 := by rw [h.1]; rfl
  refine iff_of_true ⟨?_, ?_⟩ ?_
  · rw [hzero, Nat.zero_mul]
    exact Nat.zero_le _
  · intro i hi
    omega
  · rw [h.2]
    exact fun _ hn => absurd hn List.not_mem_nil

theorem Bounded.inside_iff (h : Bounded g) :
    Inside g ↔ ∀ n ∈ g.newAt, n.toNat < initialCountsSize := by
  obtain ⟨⟨hsize, hlength⟩, few | ⟨hbeyond, n, hn, heq⟩⟩ := h
  · refine iff_of_true ⟨?_, ?_⟩ few.new
    · rw [hsize, Nat.mul_comm]
      exact Nat.mul_le_mul_left _ few.few
    · intro i hi
      rw [hlength]
      exact Nat.lt_of_lt_of_le hi few.few
  · refine iff_of_false ?_ ?_
    · intro inside
      have := inside.size
      rw [hsize, hbeyond] at this
      exact absurd this (by decide)
    · intro hall
      exact absurd (hall n hn) (by omega)

end Invariant

section Steps
variable {σ : Type} {ops : MemOps σ} {target : Target} {ctype : Ctype} {rounds : Nat}
  {cPtr : Addr}

theorem roomy_frames {α : Type} (x : C σ α) :
    Triple Roomy (onWorld x) (fun _ => Roomy) fun _ => Bounded :=
  onWorld_frames (fun _ _ h => h.frame) fun _ _ h => h.bounded

theorem bounded_frames {α : Type} (n : UInt32) (x : C σ α) :
    Triple (fun g => Bounded g ∧ g.wordsSeen = n) (onWorld x)
      (fun _ g => Bounded g ∧ g.wordsSeen = n) fun _ => Bounded :=
  onWorld_frames (fun _ _ h => ⟨h.1.frame, h.2⟩) fun _ _ h => h.1

theorem incrCount_roomy (valp : Addr) :
    Triple (σ := Globals σ) Roomy (incrCount valp) (fun _ => Roomy) fun _ => Bounded := by
  intro g hg
  obtain ⟨i, count, -, -, hrun⟩ | ⟨stop, hrun⟩ := incrCount_cases g valp
  · rw [hrun]
    exact ⟨⟨hg.1.size, List.length_set.trans hg.1.length⟩, ⟨hg.2.few, hg.2.new⟩⟩
  · rw [hrun]
    exact hg.bounded

theorem incrWordsSeen_bounded :
    Triple (σ := Globals σ) (ε := Stop) Roomy incrWordsSeen (fun _ => Bounded) fun _ => Bounded := by
  refine .change ?_
  intro g ⟨block, few⟩
  have hfew := few.few
  have hnext : (g.wordsSeen + 1).toNat = g.wordsSeen.toNat + 1 := by
    rw [UInt32.toNat_add]
    unfold initialCountsSize at hfew
    simp only [UInt32.toNat_one]
    omega
  refine ⟨⟨block.size, block.length⟩, ?_⟩
  by_cases hlast : g.wordsSeen.toNat = initialCountsSize
  · exact Or.inr ⟨hnext.trans (by rw [hlast]), g.wordsSeen, List.mem_cons_self, hlast⟩
  · refine Or.inl ⟨by rw [hnext]; omega, ?_⟩
    intro n hn
    rcases List.mem_cons.mp hn with rfl | hold
    · omega
    · exact few.new n hold

/-- The array does not grow: it has fewer words than bytes. -/
theorem growCounts_bounded :
    Triple Bounded (growCounts ops) (fun _ => Bounded) fun _ => Bounded := by
  refine .read ?_
  intro g ⟨block, hseen⟩
  have hsmall : ¬ g.wordsSeen.toNat > g.counts.size := by
    have hle : g.wordsSeen.toNat ≤ initialCountsSize + 1 :=
      hseen.elim (fun few => Nat.le_succ_of_le few.few) fun beyond => Nat.le_of_eq beyond.beyond
    rw [block.size]
    unfold sizeofUint
    unfold initialCountsSize at hle ⊢
    omega
  rw [if_neg hsmall]
  refine .ret ?_
  rintro _ rfl
  exact ⟨block, hseen⟩

theorem setWord_bounded (n : UInt32) (word : Str) (value : MemHandle) :
    Triple (fun g => Bounded g ∧ g.wordsSeen = n) (setWord ops target word value)
      (fun _ g => Bounded g ∧ g.wordsSeen = n) fun _ => Bounded := by
  refine .read ?_
  intro g hg
  refine Triple.seq (Q := fun _ g => Bounded g ∧ g.wordsSeen = n) ?_ ?_
  · exact (bounded_frames n _).weaken (by rintro _ rfl; exact hg) fun _ _ h => h
  · intro (stored, mapStruct)
    refine .seq (.change ?_) fun _ => .ret fun _ h => h
    intro g ⟨⟨block, hseen⟩, hn⟩
    exact ⟨⟨⟨block.size, block.length⟩, hseen.imp (fun few => ⟨few.few, few.new⟩)
      fun beyond => ⟨beyond.beyond, beyond.new⟩⟩, hn⟩

/-- The store is where a word too many is stopped. -/
theorem storeCount_roomy (arr : Addr) (n : UInt32) :
    Triple (σ := Globals σ) (fun g => Bounded g ∧ g.wordsSeen = n) (storeCount arr (n - 1) 1)
      (fun _ => Roomy) fun _ => Bounded := by
  rintro g ⟨⟨block, hseen⟩, rfl⟩
  obtain ⟨hi, hrun⟩ | ⟨stop, hrun⟩ := storeCount_cases g arr (g.wordsSeen - 1) 1
  · rw [hrun]
    refine ⟨⟨block.size, List.length_set.trans block.length⟩, ?_⟩
    rcases hseen with few | beyond
    · exact ⟨few.few, few.new⟩
    · have hbeyond := beyond.beyond
      have hprev : (g.wordsSeen - 1).toNat = g.wordsSeen.toNat - 1 := by
        rw [UInt32.toNat_sub]
        simp only [UInt32.toNat_one]
        unfold initialCountsSize at hbeyond
        omega
      rw [hprev, block.length] at hi
      omega
  · rw [hrun]
    exact ⟨block, hseen⟩

theorem newWord_roomy (word : Str) :
    Triple Roomy (newWord ops target word) (fun _ => Roomy) fun _ => Bounded := by
  refine .seq incrWordsSeen_bounded fun _ => .seq growCounts_bounded fun _ => .read ?_
  intro g hg
  refine .seq ((bounded_frames g.wordsSeen _).weaken (by rintro _ rfl; exact ⟨hg, rfl⟩)
    fun _ _ h => h) ?_
  intro arr
  refine .seq (setWord_bounded g.wordsSeen _ _) fun stored => .cond (fun _ => ?_) fun _ => ?_
  · exact storeCount_roomy arr g.wordsSeen
  · exact .stop fun _ h => h.1

theorem countWord_roomy (word : Str) :
    Triple Roomy (countWord ops target word) (fun _ => Roomy) fun _ => Bounded := by
  refine .read ?_
  intro g hg
  refine .seq ((roomy_frames _).weaken (by rintro _ rfl; exact hg) fun _ _ h => h) fun entry => ?_
  refine .cond (fun _ => ?_) fun _ => newWord_roomy word
  exact .seq (roomy_frames _) fun valp => incrCount_roomy valp

theorem processLine_roomy (mem : Memory) (tests : Nat) (line : MemHandle) :
    Triple Roomy (processLine ops target ctype mem tests rounds line) (fun _ => Roomy)
      fun _ => Bounded := by
  induction rounds generalizing line with
  | zero => exact .stop fun _ h => h.bounded
  | succ rounds ih =>
    refine .cond (fun _ => ?_) fun _ => .ret fun _ h => h
    refine .seq (roomy_frames _) fun (rest, part) => ?_
    dsimp only
    split
    · exact .seq (roomy_frames _) fun word => .seq (countWord_roomy word) fun _ => ih rest
    · exact ih rest

theorem readLoop_roomy (buf : MemHandle) (bytes : List UInt8) (bufp : Strbuf) :
    Triple Roomy (readLoop ops target ctype rounds cPtr buf bytes bufp) (fun _ => Roomy)
      fun _ => Bounded := by
  induction bytes generalizing bufp with
  | nil => exact .ret fun _ h => h
  | cons c rest ih =>
    refine .cond (fun _ => ?_) fun _ => ?_
    · refine .seq (.seq (roomy_frames _) fun line => ?_) fun bufp' => ih bufp'
      exact .seq (processLine_roomy _ _ line) fun _ => roomy_frames _
    · refine .seq (.seq (roomy_frames _) fun (appended, bufp') => ?_) fun bufp' => ih bufp'
      exact .cond (fun _ => .ret fun _ h => h) fun _ => .stop fun _ h => h.bounded

theorem lastLine_roomy (buf : MemHandle) (bufp : Strbuf) :
    Triple Roomy (lastLine ops target ctype rounds buf bufp) (fun _ => Roomy)
      fun _ => Bounded :=
  .seq (roomy_frames _) fun line => .cond (fun _ => processLine_roomy _ _ line)
    fun _ => .ret fun _ h => h

theorem createMap_roomy :
    Triple Roomy (createMap (σ := σ) ops) (fun _ => Roomy) fun _ => Bounded := by
  refine .seq (roomy_frames _) fun (mymap, created) => ?_
  cases created with
  | none => exact .stop fun _ h => h.bounded
  | some mapStruct =>
    refine .seq (.change (Q := fun _ => Roomy) fun g h => ⟨⟨h.1.size, h.1.length⟩,
      ⟨h.2.few, h.2.new⟩⟩) fun _ => .seq (roomy_frames _) fun valid => ?_
    exact .cond (fun _ => .ret fun _ h => h) fun _ => .stop fun _ h => h.bounded

theorem createBuf_roomy :
    Triple Roomy (createBuf (σ := σ) ops) (fun _ => Roomy) fun _ => Bounded := by
  refine .seq (roomy_frames _) fun (buf, created) => ?_
  cases created with
  | none => exact .stop fun _ h => h.bounded
  | some bufp =>
    refine .seq (roomy_frames _) fun valid => ?_
    exact .cond (fun _ => .ret fun _ h => h) fun _ => .stop fun _ h => h.bounded

end Steps

section Run
variable {σ : Type} {libc : Libc σ} {spec : MemAllocator → Option (MemAllocatorSpec σ)}

/-- The outcome of a run: it has stopped before the array was there, or within bounds. -/
def Ended (g : Globals σ) : Prop := Fresh g ∨ Bounded g

theorem Ended.inside_iff {g : Globals σ} (h : Ended g) :
    Inside g ↔ ∀ n ∈ g.newAt, n.toNat < initialCountsSize :=
  h.elim Fresh.inside_iff Bounded.inside_iff

theorem createCounts_roomy (plain : spec .plain = some (plainSpec libc)) :
    Triple Fresh (createCounts (memOps libc spec)) (fun _ => Roomy) fun _ => Ended := by
  refine .seq (Q := fun handle g => Fresh g ∧ handle.size = sizeofUint * initialCountsSize) ?_ ?_
  · refine onWorld_returns (fun _ _ h => h) (fun _ _ h => Or.inl h) ?_
    intro _ handle _ hrun
    obtain ⟨a, -, -, -, rfl⟩ := memAlloc_inv plain hrun
    rfl
  · intro handle
    refine .seq (Q := fun _ g => Fresh g ∧ (memIsValid handle = true → Block g)) ?_ ?_
    · refine .change ?_
      intro g ⟨fresh, hsize⟩
      refine ⟨fresh, fun valid => ⟨hsize, ?_⟩⟩
      dsimp only
      rw [if_pos valid, hsize]
      exact Lib.Block.length_resize
    · intro _
      refine .cond (fun valid => .ret ?_) fun _ => .stop fun _ h => Or.inl h.1
      intro g ⟨⟨hzero, hnone⟩, block⟩
      refine ⟨block valid, ⟨?_, ?_⟩⟩
      · rw [hzero]
        exact Nat.zero_le _
      · rw [hnone]
        exact fun _ hn => absurd hn List.not_mem_nil

theorem Roomy.run {α : Type} {x : Prog σ α} {Q : α → Globals σ → Prop}
    (h : Triple Roomy x Q fun _ => Bounded) : Triple Roomy x Q fun _ => Ended := by
  intro g hg
  have := h g hg
  cases hrun : x g with
  | ok a g' => rw [hrun] at this; exact this
  | error stop g' => rw [hrun] at this; exact Or.inr this

theorem readWords_ended (plain : spec .plain = some (plainSpec libc)) (target : Target)
    (ctype : Ctype) (rounds : Nat) (cPtr : Addr) (fname : String)
    (file : Option (List UInt8)) :
    Triple Fresh (readWords (memOps libc spec) target ctype rounds cPtr fname file)
      (fun _ => Roomy) fun _ => Ended := by
  cases file with
  | none => exact .stop fun _ h => Or.inl h
  | some bytes =>
    refine .seq (createCounts_roomy plain) fun _ => .seq (Roomy.run createMap_roomy) fun _ =>
      .seq (Roomy.run createBuf_roomy) fun (buf, bufp) => ?_
    exact .seq (Roomy.run (readLoop_roomy buf bytes bufp)) fun bufp' =>
      Roomy.run (lastLine_roomy buf bufp')

end Run

/-- Wherever a run of `word_freq` stops, the elements of the words lie in the block exactly
if each word that was taken for new found `words_seen` below 128. -/
theorem counts_inside_iff {σ : Type} {libc : Libc σ}
    {spec : MemAllocator → Option (MemAllocatorSpec σ)} (plain : spec .plain = some (plainSpec libc))
    (target : Target) (ctype : Ctype) (rounds : Nat) (cPtr : Addr) (fname : String)
    (file : Option (List UInt8)) (world : σ) :
    Inside (stoppedAt (readWords (memOps libc spec) target ctype rounds cPtr fname file) world) ↔
      ∀ n ∈ (stoppedAt (readWords (memOps libc spec) target ctype rounds cPtr fname file)
        world).newAt, n.toNat < initialCountsSize := by
  have hrun := readWords_ended plain target ctype rounds cPtr fname file (start world) ⟨rfl, rfl⟩
  unfold stoppedAt
  cases h : readWords (memOps libc spec) target ctype rounds cPtr fname file (start world) with
  | ok _ g =>
    rw [h] at hrun
    exact hrun.bounded.inside_iff
  | error _ g =>
    rw [h] at hrun
    exact hrun.inside_iff

/-- Blanks and what is below them; EOF is -1. -/
def lowBlanks : Ctype := ⟨-1, fun value => value ≤ 32⟩

/-- The program on a file, with room for the blocks of four map tables behind the first. -/
def scriptedRun (file : List UInt8) : Globals (List Addr) :=
  stoppedAt (readWords scriptedOps ⟨true⟩ lowBlanks 5 64 "file.txt" (some file))
    [4096, 8192, 12288, 16384, 20480, 24576, 28672, 32768, 36864]

/-- Three words, one of them twice: "b a b" and "c". -/
def threeWords : List UInt8 := [98, 32, 97, 32, 98, 10, 99]

theorem counts_inside_threeWords :
    (scriptedRun threeWords).newAt = [2, 1, 0] ∧ Inside (scriptedRun threeWords) := by
  have hnew : (scriptedRun threeWords).newAt = [2, 1, 0] := by decide +kernel
  refine ⟨hnew, (counts_inside_iff rfl _ _ _ _ _ _ _).mpr ?_⟩
  change ∀ n ∈ (scriptedRun threeWords).newAt, n.toNat < initialCountsSize
  rw [hnew, List.forall_mem_cons, List.forall_mem_cons, List.forall_mem_singleton]
  decide

/-- Words of one or two letters, each on its line. -/
def shortWords (count : Nat) : List UInt8 :=
  (List.range count).flatMap fun i =>
    (if i < 90 then [UInt8.ofNat (33 + i)] else [33, UInt8.ofNat (i - 57)]) ++ [newline]

/-- Of 129 distinct words, the last has its element behind the end of the array. -/
theorem counts_overrun : ¬ Inside (scriptedRun (shortWords 129)) := by
  have hrun : (scriptedRun (shortWords 129)).wordsSeen = 129 ∧
      (scriptedRun (shortWords 129)).counts.size = 512 := by decide +kernel
  intro inside
  have hsize := inside.size
  rw [hrun.1, hrun.2] at hsize
  exact absurd hsize (by decide)

end M65Tool.Guarantees.CountsBounds
