import M65Tool.Guarantees.LongStrides
import Mathlib.Algebra.BigOperators.Ring.Finset

/-!
# WORD-COUNTS: the number of occurrences of each word

As long as no request is refused, `word_freq` has the distinct words of a file counted
when it has read it exactly if there are at most sixteen of them, `isspace` takes every byte
of the file, and an unsigned int can count the occurrences of each word and, on each line,
the bytes from one word to the next. With one word more the map stores its entry through
the pointer to the block that its growth has freed; where the memory takes the store, the
next occurrence of that word is taken for a new one.
-/
namespace M65Tool.Guarantees.WordCounts
open Source Source.Mem Source.MapHash Source.HashMap Source.StringBuffer Source.StrFunctions
  Source.WordFreq Lib.Effect Lib.FirstSeen Lib.Splitting StringContents CountedWords LostWord
  LongStrides

/-- The number of the words, and for each the number of its occurrences in the file. -/
structure Tallied {σ : Type} (isspace : UInt8 → Bool) (file : List UInt8) (g : Globals σ) :
    Prop where
  seen : g.wordsSeen.toNat = (firstSeen (words isspace file)).length
  counts : ∀ (i : Nat) (w : List UInt8), (firstSeen (words isspace file))[i]? = some w →
    ∃ count : UInt32, g.cells[i]? = some (some count) ∧
      count.toNat = (words isspace file).count w

/-- On every platform the file is read, and its words are counted then, unless a request
has been refused. -/
def CountsRight (target : Target) (ctype : Ctype) (file : List UInt8) : Prop :=
  ∀ (σ : Type) (platform : Platform σ) (fname : String) (world : σ),
    Settles (fun rounds => readWords platform.ops target ctype rounds platform.stack fname
        (some file)) (start world)
      (fun _ g => Tallied (ctype.byteIsspace target) file g)
      fun _ g => platform.refusals world < platform.refusals g.world

/-- No word occurs more often than an unsigned int can count. -/
def CountableWords (isspace : UInt8 → Bool) (file : List UInt8) : Prop :=
  ∀ w ∈ words isspace file, (words isspace file).count w ≤ uintMax

/-! ## Sixteen words -/

section Few
variable {target : Target} {ctype : Ctype} {file : List UInt8}

theorem counting_few {σ : Type} (platform : Platform σ) (r : Nat)
    (keys : Distinguished target (words (ctype.byteIsspace target) file))
    (few : (firstSeen (words (ctype.byteIsspace target) file)).length ≤ 16)
    (taken : TakesAll target ctype file) :
    Counting platform target ctype file
      (fun done g => Counted target done g ∧ platform.refusals g.world = r)
      fun _ g => r < platform.refusals g.world where
  calm done g world h hcalm := ⟨h.1.frame world, hcalm.trans h.2⟩
  refused done g world line stop h _ _ hrefused := by
    rw [← h.2]
    exact hrefused.1
  outside _ _ _ hnot := absurd taken hnot
  counts done w within word hbytes ha hd a := by
    rintro g ⟨⟨counted, hr⟩, halive⟩
    obtain ⟨later, hlater⟩ := within
    have hkeys : Distinguished target (done ++ [w]) := by
      refine keys.sub fun w' hw' => ?_
      rw [← hlater]
      exact List.mem_append_left _ hw'
    by_cases hold : w ∈ done
    · obtain ⟨g', hrun, counted', hworld⟩ := counted.old_word hkeys hold hbytes ha hd
      rw [hrun]
      exact ⟨⟨counted', hworld ▸ hr⟩, hworld ▸ halive⟩
    · have fits : (firstSeen done).length < 16 := by
        rw [← hlater] at few
        have hle := (firstSeen_extends (done ++ [w]) later).length_le.trans few
        rw [firstSeen_new hold, List.length_append, List.length_singleton] at hle
        omega
      obtain ⟨g', hrun, counted', hworld⟩ := counted.new_word hkeys hold fits hbytes ha hd
      rw [hrun]
      exact ⟨⟨counted', hworld ▸ hr⟩, hworld ▸ halive⟩

theorem tallied {σ : Type} {isspace : UInt8 → Bool} {g : Globals σ}
    (counted : Counted target (words isspace file) g) (often : CountableWords isspace file) :
    Tallied isspace file g where
  seen := counted.seen
  counts i w hi := by
    have hmem := mem_firstSeen.mp (List.mem_of_getElem? hi)
    refine ⟨_, counted.counts i w hi, ?_⟩
    have hle := often w hmem
    unfold uintMax at hle
    rw [UInt32.toNat_ofNat']
    omega

/-- What an unsigned int counts is in its range. -/
theorem Tallied.countable {σ : Type} {isspace : UInt8 → Bool} {g : Globals σ}
    (tallied : Tallied isspace file g) : CountableWords isspace file := by
  intro w hw
  obtain ⟨i, hi⟩ := List.mem_iff_getElem?.mp (mem_firstSeen.mpr hw)
  obtain ⟨count, -, hcount⟩ := tallied.counts i w hi
  have hlt := count.toNat_lt
  unfold uintMax
  omega

theorem counts_few (hspace : ctype.byteIsspace target newline = true)
    (keys : Distinguished target (words (ctype.byteIsspace target) file))
    (strides : CountableStrides (ctype.byteIsspace target) file)
    (few : (firstSeen (words (ctype.byteIsspace target) file)).length ≤ 16)
    (taken : TakesAll target ctype file)
    (often : CountableWords (ctype.byteIsspace target) file) : CountsRight target ctype file := by
  intro σ platform fname world
  refine (readWords_settles (counting_few platform (platform.refusals world) keys few taken) hspace
    strides ?_ (fun _ _ _ h => h) fname).weaken fun _ g h => tallied h.1.1 often
  exact fun buf g created => ⟨counted_start buf created, created.calm⟩

end Few

/-! ## Memory that traps the store through the freed block -/

section Trapped
variable {staleStore : Addr → Nat → C LimitHeap Unit} {target : Target} {ctype : Ctype}
  {file : List UInt8}

/-- Nothing is refused, and the words are counted as long as there are at most sixteen. -/
theorem counting_trapped (keys : Distinguished target (words (ctype.byteIsspace target) file))
    (held : BufferableLines file) :
    Counting trapPlatform target ctype file
      (fun done g => Granted g.world ∧ Counted target done g) fun _ g => Granted g.world where
  calm done g world h hcalm := ⟨hcalm.trans h.1, h.2.frame world⟩
  refused done g world line stop h hpart hline hrefused :=
    absurd hrefused (not_refuses (held line hpart hline))
  outside done g h _ := h.1
  counts done w within word hbytes ha hd a := by
    rintro g ⟨⟨granted, counted⟩, -⟩
    have hkeys : Distinguished target (done ++ [w]) := keys.sub fun w' hw' => within.subset hw'
    by_cases hold : w ∈ done
    · obtain ⟨g', hrun, counted', hworld⟩ := counted.old_word hkeys hold hbytes ha hd
      rw [hrun]
      exact ⟨⟨hworld ▸ granted, counted'⟩, trivial⟩
    · by_cases fits : (firstSeen done).length < 16
      · obtain ⟨g', hrun, counted', hworld⟩ := counted.new_word hkeys hold fits hbytes ha hd
        rw [hrun]
        exact ⟨⟨hworld ▸ granted, counted'⟩, trivial⟩
      · have full : (firstSeen done).length = 16 :=
          Nat.le_antisymm counted.length_le (Nat.le_of_not_lt fits)
        rw [counted.countWord_new hkeys hold hbytes ha hd]
        exact (newWord_trapped counted hkeys hold full hbytes ha hd granted).weaken
          (fun _ h => h) (fun _ _ hfalse => hfalse.elim) g rfl

/-- A run in which nothing is refused, and what it leaves when it ends. -/
theorem heap_settles {I : List (List UInt8) → Globals LimitHeap → Prop}
    (counting : Counting (heapPlatform staleStore) target ctype file I fun _ g => Granted g.world)
    (hspace : ctype.byteIsspace target newline = true)
    (strides : CountableStrides (ctype.byteIsspace target) file)
    (begins : ∀ buf g, Created (heapPlatform staleStore) 0 buf g → I [] g) (fname : String) :
    Settles (fun rounds => readWords (heapPlatform staleStore).ops target ctype rounds
        (heapPlatform staleStore).stack fname (some file)) (start firstHeap)
      (fun _ g => I (words (ctype.byteIsspace target) file) g ∧ TakesAll target ctype file)
      fun _ g => Granted g.world := by
  obtain ⟨buf, g0, hmade⟩ := created_firstHeap staleStore
  refine readWords_settles counting hspace strides ?_ (fun _ g hrun => ?_) fname
  · exact begins
  · rw [hmade] at hrun
    cases hrun

/-- Where nothing is refused, a file that is counted right is read to its end. -/
theorem CountsRight.ends {I : List (List UInt8) → Globals LimitHeap → Prop}
    (right : CountsRight target ctype file)
    (counting : Counting (heapPlatform staleStore) target ctype file I fun _ g => Granted g.world)
    (hspace : ctype.byteIsspace target newline = true)
    (strides : CountableStrides (ctype.byteIsspace target) file)
    (begins : ∀ buf g, Created (heapPlatform staleStore) 0 buf g → I [] g) :
    ∃ g, Tallied (ctype.byteIsspace target) file g ∧
      I (words (ctype.byteIsspace target) file) g ∧ TakesAll target ctype file := by
  have hsettles := heap_settles counting hspace strides begins "file.txt"
  rcases (right LimitHeap (heapPlatform staleStore) "file.txt" firstHeap).meet hsettles with
    ⟨_, g, tallied, hend⟩ | ⟨_, g, hrefused, hgranted⟩
  · exact ⟨g, tallied, hend⟩
  · have hzero : (heapPlatform staleStore).refusals g.world = 0 := hgranted
    rw [hzero] at hrefused
    exact absurd hrefused (Nat.not_lt_zero _)

end Trapped

/-! ## Lines with long strides -/

section Strides
variable {target : Target} {ctype : Ctype} {file : List UInt8}

/-- The counts of the words of a file add up to the number of the words. -/
theorem Tallied.total {σ : Type} {isspace : UInt8 → Bool} {g : Globals σ} {k : Nat}
    (tallied : Tallied isspace file g) (summed : Summed k g) :
    total g.cells = (words isspace file).length := by
  have hfew : (firstSeen (words isspace file)).length ≤ initialCountsSize :=
    tallied.seen ▸ summed.few
  have hcells : g.cells = (firstSeen (words isspace file)).map
        (fun w => some (UInt32.ofNat ((words isspace file).count w))) ++
      List.replicate (initialCountsSize - (firstSeen (words isspace file)).length) none := by
    apply List.ext_getElem?
    intro i
    rcases Nat.lt_or_ge i (firstSeen (words isspace file)).length with hlt | hge
    · have hi := List.getElem?_eq_getElem hlt
      obtain ⟨count, hcell, hcount⟩ := tallied.counts i _ hi
      rw [List.getElem?_append_left (by rwa [List.length_map]), List.getElem?_map, hi, hcell,
        Option.map_some, ← hcount, UInt32.ofNat_toNat]
    · rw [List.getElem?_append_right (by rwa [List.length_map]), List.length_map,
        List.getElem?_replicate]
      split
      · exact summed.unused i (tallied.seen ▸ hge) (by omega)
      · exact List.getElem?_eq_none (by rw [summed.length]; omega)
  have hcount : ∀ w, countOf (some (UInt32.ofNat ((words isspace file).count w))) =
      (((words isspace file).count w : Nat) : ZMod (2 ^ 32)) := by
    intro w
    change ((UInt32.ofNat _).toNat : ZMod (2 ^ 32)) = _
    rw [UInt32.toNat_ofNat', ZMod.natCast_mod]
  have hnone : countOf none = 0 := Nat.cast_zero
  have hsum := congrArg (Nat.cast : Nat → ZMod (2 ^ 32)) (sum_count_firstSeen (words isspace file))
  rw [Nat.cast_list_sum, List.map_map] at hsum
  rw [LongStrides.total, hcells, List.map_append, List.sum_append, List.map_replicate, hnone,
    List.sum_replicate, nsmul_zero, add_zero, List.map_map, ← hsum]
  exact congrArg List.sum (List.map_congr_left fun w _ => hcount w)

/-- A file that is counted right has no word that is read twice. -/
theorem CountsRight.strides (right : CountsRight target ctype file)
    (hspace : ctype.byteIsspace target newline = true) (held : BufferableLines file)
    (size : file.length < 2 ^ 64) : CountableStrides (ctype.byteIsspace target) file := by
  obtain ⟨outcome, enough, hruns, hout⟩ := right LimitHeap limitPlatform "file.txt" firstHeap
  have hread := readWords_sums hspace held (Nat.le_max_right enough 2) "file.txt"
    (start firstHeap) rfl
  have hrun : readWords limitPlatform.ops target ctype (max enough 2) limitPlatform.stack "file.txt"
      (some file) (start firstHeap) = outcome := hruns _ (Nat.le_max_left enough 2)
  rw [hrun] at hread
  cases outcome with
  | ok _ g =>
    obtain ⟨again, twice, -, summed⟩ := hread
    have hsum := summed.sum
    rw [Tallied.total hout summed, Nat.cast_add, left_eq_add, ZMod.natCast_eq_zero_iff] at hsum
    refine twice.none (Nat.eq_zero_of_dvd_of_lt hsum ?_)
    have hlong := twice.long
    omega
  | error _ g =>
    have hzero : limitPlatform.refusals g.world = 0 := hread
    change limitPlatform.refusals firstHeap < limitPlatform.refusals g.world at hout
    rw [hzero] at hout
    exact absurd hout (Nat.not_lt_zero _)

end Strides

/-- The words of a file are counted right exactly if they are at most sixteen, `isspace`
takes every byte of the file, an unsigned int can count each word, and the strides of the
lines. -/
theorem counts_right_iff {target : Target} {ctype : Ctype} {file : List UInt8}
    (hspace : ctype.byteIsspace target newline = true)
    (keys : Distinguished target (words (ctype.byteIsspace target) file))
    (held : BufferableLines file) (size : file.length < 2 ^ 64) :
    CountsRight target ctype file ↔
      (firstSeen (words (ctype.byteIsspace target) file)).length ≤ 16 ∧
        TakesAll target ctype file ∧ CountableWords (ctype.byteIsspace target) file ∧
        CountableStrides (ctype.byteIsspace target) file := by
  constructor
  · intro right
    have strides := right.strides hspace held size
    obtain ⟨g, tallied, ⟨-, counted⟩, taken⟩ := right.ends (counting_trapped keys held) hspace
      strides fun buf g created => ⟨created.calm, counted_start buf created⟩
    exact ⟨counted.length_le, taken, tallied.countable, strides⟩
  · rintro ⟨few, taken, often, strides⟩
    exact counts_few hspace keys strides few taken often

/-! ## The seventeenth word twice -/

/-- A line for each word. -/
def linesOf (ws : List (List UInt8)) : List UInt8 := ws.flatMap (· ++ [newline])

/-- Different words of a text, under different keys. -/
structure Vocabulary (target : Target) (ctype : Ctype) (ws : List (List UInt8)) : Prop
    extends Distinguished target ws where
  nodup : ws.Nodup
  written : ∀ w ∈ ws, w ≠ [] ∧ ∀ b ∈ w, ctype.byteIsspace target b = false
  short : ∀ w ∈ ws, w.length ≤ uintMax

section Lines
variable {isspace : UInt8 → Bool} {ws : List (List UInt8)} {bound : Nat}

theorem linesOf_cons (w : List UInt8) (ws : List (List UInt8)) :
    linesOf (w :: ws) = w ++ newline :: linesOf ws := by
  rw [linesOf, List.flatMap_cons, List.append_assoc]
  rfl

theorem words_linesOf (hspace : isspace newline = true)
    (written : ∀ w ∈ ws, w ≠ [] ∧ ∀ b ∈ w, isspace b = false) :
    words isspace (linesOf ws) = ws := by
  induction ws with
  | nil => exact words_nil
  | cons w ws ih =>
    obtain ⟨hne, hword⟩ := written w List.mem_cons_self
    rw [linesOf_cons, words_append_cons hspace, words_single hne hword,
      ih fun w' hw' => written w' (List.mem_cons_of_mem _ hw')]
    rfl

/-- Each part of the file without the end of a line is a part of a word. -/
theorem length_le_of_linesOf (short : ∀ w ∈ ws, w.length ≤ bound) {line : List UInt8}
    (hpart : line <:+: linesOf ws) (hline : newline ∉ line) : line.length ≤ bound := by
  induction ws with
  | nil =>
    rw [List.infix_nil.mp hpart]
    exact Nat.zero_le _
  | cons w ws ih =>
    rw [linesOf_cons] at hpart
    rcases infix_append_cons hpart hline with hleft | hright
    · exact hleft.length_le.trans (short w List.mem_cons_self)
    · exact ih (fun w' hw' => short w' (List.mem_cons_of_mem _ hw')) hright

theorem splitOn_linesOf (hline : ∀ w ∈ ws, newline ∉ w) :
    (linesOf ws).splitOn newline = ws ++ [[]] := by
  induction ws with
  | nil => rfl
  | cons w ws ih =>
    rw [linesOf_cons, splitOn_line (hline w List.mem_cons_self),
      ih fun w' hw' => hline w' (List.mem_cons_of_mem _ hw')]
    rfl

theorem countable_linesOf (hspace : isspace newline = true)
    (written : ∀ w ∈ ws, w ≠ [] ∧ ∀ b ∈ w, isspace b = false)
    (short : ∀ w ∈ ws, w.length ≤ uintMax) : CountableStrides isspace (linesOf ws) := by
  have hline : ∀ w ∈ ws, newline ∉ w := by
    intro w hw hmem
    rw [(written w hw).2 newline hmem] at hspace
    cases hspace
  intro line hmem
  rw [splitOn_linesOf hline, List.mem_append, List.mem_singleton] at hmem
  rcases hmem with hword | rfl
  · exact stridesWithin_of_length (short line hword)
  · exact stridesWithin_of_length (Nat.zero_le _)

theorem takesAll_linesOf {target : Target} {ctype : Ctype}
    (taken : ∀ w ∈ ws, TakesAll target ctype w) : TakesAll target ctype (linesOf ws) := by
  intro b hb
  obtain ⟨w, hw, hmem⟩ := List.mem_flatMap.mp hb
  rcases List.mem_append.mp hmem with hword | hend
  · exact taken w hw b hword
  · rw [List.mem_singleton.mp hend]
    exact takes_ascii (by decide)

end Lines

/-- The words in their order, and the seventeenth a second time. -/
def twice (ws : List (List UInt8)) : List (List UInt8) := ws.take 17 ++ ws.drop 16

section Many
variable {target : Target} {ctype : Ctype} {ws : List (List UInt8)} {w : List UInt8}

theorem mem_twice (h : w ∈ twice ws) : w ∈ ws := by
  rcases List.mem_append.mp h with htake | hdrop
  · exact List.mem_of_mem_take htake
  · exact List.mem_of_mem_drop hdrop

theorem drop_sixteen (many : 16 < ws.length) : ws.drop 16 = ws[16] :: ws.drop 17 :=
  List.drop_eq_getElem_cons many

theorem mem_take_seventeen (many : 16 < ws.length) : ws[16] ∈ ws.take 17 := by
  have hget : (ws.take 17)[16]? = some ws[16] := by
    rw [List.getElem?_take_of_lt (by decide), List.getElem?_eq_getElem many]
  exact List.mem_of_getElem? hget

theorem firstSeen_twice (hnodup : ws.Nodup) (many : 16 < ws.length) :
    firstSeen (twice ws) = ws := by
  rw [twice, drop_sixteen many, firstSeen_repeat (mem_take_seventeen many), List.take_append_drop,
    firstSeen_of_nodup hnodup]

theorem count_twice_le (hnodup : ws.Nodup) (w : List UInt8) : (twice ws).count w ≤ 2 := by
  have htake := List.nodup_iff_count_le_one.mp ((ws.take_sublist 17).nodup hnodup) w
  have hdrop := List.nodup_iff_count_le_one.mp ((ws.drop_sublist 16).nodup hnodup) w
  rw [twice, List.count_append]
  omega

theorem count_twice (hnodup : ws.Nodup) (many : 16 < ws.length) : (twice ws).count ws[16] = 2 := by
  have htake := List.count_pos_iff.mpr (mem_take_seventeen many)
  have hdrop : 0 < (ws.drop 16).count ws[16] := by
    rw [drop_sixteen many]
    exact List.count_pos_iff.mpr List.mem_cons_self
  have hle := count_twice_le hnodup ws[16]
  rw [twice, List.count_append] at hle ⊢
  omega

theorem bufferable_twice (short : ∀ w ∈ ws, w.length ≤ uintMax) :
    BufferableLines (linesOf (twice ws)) := by
  intro line hpart hline
  have hle := length_le_of_linesOf (fun w hw => short w (mem_twice hw)) hpart hline
  unfold uintMax at hle
  unfold ptrdiffMax
  omega

/-- What has been counted, up to the sixteenth word and behind the seventeenth. -/
def Losing (target : Target) (done : List (List UInt8)) (g : Globals LimitHeap) : Prop :=
  Granted g.world ∧ (done.length ≤ 16 → Counted target done g) ∧ (16 < done.length → Lost g)

/-- The first seventeen words are new, and each of the others leaves the word lost. -/
theorem counting_lost {file : List UInt8} (keys : Distinguished target ws) (hnodup : ws.Nodup)
    (many : 16 < ws.length) (hwords : words (ctype.byteIsspace target) file = twice ws)
    (held : BufferableLines file) :
    Counting limitPlatform target ctype file (Losing target) fun _ g => Granted g.world where
  calm done g world h hcalm :=
    ⟨hcalm.trans h.1, fun hle => (h.2.1 hle).frame world, fun hlt => (h.2.2 hlt).frame world⟩
  refused done g world line stop h hpart hline hrefused :=
    absurd hrefused (not_refuses (held line hpart hline))
  outside done g h _ := h.1
  counts done w within word hbytes ha hd a := by
    rw [hwords] at within
    have hlen : (done ++ [w]).length = done.length + 1 := by
      rw [List.length_append, List.length_singleton]
    by_cases hbehind : 16 < done.length
    · exact (countWord_lost word).weaken (fun g h => ⟨h.1.1, h.1.2.2 hbehind⟩)
        fun _ g h => ⟨⟨h.1, fun hle => absurd hle (by omega), fun _ => h.2⟩, trivial⟩
    · have hbefore : done ++ [w] <+: ws.take 17 := by
        refine List.prefix_of_prefix_length_le within (List.prefix_append _ _) ?_
        rw [hlen, List.length_take]
        omega
      have hdistinct : (done ++ [w]).Nodup := hbefore.sublist.nodup
        ((ws.take_sublist 17).nodup hnodup)
      have hkeys : Distinguished target (done ++ [w]) :=
        keys.sub fun w' hw' => List.mem_of_mem_take (hbefore.subset hw')
      have hnew : w ∉ done := fun hmem =>
        (List.nodup_append.mp hdistinct).2.2 w hmem w (List.mem_singleton.mpr rfl) rfl
      have hdone : firstSeen done = done :=
        firstSeen_of_nodup (List.nodup_append.mp hdistinct).1
      rintro g ⟨⟨hgranted, hcounted, -⟩, -⟩
      have counted := hcounted (Nat.le_of_not_gt hbehind)
      by_cases hfits : done.length < 16
      · obtain ⟨g', hrun, counted', hworld⟩ :=
          counted.new_word hkeys hnew (hdone.symm ▸ hfits) hbytes ha hd
        rw [hrun]
        exact ⟨⟨hworld ▸ hgranted, fun _ => counted', fun hlt => by omega⟩, trivial⟩
      · have hfull : (firstSeen done).length = 16 := by
          rw [hdone]
          omega
        rw [counted.countWord_new hkeys hnew hbytes ha hd]
        refine ((newWord_lost word counted.toFirstArray counted.seen_lt.le hgranted ?_).weaken
          (fun _ h => h) ?_) g rfl
        · intro _ h mp' hh step
          exact loses_word counted hkeys hnew hfull (hbytes ▸ hh) step
        · exact fun _ g' h => ⟨⟨h.1, fun hle => absurd hle (by omega), fun _ => h.2⟩, trivial⟩

/-- On memory that takes the store, a file with more words is not counted right. -/
theorem counts_lost (hspace : ctype.byteIsspace target newline = true)
    (vocabulary : Vocabulary target ctype ws) (many : 16 < ws.length) :
    ¬ CountsRight target ctype (linesOf (twice ws)) := by
  intro right
  have hnodup := vocabulary.nodup
  have hwords : words (ctype.byteIsspace target) (linesOf (twice ws)) = twice ws :=
    words_linesOf hspace fun w hw => vocabulary.written w (mem_twice hw)
  obtain ⟨g, tallied, ⟨-, -, hlost⟩, -⟩ := right.ends
    (counting_lost vocabulary.toDistinguished hnodup many hwords (bufferable_twice vocabulary.short))
    hspace (countable_linesOf hspace (fun w hw => vocabulary.written w (mem_twice hw))
      fun w hw => vocabulary.short w (mem_twice hw))
    fun buf g created => ⟨created.calm, fun _ => counted_start buf created, fun hlt => by cases hlt⟩
  rw [hwords] at hlost
  have lost := hlost (by rw [twice, List.length_append, List.length_take, List.length_drop]; omega)
  obtain ⟨count, hcell, hcount⟩ := tallied.counts 16 ws[16] (by
    rw [hwords, firstSeen_twice hnodup many, List.getElem?_eq_getElem many])
  rw [lost.counted_once] at hcell
  obtain rfl : 1 = count := Option.some.inj (Option.some.inj hcell)
  rw [hwords, count_twice hnodup many] at hcount
  exact absurd hcount (by decide)

end Many

/-- Blanks, tabs and the ends of lines; EOF is -1. -/
def blanks : Ctype := ⟨-1, fun value => value == 32 || (9 ≤ value && value ≤ 13)⟩

/-- The letters from a to q. -/
def letters : List (List UInt8) := (List.range 17).map fun i => [UInt8.ofNat (97 + i)]

theorem letters_vocabulary : Vocabulary ⟨true⟩ blanks letters where
  keyed := by
    have hkeys : ∀ w ∈ letters, (hashBytes ⟨true⟩ w).isSome ∧ hashBytes ⟨true⟩ w ≠ some 0 := by
      decide +kernel
    intro w hw
    obtain ⟨hsome, hne⟩ := hkeys w hw
    obtain ⟨h, hh⟩ := Option.isSome_iff_exists.mp hsome
    exact ⟨h, hh, fun hz => hne (hz ▸ hh)⟩
  apart := by decide +kernel
  nodup := by decide +kernel
  written := by decide +kernel
  short := by decide +kernel

/-- "b a", a tab, "b", a line that starts with a blank, "c". -/
def fourWords : List UInt8 := [98, 32, 97, 9, 98, 10, 32, 99]

theorem countsRight_fourWords : CountsRight ⟨true⟩ blanks fourWords := by
  have hwords : words (blanks.byteIsspace ⟨true⟩) fourWords = [[98], [97], [98], [99]] := by
    decide +kernel
  refine (counts_right_iff rfl ?_ ?_ (by decide)).mpr ⟨?_, by decide +kernel, ?_, ?_⟩
  · rw [hwords]
    exact letters_vocabulary.toDistinguished.sub (by decide +kernel)
  · intro line hpart _
    have hle : line.length ≤ 8 := hpart.length_le
    unfold ptrdiffMax
    omega
  · rw [hwords]
    decide +kernel
  · intro w hw
    rw [hwords] at hw ⊢
    have hle : [[98], [97], [98], [(99 : UInt8)]].count w ≤ 4 := List.count_le_length
    unfold uintMax
    omega
  · have hlines : fourWords.splitOn newline = [[98, 32, 97, 9, 98], [32, 99]] := by decide +kernel
    rw [CountableStrides, hlines, List.forall_mem_cons, List.forall_mem_singleton]
    exact ⟨stridesWithin_of_length (by decide), stridesWithin_of_length (by decide)⟩

/-- The letters from a to q on lines of their own, and q once more. -/
theorem letters_counted_wrong :
    Distinguished ⟨true⟩ letters ∧
    words (blanks.byteIsspace ⟨true⟩) (linesOf (twice letters)) = letters ++ [[113]] ∧
    TakesAll ⟨true⟩ blanks (linesOf (twice letters)) ∧
    ¬ CountsRight ⟨true⟩ blanks (linesOf (twice letters)) := by
  refine ⟨letters_vocabulary.toDistinguished, ?_, by decide +kernel,
    counts_lost rfl letters_vocabulary (by decide)⟩
  rw [words_linesOf rfl fun w hw => letters_vocabulary.written w (mem_twice hw)]
  decide +kernel

end M65Tool.Guarantees.WordCounts
