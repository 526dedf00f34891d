import M65Tool.Guarantees.LostWord
import M65Tool.Source.StrWraps
import Mathlib.Data.ZMod.Basic

/-!
# LONG-STRIDES: words that are read twice

The positions of the splitting loop are unsigned ints. Where these do not count the bytes
from the start of a line to its second word, the loop comes back to the first word after it
has returned that word, or a part of it; from one of the other words on it never comes to the
next one. So a run that ends has counted one word too many for each such line. What shows
that the counts are wrong then is their sum, whatever the words are and whatever the map
makes of them.
-/
namespace M65Tool.Guarantees.LongStrides
open Source Source.Mem Source.MapHash Source.HashMap Source.StringBuffer Source.StrFunctions
  Source.WordFreq Lib.Effect Lib.Splitting StringContents CountedWords LostWord

/-! ## The sum of the counts -/

/-- A count, in the arithmetic of an unsigned int. -/
def countOf (cell : Option UInt32) : ZMod (2 ^ 32) := ((cell.getD 0).toNat : ZMod (2 ^ 32))

def total (cells : List (Option UInt32)) : ZMod (2 ^ 32) := (cells.map countOf).sum

theorem total_set {cells : List (Option UInt32)} {i : Nat} {old : Option UInt32}
    (h : cells[i]? = some old) (new : Option UInt32) :
    total (cells.set i new) = total cells - countOf old + countOf new := by
  obtain ⟨hi, rfl⟩ := List.getElem?_eq_some_iff.mp h
  have hlt : i < (cells.map countOf).length := by rwa [List.length_map]
  rw [total, List.map_set, List.sum_set', dif_pos hlt, List.getElem_map, total, neg_add_eq_sub,
    sub_add_eq_add_sub, add_sub_assoc]

theorem countOf_incr (count : UInt32) :
    countOf (some (count + 1)) = countOf (some count) + 1 := by
  change (((count + 1).toNat : Nat) : ZMod (2 ^ 32)) = (count.toNat : ZMod (2 ^ 32)) + 1
  rw [UInt32.toNat_add, UInt32.toNat_one, ZMod.natCast_mod, Nat.cast_add, Nat.cast_one]

/-- As many words as this have been counted. -/
structure Summed {σ : Type} (k : Nat) (g : Globals σ) : Prop extends FirstArray g where
  few : g.wordsSeen.toNat ≤ initialCountsSize
  unused : ∀ i, g.wordsSeen.toNat ≤ i → i < initialCountsSize → g.cells[i]? = some none
  sum : total g.cells = k

section Words
variable {σ : Type} {target : Target} {g : Globals σ} {k : Nat}

theorem Summed.frame (summed : Summed k g) (world : σ) : Summed k { g with world := world } :=
  { summed with }

theorem Summed.incr (summed : Summed k g) {i : Nat} {count : UInt32}
    (hcell : g.cells[i]? = some (some count)) :
    Summed (k + 1) { g with cells := g.cells.set i (some (count + 1)) } :=
  { summed with
    length := List.length_set.trans summed.length
    unused := by
      intro j hj hlt
      have hother : i ≠ j := by
        rintro rfl
        rw [summed.unused i hj hlt] at hcell
        cases hcell
      exact (List.getElem?_set_ne hother).trans (summed.unused j hj hlt)
    sum := by
      dsimp only
      rw [total_set hcell, countOf_incr, summed.sum, Nat.cast_add, Nat.cast_one]
      ring }

theorem Summed.with_word (summed : Summed k g) (hlt : g.wordsSeen.toNat < initialCountsSize)
    (mp' : Map) : Summed (k + 1) (withWord g mp') :=
  { summed with
    length := List.length_set.trans summed.length
    few := by
      rw [withWord_seen hlt]
      exact hlt
    unused := by
      intro j hj hsize
      rw [withWord_seen hlt] at hj
      exact (List.getElem?_set_ne (by omega)).trans (summed.unused j (by omega) hsize)
    sum := by
      change total (g.cells.set g.wordsSeen.toNat (some 1)) = _
      rw [total_set (summed.unused _ (Nat.le_refl _) hlt), summed.sum, Nat.cast_add, Nat.cast_one]
      change (k : ZMod (2 ^ 32)) - ((0 : Nat) : ZMod (2 ^ 32)) + ((1 : Nat) : ZMod (2 ^ 32)) = _
      rw [Nat.cast_zero, Nat.cast_one, sub_zero] }

end Words

/-- Nothing is refused, and as many words as this have been counted. -/
def Sums (k : Nat) (g : Globals LimitHeap) : Prop := Granted g.world ∧ Summed k g

/-- A call that only reads. -/
theorem onWorld_sums {α : Type} {x : C LimitHeap α} (h : Keeps x) {p : α → Prop} {k : Nat}
    (hx : ∀ s a s', x s = .ok a s' → p a) :
    Triple (Sums k) (onWorld x) (fun a g => p a ∧ Sums k g) fun _ g => Granted g.world := by
  have hrun := onWorld_triple (R := Summed k) ((reads_granted h).knowing hx)
    fun g world summed => summed.frame world
  exact hrun.weaken (fun _ h => h) fun _ _ h => ⟨h.1.1, h.1.2, h.2⟩

theorem readStr_keeps (mem : Memory) (part : MemHandle) :
    Keeps (readStr mem part : C LimitHeap Str) :=
  (loadBytes_keeps mem part.data part.size 0).seq fun _ => .ret _

theorem newWord_sums (target : Target) (word : Str) (k : Nat) :
    Triple (Sums k) (newWord limitPlatform.ops target word) (fun _ => Sums (k + 1))
      fun _ g => Granted g.world := by
  rintro g ⟨granted, summed⟩
  refine newWord_sets (P := fun _ => True) (R := Summed (k + 1)) word summed.toFirstArray
    summed.few granted ?_ (fun hlt mp' world _ => (summed.with_word hlt mp').frame world) g rfl
  exact (mapSetStr_granted target _ _ word _).weaken (fun _ h => h) fun _ _ h => ⟨h, fun _ => trivial⟩

/-- Whatever the word is, it is counted once. -/
theorem countWord_sums (target : Target) (word : Str) (k : Nat) :
    Triple (Sums k) (countWord limitPlatform.ops target word) (fun _ => Sums (k + 1))
      fun _ g => Granted g.world := by
  refine .read fun g sums => .seq (Q := fun _ => Sums k) ?_ fun entry => .cond (fun _ => ?_)
    fun _ => newWord_sums target word k
  · have hget : Triple (Sums k) (onWorld (mapGetStr limitPlatform.ops target g.mymap g.mapStruct
        word)) (fun _ g => True ∧ Sums k g) fun _ g => Granted g.world :=
      onWorld_sums (mapGet_keeps heap_readsOnly target _ _ (.str word)) fun _ _ _ _ => trivial
    exact hget.weaken (by rintro _ rfl; exact sums) fun _ _ h => h.2
  · refine .seq (onWorld_sums (heap_readsOnly entry) fun _ _ _ _ => trivial) fun valp => ?_
    rintro g' ⟨-, granted, summed⟩
    obtain ⟨i, count, -, hcell, hrun⟩ | ⟨stop, hrun⟩ := incrCount_cases g' valp
    · rw [hrun]
      exact ⟨granted, summed.incr hcell⟩
    · rw [hrun]
      exact granted

/-! ## One line -/

section Line
variable {target : Target} {ctype : Ctype} {mem : Memory} {ptr : Addr} {text : List UInt8}

/-- The words of a text that are read twice: none where the strides can be counted, else the
first one, which has whitespace before it. -/
inductive ReadTwice (isspace : UInt8 → Bool) (text : List UInt8) : Nat → Prop where
  | none (strides : StridesWithin isspace uintMax text) : ReadTwice isspace text 0
  | first (long : uintMax < text.length) (behind : 0 < runEnd isspace text 0) :
    ReadTwice isspace text 1

/-- A text that begins with a word. -/
theorem ReadTwice.strides {isspace : UInt8 → Bool} {again : Nat} (h : ReadTwice isspace text again)
    (begins : runEnd isspace text 0 = 0) : again = 0 ∧ StridesWithin isspace uintMax text := by
  cases h with
  | none strides => exact ⟨rfl, strides⟩
  | first long behind => omega

/-- What the rounds of the loop do with a text. -/
def Pops (target : Target) (ctype : Ctype) (mem : Memory) (tests rounds : Nat) (line : MemHandle)
    (text : List UInt8) : Prop :=
  ∀ k, Triple (Sums k) (processLine limitPlatform.ops target ctype mem tests rounds line)
    (fun _ g => ∃ again, ReadTwice (ctype.byteIsspace target) text again ∧
      Sums (k + (words (ctype.byteIsspace target) text).length + again) g)
    fun _ g => Granted g.world

/-- A call on a text that begins with a word. -/
theorem Pops.at_word {tests rounds : Nat} {line : MemHandle}
    (h : Pops target ctype mem tests rounds line text)
    (begins : runEnd (ctype.byteIsspace target) text 0 = 0) (k : Nat) :
    Triple (Sums k) (processLine limitPlatform.ops target ctype mem tests rounds line)
      (fun _ g => StridesWithin (ctype.byteIsspace target) uintMax text ∧
        Sums (k + (words (ctype.byteIsspace target) text).length) g) fun _ g => Granted g.world := by
  refine (h k).weaken (fun _ h => h) ?_
  rintro _ g ⟨again, twice, sums⟩
  obtain ⟨rfl, strides⟩ := twice.strides begins
  exact ⟨strides, sums⟩

/-- The str that the last pop returns ends the loop. -/
theorem pops_zero (tests rounds : Nat) : Pops target ctype mem tests rounds .zero [] := by
  intro k
  cases rounds with
  | zero => exact .stop fun _ h => h.1
  | succ rounds =>
    refine .cond (fun hvalid => ?_) fun _ => .ret fun g sums => ?_
    · rw [memIsValid_zero] at hvalid
      cases hvalid
    · rw [words_nil]
      exact ⟨0, .none (stridesWithin_of_length (Nat.zero_le _)), sums⟩

/-- The part that is popped is counted if there is one. -/
theorem part_sums {tests rounds k : Nat} {part rest : MemHandle}
    {Q : Unit → Globals LimitHeap → Prop}
    (h : Triple (Sums (k + if part.size > 0 then 1 else 0))
      (processLine limitPlatform.ops target ctype mem tests rounds rest) Q
      fun _ g => Granted g.world) :
    Triple (Sums k)
      (if part.size > 0 then do
        let word ← onWorld (readStr mem part)
        countWord limitPlatform.ops target word
        processLine limitPlatform.ops target ctype mem tests rounds rest
      else processLine limitPlatform.ops target ctype mem tests rounds rest) Q
      fun _ g => Granted g.world := by
  refine .cond (fun hpart => ?_) fun hnone => ?_
  · rw [if_pos hpart] at h
    refine .seq (onWorld_sums (readStr_keeps mem part) fun _ _ _ _ => trivial) fun word => ?_
    exact .seq ((countWord_sums target word k).weaken (fun _ hg => hg.2) fun _ _ hg => hg) fun _ => h
  · rw [if_neg hnone] at h
    exact h

/-- A round comes to the second word, or it comes back to the first one. -/
theorem pops (hmem : BytesAt mem ptr text) (tests rounds : Nat) :
    Pops target ctype mem tests rounds ⟨ptr, text.length, .notAllocated⟩ text := by
  induction rounds generalizing ptr text with
  | zero => exact fun k => .stop fun _ h => h.1
  | succ rounds ih =>
    intro k
    have hvalid : memIsValid ⟨ptr, text.length, .notAllocated⟩ = true :=
      memIsValid_eq_true.mpr hmem.ptr_ne
    have hfrom : ∀ i ≤ text.length, Pops target ctype mem tests rounds (restAt ptr text i)
        (text.drop i) := by
      intro i hi
      have hdrop := ih (hmem.drop hi)
      rw [List.length_drop] at hdrop
      exact hdrop
    generalize hstart : runEnd (ctype.byteIsspace target) text 0 = start
    generalize hstop : runEnd (fun b => !ctype.byteIsspace target b) text start = stop
    generalize hnext : runEnd (ctype.byteIsspace target) text stop = next
    have hstartle : start ≤ text.length := hstart ▸ runEnd_le _ (Nat.zero_le _)
    have hnextle : next ≤ text.length := hnext ▸ runEnd_le _ (hstop ▸ runEnd_le _ hstartle)
    have hsecond : secondWord (ctype.byteIsspace target) text = next := by
      rw [secondWord, hstart, hstop, hnext]
    rw [processLine, if_pos hvalid]
    refine .seq (onWorld_sums (popCtype_keeps mem target ctype heap_readsOnly tests _ _)
      fun s result s' hrun => popCtype_inv (strAt_unowned limitPlatform.unowned hmem s)
        hstart hstop hnext hrun) ?_
    rintro ⟨rest, part⟩
    refine .given ?_
    rintro (⟨near, hsize, hrest⟩ | ⟨far, hsize, hrest⟩)
    · dsimp only at hsize hrest ⊢
      have hpops : Pops target ctype mem tests rounds rest (text.drop next) := by
        rw [hrest]
        split
        · rename_i hend
          rw [hend, List.drop_length]
          exact pops_zero tests rounds
        · exact hfrom next hnextle
      refine part_sums ((hpops.at_word (hnext ▸ runEnd_drop_self _ text stop) _).weaken
        (fun _ h => h) ?_)
      rintro _ g ⟨strides, sums⟩
      rw [hsize, Nat.add_assoc, Nat.add_comm (ite _ _ _),
        ← length_words_runEnd _ text hstart.symm hstop.symm hnext.symm] at sums
      exact ⟨0, .none (.of_second (hsecond ▸ near) fun _ => hsecond ▸ strides), sums⟩
    · dsimp only at hsize hrest ⊢
      rw [hrest]
      refine part_sums (((hfrom start hstartle).at_word (hstart ▸ runEnd_drop_self _ text 0)
        _).weaken (fun _ h => h) ?_)
      rintro _ g ⟨strides, sums⟩
      rw [if_pos hsize, ← hstart, words_drop_runEnd, Nat.add_right_comm] at sums
      have hlong : uintMax < text.length := Nat.lt_of_lt_of_le far hnextle
      refine ⟨1, .first hlong (Nat.pos_of_ne_zero fun hzero => ?_), sums⟩
      rw [← hstart, hzero, List.drop_zero] at strides
      exact absurd strides.first (by omega)

end Line

/-! ## All lines -/

/-- The words of the lines of a text that are read twice. -/
structure ReadAgain (isspace : UInt8 → Bool) (bytes : List UInt8) (again : Nat) : Prop where
  long : again * 2 ^ 32 ≤ bytes.length
  none : again = 0 → CountableStrides isspace bytes

section File
variable {isspace : UInt8 → Bool} {target : Target} {ctype : Ctype} {file text rest : List UInt8}
  {buf : MemHandle} {bufp : Strbuf} {again k rounds : Nat}

theorem ReadTwice.last (h : ReadTwice isspace text again) (hline : newline ∉ text) :
    ReadAgain isspace text again := by
  cases h with
  | none strides =>
    refine ⟨by omega, fun _ => ?_⟩
    rw [CountableStrides, splitOn_last hline, List.forall_mem_singleton]
    exact strides
  | first long =>
    unfold uintMax at long
    exact ⟨by omega, fun h => by cases h⟩

theorem ReadAgain.line {later : Nat} (hrest : ReadAgain isspace rest later)
    (h : ReadTwice isspace text again) (hline : newline ∉ text) :
    ReadAgain isspace (text ++ newline :: rest) (again + later) where
  long := by
    rw [Nat.add_mul, List.length_append, List.length_cons]
    exact Nat.add_le_add (h.last hline).long (Nat.le_succ_of_le hrest.long)
  none hzero := by
    rw [CountableStrides, splitOn_line hline, List.forall_mem_cons]
    obtain ⟨rfl, rfl⟩ := Nat.add_eq_zero_iff.mp hzero
    exact ⟨((h.last hline).none rfl).last hline, hrest.none rfl⟩

/-- A line is processed, and the buffer is empty. -/
theorem endLine_sums (line : Line limitPlatform buf bufp text) :
    Triple (Sums k) (endLine limitPlatform.ops target ctype rounds buf bufp)
      (fun bufp' g => bufp' = { bufp with length := 0 } ∧
        ∃ again, ReadTwice (ctype.byteIsspace target) text again ∧
          Sums (k + (words (ctype.byteIsspace target) text).length + again) g)
      fun _ g => Granted g.world := by
  refine .past (fun g _ => onWorld_ok (strbufStr_ok line g.world)) ?_
  refine .seq (pops line.bytesAt rounds rounds k) fun _ g h => ?_
  rw [onWorld_ok (strbufReset_ok line g.world)]
  exact ⟨rfl, h⟩

theorem lastLine_sums (line : Line limitPlatform buf bufp text) :
    Triple (Sums k) (lastLine limitPlatform.ops target ctype rounds buf bufp)
      (fun _ g => ∃ again, ReadTwice (ctype.byteIsspace target) text again ∧
        Sums (k + (words (ctype.byteIsspace target) text).length + again) g)
      fun _ g => Granted g.world := by
  refine .past (fun g _ => onWorld_ok (strbufStr_ok line g.world)) (.cond (fun _ => ?_) fun hnone => ?_)
  · exact pops line.bytesAt rounds rounds k
  · obtain rfl : text = [] := List.length_eq_zero_iff.mp (Nat.eq_zero_of_not_pos hnone)
    refine .ret fun g sums => ⟨0, .none (stridesWithin_of_length (Nat.zero_le _)), ?_⟩
    rw [words_nil]
    exact sums

theorem appendChar_sums (line : Line limitPlatform buf bufp text)
    (held : 2 * text.length ≤ ptrdiffMax) (hrounds : 2 ≤ rounds) (c : UInt8) :
    Triple (Sums k) (appendChar limitPlatform.ops rounds limitPlatform.stack buf bufp c)
      (fun bufp' g => Line limitPlatform buf bufp' (text ++ [c]) ∧ Sums k g)
      fun _ g => Granted g.world := by
  rintro g ⟨granted, summed⟩
  obtain ⟨bufp', world, hrun, hline, -, hcalm⟩ | ⟨stop, world, -, hrefused⟩ :=
    appendChar_run line trivial c rfl
  · rw [hrun rounds hrounds]
    exact ⟨hline, hcalm.trans granted, summed.frame world⟩
  · exact absurd hrefused (not_refuses held)

/-- What is left of the file, behind what is in the buffer. -/
theorem readRest_sums (hspace : ctype.byteIsspace target newline = true)
    (held : BufferableLines file) (hrounds : 2 ≤ rounds) (line : Line limitPlatform buf bufp text)
    (hline : newline ∉ text) (part : text ++ rest <:+: file) :
    Triple (Sums k) (do
        let bufp ← readLoop limitPlatform.ops target ctype rounds limitPlatform.stack buf rest bufp
        lastLine limitPlatform.ops target ctype rounds buf bufp)
      (fun _ g => ∃ again, ReadAgain (ctype.byteIsspace target) (text ++ rest) again ∧
        Sums (k + (words (ctype.byteIsspace target) (text ++ rest)).length + again) g)
      fun _ g => Granted g.world := by
  induction rest generalizing text bufp k with
  | nil =>
    rw [readLoop, pure_bind, List.append_nil]
    refine (lastLine_sums line).weaken (fun _ h => h) ?_
    rintro _ g ⟨again, twice, sums⟩
    exact ⟨again, twice.last hline, sums⟩
  | cons c rest ih =>
    rw [readLoop]
    by_cases hc : c = newline
    · subst hc
      rw [if_pos rfl, bind_assoc]
      refine .seq (endLine_sums line) fun bufp' => .given fun hreset => ?_
      subst hreset
      rintro g ⟨again, twice, sums⟩
      refine (ih line.reset List.not_mem_nil ?_).weaken (fun _ h => h) ?_ g sums
      · exact ((List.suffix_cons _ _).trans (List.suffix_append _ _)).isInfix.trans part
      · rintro _ g' ⟨later, hlater, sums⟩
        rw [List.nil_append] at hlater sums
        refine ⟨again + later, hlater.line twice hline, ?_⟩
        rw [words_append_cons hspace, List.length_append]
        have hsum : ∀ n m, k + (n + m) + (again + later) = k + n + again + m + later := by
          intro n m
          omega
        rw [hsum]
        exact sums
    · have hmore : text ++ [c] ++ rest = text ++ c :: rest := by simp
      have hnext : newline ∉ text ++ [c] := by
        rw [List.mem_append, List.mem_singleton]
        exact fun h => h.elim hline fun h => hc h.symm
      rw [if_neg hc, bind_assoc]
      refine .seq (appendChar_sums line (held text ?_ hline) hrounds c) fun bufp' => .given ?_
      · exact (List.prefix_append _ _).isInfix.trans part
      · intro line'
        rw [← hmore] at part ⊢
        exact ih line' hnext part

theorem created_sums {r : Nat} {made : MemHandle × Strbuf} {g : Globals LimitHeap}
    (created : Created limitPlatform r made g) (granted : Granted g.world) : Sums 0 g where
  left := granted
  right :=
    { created.counts with
      length := by rw [created.counts.none_stored, List.length_replicate]
      few := by
        rw [created.counts.none_seen]
        exact Nat.zero_le _
      unused := by
        intro i _ hi
        rw [created.counts.none_stored, List.getElem?_replicate, if_pos hi]
      sum := by
        rw [created.counts.none_stored, total, List.map_replicate, List.sum_replicate]
        change initialCountsSize • ((0 : Nat) : ZMod (2 ^ 32)) = _
        rw [Nat.cast_zero, nsmul_zero] }

/-- Nothing is refused, and as many words as the lines lead to have been counted when the
file is read. -/
theorem readWords_sums (hspace : ctype.byteIsspace target newline = true)
    (held : BufferableLines file) (hrounds : 2 ≤ rounds) (fname : String) :
    Triple (fun g => g = start firstHeap)
      (readWords limitPlatform.ops target ctype rounds limitPlatform.stack fname (some file))
      (fun _ g => ∃ again, ReadAgain (ctype.byteIsspace target) file again ∧
        Sums ((words (ctype.byteIsspace target) file).length + again) g)
      fun _ g => Granted g.world := by
  have hsplit : readWords limitPlatform.ops target ctype rounds limitPlatform.stack fname
      (some file) = (createAll limitPlatform.ops >>= fun buf => do
        let bufp ← readLoop limitPlatform.ops target ctype rounds limitPlatform.stack buf.1 file buf.2
        lastLine limitPlatform.ops target ctype rounds buf.1 bufp) := by
    simp only [readWords, createAll, bind_assoc]
  rintro g rfl
  obtain ⟨made, g, hmade⟩ := created_firstHeap fun _ _ => pure ()
  have created : Created limitPlatform 0 made g := (createAll_calm rfl).of_ok rfl hmade
  have hrest := readRest_sums hspace held hrounds created.line List.not_mem_nil
    (List.infix_refl file) g (created_sums created created.calm)
  rw [List.nil_append, Nat.zero_add] at hrest
  rw [hsplit, bind_of_ok hmade]
  exact hrest

end File

end M65Tool.Guarantees.LongStrides
