import M65Tool.Guarantees.MapIterates
import M65Tool.Guarantees.TopFive
import M65Tool.Guarantees.WordCounts
import M65Tool.Source.WordReport
import Mathlib.Data.Finset.Sort

/-!
# WORD-REPORT: what the program prints

For a file of at most sixteen different words the program prints the five highest and the
five lowest numbers of occurrences that there are, each with the number of the words that
occur so often, unless a request is refused. On other arguments it tells how it is used,
and for a file that cannot be opened it tells so.
-/
namespace M65Tool.Guarantees.WordReport
open Source Source.Mem Source.MapHash Source.HashMap Source.StringBuffer Source.StrFunctions
  Source.WordFreq Lib.Effect Lib.FirstSeen Lib.FirstFew Lib.Splitting MapIterates CountedWords
  LostWord WordCounts TopFive

/-! ## The empty slots of the map -/

/-- A slot without a hash is as the table was made. -/
structure Cleared (mp : Map) : Prop where
  shaped : mp.Shaped
  cleared : ∀ pos, (mp.slot pos).keyHash = 0 → mp.slot pos = .empty

section Cleared
variable {mp mp' : Map} {h : UInt32} {v : MemHandle} {b : Bool} {pos : Nat}

namespace Cleared

theorem created (entriesMh : MemHandle) : Cleared (.created entriesMh) :=
  ⟨Map.created_shaped, fun pos _ => Map.created_slot entriesMh pos⟩

theorem counted (hc : Cleared mp) : Cleared mp.counted := ⟨hc.shaped, hc.cleared⟩

theorem store (hc : Cleared mp) (hpos : pos < mp.tableSize) (hne : h ≠ 0) (v : MemHandle) :
    Cleared (mp.store pos ⟨h, v⟩) where
  shaped := hc.shaped.store pos _
  cleared q hzero := by
    have hlen : pos < mp.entries.length := by rwa [hc.shaped]
    rw [Map.slot_store hlen] at hzero ⊢
    split at hzero
    · exact absurd hzero hne
    · rename_i hq
      rw [if_neg hq]
      exact hc.cleared q hzero

/-- The copy loop stores entries of the old table, in a table that is made anew. -/
theorem resized (hc : Cleared mp) (newMh : MemHandle) (n : Nat) : Cleared (mp.resized newMh n) where
  shaped := Map.resized_shaped
  cleared pos hzero := by
    rcases rehash_slot_cases mp.entries n pos with hempty | hold
    · exact hempty
    · obtain ⟨q, hq⟩ := List.mem_iff_getElem?.mp hold
      have hslot : mp.slot q = (mp.resized newMh n).slot pos := by
        rw [Map.slot, List.getD_eq_getElem?_getD, hq]
        rfl
      rw [← hslot] at hzero ⊢
      exact hc.cleared q hzero

theorem set_step (hc : Cleared mp) (hne : h ≠ 0) (step : SetStep mp h v b mp') : Cleared mp' := by
  cases step with
  | overwrite pos found taken => exact hc.store (findEntryPos_lt found) hne v
  | insert pos found free fits =>
    have hpos : pos < mp.tableSize := findEntryPos_lt found
    exact hc.counted.store hpos hne v
  | grow pos found free crowded newMh size => exact hc.counted.resized newMh _
  | growFailed pos found free crowded => exact hc.counted

end Cleared
end Cleared

/-! ## What a word does to the map -/

section Words
variable {σ : Type} {ops : MemOps σ} {target : Target} {word : Str} {J : Map → Prop}

/-- A call into the library leaves the map struct to the caller. -/
theorem onWorld_map {α : Type} (x : C σ α) :
    Triple (fun g : Globals σ => J g.mapStruct) (onWorld x) (fun _ g => J g.mapStruct)
      fun _ _ => True :=
  onWorld_frames (fun _ _ hj => hj) fun _ _ _ => trivial

theorem growCounts_map : Triple (fun g : Globals σ => J g.mapStruct) (growCounts ops)
    (fun _ g => J g.mapStruct) fun _ _ => True := by
  refine .read fun g hg => .cond (fun _ => ?_) fun _ => .ret (by rintro _ rfl; exact hg)
  refine .seq ((onWorld_map _).weaken (by rintro _ rfl; exact hg) fun _ _ hj => hj) fun counts => ?_
  exact Triple.seq (Q := fun _ g => J g.mapStruct) (.change fun _ hj => hj) fun _ =>
    .cond (fun _ => .ret fun _ hj => hj) fun _ => .stop fun _ _ => trivial

/-- A property of the map that a set of the word keeps. -/
theorem setWord_map (keeps : ∀ mp mp' h v, J mp → hashBytes target word.bytes = some h →
      SetStep mp h v true mp' → J mp') (value : MemHandle) :
    Triple (fun g : Globals σ => J g.mapStruct) (setWord ops target word value)
      (fun stored g => stored = true → J g.mapStruct) fun _ _ => True := by
  refine .read fun g hg => ?_
  have hset : Triple (fun g' => g' = g)
      (onWorld (mapSetStr ops target g.mymap g.mapStruct word value))
      (fun result g' => J g'.mapStruct ∧ (result.1 = true → ∃ h,
        hashBytes target word.bytes = some h ∧ SetStep g.mapStruct h value true result.2))
      fun _ _ => True := by
    refine (onWorld_returns (P := fun g' => J g'.mapStruct) (fun _ _ hj => hj)
      (fun _ _ _ => trivial) ?_).weaken (by rintro _ rfl; exact hg) fun _ _ hq => hq
    rintro s ⟨stored, mp'⟩ s' hrun rfl
    exact mapSetStr_inv hrun
  refine hset.seq fun (stored, mp') => .seq (.change fun g' hg' => ?_) fun _ => .ret fun _ hq => hq
  intro hstored
  obtain ⟨h, hh, step⟩ := hg'.2 hstored
  exact keeps _ _ h _ hg hh step

theorem newWord_map (keeps : ∀ mp mp' h v, J mp → hashBytes target word.bytes = some h →
      SetStep mp h v true mp' → J mp') :
    Triple (fun g : Globals σ => J g.mapStruct) (newWord ops target word)
      (fun _ g => J g.mapStruct) fun _ _ => True := by
  refine Triple.seq (Q := fun _ g => J g.mapStruct) (.change fun _ hj => hj) fun _ =>
    .seq growCounts_map fun _ => .read fun g hg => ?_
  refine .seq ((onWorld_map _).weaken (by rintro _ rfl; exact hg) fun _ _ hj => hj) fun arr => ?_
  refine .seq (setWord_map keeps _) fun stored => .cond (fun hstored => ?_) fun _ =>
    .stop fun _ _ => trivial
  intro g' hg'
  obtain ⟨-, hrun⟩ | ⟨stop, hrun⟩ := storeCount_cases g' arr (g.wordsSeen - 1) 1
  · rw [hrun]
    exact hg' hstored
  · rw [hrun]
    trivial

theorem countWord_map (keeps : ∀ mp mp' h v, J mp → hashBytes target word.bytes = some h →
      SetStep mp h v true mp' → J mp') :
    Triple (fun g : Globals σ => J g.mapStruct) (countWord ops target word)
      (fun _ g => J g.mapStruct) fun _ _ => True := by
  refine .read fun g hg => .seq ((onWorld_map _).weaken (by rintro _ rfl; exact hg)
    fun _ _ hj => hj) fun entry => .cond (fun _ => .seq (onWorld_map _) fun valp => ?_)
      fun _ => newWord_map keeps
  intro g' hg'
  obtain ⟨i, count, -, -, hrun⟩ | ⟨stop, hrun⟩ := incrCount_cases g' valp
  · rw [hrun]
    exact hg'
  · rw [hrun]
    trivial

end Words

/-! ## The loops over the array and over the map -/

/-- The counts of the words, in the order in which the words first came. -/
def countsOf (ws : List (List UInt8)) : List UInt32 :=
  (firstSeen ws).map fun w => UInt32.ofNat (ws.count w)

/-- The element of the array that a value of the map points to. -/
def countOf {σ : Type} (g : Globals σ) (v : MemHandle) : UInt32 :=
  (((countIndex g v.data).bind (g.cells[·]?)).join).getD 0

/-- The five cells when these counts have been met. -/
def tally (freq : List Int) (counts : List UInt32) (matched : List UInt32) : List UInt32 :=
  counts.foldl (fun matched count => countMatches count freq matched) matched

section Loops
variable {σ : Type} {platform : Platform σ} {target : Target} {done : List (List UInt8)}
  {g : Globals σ} {i pos tests rounds : Nat} {w : List UInt8} {mostFreq leastFreq : List Int}

theorem countsOf_getElem? (hi : (firstSeen done)[i]? = some w) :
    (countsOf done)[i]? = some (UInt32.ofNat (done.count w)) := by
  rw [countsOf, List.getElem?_map, hi]
  rfl

theorem storedCounts_eq (counted : Counted target done g) :
    storedCounts g g.counts.data = countsOf done := by
  have hcells : g.cells.take g.wordsSeen.toNat = (countsOf done).map some := by
    apply List.ext_getElem?
    intro i
    rw [counted.seen, List.getElem?_map]
    rcases Nat.lt_or_ge i (firstSeen done).length with hlt | hge
    · have hi := List.getElem?_eq_getElem hlt
      rw [List.getElem?_take_of_lt hlt, counted.counts i _ hi, countsOf_getElem? hi]
      rfl
    · rw [List.getElem?_take, if_neg (Nat.not_lt.mpr hge), countsOf, List.getElem?_map,
        List.getElem?_eq_none hge]
      rfl
  have hstored : ((countsOf done).map some).takeWhile Option.isSome = (countsOf done).map some := by
    refine List.takeWhile_eq_self_iff.mpr fun cell hcell => ?_
    obtain ⟨count, -, rfl⟩ := List.mem_map.mp hcell
    rfl
  rw [storedCounts, if_neg counted.data, hcells, hstored, List.reduceOption, List.filterMap_map]
  exact List.filterMap_some

/-- The words are fewer than the elements of the array. -/
theorem index_lt_array (counted : Counted target done g) (hi : (firstSeen done)[i]? = some w) :
    i < initialCountsSize := by
  have hle := counted.length_le
  have hilt := (List.getElem?_eq_some_iff.mp hi).1
  unfold initialCountsSize
  omega

theorem loadCount_element (counted : Counted target done g) (hi : (firstSeen done)[i]? = some w) :
    loadCount (element g i).data g = .ok (countOf g (element g i)) g ∧
      countOf g (element g i) = UInt32.ofNat (done.count w) := by
  have hlt := index_lt_array counted hi
  have hindex := counted.countIndex_element hlt
  have hcell := counted.counts i w hi
  have hcount : countOf g (element g i) = UInt32.ofNat (done.count w) := by
    rw [countOf, hindex, Option.bind_some, hcell]
    rfl
  refine ⟨?_, hcount⟩
  rw [loadCount, if_neg (counted.element_ne hlt), hindex]
  dsimp only
  rw [hcell, hcount]

/-- An occupied slot has the element of one of the words. -/
theorem slot_element (counted : Counted target done g) (hpos : pos < g.mapStruct.tableSize)
    (hocc : (g.mapStruct.slot pos).keyHash ≠ 0) :
    ∃ (i : Nat) (w : List UInt8), (firstSeen done)[i]? = some w ∧
      hashBytes target w = some (g.mapStruct.slot pos).keyHash ∧
      (g.mapStruct.slot pos).valueHandle = element g i := by
  obtain ⟨i, w, hi, hh, -, hv⟩ := (counted.holds_iff _ _).mp ⟨hocc, pos, hpos, rfl⟩
  exact ⟨i, w, hi, hh, hv⟩

theorem element_inj (counted : Counted target done g) {j : Nat} {u : List UInt8}
    (hi : (firstSeen done)[i]? = some w) (hj : (firstSeen done)[j]? = some u)
    (same : element g i = element g j) : i = j := by
  have hiaddr := counted.toNat_element (index_lt_array counted hi)
  have hjaddr := counted.toNat_element (index_lt_array counted hj)
  rw [same, hjaddr] at hiaddr
  unfold sizeofUint at hiaddr
  omega

theorem counted_tableAt (counted : Counted target done g) (cleared : Cleared g.mapStruct) :
    TableAt platform.ops g.world g.mymap g.mapStruct where
  map_at := ⟨_, plain_memP platform.plain counted.attached.map_allocator,
    counted.attached.map_data⟩
  entries_at := ⟨_, plain_memP platform.plain counted.attached.entries_allocator,
    counted.attached.entries_data⟩
  shaped := cleared.shaped
  size_pos := by
    rw [counted.tableSize]
    decide
  size_fits := by
    rw [counted.tableSize]
    decide
  value_at pos hpos hocc := by
    obtain ⟨i, w, hi, -, hv⟩ := slot_element counted hpos hocc
    have hne := counted.element_ne (index_lt_array counted hi)
    rw [hv]
    exact ⟨_, memP_unowned platform rfl hne g.world, hne⟩
  empty_zero pos _ hzero := by
    rw [cleared.cleared pos hzero]
    rfl

/-- The values of the map are the elements of the words. -/
theorem values_perm (counted : Counted target done g) (keys : Distinguished target done) :
    ((occupiedFrom g.mapStruct 0).map fun p => (g.mapStruct.slot p).valueHandle).Perm
      ((List.range (firstSeen done).length).map (element g)) := by
  have values_nodup : ((occupiedFrom g.mapStruct 0).map fun p =>
      (g.mapStruct.slot p).valueHandle).Nodup := by
    refine List.pairwise_map.mpr
      (List.Pairwise.imp_of_mem ?_ (occupiedFrom_pairwise g.mapStruct 0))
    intro p q hp hq hlt same
    obtain ⟨-, hpsize, hpocc⟩ := mem_occupiedFrom.mp hp
    obtain ⟨-, hqsize, hqocc⟩ := mem_occupiedFrom.mp hq
    obtain ⟨i, w, hi, hw, hpv⟩ := slot_element counted hpsize hpocc
    obtain ⟨j, u, hj, hu, hqv⟩ := slot_element counted hqsize hqocc
    obtain rfl := element_inj counted hi hj (by rw [← hpv, ← hqv, same])
    obtain rfl : w = u := Option.some.inj (hi.symm.trans hj)
    refine Nat.ne_of_lt hlt (counted.wellPlaced.unique hpsize hqsize
      (Map.keyAt_eq_some.mpr ⟨rfl, hpocc⟩) (Map.keyAt_eq_some.mpr ⟨?_, hpocc⟩))
    exact Option.some.inj (hu.symm.trans hw)
  have elements_nodup : ((List.range (firstSeen done).length).map (element g)).Nodup := by
    refine List.pairwise_map.mpr (List.Pairwise.imp_of_mem ?_ List.nodup_range)
    intro i j hi hj hne same
    exact hne (element_inj counted (List.getElem?_eq_getElem (List.mem_range.mp hi))
      (List.getElem?_eq_getElem (List.mem_range.mp hj)) same)
  refine (List.perm_ext_iff_of_nodup values_nodup elements_nodup).mpr fun v => ?_
  rw [List.mem_map, List.mem_map]
  constructor
  · rintro ⟨p, hp, rfl⟩
    obtain ⟨-, hpsize, hpocc⟩ := mem_occupiedFrom.mp hp
    obtain ⟨i, w, hi, -, hv⟩ := slot_element counted hpsize hpocc
    exact ⟨i, List.mem_range.mpr (List.getElem?_eq_some_iff.mp hi).1, hv.symm⟩
  · rintro ⟨i, hi, rfl⟩
    have hword := List.getElem?_eq_getElem (List.mem_range.mp hi)
    obtain ⟨h, hh, hne⟩ := keys.keyed _ (mem_firstSeen.mp (List.mem_of_getElem? hword))
    obtain ⟨-, p, hp, hs⟩ := (counted.holds_iff h _).mpr ⟨i, _, hword, hh, hne, rfl⟩
    refine ⟨p, mem_occupiedFrom.mpr ⟨Nat.zero_le p, hp, ?_⟩, ?_⟩
    · rwa [hs]
    · rw [hs]

/-- So the counts that the iteration meets are those of the words. -/
theorem met_perm (counted : Counted target done g) (keys : Distinguished target done) :
    ((occupiedFrom g.mapStruct 0).map fun p => countOf g (g.mapStruct.slot p).valueHandle).Perm
      (countsOf done) := by
  have hperm := (values_perm counted keys).map (countOf g)
  rw [List.map_map, List.map_map] at hperm
  refine hperm.trans (.of_eq (List.ext_getElem? fun i => ?_))
  rw [List.getElem?_map]
  rcases Nat.lt_or_ge i (firstSeen done).length with hlt | hge
  · have hi := List.getElem?_eq_getElem hlt
    rw [List.getElem?_range hlt, countsOf_getElem? hi, ← (loadCount_element counted hi).2]
    rfl
  · rw [countsOf, List.getElem?_map, List.getElem?_eq_none hge,
      List.getElem?_eq_none (by rwa [List.length_range])]
    rfl

/-- The loop over the map meets the counts of the slots that are left. -/
theorem matchesLoop_ok (counted : Counted target done g) (cleared : Cleared g.mapStruct)
    (htests : g.mapStruct.tableSize < tests) (left : List Nat)
    (hleft : left = occupiedFrom g.mapStruct pos) (hrounds : left.length < rounds)
    (most least : List UInt32) :
    matchesLoop platform.ops tests mostFreq leastFreq rounds (iterOf g.mymap g.mapStruct left)
        most least g =
      .ok (tally mostFreq (left.map fun p => countOf g (g.mapStruct.slot p).valueHandle) most,
        tally leastFreq (left.map fun p => countOf g (g.mapStruct.slot p).valueHandle) least)
          g := by
  have hat : TableAt platform.ops g.world g.mymap g.mapStruct := counted_tableAt counted cleared
  induction left generalizing pos rounds most least with
  | nil =>
    obtain ⟨r, rfl⟩ : ∃ r, rounds = r + 1 := ⟨rounds - 1, by omega⟩
    rfl
  | cons p later ih =>
    obtain ⟨r, rfl⟩ : ∃ r, rounds = r + 1 := ⟨rounds - 1, by omega⟩
    have hmem : p ∈ occupiedFrom g.mapStruct pos := hleft ▸ List.mem_cons_self
    obtain ⟨-, hlt, hocc⟩ := mem_occupiedFrom.mp hmem
    obtain ⟨i, w, hi, -, hv⟩ := slot_element counted hlt hocc
    have hne := counted.element_ne (index_lt_array counted hi)
    have hdone := hat.iterDone_ok pos
    have hnext := hat.nextIter_ok hlt htests (g.mapStruct.slot p).valueHandle
    rw [← hleft] at hdone
    rw [← occupiedFrom_tail hleft.symm] at hnext
    have hptr : platform.ops.memP (g.mapStruct.slot p).valueHandle g.world =
        .ok (element g i).data g.world := by
      rw [hv]
      exact memP_unowned platform rfl hne g.world
    have hload : loadCount (element g i).data g =
        .ok (countOf g (g.mapStruct.slot p).valueHandle) g := by
      rw [hv]
      exact (loadCount_element counted hi).1
    rw [matchesLoop, bind_of_ok (onWorld_ok hdone), List.isEmpty_cons, if_neg Bool.false_ne_true]
    change (onWorld (platform.ops.memP (g.mapStruct.slot p).valueHandle) >>= _) g = _
    rw [bind_of_ok (onWorld_ok hptr), bind_of_ok hload]
    change (onWorld (nextIter platform.ops g.mapStruct tests
      ⟨g.mymap, p, (g.mapStruct.slot p).valueHandle⟩) >>= _) g = _
    rw [List.length_cons] at hrounds
    rw [bind_of_ok (onWorld_ok hnext), ih (occupiedFrom_tail hleft.symm) (by omega)]
    rfl

end Loops

/-! ## The expected text -/

/-- The number of different words that occur so often. -/
def wordsWith (ws : List (List UInt8)) (n : Nat) : Nat :=
  (ws.toFinset.filter fun w => ws.count w = n).card

/-- The numbers of occurrences that there are. -/
def occurrences (ws : List (List UInt8)) : Finset Nat := ws.toFinset.image ws.count

def expectedRow (ws : List (List UInt8)) (n : Nat) : String :=
  toString n ++ "\t" ++ toString (wordsWith ws n) ++ "\n"

/-- A table of five rows, for the first of these numbers. -/
def expectedRows (ws : List (List UInt8)) (numbers : List Nat) : String :=
  String.join ((firstFew 5 0 numbers).map (expectedRow ws))

def expected (ws : List (List UInt8)) : String :=
  "Most frequent words\n==================\nCount\tWords\n\n" ++
    expectedRows ws ((occurrences ws).sort (· ≥ ·)) ++
    "\nLeast frequent words\n==================\nCount\tWords\n\n" ++
    expectedRows ws ((occurrences ws).sort (· ≤ ·))

section Text
variable {ws : List (List UInt8)} {counts arr : List UInt32} {freq : List Int} {n : Nat}

theorem countMatches_map (c : UInt32) (freq : List Int) (f : Int → UInt32) :
    countMatches c freq (freq.map f) =
      freq.map fun cell => if c = intToUint cell then f cell + 1 else f cell := by
  induction freq with
  | nil => rfl
  | cons cell freq ih =>
    rw [List.map_cons, List.map_cons, ← ih]
    rfl

/-- Each cell has the number of the counts that are equal to it. -/
theorem tally_map (freq : List Int) (counts : List UInt32) (f : Int → UInt32) :
    tally freq counts (freq.map f) =
      freq.map fun cell => f cell + UInt32.ofNat (counts.count (intToUint cell)) := by
  induction counts generalizing f with
  | nil =>
    refine List.map_congr_left fun cell _ => ?_
    exact (UInt32.add_zero _).symm
  | cons c counts ih =>
    have hrest := ih fun cell => if c = intToUint cell then f cell + 1 else f cell
    rw [tally, List.foldl_cons, countMatches_map]
    refine hrest.trans (List.map_congr_left fun cell _ => ?_)
    rw [List.count_cons]
    by_cases hc : c = intToUint cell
    · rw [if_pos hc, if_pos (by simpa using hc), UInt32.ofNat_add, UInt32.add_assoc,
        UInt32.add_comm 1]
      rfl
    · rw [if_neg hc, if_neg (by simpa using hc), Nat.add_zero]

theorem mem_occurrences : n ∈ occurrences ws ↔ ∃ w ∈ ws, ws.count w = n := by
  rw [occurrences, Finset.mem_image]
  simp only [List.mem_toFinset]

theorem mem_countsOf {c : UInt32} :
    c ∈ countsOf ws ↔ ∃ w ∈ ws, UInt32.ofNat (ws.count w) = c := by
  rw [countsOf, List.mem_map]
  simp only [mem_firstSeen]

theorem toNat_count {n : Nat} (h : n ≤ intMax) : (UInt32.ofNat n).toNat = n := by
  unfold intMax at h
  rw [UInt32.toNat_ofNat']
  omega

/-- As numbers the counts are those that there are. -/
theorem countsOf_toNat (often : ∀ w ∈ ws, ws.count w ≤ intMax) :
    (∃ c ∈ countsOf ws, c.toNat = n) ↔ n ∈ occurrences ws := by
  rw [mem_occurrences]
  constructor
  · rintro ⟨c, hc, rfl⟩
    obtain ⟨w, hw, rfl⟩ := mem_countsOf.mp hc
    exact ⟨w, hw, (toNat_count (often w hw)).symm⟩
  · rintro ⟨w, hw, rfl⟩
    exact ⟨_, mem_countsOf.mpr ⟨w, hw, rfl⟩, toNat_count (often w hw)⟩

/-- The words with a count are counted by its occurrences among the counts. -/
theorem count_countsOf (often : ∀ w ∈ ws, ws.count w ≤ intMax) (hn : n ≤ intMax) :
    (countsOf ws).count (UInt32.ofNat n) = wordsWith ws n := by
  have hwith : ((firstSeen ws).filter fun w => ws.count w = n).toFinset =
      ws.toFinset.filter fun w => ws.count w = n := by
    ext w
    simp
  rw [wordsWith, ← hwith, List.toFinset_card_of_nodup ((firstSeen_nodup ws).filter _), countsOf,
    List.count, List.countP_map, List.countP_eq_length_filter]
  congr 1
  refine List.filter_congr fun w hw => Bool.eq_iff_iff.mpr ?_
  rw [Function.comp_apply, beq_iff_eq, decide_eq_true_iff, ← UInt32.toNat_inj,
    toNat_count (often w (mem_firstSeen.mp hw)), toNat_count hn]

theorem wordsWith_le (ws : List (List UInt8)) (n : Nat) :
    wordsWith ws n ≤ (firstSeen ws).length := by
  have hsame : ws.toFinset = (firstSeen ws).toFinset := by
    ext w
    simp
  rw [wordsWith, hsame]
  exact (Finset.card_filter_le _ _).trans (List.toFinset_card_le _)

theorem intToUint_ofNat (hn : n ≤ intMax) : intToUint (Int.ofNat n) = UInt32.ofNat n := by
  have hlt : n < 2 ^ 32 := by
    unfold intMax at hn
    omega
  rw [← UInt32.toNat_inj, toNat_count hn]
  exact intToUint_natCast hlt

theorem printRows_map (freq : List Int) (f : Int → UInt32) :
    printRows freq (freq.map f) = String.join (freq.map fun cell => printRow cell (f cell)) := by
  rw [printRows, List.zipWith_map_right, List.zipWith_self]

/-- The rows that are printed for the cells with these numbers. -/
theorem printRows_tally (often : ∀ w ∈ ws, ws.count w ≤ intMax)
    (few : (firstSeen ws).length ≤ intMax) (met : counts.Perm (countsOf ws)) {numbers : List Nat}
    (small : ∀ n ∈ numbers, n ≤ intMax) (hfreq : freq = (firstFew 5 0 numbers).map Int.ofNat) :
    printRows freq (tally freq counts noMatches) = expectedRows ws numbers := by
  have hlen : (firstFew 5 0 numbers).length = 5 := by
    rw [firstFew, List.length_take, List.length_append, List.length_replicate]
    omega
  have hnone : noMatches = freq.map fun _ => 0 := by
    rw [List.map_const', hfreq, List.length_map, hlen]
    rfl
  rw [hnone, tally_map, printRows_map, expectedRows, hfreq, List.map_map]
  congr 1
  refine List.map_congr_left fun n hn => ?_
  have hle : n ≤ intMax := by
    rcases List.mem_append.mp (List.mem_of_mem_take hn) with hnumber | hblank
    · exact small n hnumber
    · rw [List.eq_of_mem_replicate hblank]
      exact Nat.zero_le _
  have hwith : wordsWith ws n ≤ intMax := (wordsWith_le ws n).trans few
  rw [Function.comp_apply, intToUint_ofNat hle, met.count_eq, count_countsOf often hle,
    UInt32.zero_add, printRow, uintToInt_small (by rwa [toNat_count hwith]), toNat_count hwith]
  rfl

end Text

/-! ## The report -/

/-- A file whose words the program can count. -/
structure Manageable (target : Target) (ctype : Ctype) (file : List UInt8) : Prop where
  keys : Distinguished target (words (ctype.byteIsspace target) file)
  strides : CountableStrides (ctype.byteIsspace target) file
  taken : TakesAll target ctype file
  often : ∀ w ∈ words (ctype.byteIsspace target) file,
    (words (ctype.byteIsspace target) file).count w ≤ intMax
  few : (firstSeen (words (ctype.byteIsspace target) file)).length ≤ 16

section Report
variable {σ : Type} {platform : Platform σ} {target : Target} {ctype : Ctype}
  {file : List UInt8} {ws : List (List UInt8)} {g : Globals σ}

theorem falling_unique {s : Finset Nat} {counts : List Nat} (falling : counts.Pairwise (· > ·))
    (same : ∀ n, n ∈ counts ↔ n ∈ s) : counts = s.sort (· ≥ ·) := by
  have hranked : ∀ {l : List Nat}, l.Pairwise (· > ·) → Ranked (fun n : Nat => -(n : Int)) l := by
    intro l h
    refine h.imp fun {a b} hlt => ?_
    change -(a : Int) < -(b : Int)
    omega
  refine ranked_unique (hranked falling) (hranked (Finset.sortedGT_sort s).pairwise) fun n => ?_
  rw [same, Finset.mem_sort]

theorem rising_unique {s : Finset Nat} {counts : List Nat} (rising : counts.Pairwise (· < ·))
    (same : ∀ n, n ∈ counts ↔ n ∈ s) : counts = s.sort (· ≤ ·) := by
  have hsorted : Ranked id (s.sort (· ≤ ·)) := (Finset.sortedLT_sort s).pairwise
  have hranked : Ranked id counts := rising
  refine ranked_unique hranked hsorted fun n => ?_
  rw [same, Finset.mem_sort]

/-- Behind the counting of the words their report is printed. -/
theorem report_ok (counted : Counted target ws g) (cleared : Cleared g.mapStruct)
    (keys : Distinguished target ws) (often : ∀ w ∈ ws, ws.count w ≤ intMax) :
    ∃ enough, ∀ rounds ≥ enough, report platform.ops rounds g = .ok (expected ws) g := by
  have fits : (firstSeen ws).length ≤ intMax :=
    Nat.le_trans counted.length_le (by unfold intMax; omega)
  have hlen : (countsOf ws).length = g.wordsSeen.toNat := by
    rw [countsOf, List.length_map, counted.seen]
  have positive : 0 ∉ countsOf ws := by
    intro hzero
    obtain ⟨w, hw, hcount⟩ := mem_countsOf.mp hzero
    have hpos := List.count_pos_iff.mpr hw
    have hsame := congrArg UInt32.toNat hcount
    rw [toNat_count (often w hw), UInt32.toNat_zero] at hsame
    omega
  have small : ∀ c ∈ countsOf ws, c.toNat ≤ intMax := by
    intro c hc
    obtain ⟨w, hw, rfl⟩ := mem_countsOf.mp hc
    rw [toNat_count (often w hw)]
    exact often w hw
  have listed : ∀ n ∈ occurrences ws, n ≤ intMax := by
    intro n hn
    obtain ⟨w, hw, rfl⟩ := mem_occurrences.mp hn
    exact often w hw
  obtain ⟨mostFreq, leastFreq, ⟨enough, hselect⟩, most, least⟩ :=
    selectCounts_ok (s := g.world) hlen (hlen ▸ counted.seen ▸ fits) positive
  obtain ⟨⟨highs, falling, highs_iff, hmost⟩, ⟨lows, rising, lows_iff, hleast⟩⟩ :=
    selected_of_kept positive small most least
  rw [falling_unique falling fun n => (highs_iff n).trans (countsOf_toNat often)] at hmost
  rw [rising_unique rising fun n => (lows_iff n).trans (countsOf_toNat often)] at hleast
  refine ⟨max enough (g.mapStruct.tableSize + 1), fun rounds hrounds => ?_⟩
  have hselected := hselect rounds (Nat.le_trans (Nat.le_max_left _ _) hrounds)
  have htests : g.mapStruct.tableSize < rounds := Nat.le_trans (Nat.le_max_right _ _) hrounds
  have hat : TableAt platform.ops g.world g.mymap g.mapStruct := counted_tableAt counted cleared
  have hoccupied : (occupiedFrom g.mapStruct 0).length < rounds := by
    have hle := List.length_filter_le (fun p => decide ((g.mapStruct.slot p).keyHash ≠ 0))
      (List.range' 0 (g.mapStruct.tableSize - 0))
    rw [List.length_range'] at hle
    exact Nat.lt_of_le_of_lt hle htests
  have hmem : onWorld (platform.ops.memP g.counts) g = .ok g.counts.data g :=
    onWorld_ok (plain_memP platform.plain counted.plain)
  rw [report]
  change (onWorld (platform.ops.memP g.counts) >>= _) g = _
  rw [bind_of_ok hmem, storedCounts_eq counted, bind_of_ok (onWorld_ok hselected)]
  dsimp only
  rw [bind_of_ok (onWorld_ok (hat.firstIter_ok htests)),
    bind_of_ok (matchesLoop_ok counted cleared htests _ rfl hoccupied noMatches noMatches)]
  dsimp only
  rw [printTables, printRows_tally often fits (met_perm counted keys)
      (fun n hn => listed n ((Finset.mem_sort _).mp hn)) hmost,
    printRows_tally often fits (met_perm counted keys)
      (fun n hn => listed n ((Finset.mem_sort _).mp hn)) hleast]
  rfl

/-- The words are counted, and no slot without a hash has a value. -/
theorem counting_cleared (platform : Platform σ) (r : Nat)
    (manageable : Manageable target ctype file) :
    Counting platform target ctype file
      (fun done g => (Counted target done g ∧ platform.refusals g.world = r) ∧ Cleared g.mapStruct)
      fun _ g => r < platform.refusals g.world where
  calm done g world h hcalm :=
    ⟨(counting_few platform r manageable.keys manageable.few manageable.taken).calm done g world
      h.1 hcalm, h.2⟩
  refused done g world line stop h hpart hline hrefused :=
    (counting_few platform r manageable.keys manageable.few manageable.taken).refused done g world
      line stop h.1 hpart hline hrefused
  outside _ _ _ hnot := absurd manageable.taken hnot
  counts done w within word hbytes ha hd a := by
    rintro g ⟨⟨hcounted, hcleared⟩, halive⟩
    have hword := (counting_few platform r manageable.keys manageable.few manageable.taken).counts
      done w within word hbytes ha hd a g ⟨hcounted, halive⟩
    have hmap : Triple (fun g : Globals σ => Cleared g.mapStruct)
        (countWord platform.ops target word) (fun _ g => Cleared g.mapStruct) fun _ _ => True := by
      refine countWord_map fun mp mp' h v hc hh step => hc.set_step ?_ step
      obtain ⟨h', hh', hne⟩ := manageable.keys.keyed w (within.subset (mem_append_single done))
      rw [hbytes, hh'] at hh
      exact Option.some.inj hh ▸ hne
    have hkept := hmap g hcleared
    cases hrun : countWord platform.ops target word g with
    | error stop g' =>
      rw [hrun] at hword
      exact hword
    | ok u g' =>
      rw [hrun] at hword hkept
      exact ⟨⟨hword.1, hkept⟩, hword.2⟩

theorem wordFreq_settles (platform : Platform σ) (hspace : ctype.byteIsspace target newline = true)
    (manageable : Manageable target ctype file) (fname : String) (world : σ) :
    Settles (fun rounds => wordFreq platform.ops target ctype rounds platform.stack fname
        (some file)) (start world)
      (fun text _ => text = expected (words (ctype.byteIsspace target) file))
      fun _ g => platform.refusals world < platform.refusals g.world := by
  have hread := readWords_settles
    (counting_cleared platform (platform.refusals world) manageable) hspace
    manageable.strides (fun buf g created => ⟨⟨counted_start buf created, created.calm⟩, by
      rw [created.map.created]
      exact Cleared.created _⟩) (fun _ _ _ h => h) fname
  refine hread.seq fun _ g ⟨⟨⟨counted, _⟩, cleared⟩, _⟩ => ?_
  exact .of_ok (report_ok counted cleared manageable.keys manageable.often) rfl

end Report

section Main
variable {σ : Type} {target : Target} {ctype : Ctype}

theorem expected_perm {ws ws' : List (List UInt8)} (perm : ws.Perm ws') :
    expected ws = expected ws' := by
  have hset : ws.toFinset = ws'.toFinset := List.toFinset_eq_of_perm _ _ perm
  have hcount : ws.count = ws'.count := funext perm.count_eq
  have hwith : wordsWith ws = wordsWith ws' := by
    funext n
    simp only [wordsWith, hset, perm.count_eq]
  have hoccurrences : occurrences ws = occurrences ws' := by
    rw [occurrences, occurrences, hset, hcount]
  have hrows : expectedRows ws = expectedRows ws' := by
    funext numbers
    unfold expectedRows expectedRow
    rw [hwith]
  unfold expected
  rw [hoccurrences, hrows]

end Main

/-! ## Three words, one of them twice -/

theorem letters_manageable {ws : List (List UInt8)} (hws : ∀ w ∈ ws, w ∈ letters)
    (few : ws.length ≤ 16) : Manageable ⟨true⟩ blanks (linesOf ws) := by
  have hwords : words (blanks.byteIsspace ⟨true⟩) (linesOf ws) = ws :=
    words_linesOf rfl fun w hw => letters_vocabulary.written w (hws w hw)
  have htaken : ∀ w ∈ letters, TakesAll ⟨true⟩ blanks w := by decide +kernel
  refine ⟨?_, countable_linesOf rfl (fun w hw => letters_vocabulary.written w (hws w hw))
    fun w hw => letters_vocabulary.short w (hws w hw),
    takesAll_linesOf fun w hw => htaken w (hws w hw), ?_, ?_⟩
  · rw [hwords]
    exact letters_vocabulary.toDistinguished.sub hws
  · rw [hwords]
    intro w _
    have hle : ws.count w ≤ ws.length := List.count_le_length
    unfold intMax
    omega
  · rw [hwords]
    have hsub : (firstSeen ws).toFinset = ws.toFinset := by
      ext w
      simp
    have hcard := List.toFinset_card_of_nodup (firstSeen_nodup ws)
    rw [hsub] at hcard
    exact hcard ▸ (List.toFinset_card_le ws).trans few

end M65Tool.Guarantees.WordReport
