import M65Tool.Lib.FirstSeen
import M65Tool.Guarantees.MapSizing
import M65Tool.Source.HashMapMeaning
import M65Tool.Source.WordFreqReading

/-!
# COUNTED-WORDS: counting while the map does not grow

As long as the map has its first table, the words counted so far are found in it in the
order in which they first came: the value of the i-th is the i-th element of the array,
and the element has its number. Counting a word keeps this, a new word only while the
table is not more than half full with it.
-/
namespace M65Tool.Guarantees.CountedWords
open Source Source.Mem Source.MapHash Source.HashMap Source.StringBuffer Source.StrFunctions
  Source.WordFreq Lib.Effect Lib.FirstSeen MapSizing

/-! ## The calls on the map -/

section Calls
variable {σ : Type} {platform : Platform σ} {target : Target} {mh value : MemHandle} {mp : Map}
  {word : Str} {h : UInt32} {v : MemHandle} {pos : Nat} {s : σ}

theorem memP_unowned (platform : Platform σ) {handle : MemHandle}
    (ha : handle.allocator = .notAllocated) (hd : handle.data ≠ 0) (s : σ) :
    platform.ops.memP handle s = .ok handle.data s := by
  change memP platform.spec handle s = _
  rw [memP, if_pos (memIsValid_eq_true.mpr hd), ha, platform.unowned]
  rfl

theorem hashStr_word (platform : Platform σ) (ha : word.handle.allocator = .notAllocated)
    (hd : word.handle.data ≠ 0) (hh : hashBytes target word.bytes = some h) (s : σ) :
    hashStr platform.ops target word s = .ok h s := by
  have hread : derefKey platform.ops word s = .ok () s := by
    unfold derefKey
    split
    · rfl
    · rw [deref, bind_of_ok (memP_unowned platform ha hd s), if_neg hd]
      rfl
  rw [hashStr, bind_of_ok hread, hh]
  rfl

theorem mapGetStr_word (platform : Platform σ) (attached : Attached .plain mh mp)
    (ha : word.handle.allocator = .notAllocated) (hd : word.handle.data ≠ 0)
    (hh : hashBytes target word.bytes = some h) (hl : lookup mp h = some v) (s : σ) :
    mapGetStr platform.ops target mh mp word s = .ok v s := by
  rw [mapGetStr, bind_of_ok (attached.mapIsValid_run platform.plainServes s), if_pos rfl,
    bind_of_ok (hashStr_word platform ha hd hh s), doGet,
    bind_of_ok (attached.derefTable_run platform.plainServes s), hl]
  rfl

theorem mapSetStr_word (platform : Platform σ) (attached : Attached .plain mh mp)
    (ha : word.handle.allocator = .notAllocated) (hd : word.handle.data ≠ 0)
    (hh : hashBytes target word.bytes = some h) (hva : value.allocator = .notAllocated)
    (hvd : value.data ≠ 0) (s : σ) :
    mapSetStr platform.ops target mh mp word value s = doSet platform.ops mh mp h value s := by
  rw [mapSetStr, bind_of_ok (attached.mapIsValid_run platform.plainServes s), if_pos rfl,
    bind_of_ok (memP_unowned platform hva hvd s), if_neg hvd,
    bind_of_ok (hashStr_word platform ha hd hh s)]

/-- A new key for which the table has room. -/
theorem doSet_inserts (platform : Platform σ) (attached : Attached .plain mh mp)
    (found : findEntryPos mp h = some pos) (free : (mp.slot pos).keyHash = 0)
    (fits : mp.counted.entryCount ≤ mp.tableSize / 2) (v : MemHandle) (s : σ) :
    doSet platform.ops mh mp h v s = .ok (true, mp.counted.store pos ⟨h, v⟩) s := by
  have hroom : ¬ mp.counted.entryCount > mp.counted.tableSize / 2 := Nat.not_lt.mpr fits
  rw [doSet, bind_of_ok (attached.derefTable_run platform.plainServes s), found]
  simp only [orNoEntryPos, pure_bind_run]
  rw [if_pos free, if_neg hroom]
  rfl

/-- `map_set` on the map of the program. -/
theorem setWord_ok {ops : MemOps σ} {g : Globals σ} {b : Bool} {mp' : Map} {s' : σ}
    (hset : mapSetStr ops target g.mymap g.mapStruct word value g.world = .ok (b, mp') s') :
    setWord ops target word value g = .ok b { g with world := s', mapStruct := mp' } := by
  have hcall : onWorld (mapSetStr ops target g.mymap g.mapStruct word value) g =
      .ok (b, mp') { g with world := s' } := onWorld_run hset
  rw [setWord]
  change (onWorld _ >>= _) g = _
  rw [bind_of_ok hcall]
  rfl

end Calls

/-! ## The elements of the array -/

/-- The array of the first size. -/
structure FirstArray {σ : Type} (g : Globals σ) : Prop where
  size : g.counts.size = sizeofUint * initialCountsSize
  length : g.cells.length = initialCountsSize
  plain : g.counts.allocator = .plain
  data : g.counts.data ≠ 0
  ends : g.counts.data.toNat + g.counts.size < 2 ^ 64

/-- `mem_handle_from_ptr(&arr[i], sizeof(unsigned int))`. -/
def element {σ : Type} (g : Globals σ) (i : Nat) : MemHandle :=
  memHandleFromPtr (g.counts.data + UInt64.ofNat (sizeofUint * i)) sizeofUint

section Elements
variable {σ : Type} {g : Globals σ} {i : Nat}

theorem FirstArray.toNat_element (array : FirstArray g) (hi : i < initialCountsSize) :
    (element g i).data.toNat = g.counts.data.toNat + sizeofUint * i := by
  have hends := array.ends
  rw [array.size] at hends
  have hle : sizeofUint * i ≤ sizeofUint * initialCountsSize := Nat.mul_le_mul_left _ (by omega)
  exact toNat_add_ofNat (by omega)

theorem FirstArray.element_ne (array : FirstArray g) (hi : i < initialCountsSize) :
    (element g i).data ≠ 0 := by
  intro hz
  have hto := array.toNat_element hi
  rw [hz, UInt64.toNat_zero] at hto
  exact array.data (UInt64.toNat_inj.mp (by rw [UInt64.toNat_zero]; omega))

theorem FirstArray.countIndex_element (array : FirstArray g) (hi : i < initialCountsSize) :
    countIndex g (element g i).data = some i := by
  have hoffset : ((element g i).data - g.counts.data).toNat = sizeofUint * i := by
    have hlt : sizeofUint * i < 2 ^ 64 := by
      unfold sizeofUint
      unfold initialCountsSize at hi
      omega
    change (g.counts.data + UInt64.ofNat (sizeofUint * i) - g.counts.data).toNat = _
    rw [UInt64.add_comm, UInt64.add_sub_cancel, UInt64.toNat_ofNat', Nat.mod_eq_of_lt hlt]
  have hpos : 0 < sizeofUint := by decide
  unfold countIndex
  simp only [hoffset, Nat.mul_mod_right, Nat.mul_div_cancel_left i hpos, array.length, hi,
    and_self, if_true]

end Elements

/-! ## The words counted so far -/

/-- The keys of the words are different, and none is the mark of an empty slot. -/
structure Distinguished (target : Target) (ws : List (List UInt8)) : Prop where
  keyed : ∀ w ∈ ws, ∃ h, hashBytes target w = some h ∧ h ≠ 0
  apart : ∀ w ∈ ws, ∀ w' ∈ ws, hashBytes target w = hashBytes target w' → w = w'

theorem Distinguished.sub {target : Target} {ws ws' : List (List UInt8)} (keys : Distinguished target ws)
    (h : ∀ w ∈ ws', w ∈ ws) : Distinguished target ws' :=
  ⟨fun w hw => keys.keyed w (h w hw), fun w hw w' hw' => keys.apart w (h w hw) w' (h w' hw')⟩

/-- The array and the map when these words have been counted. -/
structure Counted {σ : Type} (target : Target) (done : List (List UInt8)) (g : Globals σ) :
    Prop extends FirstArray g where
  seen : g.wordsSeen.toNat = (firstSeen done).length
  counts : ∀ (i : Nat) (w : List UInt8), (firstSeen done)[i]? = some w →
    g.cells[i]? = some (some (UInt32.ofNat (done.count w)))
  attached : Attached .plain g.mymap g.mapStruct
  sizing : Sizing g.mapStruct
  tableSize : g.mapStruct.tableSize = initialTableSize
  entryCount : g.mapStruct.entryCount = (firstSeen done).length
  wellPlaced : g.mapStruct.WellPlaced
  holds_iff : ∀ h v, g.mapStruct.Holds h v ↔
    ∃ (i : Nat) (w : List UInt8), (firstSeen done)[i]? = some w ∧
      hashBytes target w = some h ∧ h ≠ 0 ∧ v = element g i

section Steps
variable {σ : Type} {platform : Platform σ} {target : Target} {done : List (List UInt8)}
  {g : Globals σ} {w : List UInt8} {word : Str} {h : UInt32}

/-- The words of a table that is at most half full number at most sixteen. -/
theorem Counted.length_le (counted : Counted target done g) : (firstSeen done).length ≤ 16 := by
  have hcount := counted.sizing.count_le
  rw [counted.entryCount, counted.tableSize] at hcount
  exact hcount

theorem counted_start (buf : MemHandle × Strbuf) {r : Nat} (created : Created platform r buf g) :
    Counted target [] g where
  size := created.counts.size
  length := by rw [created.counts.none_stored, List.length_replicate]
  plain := created.counts.plain
  data := created.counts.data
  ends := created.counts.ends
  seen := by rw [created.counts.none_seen]; rfl
  counts _ _ hnone := by cases hnone
  attached := created.map.attached
  sizing := by
    rw [created.map.created]
    exact Sizing.created _
  tableSize := by rw [created.map.created]; rfl
  entryCount := by rw [created.map.created]; rfl
  wellPlaced := by
    rw [created.map.created]
    exact Map.created_wellPlaced _
  holds_iff h v := by
    rw [created.map.created]
    refine iff_of_false (Map.created_holds _ h v) ?_
    rintro ⟨i, w, hnone, -⟩
    cases hnone

/-- The world can change between two words. -/
theorem Counted.frame (counted : Counted target done g) (world : σ) :
    Counted target done { g with world := world } :=
  { counted with }

/-- A word that has been counted is found at its element. -/
theorem Counted.lookup_old (counted : Counted target done g) {i : Nat}
    (hi : (firstSeen done)[i]? = some w) (hh : hashBytes target w = some h) (hne : h ≠ 0) :
    lookup g.mapStruct h = some (element g i) :=
  counted.wellPlaced.lookup_of_holds ((counted.holds_iff h _).mpr ⟨i, w, hi, hh, hne, rfl⟩)

theorem Counted.absent (counted : Counted target done g)
    (keys : Distinguished target (done ++ [w])) (hnew : w ∉ done)
    (hh : hashBytes target w = some h) (v : MemHandle) : ¬ g.mapStruct.Holds h v := by
  intro hholds
  obtain ⟨i, w', hi, hh', -, -⟩ := (counted.holds_iff h v).mp hholds
  have hmem : w' ∈ done := mem_firstSeen.mp (List.mem_of_getElem? hi)
  have hsame := keys.apart w' (List.mem_append_left _ hmem) w
    (List.mem_append_right _ (List.mem_singleton.mpr rfl)) (hh'.trans hh.symm)
  exact hnew (hsame ▸ hmem)

/-- A word that has not been counted is not found, and its probe ends at a free slot. -/
theorem Counted.lookup_new (counted : Counted target done g)
    (keys : Distinguished target (done ++ [w])) (hnew : w ∉ done)
    (hh : hashBytes target w = some h) :
    lookup g.mapStruct h = some .zero ∧
      ∃ pos, findEntryPos g.mapStruct h = some pos ∧ (g.mapStruct.slot pos).keyHash = 0 := by
  have hnone := counted.absent keys hnew hh
  constructor
  · obtain ⟨r, hr⟩ := counted.sizing.lookup_returns h
    rcases counted.wellPlaced.lookup_cases hr with hholds | ⟨rfl, -⟩
    · exact absurd hholds (hnone r)
    · exact hr
  · obtain ⟨pos, hlt, found, hstop⟩ := counted.sizing.finds h
    refine ⟨pos, found, ?_⟩
    by_contra hne
    have hkey := hstop.resolve_right hne
    rw [hkey] at hne
    refine hnone (g.mapStruct.slot pos).valueHandle ⟨hne, pos, hlt, ?_⟩
    rw [← hkey]

theorem count_append_self (done : List (List UInt8)) (w : List UInt8) :
    (done ++ [w]).count w = done.count w + 1 := by
  rw [List.count_append, List.count_singleton_self]

theorem count_append_ne {w' : List UInt8} (hne : w' ≠ w) :
    (done ++ [w]).count w' = done.count w' := by
  rw [List.count_append, List.count_singleton, if_neg (by simpa using hne.symm), Nat.add_zero]

/-- The globals when a new word has been seen. -/
def withSeen (g : Globals σ) : Globals σ :=
  { g with wordsSeen := g.wordsSeen + 1, newAt := g.wordsSeen :: g.newAt }

/-- The array does not grow: its number of bytes is more than the words. -/
theorem newWord_eq (platform : Platform σ) (array : FirstArray g)
    (hseen : g.wordsSeen.toNat ≤ initialCountsSize) (target : Target) (word : Str) :
    newWord platform.ops target word g =
      (do
        let stored ← setWord platform.ops target word (element g g.wordsSeen.toNat)
        if stored then storeCount g.counts.data g.wordsSeen 1
        else throw (.exit (puts "Error adding new key to map\n")) : Prog σ Unit) (withSeen g) := by
  have hincr : incrWordsSeen g = .ok () (withSeen g) := rfl
  have hsmall : ¬ (withSeen g).wordsSeen.toNat > (withSeen g).counts.size := by
    change ¬ (g.wordsSeen + 1).toNat > g.counts.size
    rw [array.size, UInt32.toNat_add]
    unfold sizeofUint
    unfold initialCountsSize at hseen ⊢
    have hone : (1 : UInt32).toNat = 1 := rfl
    omega
  have hgrow : growCounts platform.ops (withSeen g) = .ok () (withSeen g) := by
    rw [growCounts]
    change (if _ then _ else _ : Prog σ Unit) (withSeen g) = _
    rw [if_neg hsmall]
    rfl
  have hmem : onWorld (platform.ops.memP (withSeen g).counts) (withSeen g) =
      .ok g.counts.data (withSeen g) := onWorld_ok (plain_memP platform.plain array.plain)
  have hback : (withSeen g).wordsSeen - 1 = g.wordsSeen := UInt32.add_sub_cancel _ _
  rw [newWord, bind_of_ok hincr, bind_of_ok hgrow]
  change (onWorld (platform.ops.memP (withSeen g).counts) >>= _) (withSeen g) = _
  rw [bind_of_ok hmem, hback]
  rfl

/-- A word that has been counted before is counted up. -/
theorem Counted.old_word (counted : Counted target done g)
    (keys : Distinguished target (done ++ [w])) (hold : w ∈ done) (hbytes : word.bytes = w)
    (ha : word.handle.allocator = .notAllocated) (hd : word.handle.data ≠ 0) :
    ∃ g', countWord platform.ops target word g = .ok () g' ∧ Counted target (done ++ [w]) g' ∧
      g'.world = g.world := by
  obtain ⟨i, hi⟩ := List.mem_iff_getElem?.mp (mem_firstSeen.mpr hold)
  obtain ⟨h, hh, hne⟩ := keys.keyed w (List.mem_append_left _ hold)
  obtain ⟨hilt, -⟩ := List.getElem?_eq_some_iff.mp hi
  have hle := counted.length_le
  have hin : i < initialCountsSize := by
    unfold initialCountsSize
    omega
  have hfound := counted.lookup_old hi hh hne
  rw [← hbytes] at hh
  have hget := mapGetStr_word platform counted.attached ha hd hh hfound g.world
  have helem := counted.element_ne hin
  have hincr := incrCount_ok helem (counted.countIndex_element hin) (counted.counts i w hi)
  refine ⟨{ g with cells := g.cells.set i (some (UInt32.ofNat (done.count w) + 1)) }, ?_, ?_, rfl⟩
  · rw [countWord]
    change (onWorld _ >>= _) g = _
    rw [bind_of_ok (onWorld_ok hget), if_pos (memIsValid_eq_true.mpr helem),
      bind_of_ok (onWorld_ok (memP_unowned platform rfl helem g.world)), hincr]
  · have hfirst : firstSeen (done ++ [w]) = firstSeen done := firstSeen_old hold
    have hlen : i < g.cells.length := by
      rw [counted.length]
      exact hin
    refine { counted with
      length := List.length_set.trans counted.length
      seen := by rw [hfirst]; exact counted.seen
      counts := ?_
      entryCount := by rw [hfirst]; exact counted.entryCount
      holds_iff := by rw [hfirst]; exact counted.holds_iff }
    intro j w' hj
    rw [hfirst] at hj
    dsimp only
    by_cases hij : i = j
    · subst hij
      obtain rfl : w = w' := Option.some.inj (hi.symm.trans hj)
      rw [List.getElem?_set_self hlen, count_append_self, UInt32.ofNat_add]
      rfl
    · have hne' : w' ≠ w := by
        rintro rfl
        exact hij (firstSeen_inj hi hj)
      rw [List.getElem?_set_ne hij, count_append_ne hne']
      exact counted.counts j w' hj

theorem mem_append_single {w : List UInt8} (done : List (List UInt8)) : w ∈ done ++ [w] :=
  List.mem_append_right _ (List.mem_singleton.mpr rfl)

/-- A word that is not in the map goes on to `newWord`. -/
theorem Counted.countWord_new (counted : Counted target done g)
    (keys : Distinguished target (done ++ [w])) (hnew : w ∉ done) (hbytes : word.bytes = w)
    (ha : word.handle.allocator = .notAllocated) (hd : word.handle.data ≠ 0) :
    countWord platform.ops target word g = newWord platform.ops target word g := by
  obtain ⟨h, hh, -⟩ := keys.keyed w (mem_append_single done)
  obtain ⟨hnone, -⟩ := counted.lookup_new keys hnew hh
  rw [← hbytes] at hh
  have hget := mapGetStr_word platform counted.attached ha hd hh hnone g.world
  rw [countWord]
  change (onWorld _ >>= _) g = _
  rw [bind_of_ok (onWorld_ok hget), if_neg (by simp [MemHandle.zero])]

/-- The globals when a new word has its element. -/
def withWord (g : Globals σ) (mapStruct : Map) : Globals σ :=
  { g with
    wordsSeen := g.wordsSeen + 1
    newAt := g.wordsSeen :: g.newAt
    mapStruct := mapStruct
    cells := g.cells.set g.wordsSeen.toNat (some 1) }

theorem withWord_seen {mapStruct : Map} (h : g.wordsSeen.toNat < initialCountsSize) :
    (withWord g mapStruct).wordsSeen.toNat = g.wordsSeen.toNat + 1 := by
  have hone : (1 : UInt32).toNat = 1 := rfl
  change (g.wordsSeen + 1).toNat = _
  rw [UInt32.toNat_add]
  unfold initialCountsSize at h
  omega

theorem Counted.seen_lt (counted : Counted target done g) :
    g.wordsSeen.toNat < initialCountsSize := by
  have hle := counted.length_le
  rw [counted.seen]
  unfold initialCountsSize
  omega

/-- The element of the new word is 1, and those of the words before it are as they were. -/
theorem Counted.cells_with_word (counted : Counted target done g) (hnew : w ∉ done) {i : Nat}
    {w' : List UInt8} (hi : (firstSeen (done ++ [w]))[i]? = some w') :
    (g.cells.set g.wordsSeen.toNat (some 1))[i]? =
      some (some (UInt32.ofNat ((done ++ [w]).count w'))) := by
  have hseen := counted.seen
  have hcells : g.wordsSeen.toNat < g.cells.length := by
    rw [counted.length]
    exact counted.seen_lt
  rcases getElem?_firstSeen_new hnew hi with ⟨rfl, rfl⟩ | hi'
  · rw [← hseen, List.getElem?_set_self hcells, count_append_self,
      List.count_eq_zero_of_not_mem hnew]
    rfl
  · have hlt := (List.getElem?_eq_some_iff.mp hi').1
    have hne : w' ≠ w := by
      rintro rfl
      exact hnew (mem_firstSeen.mp (List.mem_of_getElem? hi'))
    rw [List.getElem?_set_ne (by omega), count_append_ne hne]
    exact counted.counts i w' hi'

/-- The map holds the new word's hash with its element, and the others as before. -/
theorem Counted.holds_with_word (counted : Counted target done g)
    (keys : Distinguished target (done ++ [w])) (hnew : w ∉ done)
    (hh : hashBytes target w = some h) (hne : h ≠ 0) {pos : Nat}
    (found : findEntryPos g.mapStruct h = some pos) (h' : UInt32) (v' : MemHandle) :
    (g.mapStruct.counted.store pos ⟨h, element g g.wordsSeen.toNat⟩).Holds h' v' ↔
      ∃ i w', (firstSeen (done ++ [w]))[i]? = some w' ∧ hashBytes target w' = some h' ∧ h' ≠ 0 ∧
        v' = element g i := by
  have hfirst : firstSeen (done ++ [w]) = firstSeen done ++ [w] := firstSeen_new hnew
  have hseen := counted.seen
  have hplaced : g.mapStruct.counted.WellPlaced := counted.wellPlaced
  have hold : g.mapStruct.counted.Holds h' v' ↔ _ := counted.holds_iff h' v'
  have hstore := hplaced.holds_store (v := element g g.wordsSeen.toNat) counted.sizing.shaped
    (found.symm ▸ findEntryPos_counted g.mapStruct h) h' v'
  rw [hstore, hold]
  constructor
  · rintro (⟨rfl, -, rfl⟩ | ⟨-, i, w', hi, hh', hne', rfl⟩)
    · refine ⟨(firstSeen done).length, w, ?_, hh, hne, by rw [hseen]⟩
      rw [hfirst, List.getElem?_concat_length]
    · refine ⟨i, w', ?_, hh', hne', rfl⟩
      rw [hfirst, List.getElem?_append_left (List.getElem?_eq_some_iff.mp hi).1, hi]
  · rintro ⟨i, w', hi, hh', hne', rfl⟩
    rcases getElem?_firstSeen_new hnew hi with ⟨rfl, rfl⟩ | hi'
    · exact Or.inl ⟨Option.some.inj (hh'.symm.trans hh), hne, by rw [hseen]⟩
    · refine Or.inr ⟨?_, i, w', hi', hh', hne', rfl⟩
      rintro rfl
      exact counted.absent keys hnew hh (element g i)
        ((counted.holds_iff h' _).mpr ⟨i, w', hi', hh', hne', rfl⟩)

/-- A new word that the map takes is counted. -/
theorem Counted.with_word (counted : Counted target done g)
    (keys : Distinguished target (done ++ [w])) (hnew : w ∉ done)
    (hh : hashBytes target w = some h) (hne : h ≠ 0) {pos : Nat}
    (found : findEntryPos g.mapStruct h = some pos) (free : (g.mapStruct.slot pos).keyHash = 0)
    (hroom : incrUint g.mapStruct.entryCount ≤ g.mapStruct.tableSize / 2) :
    Counted target (done ++ [w])
      (withWord g (g.mapStruct.counted.store pos ⟨h, element g g.wordsSeen.toNat⟩)) := by
  have hlen : (firstSeen (done ++ [w])).length = (firstSeen done).length + 1 := by
    rw [firstSeen_new hnew, List.length_append, List.length_singleton]
  have step : SetStep g.mapStruct h (element g g.wordsSeen.toNat) true _ :=
    .insert pos found free hroom
  refine { counted with
    length := List.length_set.trans counted.length
    seen := ?_
    counts := fun i w' hi => counted.cells_with_word hnew hi
    attached := counted.attached.congr rfl
    sizing := counted.sizing.set_step step
    tableSize := counted.tableSize
    entryCount := ?_
    wellPlaced := counted.wellPlaced.set_step counted.sizing.shaped step
    holds_iff := counted.holds_with_word keys hnew hh hne found }
  · rw [withWord_seen counted.seen_lt, hlen, counted.seen]
  · change incrUint g.mapStruct.entryCount = _
    rw [counted.sizing.incr, counted.entryCount, hlen]

/-- A new word takes the next element, while the table has room. -/
theorem Counted.new_word (counted : Counted target done g)
    (keys : Distinguished target (done ++ [w])) (hnew : w ∉ done)
    (fits : (firstSeen done).length < 16) (hbytes : word.bytes = w)
    (ha : word.handle.allocator = .notAllocated) (hd : word.handle.data ≠ 0) :
    ∃ g', countWord platform.ops target word g = .ok () g' ∧ Counted target (done ++ [w]) g' ∧
      g'.world = g.world := by
  obtain ⟨h, hh, hne⟩ := keys.keyed w (mem_append_single done)
  obtain ⟨-, pos, found, free⟩ := counted.lookup_new keys hnew hh
  have hin := counted.seen_lt
  have helem := counted.element_ne hin
  have hkey : hashBytes target word.bytes = some h := by rw [hbytes, hh]
  have hroom : incrUint g.mapStruct.entryCount ≤ g.mapStruct.tableSize / 2 := by
    rw [counted.sizing.incr, counted.entryCount, counted.tableSize]
    exact fits
  refine ⟨_, ?_, counted.with_word keys hnew hh hne found free hroom, rfl⟩
  generalize hstored : g.mapStruct.counted.store pos ⟨h, element g g.wordsSeen.toNat⟩ = mp'
  have hset : mapSetStr platform.ops target g.mymap g.mapStruct word
      (element g g.wordsSeen.toNat) g.world = .ok (true, mp') g.world := by
    rw [mapSetStr_word platform counted.attached ha hd hkey rfl helem, ← hstored]
    exact doSet_inserts platform counted.attached found free hroom _ _
  have hstep : setWord platform.ops target word (element g g.wordsSeen.toNat) (withSeen g) =
      .ok true { withSeen g with mapStruct := mp' } := setWord_ok hset
  rw [counted.countWord_new keys hnew hbytes ha hd,
    newWord_eq platform counted.toFirstArray hin.le target word, bind_of_ok hstep, if_pos rfl]
  exact storeCount_ok counted.data (Nat.lt_of_lt_of_eq hin counted.length.symm)

end Steps
end M65Tool.Guarantees.CountedWords
