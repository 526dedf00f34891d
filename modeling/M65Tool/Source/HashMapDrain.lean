import M65Tool.Source.HashMapMeaning

/-!
# Deleting from a map while iterating over it

A loop that deletes each value its iterator comes to visits positions in increasing
order, passing over the entries whose own lookup does not reach them. A deletion can
cut off later entries, and can halve the table under the cursor. `Walk` is such a
loop on the table alone; `Drains` says, of the hashes in the table, that it visits
them all.
-/
namespace M65Tool.Source.HashMap
open Mem Lib.LinearProbe

namespace Map

/-- The position is occupied, and the lookup of the hash there ends at it. -/
def FoundAt (mp : Map) (pos : Nat) : Prop :=
  ∃ h, mp.keyAt pos = some h ∧ findEntryPos mp h = some pos

/-- No hash is stored twice. -/
def Once (mp : Map) : Prop :=
  ∀ p < mp.tableSize, ∀ q < mp.tableSize, ∀ h,
    mp.keyAt p = some h → mp.keyAt q = some h → p = q

/-- What every run of map calls keeps of the size and the counts, also after failed ones. -/
structure Loaded (mp : Map) : Prop where
  shaped : mp.Shaped
  power : ∃ k, mp.tableSize = initialTableSize * 2 ^ k
  occupied_le : mp.occupied ≤ mp.entryCount
  room : mp.occupied < mp.tableSize
  count_lt : mp.entryCount < 2 ^ 32

end Map

/-- The size of the table once a deletion has left the given count. -/
def shrunkSize (entryCount tableSize : Nat) : Nat :=
  if entryCount < tableSize / 4 ∧ tableSize > initialTableSize then tableSize / 2 else tableSize

/-- The deletion of the entry at a position; `false` if a shrink was refused its block. -/
inductive Drain (mp : Map) (pos : Nat) : Bool → Map → Prop
  | remove (stays : ¬ Shrinks (mp.emptied pos)) : Drain mp pos true (mp.emptied pos)
  | shrink (shrinks : Shrinks (mp.emptied pos)) (newMh : MemHandle) :
      Drain mp pos true ((mp.emptied pos).resized newMh (mp.tableSize / 2))
  | refused (shrinks : Shrinks (mp.emptied pos)) : Drain mp pos false (mp.emptied pos)

/-- The loop from position `start` on, when nothing is refused, with the hashes it visits. -/
inductive Walk : Map → Nat → List UInt32 → Map → Prop
  | done {mp : Map} {start : Nat} (none_found : ∀ q, start ≤ q → ¬ mp.FoundAt q) :
      Walk mp start [] mp
  | visit {mp mp' mp'' : Map} {start pos : Nat} {h : UInt32} {rest : List UInt32}
      (le : start ≤ pos) (key : mp.keyAt pos = some h) (found : findEntryPos mp h = some pos)
      (first : ∀ q, start ≤ q → q < pos → ¬ mp.FoundAt q) (step : Drain mp pos true mp')
      (walk : Walk mp' (pos + 1) rest mp'') : Walk mp start (h :: rest) mp''

/-- In this order each hash has a smaller residue than those after it and one beyond
the cursor, modulo the size that the table has at its turn. -/
def Orderly : Nat → Nat → Nat → List UInt32 → Prop
  | _, _, _, [] => True
  | tableSize, entryCount, start, h :: rest =>
    start ≤ h.toNat % tableSize ∧
    (∀ g ∈ rest, h.toNat % tableSize < g.toNat % tableSize) ∧
    Orderly (shrunkSize (decrUint entryCount) tableSize) (decrUint entryCount)
      (h.toNat % tableSize + 1) rest

/-- After the entry in the lowest occupied slot the other hashes can be put in order. -/
def Drains (mp : Map) : Prop :=
  ∀ low first, low < mp.tableSize → mp.keyAt low = some first →
    (∀ q < low, mp.keyAt q = none) →
    ∃ rest, (∀ h, h ∈ rest ↔ h ≠ first ∧ mp.ring.Stored h) ∧
      Orderly (shrunkSize (decrUint mp.entryCount) mp.tableSize) (decrUint mp.entryCount)
        (low + 1) rest

section Orders
variable {n count start : Nat} {l : List UInt32}

theorem shrunkSize_cases (count : Nat) (hpow : ∃ k, n = initialTableSize * 2 ^ k) :
    shrunkSize count n = n ∨
      (shrunkSize count n = n / 2 ∧ ∃ k, n / 2 = initialTableSize * 2 ^ k ∧ n = 2 * (n / 2)) := by
  unfold shrunkSize
  split
  · rename_i hs
    obtain ⟨k, hk⟩ := hpow
    unfold initialTableSize at hs hk ⊢
    cases k with
    | zero => omega
    | succ k =>
      rw [Nat.pow_succ] at hk
      exact Or.inr ⟨rfl, k, by omega, by omega⟩
  · exact Or.inl rfl

theorem shrunkSize_power (count : Nat) (hpow : ∃ k, n = initialTableSize * 2 ^ k) :
    ∃ k, shrunkSize count n = initialTableSize * 2 ^ k := by
  rcases shrunkSize_cases count hpow with he | ⟨he, k, hk, -⟩
  · rw [he]
    exact hpow
  · exact ⟨k, by rw [he, hk]⟩

/-- A residue modulo the later size is one of the residue modulo the earlier size. -/
theorem mod_mod_shrunkSize (count : Nat) (hpow : ∃ k, n = initialTableSize * 2 ^ k) (m : Nat) :
    m % n % shrunkSize count n = m % shrunkSize count n := by
  rcases shrunkSize_cases count hpow with he | ⟨he, k, -, hn⟩
  · rw [he, Nat.mod_mod]
  · rw [he]
    exact Nat.mod_mod_of_dvd m ⟨2, by omega⟩

theorem mod_shrunkSize_le (count : Nat) (hpow : ∃ k, n = initialTableSize * 2 ^ k) (m : Nat) :
    m % shrunkSize count n ≤ m % n := by
  rw [← mod_mod_shrunkSize count hpow m]
  exact Nat.mod_le _ _

theorem Orderly.start_le (ho : Orderly n count start l) {h : UInt32} (hm : h ∈ l) :
    start ≤ h.toNat % n := by
  cases l with
  | nil => cases hm
  | cons g rest =>
    obtain ⟨hstart, hless, -⟩ := ho
    rcases List.mem_cons.mp hm with rfl | hrest
    · exact hstart
    · have := hless h hrest
      omega

/-- The hashes have distinct residues, modulo this size already. -/
theorem Orderly.residue_inj (hpow : ∃ k, n = initialTableSize * 2 ^ k)
    (ho : Orderly n count start l) {h g : UInt32} (hh : h ∈ l) (hg : g ∈ l)
    (he : h.toNat % n = g.toNat % n) : h = g := by
  induction l generalizing n count start with
  | nil => cases hh
  | cons f rest ih =>
    obtain ⟨-, hless, horder⟩ := ho
    rcases List.mem_cons.mp hh with hhf | hhrest
    · rcases List.mem_cons.mp hg with hgf | hgrest
      · rw [hhf, hgf]
      · have := hless g hgrest
        rw [hhf] at he
        omega
    · rcases List.mem_cons.mp hg with hgf | hgrest
      · have := hless h hhrest
        rw [hgf] at he
        omega
      · refine ih (shrunkSize_power _ hpow) horder hhrest hgrest ?_
        rw [← mod_mod_shrunkSize _ hpow h.toNat, he, mod_mod_shrunkSize _ hpow]

end Orders

/-! ## One deletion -/

namespace Map
variable {mp mp' : Map} {pos q : Nat} {h g : UInt32}

theorem Shaped.emptied_ring_eq (hs : mp.Shaped) (hp : pos < mp.tableSize) :
    (mp.emptied pos).ring = mp.ring.clear pos := by
  rw [emptied_ring, ring_store_empty (by rw [hs]; exact hp)]

theorem Shaped.emptied_keyAt (hs : mp.Shaped) (hp : pos < mp.tableSize) (q : Nat) :
    (mp.emptied pos).keyAt q = if q = pos then none else mp.keyAt q := by
  change (mp.emptied pos).ring.slot q = _
  rw [hs.emptied_ring_eq hp]
  rfl

/-- Beyond the block there are no entries. -/
theorem lt_of_keyAt (hs : mp.Shaped) (hk : mp.keyAt q = some h) : q < mp.tableSize := by
  by_contra hn
  have hge : mp.entries.length ≤ q := by
    rw [hs]
    omega
  obtain ⟨hhash, hne⟩ := keyAt_eq_some.mp hk
  unfold slot at hhash
  rw [List.getD_eq_getElem?_getD, List.getElem?_eq_none hge] at hhash
  exact hne hhash.symm

theorem WellPlaced.once (hw : mp.WellPlaced) : mp.Once :=
  fun _ hp _ hq _ hpk hqk => hw.unique hp hq hpk hqk

theorem Once.holds_unique (once : mp.Once) {v v' : MemHandle} (hv : mp.Holds h v)
    (hv' : mp.Holds h v') : v = v' := by
  obtain ⟨p, hp, hk, rfl⟩ := holds_iff.mp hv
  obtain ⟨q, hq, hk', rfl⟩ := holds_iff.mp hv'
  rw [once p hp q hq h hk hk']

theorem stored_emptied_iff (hs : mp.Shaped) (once : mp.Once) (hp : pos < mp.tableSize)
    (hk : mp.keyAt pos = some h) :
    (mp.emptied pos).ring.Stored g ↔ g ≠ h ∧ mp.ring.Stored g := by
  constructor
  · intro ⟨q, hq, hqk⟩
    rw [ring_slot, hs.emptied_keyAt hp] at hqk
    by_cases he : q = pos
    · rw [if_pos he] at hqk
      cases hqk
    · rw [if_neg he] at hqk
      refine ⟨?_, q, hq, hqk⟩
      intro hgh
      rw [hgh] at hqk
      exact he (once q hq pos hp h hqk hk)
  · intro ⟨hne, q, hq, hqk⟩
    refine ⟨q, hq, ?_⟩
    have he : q ≠ pos := by
      intro he
      rw [he, ring_slot, hk] at hqk
      exact hne (Option.some.inj hqk).symm
    rw [ring_slot, hs.emptied_keyAt hp, if_neg he]
    exact hqk

theorem Shaped.emptied_occupied_succ (hs : mp.Shaped) (hp : pos < mp.tableSize)
    (hk : mp.keyAt pos = some h) : (mp.emptied pos).occupied + 1 = mp.occupied := by
  have hlen : pos < mp.entries.length := by
    rw [hs]
    exact hp
  obtain ⟨hhash, hne⟩ := keyAt_eq_some.mp hk
  have hstore := occupied_store hlen .empty
  have hz : MapEntry.empty.keyHash = 0 := rfl
  rw [if_neg (by rw [hhash]; exact hne), if_pos hz, ← emptied_occupied] at hstore
  exact hstore

theorem emptied_once (hs : mp.Shaped) (once : mp.Once) (hp : pos < mp.tableSize) :
    (mp.emptied pos).Once := by
  intro a ha b hb k hak hbk
  rw [hs.emptied_keyAt hp] at hak hbk
  split at hak
  · cases hak
  · split at hbk
    · cases hbk
    · exact once a ha b hb k hak hbk

end Map

namespace Drain
variable {mp mp' : Map} {pos : Nat} {h g : UInt32} {granted : Bool}

theorem eq_emptied_or (step : Drain mp pos granted mp') : mp' = mp.emptied pos ∨
    Shrinks (mp.emptied pos) ∧
      ∃ newMh, mp' = (mp.emptied pos).resized newMh (mp.tableSize / 2) := by
  cases step with
  | remove stays => exact Or.inl rfl
  | shrink shrinks newMh => exact Or.inr ⟨shrinks, newMh, rfl⟩
  | refused shrinks => exact Or.inl rfl

theorem entryCount_eq (step : Drain mp pos granted mp') :
    mp'.entryCount = decrUint mp.entryCount := by
  cases step <;> rfl

theorem tableSize_eq (step : Drain mp pos true mp') :
    mp'.tableSize = shrunkSize (decrUint mp.entryCount) mp.tableSize := by
  unfold shrunkSize
  cases step with
  | remove stays => exact (if_neg stays).symm
  | shrink shrinks newMh => exact (if_pos shrinks).symm

theorem once (step : Drain mp pos granted mp') (hs : mp.Shaped) (once : mp.Once)
    (hp : pos < mp.tableSize) : mp'.Once := by
  rcases step.eq_emptied_or with rfl | ⟨-, newMh, rfl⟩
  · exact Map.emptied_once hs once hp
  · exact Map.WellPlaced.once Map.resized_wellPlaced

theorem occupied_lt (step : Drain mp pos granted mp') (hs : mp.Shaped) (hp : pos < mp.tableSize)
    (hk : mp.keyAt pos = some h) : mp'.occupied < mp.occupied := by
  have hocc := hs.emptied_occupied_succ hp hk
  rcases step.eq_emptied_or with rfl | ⟨-, newMh, rfl⟩
  · omega
  · have hle : ((mp.emptied pos).resized newMh (mp.tableSize / 2)).occupied ≤
        (mp.emptied pos).occupied := Map.resized_occupied_le
    omega

/-- A deletion makes no entries. -/
theorem holds_of (step : Drain mp pos granted mp') (hs : mp.Shaped) (hp : pos < mp.tableSize)
    {v : MemHandle} (hg : mp'.Holds g v) : mp.Holds g v := by
  have hlen : pos < mp.entries.length := by
    rw [hs]
    exact hp
  rcases step.eq_emptied_or with rfl | ⟨-, newMh, rfl⟩
  · exact holds_of_emptied hlen hg
  · exact holds_of_emptied hlen ((hs.emptied pos).holds_of_resized hg)

theorem stored_of (step : Drain mp pos granted mp') (hs : mp.Shaped) (once : mp.Once)
    (hp : pos < mp.tableSize) (hk : mp.keyAt pos = some h) (hg : mp'.ring.Stored g) :
    g ≠ h ∧ mp.ring.Stored g := by
  rw [← Map.stored_emptied_iff hs once hp hk]
  rcases step.eq_emptied_or with rfl | ⟨-, newMh, rfl⟩
  · exact hg
  · rw [Map.stored_iff_holds] at hg ⊢
    obtain ⟨v, hv⟩ := hg
    exact ⟨v, (hs.emptied pos).holds_of_resized hv⟩

theorem slot_cases (step : Drain mp pos granted mp') (hs : mp.Shaped) (hp : pos < mp.tableSize)
    {q : Nat} (hq : q < mp'.tableSize) :
    mp'.slot q = .empty ∨ ∃ p < mp.tableSize, mp'.slot q = mp.slot p := by
  have hlen : pos < mp.entries.length := by
    rw [hs]
    exact hp
  have hemptied : ∀ r < mp.tableSize, (mp.emptied pos).slot r = .empty ∨
      ∃ p < mp.tableSize, (mp.emptied pos).slot r = mp.slot p := by
    intro r hr
    rw [Map.emptied_slot, Map.slot_store hlen]
    split
    · exact Or.inl rfl
    · exact Or.inr ⟨r, hr, rfl⟩
  rcases step.eq_emptied_or with rfl | ⟨-, newMh, rfl⟩
  · exact hemptied q hq
  · rcases rehash_slot_cases (mp.emptied pos).entries (mp.tableSize / 2) q with he | hm
    · exact Or.inl he
    · obtain ⟨r, hr, hslot⟩ := Map.exists_slot_of_mem hm
      rw [hs.emptied pos] at hr
      have hnew : ((mp.emptied pos).resized newMh (mp.tableSize / 2)).slot q =
          (mp.emptied pos).slot r := hslot.symm
      rw [hnew]
      exact hemptied r hr

theorem loaded (step : Drain mp pos granted mp') (hl : mp.Loaded) (hp : pos < mp.tableSize)
    (hk : mp.keyAt pos = some h) : mp'.Loaded := by
  have hocc := hl.shaped.emptied_occupied_succ hp hk
  have hle := hl.occupied_le
  have hlt := hl.count_lt
  have hroom := hl.room
  have hcount : decrUint mp.entryCount = mp.entryCount - 1 := by
    unfold decrUint
    omega
  rcases step.eq_emptied_or with rfl | ⟨shrinks, newMh, rfl⟩
  · refine ⟨hl.shaped.emptied pos, hl.power, ?_, ?_, ?_⟩
    · rw [Map.emptied_entryCount, hcount]
      omega
    · rw [Map.emptied_tableSize]
      omega
    · rw [Map.emptied_entryCount, hcount]
      omega
  · have hpow := shrunkSize_power (decrUint mp.entryCount) hl.power
    have hhalf : shrunkSize (decrUint mp.entryCount) mp.tableSize = mp.tableSize / 2 :=
      if_pos shrinks
    rw [hhalf] at hpow
    have hrehash : ((mp.emptied pos).resized newMh (mp.tableSize / 2)).occupied ≤
        (mp.emptied pos).occupied := Map.resized_occupied_le
    have hfew := shrinks.1
    rw [Map.emptied_entryCount, Map.emptied_tableSize, hcount] at hfew
    refine ⟨Map.resized_shaped, hpow, ?_, ?_, ?_⟩
    · rw [Map.resized_entryCount, Map.emptied_entryCount, hcount]
      omega
    · rw [Map.resized_tableSize]
      omega
    · rw [Map.resized_entryCount, Map.emptied_entryCount, hcount]
      omega

/-- Nothing else is lost if the other hashes have distinct residues modulo the new size. -/
theorem stored (step : Drain mp pos true mp') (hs : mp.Shaped) (once : mp.Once)
    (hp : pos < mp.tableSize) (hk : mp.keyAt pos = some h) (hpos : 0 < mp'.tableSize)
    (distinct : ∀ f g, f ≠ h → g ≠ h → mp.ring.Stored f → mp.ring.Stored g →
      f.toNat % mp'.tableSize = g.toNat % mp'.tableSize → f = g)
    (hne : g ≠ h) (hg : mp.ring.Stored g) : mp'.ring.Stored g := by
  have hkept : (mp.emptied pos).ring.Stored g := (Map.stored_emptied_iff hs once hp hk).mpr ⟨hne, hg⟩
  cases step with
  | remove stays => exact hkept
  | shrink shrinks newMh =>
    have hresidues : (mp.emptied pos).ResiduesDistinct (mp.tableSize / 2) := by
      intro a ha b hb hane hbne hres
      have hak : (mp.emptied pos).keyAt a = some _ := Map.keyAt_eq_some.mpr ⟨rfl, hane⟩
      have hbk : (mp.emptied pos).keyAt b = some _ := Map.keyAt_eq_some.mpr ⟨rfl, hbne⟩
      have hsa := (Map.stored_emptied_iff hs once hp hk).mp ⟨a, ha, hak⟩
      have hsb := (Map.stored_emptied_iff hs once hp hk).mp ⟨b, hb, hbk⟩
      have heq := distinct _ _ hsa.1 hsb.1 hsa.2 hsb.2 hres
      rw [← heq] at hbk
      exact Map.emptied_once hs once hp a ha b hb _ hak hbk
    rw [Map.stored_iff_holds] at hkept ⊢
    obtain ⟨v, hv⟩ := hkept
    exact ⟨v, (hs.emptied pos).resized_holds hpos hresidues hv⟩

/-- Afterwards the position is empty, or the table has been rehashed. -/
theorem atHome_or_empty (step : Drain mp pos true mp') (hs : mp.Shaped) (hp : pos < mp.tableSize) :
    mp'.ring.AtHome ∨ mp'.keyAt pos = none := by
  cases step with
  | remove stays =>
    rw [hs.emptied_keyAt hp, if_pos rfl]
    exact Or.inr rfl
  | shrink shrinks newMh => exact Or.inl Map.resized_atHome

theorem atHome (step : Drain mp pos true mp') (hs : mp.Shaped) (hp : pos < mp.tableSize)
    (home : mp.ring.AtHome) : mp'.ring.AtHome := by
  cases step with
  | remove stays =>
    intro q hq k hk
    rw [Map.ring_slot, hs.emptied_keyAt hp] at hk
    split at hk
    · cases hk
    · exact home q hq k hk
  | shrink shrinks newMh => exact Map.resized_atHome

end Drain

/-! ## Whole walks -/

/-- What a deletion leaves at the cursor: a rehashed table, or an empty slot before it. -/
def ClearedTo (mp : Map) (start : Nat) : Prop :=
  mp.ring.AtHome ∨ ∃ p, start = p + 1 ∧ mp.keyAt p = none

section Walks
variable {mp mp' mp'' : Map} {start pos : Nat} {h g : UInt32} {hs : List UInt32}

theorem AtHome.residue_eq (home : mp.ring.AtHome) (hp : pos < mp.tableSize)
    (hk : mp.keyAt pos = some h) : h.toNat % mp.tableSize = pos := by
  have := home pos hp h hk
  simpa using this

theorem ClearedTo.found (hc : ClearedTo mp start) (hpos : start ≤ pos)
    (hk : mp.keyAt pos = some h) (hf : findEntryPos mp h = some pos) :
    start ≤ h.toNat % mp.tableSize ∧ h.toNat % mp.tableSize ≤ pos := by
  have hlt := findEntryPos_lt hf
  rcases hc with home | ⟨p, rfl, hempty⟩
  · rw [AtHome.residue_eq home hlt hk]
    exact ⟨hpos, Nat.le_refl pos⟩
  · have hhome : mp.ring.home h < mp.ring.size := Nat.mod_lt _ (by omega)
    exact ProbeRing.Finds.beyond_empty (findEntryPos_eq_some.mp hf) hhome hpos hempty

theorem Drain.clearedTo (step : Drain mp pos true mp') (hsh : mp.Shaped) (hp : pos < mp.tableSize) :
    ClearedTo mp' (pos + 1) := by
  rcases step.atHome_or_empty hsh hp with home | hempty
  · exact Or.inl home
  · exact Or.inr ⟨pos, rfl, hempty⟩

/-- A walk visits hashes that are stored, with residues beyond the cursor. -/
theorem Walk.stored_beyond (walk : Walk mp start hs mp'') (hl : mp.Loaded) (once : mp.Once)
    (hc : ClearedTo mp start) (hm : h ∈ hs) :
    mp.ring.Stored h ∧ start ≤ h.toNat % mp.tableSize := by
  induction walk with
  | done none_found => cases hm
  | @visit mp mp' mp'' start pos k rest le key found first step walk ih =>
    have hlt := findEntryPos_lt found
    rcases List.mem_cons.mp hm with rfl | hrest
    · exact ⟨⟨pos, hlt, key⟩, (hc.found le key found).1⟩
    · obtain ⟨hstored, hbeyond⟩ := ih (step.loaded hl hlt key) (step.once hl.shaped once hlt)
        (step.clearedTo hl.shaped hlt) hrest
      have hmod := mod_shrunkSize_le (decrUint mp.entryCount) hl.power h.toNat
      rw [step.tableSize_eq] at hbeyond
      exact ⟨(step.stored_of hl.shaped once hlt key hstored).2, by omega⟩

/-- Two hashes with one residue are not both visited: in one table the first visit is
at or after their home, which ends the second one's chances, and a rehash keeps one. -/
theorem Walk.residue_inj (walk : Walk mp start hs mp'') (hl : mp.Loaded) (once : mp.Once)
    (hc : ClearedTo mp start) (hh : h ∈ hs) (hg : g ∈ hs)
    (he : h.toNat % mp.tableSize = g.toNat % mp.tableSize) : h = g := by
  induction walk with
  | done none_found => cases hh
  | @visit mp mp' mp'' start pos k rest le key found first step walk ih =>
    have hlt := findEntryPos_lt found
    have hl' := step.loaded hl hlt key
    have once' := step.once hl.shaped once hlt
    have hc' := step.clearedTo hl.shaped hlt
    -- once the first one has been visited the other is behind the cursor
    have behind : ∀ f, f ∈ rest → f.toNat % mp.tableSize ≠ k.toNat % mp.tableSize := by
      intro f hf hfk
      have hbeyond := (walk.stored_beyond hl' once' hc' hf).2
      have hmod := mod_shrunkSize_le (decrUint mp.entryCount) hl.power f.toNat
      have hhome := (hc.found le key found).2
      rw [step.tableSize_eq] at hbeyond
      omega
    rcases List.mem_cons.mp hh with hhk | hhrest
    · rcases List.mem_cons.mp hg with hgk | hgrest
      · rw [hhk, hgk]
      · rw [hhk] at he
        exact absurd he.symm (behind g hgrest)
    · rcases List.mem_cons.mp hg with hgk | hgrest
      · rw [hgk] at he
        exact absurd he (behind h hhrest)
      · refine ih hl' once' hc' hhrest hgrest ?_
        rw [step.tableSize_eq, ← mod_mod_shrunkSize _ hl.power h.toNat, he,
          mod_mod_shrunkSize _ hl.power]

/-- From a table with every hash at home the visits are in order. -/
theorem Walk.orderly (walk : Walk mp start hs mp'') (hl : mp.Loaded) (home : mp.ring.AtHome) :
    Orderly mp.tableSize mp.entryCount start hs := by
  induction walk with
  | done none_found => trivial
  | @visit mp mp' mp'' start pos k rest le key found first step walk ih =>
    have hlt := findEntryPos_lt found
    have once : mp.Once := Map.WellPlaced.once home.wellPlaced
    have hl' := step.loaded hl hlt key
    have hres := AtHome.residue_eq home hlt key
    refine ⟨by omega, ?_, ?_⟩
    · intro f hf
      have hbeyond := (walk.stored_beyond hl' (step.once hl.shaped once hlt)
        (step.clearedTo hl.shaped hlt) hf).2
      have hmod := mod_shrunkSize_le (decrUint mp.entryCount) hl.power f.toNat
      rw [step.tableSize_eq] at hbeyond
      omega
    · have horder := ih hl' (step.atHome hl.shaped hlt home)
      rwa [step.tableSize_eq, step.entryCount_eq, ← hres] at horder

theorem AtHome.foundAt (home : mp.ring.AtHome) (hp : pos < mp.tableSize)
    (hk : mp.keyAt pos = some h) : mp.FoundAt pos :=
  ⟨h, hk, findEntryPos_eq_some.mpr (home.finds hp hk)⟩

/-- What is left after the deletion of the first of the hashes in order. -/
theorem Drain.stored_rest (step : Drain mp pos true mp') (hl : mp.Loaded) (once : mp.Once)
    (hp : pos < mp.tableSize) (hk : mp.keyAt pos = some h) {rest : List UInt32} {next : Nat}
    (hall : ∀ f, f ∈ rest ↔ f ≠ h ∧ mp.ring.Stored f)
    (horder : Orderly mp'.tableSize mp'.entryCount next rest) :
    ∀ f, f ∈ rest ↔ mp'.ring.Stored f := by
  have hl' := step.loaded hl hp hk
  intro f
  rw [hall f]
  constructor
  · intro ⟨hne, hst⟩
    refine step.stored hl.shaped once hp hk (Nat.lt_of_le_of_lt (Nat.zero_le _) hl'.room) ?_ hne hst
    intro a b hane hbne hast hbst hres
    exact horder.residue_inj hl'.power ((hall a).mpr ⟨hane, hast⟩) ((hall b).mpr ⟨hbne, hbst⟩) hres
  · intro hst
    exact step.stored_of hl.shaped once hp hk hst

/-- From a table with every hash at home and the hashes in order, all are visited. -/
theorem Walk.visits_all (walk : Walk mp start hs mp'') (hl : mp.Loaded) (home : mp.ring.AtHome)
    {l : List UInt32} (hall : ∀ f, f ∈ l ↔ mp.ring.Stored f)
    (horder : Orderly mp.tableSize mp.entryCount start l) (hst : mp.ring.Stored h) : h ∈ hs := by
  induction walk generalizing l with
  | @done mp start none_found =>
    obtain ⟨q, hq, hqk⟩ := hst
    have hstart := horder.start_le ((hall h).mpr ⟨q, hq, hqk⟩)
    rw [AtHome.residue_eq home hq hqk] at hstart
    exact absurd (AtHome.foundAt home hq hqk) (none_found q hstart)
  | @visit mp mp' mp'' start pos k visited le key found first step walk ih =>
    have hlt := findEntryPos_lt found
    have once : mp.Once := Map.WellPlaced.once home.wellPlaced
    have hres := AtHome.residue_eq home hlt key
    cases l with
    | nil => cases (hall k).mpr ⟨pos, hlt, key⟩
    | cons g rest =>
      obtain ⟨hstart, hless, hrest⟩ := horder
      -- the cursor stops at the smallest residue, which is that of the head
      have hkg : k = g := by
        by_contra hne
        have hkrest : k ∈ rest :=
          (List.mem_cons.mp ((hall k).mpr ⟨pos, hlt, key⟩)).resolve_left hne
        obtain ⟨q, hq, hqk⟩ := (hall g).mp List.mem_cons_self
        have hgres := AtHome.residue_eq home hq hqk
        have := hless k hkrest
        exact first q (by omega) (by omega) (AtHome.foundAt home hq hqk)
      subst hkg
      have hnot : k ∉ rest := fun hk => Nat.lt_irrefl _ (hless k hk)
      have hall' : ∀ f, f ∈ rest ↔ f ≠ k ∧ mp.ring.Stored f := by
        intro f
        rw [← hall f, List.mem_cons]
        constructor
        · intro hf
          exact ⟨fun he => hnot (he ▸ hf), Or.inr hf⟩
        · intro ⟨hne, hf⟩
          exact hf.resolve_left hne
      rw [← step.tableSize_eq, ← step.entryCount_eq, hres] at hrest
      have hstored := step.stored_rest hl once hlt key hall' hrest
      by_cases hhk : h = k
      · rw [hhk]
        exact List.mem_cons_self
      · exact List.mem_cons_of_mem _ (ih (step.loaded hl hlt key) (step.atHome hl.shaped hlt home)
          hstored hrest ((hstored h).mp ((hall' h).mpr ⟨hhk, hst⟩)))

/-- After the first visit every hash is at home, if the others have distinct residues
beyond it. -/
theorem Drain.atHome_of_lowest (step : Drain mp pos true mp') (hl : mp.Loaded) (hw : mp.WellPlaced)
    (hp : pos < mp.tableSize) (hk : mp.keyAt pos = some h)
    (lowest : ∀ q < pos, mp.keyAt q = none)
    (beyond : ∀ f, f ≠ h → mp.ring.Stored f → pos + 1 ≤ f.toNat % mp'.tableSize)
    (distinct : ∀ f g, f ≠ h → g ≠ h → mp.ring.Stored f → mp.ring.Stored g →
      f.toNat % mp'.tableSize = g.toNat % mp'.tableSize → f = g) : mp'.ring.AtHome := by
  cases step with
  | shrink shrinks newMh => exact Map.resized_atHome
  | remove stays =>
    have hpos : 0 < mp.tableSize := by omega
    have hhome : ∀ k, mp.ring.home k < mp.ring.size := fun k => Nat.mod_lt _ hpos
    obtain ⟨e, he, hempty⟩ := Map.exists_empty hl.shaped hl.room
    have other : ∀ y, pos < y → y < mp.tableSize → ∀ k, mp.keyAt y = some k → k ≠ h := by
      intro y hy hyn k hyk hkh
      rw [hkh] at hyk
      have := hw.once y hyn pos hp h hyk hk
      omega
    intro q hq k hqk
    rw [Map.ring_slot, hl.shaped.emptied_keyAt hp] at hqk
    split at hqk
    · cases hqk
    · rename_i hne
      have hlow : pos < q := by
        by_contra hn
        rw [lowest q (by omega)] at hqk
        cases hqk
      have hres : mp.ring.home k = q := by
        refine hw.home_eq_of_lowest hhome he (Map.keyAt_eq_none.mpr hempty) lowest ?_ ?_ hlow hq hqk
        · intro y hy hyn k hyk
          exact beyond k (other y hy hyn k hyk) ⟨y, hyn, hyk⟩
        · intro y z hy hz a b hya hzb hres
          have hyn : y < mp.tableSize := Map.lt_of_keyAt hl.shaped hya
          have hzn : z < mp.tableSize := Map.lt_of_keyAt hl.shaped hzb
          have heq := distinct a b (other y hy hyn a hya) (other z hz hzn b hzb) ⟨y, hyn, hya⟩
            ⟨z, hzn, hzb⟩ hres
          rw [← heq] at hzb
          exact hw.once y hyn z hzn a hya hzb
      rw [Map.ring_home] at hres
      rw [Map.ring_home, Map.ring_size, Map.emptied_tableSize, hres]
      exact Nat.mod_eq_of_lt hq

/-- The first visit is at the first entry of the table. -/
theorem lowest_of_first (hw : mp.WellPlaced) {pos : Nat} (hpos : pos < mp.tableSize)
    (first : ∀ q, 0 ≤ q → q < pos → ¬ mp.FoundAt q) : ∀ q < pos, mp.keyAt q = none := by
  intro q hq
  by_contra hne
  obtain ⟨f, hqf⟩ := Option.ne_none_iff_exists'.mp hne
  exact first q (Nat.zero_le q) hq
    ⟨f, hqf, findEntryPos_eq_some.mpr (hw q (Nat.lt_trans hq hpos) f hqf)⟩

section Visit
variable {mp' : Map} {rest : List UInt32} {pos : Nat} {k : UInt32}

/-- A walk that visits every hash behind its first visit drains the table. -/
theorem Walk.drains_of_visits (walk : Walk mp' (pos + 1) rest mp'') (step : Drain mp pos true mp')
    (hl : mp.Loaded) (hw : mp.WellPlaced) (hpos : pos < mp.tableSize)
    (key : mp.keyAt pos = some k) (lowest : ∀ q < pos, mp.keyAt q = none)
    (hall : ∀ f, mp.ring.Stored f → f ∈ k :: rest) : Drains mp := by
  have hl' := step.loaded hl hpos key
  have once' := step.once hl.shaped hw.once hpos
  have hc' := step.clearedTo hl.shaped hpos
  intro low f hlow hlowf hlowest
  have hsame : low = pos := by
    rcases Nat.lt_trichotomy low pos with hlo | he | hhi
    · rw [lowest low hlo] at hlowf
      cases hlowf
    · exact he
    · rw [hlowest pos hhi] at key
      cases key
  subst hsame
  obtain rfl : k = f := Option.some.inj (key.symm.trans hlowf)
  have hmem : ∀ f, f ∈ rest ↔ f ≠ k ∧ mp.ring.Stored f := by
    intro f
    constructor
    · intro hf
      exact step.stored_of hl.shaped hw.once hpos key (walk.stored_beyond hl' once' hc' hf).1
    · intro ⟨hne, hf⟩
      exact (List.mem_cons.mp (hall f hf)).resolve_left hne
  have home : mp'.ring.AtHome := by
    refine step.atHome_of_lowest hl hw hpos key lowest ?_ ?_
    · intro f hne hf
      exact (walk.stored_beyond hl' once' hc' ((hmem f).mpr ⟨hne, hf⟩)).2
    · intro f g hfne hgne hf hg hres
      exact walk.residue_inj hl' once' hc' ((hmem f).mpr ⟨hfne, hf⟩)
        ((hmem g).mpr ⟨hgne, hg⟩) hres
  have horder := walk.orderly hl' home
  rw [step.tableSize_eq, step.entryCount_eq] at horder
  exact ⟨rest, hmem, horder⟩

theorem Walk.visits_of_drains (walk : Walk mp' (pos + 1) rest mp'') (step : Drain mp pos true mp')
    (hl : mp.Loaded) (hw : mp.WellPlaced) (hpos : pos < mp.tableSize)
    (key : mp.keyAt pos = some k) (lowest : ∀ q < pos, mp.keyAt q = none)
    (hdrains : Drains mp) (f : UInt32) (hf : mp.ring.Stored f) : f ∈ k :: rest := by
  have hl' := step.loaded hl hpos key
  obtain ⟨l, hmem, horder⟩ := hdrains pos k hpos key lowest
  rw [← step.tableSize_eq, ← step.entryCount_eq] at horder
  have hstored := step.stored_rest hl hw.once hpos key hmem horder
  have home : mp'.ring.AtHome := by
    refine step.atHome_of_lowest hl hw hpos key lowest ?_ ?_
    · intro g hne hg
      exact horder.start_le ((hmem g).mpr ⟨hne, hg⟩)
    · intro a b hane hbne ha hb hres
      exact horder.residue_inj hl'.power ((hmem a).mpr ⟨hane, ha⟩)
        ((hmem b).mpr ⟨hbne, hb⟩) hres
  by_cases hfk : f = k
  · rw [hfk]
    exact List.mem_cons_self
  · exact List.mem_cons_of_mem _
      (walk.visits_all hl' home hstored horder ((hstored f).mp ((hmem f).mpr ⟨hfk, hf⟩)))

end Visit

/-- The loop over a well-placed table visits every hash exactly if the table drains. -/
theorem Walk.visits_all_iff (walk : Walk mp 0 hs mp'') (hl : mp.Loaded) (hw : mp.WellPlaced) :
    (∀ f, mp.ring.Stored f → f ∈ hs) ↔ Drains mp := by
  cases walk with
  | done none_found =>
    have hempty : ∀ q < mp.tableSize, ∀ k, mp.keyAt q ≠ some k := by
      intro q hq k hqk
      exact none_found q (Nat.zero_le q) ⟨k, hqk, findEntryPos_eq_some.mpr (hw q hq k hqk)⟩
    constructor
    · intro _ low first hlow hk _
      exact absurd hk (hempty low hlow first)
    · intro _ f ⟨q, hq, hqk⟩
      exact absurd hqk (hempty q hq f)
  | @visit _ mp' _ _ pos k rest le key found first step walk =>
    have hlt := findEntryPos_lt found
    have lowest := lowest_of_first hw hlt first
    constructor
    · exact walk.drains_of_visits step hl hw hlt key lowest
    · exact walk.visits_of_drains step hl hw hlt key lowest

end Walks
end M65Tool.Source.HashMap
