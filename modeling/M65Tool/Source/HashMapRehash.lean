import M65Tool.Source.HashMapTable
import Mathlib.Data.List.Induction

/-!
# The copy loop of a resize

`rehash` puts every entry into its home slot of the new block without probing, so
an entry survives exactly if no later one has the same residue. The table that
results always has every stored hash at home; whether it stores all of them is what
`ResiduesDistinct` says. The occupancy count of map.c's two stores and of the copy
is here too.
-/
namespace M65Tool.Source.HashMap
open Mem Lib.LinearProbe

theorem rehash_append_single (entries : List MapEntry) (entry : MapEntry) (n : Nat) :
    rehash (entries ++ [entry]) n =
      if entry.keyHash = 0 then rehash entries n
      else (rehash entries n).set (entry.keyHash.toNat % n) entry := by
  simp [rehash]

theorem length_rehash (entries : List MapEntry) (n : Nat) : (rehash entries n).length = n := by
  induction entries using List.reverseRecOn with
  | nil => simp [rehash]
  | append_singleton entries entry ih =>
    rw [rehash_append_single]
    split
    · exact ih
    · rw [List.length_set, ih]

/-- An occupied slot of the new block is the home of an old entry. -/
theorem rehash_source (entries : List MapEntry) (n : Nat) {pos : Nat}
    (hne : ((rehash entries n).getD pos .empty).keyHash ≠ 0) :
    (rehash entries n).getD pos .empty ∈ entries ∧
      ((rehash entries n).getD pos .empty).keyHash.toNat % n = pos := by
  induction entries using List.reverseRecOn with
  | nil =>
    exfalso
    apply hne
    simp only [rehash, List.foldl_nil, List.getD_eq_getElem?_getD, List.getElem?_replicate]
    split <;> rfl
  | append_singleton entries entry ih =>
    rw [rehash_append_single] at hne ⊢
    split at hne
    · rename_i hz
      simp only [if_pos hz] at hne ⊢
      obtain ⟨hm, hr⟩ := ih hne
      exact ⟨List.mem_append_left _ hm, hr⟩
    · rename_i hz
      simp only [if_neg hz] at hne ⊢
      rw [List.getD_eq_getElem?_getD, List.getElem?_set] at hne ⊢
      by_cases hpos : entry.keyHash.toNat % n = pos
      · rw [if_pos hpos] at hne ⊢
        by_cases hlt : entry.keyHash.toNat % n < (rehash entries n).length
        · rw [if_pos hlt] at hne ⊢
          exact ⟨by simp, hpos⟩
        · rw [if_neg hlt] at hne
          exact absurd rfl hne
      · rw [if_neg hpos, ← List.getD_eq_getElem?_getD] at hne ⊢
        obtain ⟨hm, hr⟩ := ih hne
        exact ⟨List.mem_append_left _ hm, hr⟩

/-- A slot of the new block is an old entry, or was not written. -/
theorem rehash_slot_cases (entries : List MapEntry) (n pos : Nat) :
    (rehash entries n).getD pos .empty = .empty ∨ (rehash entries n).getD pos .empty ∈ entries := by
  induction entries using List.reverseRecOn with
  | nil =>
    left
    simp only [rehash, List.foldl_nil, List.getD_eq_getElem?_getD, List.getElem?_replicate]
    split <;> rfl
  | append_singleton entries entry ih =>
    rw [rehash_append_single]
    split
    · exact ih.imp_right (List.mem_append_left _)
    · rw [List.getD_eq_getElem?_getD, List.getElem?_set]
      split
      · split
        · exact Or.inr (by simp)
        · exact Or.inl rfl
      · rw [← List.getD_eq_getElem?_getD]
        exact ih.imp_right (List.mem_append_left _)

/-- The home slot of an old entry is occupied in the new block. -/
theorem rehash_occupies {entries : List MapEntry} {n : Nat} (hn : 0 < n) {entry : MapEntry}
    (hm : entry ∈ entries) (hne : entry.keyHash ≠ 0) :
    ((rehash entries n).getD (entry.keyHash.toNat % n) .empty).keyHash ≠ 0 := by
  induction entries using List.reverseRecOn with
  | nil => cases hm
  | append_singleton entries last ih =>
    rw [rehash_append_single]
    split
    · rename_i hz
      rcases List.mem_append.mp hm with hm | hm
      · exact ih hm
      · rw [List.mem_singleton.mp hm] at hne
        exact absurd hz hne
    · rename_i hz
      rw [List.getD_eq_getElem?_getD, List.getElem?_set, length_rehash]
      by_cases hpos : last.keyHash.toNat % n = entry.keyHash.toNat % n
      · rw [if_pos hpos, if_pos (Nat.mod_lt _ hn)]
        exact hz
      · rw [if_neg hpos, ← List.getD_eq_getElem?_getD]
        rcases List.mem_append.mp hm with hm | hm
        · exact ih hm
        · rw [List.mem_singleton.mp hm] at hpos
          exact absurd rfl hpos

theorem countP_set_le {α : Type} (p : α → Bool) (l : List α) (i : Nat) (a : α) :
    (l.set i a).countP p ≤ l.countP p + 1 := by
  induction l generalizing i with
  | nil => simp
  | cons x xs ih =>
    cases i with
    | zero =>
      simp only [List.set_cons_zero, List.countP_cons]
      split <;> omega
    | succ i =>
      simp only [List.set_cons_succ, List.countP_cons]
      have := ih i
      omega

/-- The copy loop does not make entries. -/
theorem countP_rehash_le (entries : List MapEntry) (n : Nat) :
    (rehash entries n).countP (fun entry => entry.keyHash != 0) ≤
      entries.countP (fun entry => entry.keyHash != 0) := by
  induction entries using List.reverseRecOn with
  | nil => simp [rehash, List.countP_replicate, MapEntry.empty]
  | append_singleton entries entry ih =>
    rw [rehash_append_single, List.countP_append]
    split
    · omega
    · rename_i hz
      have hset := countP_set_le (fun e : MapEntry => e.keyHash != 0) (rehash entries n)
        (entry.keyHash.toNat % n) entry
      have hlast : [entry].countP (fun e => e.keyHash != 0) = 1 := by simp [hz]
      omega

namespace Map
variable {mp : Map} {h : UInt32} {v : MemHandle}

theorem slot_mem {pos : Nat} (hp : pos < mp.entries.length) : mp.slot pos ∈ mp.entries := by
  unfold slot
  rw [List.getD_eq_getElem?_getD, List.getElem?_eq_getElem hp]
  exact List.getElem_mem hp

theorem exists_slot_of_mem {entry : MapEntry} (hm : entry ∈ mp.entries) :
    ∃ pos < mp.entries.length, mp.slot pos = entry := by
  obtain ⟨pos, hp, he⟩ := List.mem_iff_getElem.mp hm
  refine ⟨pos, hp, ?_⟩
  unfold slot
  rw [List.getD_eq_getElem?_getD, List.getElem?_eq_getElem hp]
  exact he

theorem Shaped.holds_iff_mem (hs : mp.Shaped) : mp.Holds h v ↔ h ≠ 0 ∧ ⟨h, v⟩ ∈ mp.entries := by
  unfold Holds
  rw [← hs]
  constructor
  · rintro ⟨hne, pos, hp, he⟩
    exact ⟨hne, he ▸ slot_mem hp⟩
  · rintro ⟨hne, hm⟩
    exact ⟨hne, exists_slot_of_mem hm⟩

/-- A table that is not full of entries has an empty slot. -/
theorem exists_empty (hs : mp.Shaped) (ho : mp.occupied < mp.tableSize) :
    ∃ pos < mp.tableSize, (mp.slot pos).keyHash = 0 := by
  by_contra hn
  have hall : ∀ entry ∈ mp.entries, entry.keyHash != 0 := by
    intro entry hm
    obtain ⟨pos, hp, he⟩ := exists_slot_of_mem hm
    have : (mp.slot pos).keyHash ≠ 0 := fun hz => hn ⟨pos, hs ▸ hp, hz⟩
    simpa [he] using this
  have hcount : mp.occupied = mp.entries.length := List.countP_eq_length.mpr hall
  unfold Shaped at hs
  omega

/-- Storing over an empty slot, or over an entry, moves the occupancy by the
difference of the two. -/
theorem occupied_store {pos : Nat} (hp : pos < mp.entries.length) (entry : MapEntry) :
    (mp.store pos entry).occupied + (if (mp.slot pos).keyHash = 0 then 0 else 1) =
      mp.occupied + (if entry.keyHash = 0 then 0 else 1) := by
  have hget : mp.slot pos = mp.entries[pos] := by
    unfold slot
    rw [List.getD_eq_getElem?_getD, List.getElem?_eq_getElem hp]
    rfl
  have hle : (if (mp.entries[pos].keyHash != 0) = true then 1 else 0) ≤ mp.occupied := by
    split
    · rename_i hc
      exact List.countP_pos_iff.mpr ⟨_, List.getElem_mem hp, hc⟩
    · exact Nat.zero_le _
  have hset : (mp.store pos entry).occupied = mp.occupied -
      (if (mp.entries[pos].keyHash != 0) = true then 1 else 0) +
      (if (entry.keyHash != 0) = true then 1 else 0) := List.countP_set hp
  have h1 : (if mp.entries[pos].keyHash = 0 then 0 else 1) =
      (if (mp.entries[pos].keyHash != 0) = true then 1 else 0) := by
    by_cases hz : mp.entries[pos].keyHash = 0 <;> simp [hz]
  have h2 : (if entry.keyHash = 0 then 0 else 1) =
      (if (entry.keyHash != 0) = true then 1 else 0) := by
    by_cases hz : entry.keyHash = 0 <;> simp [hz]
  rw [hget, hset, h1, h2]
  omega

/-! ## The resized table -/

/-- What `resize_entries_table` makes of the map when it returns true. -/
def resized (mp : Map) (newEntriesMh : MemHandle) (n : Nat) : Map :=
  { mp with entriesMh := newEntriesMh, entries := rehash mp.entries n, tableSize := n }

variable {newMh : MemHandle} {n : Nat}

theorem resized_shaped : (mp.resized newMh n).Shaped := length_rehash _ _

@[simp] theorem resized_tableSize : (mp.resized newMh n).tableSize = n := rfl
@[simp] theorem resized_entryCount : (mp.resized newMh n).entryCount = mp.entryCount := rfl

theorem resized_atHome : (mp.resized newMh n).ring.AtHome := by
  intro pos hp k hk
  obtain ⟨hh, hne⟩ := keyAt_eq_some.mp hk
  have hhash : ((rehash mp.entries n).getD pos .empty).keyHash = k := hh
  have hocc : ((rehash mp.entries n).getD pos .empty).keyHash ≠ 0 := by rw [hhash]; exact hne
  have hsrc := rehash_source mp.entries n hocc
  rw [hhash] at hsrc
  simpa using hsrc.2

/-- Whatever the old table was, every hash in the new one is found. -/
theorem resized_wellPlaced : (mp.resized newMh n).WellPlaced := resized_atHome.wellPlaced

theorem resized_occupied_le : (mp.resized newMh n).occupied ≤ mp.occupied :=
  countP_rehash_le _ _

/-- A resize makes no entries. -/
theorem Shaped.holds_of_resized (hs : mp.Shaped) (hh : (mp.resized newMh n).Holds h v) :
    mp.Holds h v := by
  obtain ⟨hne, pos, hp, he⟩ := hh
  have hslot : (rehash mp.entries n).getD pos .empty = ⟨h, v⟩ := he
  have hocc : ((rehash mp.entries n).getD pos .empty).keyHash ≠ 0 := by rw [hslot]; exact hne
  have hsrc := rehash_source mp.entries n hocc
  rw [hslot] at hsrc
  exact hs.holds_iff_mem.mpr ⟨hne, hsrc.1⟩

/-- No two occupied slots hold hashes with the same residue modulo `m`. -/
def ResiduesDistinct (mp : Map) (m : Nat) : Prop :=
  ∀ p < mp.tableSize, ∀ q < mp.tableSize,
    (mp.slot p).keyHash ≠ 0 → (mp.slot q).keyHash ≠ 0 →
    (mp.slot p).keyHash.toNat % m = (mp.slot q).keyHash.toNat % m → p = q

/-- With distinct residues the resize loses nothing. -/
theorem Shaped.resized_holds (hs : mp.Shaped) (hn : 0 < n) (hd : mp.ResiduesDistinct n)
    (hh : mp.Holds h v) : (mp.resized newMh n).Holds h v := by
  obtain ⟨hne, pos, hp, he⟩ := hh
  have hmem : mp.slot pos ∈ mp.entries := slot_mem (by rw [hs]; exact hp)
  have hkey : (mp.slot pos).keyHash = h := by rw [he]
  have hocc := rehash_occupies hn hmem (by rw [hkey]; exact hne)
  obtain ⟨hsrc, hres⟩ := rehash_source mp.entries n hocc
  obtain ⟨q, hq, hqe⟩ : ∃ q < mp.entries.length, mp.slot q = _ := exists_slot_of_mem hsrc
  have hpq : pos = q := by
    refine hd pos hp q (hs ▸ hq) (by rw [hkey]; exact hne) (by rw [hqe]; exact hocc) ?_
    rw [hqe]
    exact hres.symm
  refine ⟨hne, h.toNat % n, Nat.mod_lt _ hn, ?_⟩
  have : (rehash mp.entries n).getD ((mp.slot pos).keyHash.toNat % n) .empty = ⟨h, v⟩ := by
    rw [← hqe, ← hpq, he]
  rwa [hkey] at this

/-- Of two entries with the same residue at most one survives. -/
theorem resized_loses (once : ∀ p < mp.tableSize, ∀ q < mp.tableSize, ∀ k,
      mp.keyAt p = some k → mp.keyAt q = some k → p = q)
    (hd : ¬ mp.ResiduesDistinct n) :
    ∃ h v, mp.Holds h v ∧ ∀ u, ¬ (mp.resized newMh n).Holds h u := by
  unfold ResiduesDistinct at hd
  push Not at hd
  obtain ⟨p, hp, q, hq, hpne, hqne, hres, hpq⟩ := hd
  have hholds : ∀ r < mp.tableSize, (mp.slot r).keyHash ≠ 0 →
      mp.Holds (mp.slot r).keyHash (mp.slot r).valueHandle :=
    fun r hr hne => ⟨hne, r, hr, rfl⟩
  by_cases hsurvives : ∃ u, (mp.resized newMh n).Holds (mp.slot p).keyHash u
  · refine ⟨_, _, hholds q hq hqne, ?_⟩
    rintro w ⟨-, b, hb, hbe⟩
    obtain ⟨u, -, a, ha, hae⟩ := hsurvives
    have hres_of : ∀ c x w', c < n → x ≠ 0 → (mp.resized newMh n).slot c = ⟨x, w'⟩ →
        x.toNat % n = c := by
      intro c x w' hc hx hxe
      have hk : (mp.resized newMh n).keyAt c = some x := keyAt_eq_some.mpr ⟨by rw [hxe], hx⟩
      simpa using resized_atHome c hc x hk
    have hab : a = b := by
      rw [← hres_of a _ _ ha hpne hae, ← hres_of b _ _ hb hqne hbe, hres]
    subst hab
    have hhash : (mp.slot p).keyHash = (mp.slot q).keyHash :=
      (MapEntry.mk.inj (hae.symm.trans hbe)).1
    refine hpq (once p hp q hq (mp.slot q).keyHash ?_ ?_)
    · exact keyAt_eq_some.mpr ⟨hhash, hqne⟩
    · exact keyAt_eq_some.mpr ⟨rfl, hqne⟩
  · exact ⟨_, _, hholds p hp hpne, fun u hu => hsurvives ⟨u, hu⟩⟩

end Map
end M65Tool.Source.HashMap
