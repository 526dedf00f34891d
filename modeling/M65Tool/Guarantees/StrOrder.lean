import M65Tool.Lib.ThreeWay
import M65Tool.Source.StrReads

/-!
# STR-ORDER: str_compare is a total order

`str_compare` compares the keys of its arguments in a linear order: the list of the
`char` values of a valid str, lexicographically, and a bottom for the invalid ones.
-/
namespace M65Tool.Guarantees.StrOrder
open Source Source.Mem Source.MapHash Source.StringBuffer Source.StrFunctions
open Lib.Effect Lib.ThreeWay

/-- What a str stands for: its bytes, or nothing if it is invalid. The loop index can
count the bytes. -/
inductive Content {σ : Type} (ops : MemOps σ) (mem : Memory) (s : σ) (strval : MemHandle) :
    Option (List UInt8) → Prop
  | invalid (h : memIsValid strval = false) : Content ops mem s strval none
  | valid {ptr : Addr} {bytes : List UInt8} (h : StrAt ops mem s strval ptr bytes)
      (counted : bytes.length ≤ uintMax) : Content ops mem s strval (some bytes)

/-- The order that str.h documents. -/
structure TotalOrder (compare : Option (List UInt8) → Option (List UInt8) → Int) : Prop where
  range : ∀ a b, compare a b = -1 ∨ compare a b = 0 ∨ compare a b = 1
  eq_zero : ∀ a b, compare a b = 0 ↔ a = b
  swap : ∀ a b, compare a b = -compare b a
  trans : ∀ a b c, compare a b ≤ 0 → compare b c ≤ 0 → compare a c ≤ 0
  prefix_below : ∀ first second, first <+: second → first ≠ second →
    compare (some first) (some second) = -1
  invalid_below : ∀ bytes, compare none (some bytes) = -1

section Keys
variable (target : Target)

/-- The key that a str is compared by. -/
def key : Option (List UInt8) → WithBot (List Int)
  | none => ⊥
  | some bytes => ((bytes.map (charToInt target) : List Int) : WithBot (List Int))

theorem charToInt_injective : Function.Injective (charToInt target) := by
  intro a b h
  have ha := a.toNat_lt
  have hb := b.toNat_lt
  apply UInt8.toNat_inj.mp
  unfold charToInt at h
  split at h <;> split at h <;> omega

theorem key_injective : Function.Injective (key target) := by
  intro a b h
  cases a with
  | none =>
    cases b with
    | none => rfl
    | some bytes => cases h
  | some first =>
    cases b with
    | none => cases h
    | some second =>
      have hmap := WithBot.coe_injective h
      rw [List.map_injective_iff.mpr (charToInt_injective target) hmap]

theorem key_lt {first second : List UInt8}
    (h : first.map (charToInt target) < second.map (charToInt target)) :
    key target (some first) < key target (some second) := WithBot.coe_lt_coe.mpr h

theorem key_lt_of_extension {first second : List UInt8} (h : first <+: second)
    (hlen : first.length < second.length) : key target (some first) < key target (some second) := by
  apply key_lt
  apply lt_of_extension (h.map _)
  simpa using hlen

theorem key_totalOrder : TotalOrder fun a b => threeWay (key target a) (key target b) where
  range _ _ := threeWay_range _ _
  eq_zero _ _ := threeWay_eq_zero.trans (key_injective target).eq_iff
  swap _ _ := threeWay_swap _ _
  trans _ _ _ := threeWay_trans
  prefix_below first second h hne := by
    apply threeWay_of_lt
    apply key_lt_of_extension target h
    rcases Nat.eq_or_lt_of_le h.length_le with he | hlt
    · exact absurd (h.eq_of_length he) hne
    · exact hlt
  invalid_below bytes := threeWay_of_lt (WithBot.bot_lt_coe _)

end Keys

section Compare
variable {σ : Type} {ops : MemOps σ} {mem : Memory} {s : σ} {first second : MemHandle}
  {firstP secondP : Addr} {a b : List UInt8} {target : Target}

theorem prefix_of_same (hsame : ∀ k < a.length, a[k]? = b[k]?) : a <+: b := by
  rw [List.prefix_iff_getElem?]
  intro i hi
  rw [← hsame i hi, List.getElem?_eq_getElem hi]

/-- The tests behind the loop: which str ends at the position where the loop stopped. -/
theorem strCompare_valid (hfirst : StrAt ops mem s first firstP a)
    (hsecond : StrAt ops mem s second secondP b) (ha : a.length ≤ uintMax)
    (hb : b.length ≤ uintMax) :
    strCompare ops mem target first second s =
      .ok (threeWay (key target (some a)) (key target (some b))) s := by
  have hmin : (if a.length < b.length then a.length else b.length) % 2 ^ 32 =
      min a.length b.length := by
    unfold uintMax at ha hb
    split <;> omega
  obtain ⟨r, hr, hrun, hsame, hdiff⟩ := compareLoop_ok (s := s) hfirst.bytes_at hsecond.bytes_at
    (Nat.zero_add _) (Nat.min_le_left a.length b.length) (Nat.min_le_right a.length b.length)
    (fun k hk => absurd hk (Nat.not_lt_zero k))
  rw [strCompare, if_neg (by simp [hfirst.valid]), if_neg (by simp [hfirst.valid]),
    if_neg (by simp [hsecond.valid]), bind_of_ok hfirst.memP_eq, bind_of_ok hsecond.memP_eq,
    hfirst.size_eq, hsecond.size_eq, hmin, bind_of_ok hrun]
  by_cases hfirstEnds : r = a.length
  · have hprefix : a <+: b := prefix_of_same (hfirstEnds ▸ hsame)
    rw [if_pos hfirstEnds]
    by_cases hsizes : a.length = b.length
    · rw [if_pos hsizes, hprefix.eq_of_length hsizes, threeWay_self]
      rfl
    · rw [if_neg hsizes, threeWay_of_lt (key_lt_of_extension target hprefix (by omega))]
      rfl
  · rw [if_neg hfirstEnds]
    by_cases hsecondEnds : r = b.length
    · have hprefix : b <+: a :=
        prefix_of_same fun k hk => (hsame k (by omega)).symm
      rw [if_pos hsecondEnds, threeWay_of_gt (key_lt_of_extension target hprefix (by omega))]
      rfl
    · have hfirstb := List.getElem?_eq_getElem (show r < a.length by omega)
      have hsecondb := List.getElem?_eq_getElem (show r < b.length by omega)
      have hne : a[r] ≠ b[r] := by
        intro he
        exact hdiff (by omega) (by rw [hfirstb, hsecondb, he])
      have hchars : ∀ k < r, (a.map (charToInt target))[k]? = (b.map (charToInt target))[k]? := by
        intro k hk
        rw [List.getElem?_map, List.getElem?_map, hsame k hk]
      have hfirstc : (a.map (charToInt target))[r]? = some (charToInt target a[r]) := by
        rw [List.getElem?_map, hfirstb, Option.map_some]
      have hsecondc : (b.map (charToInt target))[r]? = some (charToInt target b[r]) := by
        rw [List.getElem?_map, hsecondb, Option.map_some]
      rw [if_neg hsecondEnds, bind_of_ok (hfirst.bytes_at.load_ok hfirstb),
        bind_of_ok (hsecond.bytes_at.load_ok hsecondb)]
      by_cases hlt : charToInt target a[r] < charToInt target b[r]
      · have hkey := lt_of_first_difference hchars hfirstc hsecondc hlt
        rw [if_pos hlt, threeWay_of_lt (key_lt target hkey)]
        rfl
      · have hgt : charToInt target b[r] < charToInt target a[r] := by
          have := (charToInt_injective target).ne hne
          omega
        have hkey := lt_of_first_difference (fun k hk => (hchars k hk).symm) hsecondc hfirstc hgt
        rw [if_neg hlt, threeWay_of_gt (key_lt target hkey)]
        rfl

theorem strCompare_key {x y : Option (List UInt8)} (hfirst : Content ops mem s first x)
    (hsecond : Content ops mem s second y) :
    strCompare ops mem target first second s =
      .ok (threeWay (key target x) (key target y)) s := by
  cases hfirst with
  | invalid h =>
    cases hsecond with
    | invalid h' =>
      rw [strCompare, if_pos (by simp [h, h']), threeWay_self]
      rfl
    | valid h' counted' =>
      rw [strCompare, if_neg (by simp [h'.valid]), if_pos (by simp [h]),
        (key_totalOrder target).invalid_below]
      rfl
  | valid h counted =>
    cases hsecond with
    | invalid h' =>
      rw [strCompare, if_neg (by simp [h.valid]), if_neg (by simp [h.valid]),
        if_pos (by simp [h']), threeWay_swap, (key_totalOrder target).invalid_below]
      rfl
    | valid h' counted' => exact strCompare_valid h h' counted counted'

end Compare

/-- Over all strs, valid or not, `str_compare` is a total order of what they stand for. -/
theorem strCompare_totalOrder {σ : Type} (ops : MemOps σ) (mem : Memory) (target : Target) (s : σ) :
    ∃ compare, TotalOrder compare ∧ ∀ first second x y, Content ops mem s first x →
      Content ops mem s second y →
      strCompare ops mem target first second s = .ok (compare x y) s :=
  ⟨_, key_totalOrder target, fun _ _ _ _ hfirst hsecond => strCompare_key hfirst hsecond⟩

/-- "a" is below "aa" and above an invalid str. -/
theorem strCompare_totalOrder_letters :
    (∃ r, strCompare scriptedOps (regionMemory 4096 [97, 97]) ⟨true⟩ ⟨4096, 1, .notAllocated⟩
      ⟨4096, 2, .notAllocated⟩ [] = .ok r [] ∧ r = -1) ∧
    ∃ r, strCompare scriptedOps (regionMemory 4096 [97, 97]) ⟨true⟩ .zero
      ⟨4096, 2, .notAllocated⟩ [] = .ok r [] ∧ r = -1 := by
  have htwo : BytesAt (regionMemory 4096 [97, 97]) 4096 [97, 97] :=
    bytesAt_regionMemory (by decide) (by decide) (by decide)
  have hsecond := Content.valid (strAt_scripted htwo) (by decide)
  have hfirst := Content.valid (strAt_scripted (htwo.take 1)) (by decide)
  obtain ⟨compare, order, hrun⟩ :=
    strCompare_totalOrder scriptedOps (regionMemory 4096 [97, 97]) ⟨true⟩ []
  exact ⟨⟨_, hrun _ _ _ _ hfirst hsecond, order.prefix_below _ _ (by decide) (by decide)⟩,
    _, hrun _ _ _ _ (.invalid memIsValid_zero) hsecond, order.invalid_below _⟩

end M65Tool.Guarantees.StrOrder
