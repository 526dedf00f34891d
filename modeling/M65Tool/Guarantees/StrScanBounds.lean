import M65Tool.Source.StrCtype

/-!
# STR-SCAN-BOUNDS: what `str_split_whitespace_pop` reads and passes to `isspace`

The memory has the bytes of the str and no others. A call stays within them, and within
what `isspace` takes, exactly if the str is not empty and `isspace` takes every byte that
has at most one word before it. It then does what the model with a test of the bytes
does. An empty str is read at index 0; where plain char is signed, a byte from 0x80 on is
passed as a negative value.
-/
namespace M65Tool.Guarantees.StrScanBounds
open Source Source.Mem Source.MapHash Source.StringBuffer Source.StrFunctions
open Lib.Effect Lib.Splitting

/-- Given enough tests of its loops the call reads nothing outside of its memory and calls
`isspace` with nothing that it does not take. -/
def StaysInside {σ α : Type} (call : Nat → C σ α) (s : σ) : Prop :=
  ∃ enough, ∀ tests ≥ enough, ∀ s', call tests s ≠ .error .outOfBounds s'

/-- `isspace` takes every byte with at most one word before it. -/
def LeadTaken (target : Target) (ctype : Ctype) (text : List UInt8) : Prop :=
  ∀ i b, text[i]? = some b → (words (ctype.byteIsspace target) (text.take i)).length ≤ 1 →
    ctype.Takes (charToInt target b)

section Pop
variable {σ : Type} {ops : MemOps σ} {mem : Memory} {target : Target} {ctype : Ctype} {s : σ}
  {strval : MemHandle} {ptr : Addr} {text : List UInt8} {test : UInt8 → Bool} {n tests : Nat}

/-- Those are the bytes up to the second word, and its first one. -/
theorem leadTaken_iff : LeadTaken target ctype text ↔
    TakesThrough target ctype text 0 (secondWord (ctype.byteIsspace target) text) := by
  constructor
  · intro h k b _ hk hb
    obtain ⟨hlt, -⟩ := List.getElem?_eq_some_iff.mp hb
    exact h k b hb ((words_take_iff _ (Nat.le_of_lt hlt)).mpr hk)
  · intro h k b hb hwords
    obtain ⟨hlt, -⟩ := List.getElem?_eq_some_iff.mp hb
    exact h k b (Nat.zero_le k) ((words_take_iff _ (Nat.le_of_lt hlt)).mp hwords) hb

/-- Of a str that is not empty the loops read only its bytes. -/
theorem skipLoop_inside (htext : BytesAt mem ptr text) (tests : Nat) (i : UInt32) :
    Triple (fun _ => True) (skipLoop mem ptr text.length test tests i : C σ UInt32)
      (fun _ _ => True) (fun e _ => e ≠ .outOfBounds) := by
  induction tests generalizing i with
  | zero => exact .stop fun _ _ => nofun
  | succ tests ih =>
    refine .cond (fun hlt => ?_) fun _ => .ret fun _ _ => trivial
    have hload : Triple (fun _ => True) (load mem ptr i.toNat : C σ UInt8) (fun _ _ => True)
        (fun e _ => e ≠ .outOfBounds) :=
      .total fun s => ⟨_, s, htext.load_ok (List.getElem?_eq_getElem hlt), trivial⟩
    exact hload.seq fun b => .cond (fun _ => ih (i + 1)) fun _ => .ret fun _ _ => trivial

theorem skipLeading_inside (htext : BytesAt mem ptr text) (hne : text ≠ []) (tests : Nat) :
    Triple (fun _ => True) (skipLeading mem ptr text.length test tests : C σ UInt32)
      (fun _ _ => True) (fun e _ => e ≠ .outOfBounds) := by
  have hload : Triple (fun _ => True) (load mem ptr 0 : C σ UInt8) (fun _ _ => True)
      (fun e _ => e ≠ .outOfBounds) :=
    .total fun s => ⟨_, s, htext.load_ok (List.getElem?_eq_getElem (List.length_pos_iff.mpr hne)),
      trivial⟩
  exact hload.seq fun b =>
    .cond (fun _ => skipLoop_inside htext tests 0) fun _ => .ret fun _ _ => trivial

theorem pop_inside (hs : StrAt ops mem s strval ptr text) (hne : text ≠ [])
    (isspace : UInt8 → Bool) (part : MemHandle) (tests : Nat) (s' : σ) :
    strSplitWhitespacePop ops mem tests isspace strval part s ≠ .error .outOfBounds s' := by
  intro herror
  rw [strSplitWhitespacePop, if_neg (by simp [hs.valid]), bind_of_ok hs.memP_eq, hs.size_eq]
    at herror
  refine Triple.of_error (P := fun _ => True) (Q := fun _ _ => True)
    (E := fun e _ => e ≠ .outOfBounds) ?_ trivial herror rfl
  refine (skipLeading_inside hs.bytes_at hne tests).seq fun start => ?_
  refine (skipLoop_inside hs.bytes_at tests start).seq fun pos => ?_
  refine (skipLoop_inside hs.bytes_at tests pos).seq fun next => ?_
  exact .cond (fun _ => .ret fun _ _ => trivial) fun _ => .ret fun _ _ => trivial

end Pop

section Region
variable {σ : Type} {ops : MemOps σ} {target : Target} {ctype : Ctype} {s : σ}
  {strval : MemHandle} {ptr : Addr} {text : List UInt8}

/-- The byte at index 0 of an empty str is read. -/
theorem pop_empty (hs : StrAt ops (regionMemory ptr []) s strval ptr []) (tests : Nat)
    (part : MemHandle) :
    strSplitWhitespacePopCtype (regionMemory ptr []) target ctype ops tests strval part s =
      .error .outOfBounds s := by
  have hload : (load (regionMemory ptr []) ptr 0 : C σ UInt8) s = .error .outOfBounds s := by
    rw [load, if_neg hs.bytes_at.ptr_ne, regionMemory, List.getElem?_nil]
    rfl
  rw [strSplitWhitespacePopCtype, if_neg (by simp [hs.valid]), bind_of_ok hs.memP_eq]
  exact bind_of_error (bind_of_error (bind_of_error hload _) _) _

/-- The pop reads only the bytes of the str, and calls `isspace` only with what it takes,
exactly if the str is not empty and `isspace` takes every byte with at most one word
before it. -/
theorem pop_inside_iff (hs : StrAt ops (regionMemory ptr text) s strval ptr text)
    (hsize : text.length ≤ uintMax) (part : MemHandle) :
    StaysInside (fun tests => strSplitWhitespacePopCtype (regionMemory ptr text) target ctype ops
      tests strval part) s ↔
      text ≠ [] ∧ LeadTaken target ctype text := by
  constructor
  · intro ⟨enough, inside⟩
    have hne : text ≠ [] := by
      rintro rfl
      exact inside enough (Nat.le_refl _) s (pop_empty hs enough part)
    refine ⟨hne, ?_⟩
    by_contra taken
    rw [leadTaken_iff] at taken
    exact inside (enough + text.length + 1) (by omega) s
      (popCtype_fault hs (secondWord_le.trans hsize) taken (by omega) part)
  · intro ⟨hne, taken⟩
    refine ⟨text.length + 1, ?_⟩
    intro tests htests s'
    dsimp only
    rw [popCtype_eq hs (fun hnil => absurd hnil hne) (secondWord_le.trans hsize)
      (leadTaken_iff.mp taken) htests part]
    exact pop_inside hs hne _ part tests s'

end Region

/-- The blank is the only whitespace, and EOF is -1. -/
def blankCtype : Ctype := ⟨-1, fun value => value == 32⟩

/-- "a" is popped on either kind of target. -/
theorem pop_inside_iff_letter :
    StaysInside (fun tests => strSplitWhitespacePopCtype (regionMemory 4096 [97]) ⟨true⟩ blankCtype
      scriptedOps tests ⟨4096, 1, .notAllocated⟩ .zero) [] ↔
      ([97] : List UInt8) ≠ [] ∧ LeadTaken ⟨true⟩ blankCtype [97] :=
  pop_inside_iff letter_strAt (by decide) .zero

/-- A byte 0xE9, in a plain char that is signed, is passed to `isspace` as -23. -/
theorem signedByte_outside :
    ¬ StaysInside (fun tests => strSplitWhitespacePopCtype (regionMemory 4096 [0xE9]) ⟨true⟩
      blankCtype scriptedOps tests ⟨4096, 1, .notAllocated⟩ .zero) [] := by
  intro ⟨enough, inside⟩
  exact inside enough (Nat.le_refl _) [] rfl

end M65Tool.Guarantees.StrScanBounds
