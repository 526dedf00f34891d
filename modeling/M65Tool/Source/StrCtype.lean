import M65Tool.Source.StrPops

/-!
# Splitting on whitespace, with the calls of `isspace`

Source: src/datastruct/str.c:144-173. `isspace` takes an int and looks it up in a table; a
plain char that holds a byte is converted to one. These loops read and call at each place
where the source does, so that a run that returns has read nothing outside of its memory
and has called `isspace` with nothing that it does not take.
-/
namespace M65Tool.Source.StrFunctions
open Mem MapHash StringBuffer Lib.Effect Lib.Splitting

/-- `EOF` and `isspace` of the C library. -/
structure Ctype where
  eof : Int
  isspace : Int → Bool

namespace Ctype

/-- The functions of ctype.h take the values of an unsigned char, and EOF. -/
def Takes (ctype : Ctype) (value : Int) : Prop := (0 ≤ value ∧ value ≤ 255) ∨ value = ctype.eof

instance (ctype : Ctype) (value : Int) : Decidable (ctype.Takes value) :=
  inferInstanceAs (Decidable (_ ∨ _))

/-- What `isspace` says of a byte in a plain char. -/
def byteIsspace (ctype : Ctype) (target : Target) (b : UInt8) : Bool :=
  ctype.isspace (charToInt target b)

end Ctype

section Scan
variable {σ : Type} (mem : Memory) (target : Target) (ctype : Ctype)

/-- `isspace(value)`: outside of what it takes there is no table. -/
def callIsspace (value : Int) : C σ Bool :=
  if ctype.Takes value then pure (ctype.isspace value) else throw .outOfBounds

/-- `isspace(ptr[i])`. -/
def spaceAt (ptr : Addr) (i : Nat) : C σ Bool := do
  let b ← load mem ptr i
  callIsspace ctype (charToInt target b)

/-- A loop of `str_split_whitespace_pop`, which goes on while `isspace` answers this. -/
def spaceLoop (strvalP : Addr) (size : Nat) (answer : Bool) : Nat → UInt32 → C σ UInt32
  | 0, _ => throw .endlessLoop
  | tests + 1, i =>
    if i.toNat < size then do
      let space ← spaceAt mem target ctype strvalP i.toNat
      if space = answer then spaceLoop strvalP size answer tests (i + 1) else pure i
    else pure i

/-- str.c:149-152. -/
def spaceLeading (strvalP : Addr) (size tests : Nat) : C σ UInt32 := do
  let first ← spaceAt mem target ctype strvalP 0
  if first then spaceLoop mem target ctype strvalP size true tests 0 else pure 0

/-- str.c:144-173: the returned str, and `*part` after the call. -/
def strSplitWhitespacePopCtype (ops : MemOps σ) (tests : Nat) (strval part : MemHandle) :
    C σ (MemHandle × MemHandle) :=
  if ¬ memIsValid strval then pure (.zero, part)
  else do
    let strvalP ← ops.memP strval
    let start ← spaceLeading mem target ctype strvalP strval.size tests
    let pos ← spaceLoop mem target ctype strvalP strval.size false tests start
    let part : MemHandle := ⟨strvalP + UInt64.ofNat start.toNat, (pos - start).toNat, .notAllocated⟩
    let next ← spaceLoop mem target ctype strvalP strval.size true tests pos
    if next.toNat = strval.size then pure (.zero, part)
    else
      pure (⟨strvalP + UInt64.ofNat next.toNat, subSize strval.size next.toNat, .notAllocated⟩,
        part)

end Scan

/-! ## The bytes that are looked at -/

/-- `isspace` takes every byte of the text from one position through another. -/
def TakesThrough (target : Target) (ctype : Ctype) (text : List UInt8) (i j : Nat) : Prop :=
  ∀ k b, i ≤ k → k ≤ j → text[k]? = some b → ctype.Takes (charToInt target b)

/-- `isspace` takes every byte of the text. -/
def TakesAll (target : Target) (ctype : Ctype) (text : List UInt8) : Prop :=
  ∀ b ∈ text, ctype.Takes (charToInt target b)

instance (target : Target) (ctype : Ctype) (text : List UInt8) :
    Decidable (TakesAll target ctype text) :=
  inferInstanceAs (Decidable (∀ _ ∈ _, _))

section Taken
variable {target : Target} {ctype : Ctype} {text rest : List UInt8} {b : UInt8} {n : Nat}

/-- The bytes below 0x80 are values of an unsigned char on every target. -/
theorem takes_ascii (h : b.toNat < 128) : ctype.Takes (charToInt target b) := by
  left
  unfold charToInt
  split <;> omega

theorem takesAll_nil : TakesAll target ctype [] := fun _ hb => absurd hb List.not_mem_nil

theorem takesAll_append (htext : TakesAll target ctype text) (hrest : TakesAll target ctype rest) :
    TakesAll target ctype (text ++ rest) :=
  List.forall_mem_append.mpr ⟨htext, hrest⟩

theorem takesAll_of_through (taken : TakesThrough target ctype text 0 n)
    (rest : TakesAll target ctype (text.drop n)) : TakesAll target ctype text := by
  rw [← List.take_append_drop n text]
  refine takesAll_append (fun b hb => ?_) rest
  obtain ⟨k, hk, rfl⟩ := List.mem_take_iff_getElem.mp hb
  exact taken k _ (Nat.zero_le k) (by omega) (List.getElem?_eq_getElem _)

end Taken

section Loops
variable {σ : Type} {mem : Memory} {target : Target} {ctype : Ctype} {strvalP : Addr}
  {text : List UInt8} {test : UInt8 → Bool} {answer : Bool} {i j n tests : Nat} {b : UInt8} {s : σ}

theorem TakesThrough.mono (h : TakesThrough target ctype text i j) {i' j' : Nat} (hi : i ≤ i')
    (hj : j' ≤ j) : TakesThrough target ctype text i' j' :=
  fun k b hk hk' => h k b (Nat.le_trans hi hk) (Nat.le_trans hk' hj)

theorem TakesThrough.join (h : TakesThrough target ctype text i j)
    (h' : TakesThrough target ctype text j n) : TakesThrough target ctype text i n := by
  intro k b hk hk'
  rcases Nat.le_total k j with hle | hle
  · exact h k b hk hle
  · exact h' k b hle hk'

theorem spaceAt_ok (hload : (load mem strvalP i : C σ UInt8) s = .ok b s)
    (htakes : ctype.Takes (charToInt target b)) :
    (spaceAt mem target ctype strvalP i : C σ Bool) s = .ok (ctype.byteIsspace target b) s := by
  rw [spaceAt, bind_of_ok hload, callIsspace, if_pos htakes]
  rfl

theorem spaceAt_fault (hload : (load mem strvalP i : C σ UInt8) s = .ok b s)
    (htakes : ¬ ctype.Takes (charToInt target b)) :
    (spaceAt mem target ctype strvalP i : C σ Bool) s = .error .outOfBounds s := by
  rw [spaceAt, bind_of_ok hload, callIsspace, if_neg htakes]
  rfl

/-- Where `isspace` takes every byte up to the end of the run, the loop is the loop with
a test of the bytes. -/
theorem spaceLoop_eq (htext : BytesAt mem strvalP text) (hrun : runEnd test text n ≤ uintMax)
    (htest : ∀ b, test b = true ↔ ctype.byteIsspace target b = answer) (hn : n ≤ text.length)
    (takes : TakesThrough target ctype text n (runEnd test text n)) :
    (spaceLoop mem target ctype strvalP text.length answer tests (UInt32.ofNat n) : C σ UInt32) s =
      skipLoop mem strvalP text.length test tests (UInt32.ofNat n) s := by
  induction tests generalizing n with
  | zero => rfl
  | succ tests ih =>
    have hto : (UInt32.ofNat n).toNat = n := toNat_ofNat_fits ((le_runEnd test text n).trans hrun)
    rw [spaceLoop, skipLoop, hto]
    by_cases hlt : n < text.length
    · have hb := List.getElem?_eq_getElem hlt
      have hload : (load mem strvalP n : C σ UInt8) s = .ok text[n] s := htext.load_ok hb
      rw [if_pos hlt, if_pos hlt, bind_of_ok hload,
        bind_of_ok (spaceAt_ok hload (takes n _ (Nat.le_refl n) (le_runEnd test text n) hb))]
      by_cases hpass : test text[n] = true
      · have hsucc : UInt32.ofNat n + 1 = UInt32.ofNat (n + 1) := (UInt32.ofNat_add n 1).symm
        have hstep := runEnd_step test hb hpass
        rw [if_pos hpass, if_pos ((htest _).mp hpass), hsucc]
        apply ih (hstep ▸ hrun) (by omega)
        rw [← hstep]
        exact takes.mono (Nat.le_succ n) (Nat.le_refl _)
      · rw [if_neg hpass, if_neg fun hanswer => hpass ((htest _).mpr hanswer)]
    · rw [if_neg hlt, if_neg hlt]

theorem spaceLoop_ok (htext : BytesAt mem strvalP text) (hrun : runEnd test text n ≤ uintMax)
    (htest : ∀ b, test b = true ↔ ctype.byteIsspace target b = answer) (hn : n ≤ text.length)
    (htests : text.length < n + tests)
    (takes : TakesThrough target ctype text n (runEnd test text n)) :
    (spaceLoop mem target ctype strvalP text.length answer tests (UInt32.ofNat n) : C σ UInt32) s =
      .ok (UInt32.ofNat (runEnd test text n)) s := by
  rw [spaceLoop_eq htext hrun htest hn takes, skipLoop_ok htext hrun hn htests]

/-- A byte of the run, or the one behind it, that `isspace` does not take. -/
theorem spaceLoop_fault (htext : BytesAt mem strvalP text) (hrun : runEnd test text n ≤ uintMax)
    (htest : ∀ b, test b = true ↔ ctype.byteIsspace target b = answer) (hn : n ≤ text.length)
    (htests : text.length < n + tests)
    (takes : ¬ TakesThrough target ctype text n (runEnd test text n)) :
    (spaceLoop mem target ctype strvalP text.length answer tests (UInt32.ofNat n) : C σ UInt32) s =
      .error .outOfBounds s := by
  induction tests generalizing n with
  | zero => omega
  | succ tests ih =>
    have hto : (UInt32.ofNat n).toNat = n := toNat_ofNat_fits ((le_runEnd test text n).trans hrun)
    rw [spaceLoop, hto]
    by_cases hlt : n < text.length
    · have hb := List.getElem?_eq_getElem hlt
      have hload : (load mem strvalP n : C σ UInt8) s = .ok text[n] s := htext.load_ok hb
      rw [if_pos hlt]
      by_cases hfirst : ctype.Takes (charToInt target text[n])
      · rw [bind_of_ok (spaceAt_ok hload hfirst)]
        have hone : TakesThrough target ctype text n n := by
          intro k b hk hk' hkb
          obtain rfl : k = n := Nat.le_antisymm hk' hk
          rw [hb] at hkb
          cases hkb
          exact hfirst
        by_cases hpass : test text[n] = true
        · have hsucc : UInt32.ofNat n + 1 = UInt32.ofNat (n + 1) := (UInt32.ofNat_add n 1).symm
          have hstep := runEnd_step test hb hpass
          rw [if_pos ((htest _).mp hpass), hsucc]
          apply ih (hstep ▸ hrun) (by omega) (by omega)
          rw [← hstep]
          intro hlater
          apply takes
          intro k b hk hk' hkb
          rcases Nat.eq_or_lt_of_le hk with he | hlt'
          · exact hone k b hk (Nat.le_of_eq he.symm) hkb
          · exact hlater k b hlt' hk' hkb
        · -- the run is empty, and the byte at its end has passed
          have hend : runEnd test text n = n := by
            apply runEnd_stop
            intro x hx
            rw [hb] at hx
            cases hx
            simpa using hpass
          rw [hend] at takes
          exact absurd hone takes
      · rw [bind_of_error (spaceAt_fault hload hfirst)]
    · exfalso
      apply takes
      intro k b hk _ hkb
      rw [List.getElem?_eq_none (by omega)] at hkb
      cases hkb

end Loops

/-! ## One pop -/

section Pop
variable {σ : Type} {ops : MemOps σ} {mem : Memory} {target : Target} {ctype : Ctype} {s : σ}
  {strval : MemHandle} {strvalP : Addr} {text : List UInt8} {tests : Nat}

theorem not_isspace_iff (b : UInt8) :
    (!ctype.byteIsspace target b) = true ↔ ctype.byteIsspace target b = false := by
  simp

/-- The byte that is tested first, also where the str is empty. -/
theorem first_taken (htext : BytesAt mem strvalP text)
    (beyond : text = [] → ∃ b, mem strvalP = some b ∧ ctype.Takes (charToInt target b))
    (takes : TakesThrough target ctype text 0 (runEnd (ctype.byteIsspace target) text 0)) :
    ∃ b, (load mem strvalP 0 : C σ UInt8) s = .ok b s ∧ ctype.Takes (charToInt target b) := by
  cases text with
  | nil =>
    obtain ⟨b, hb, htakes⟩ := beyond rfl
    obtain ⟨b', hload, -⟩ := load_first (s := s) htext fun _ => ⟨b, hb⟩
    refine ⟨b, ?_, htakes⟩
    rw [load, if_neg htext.ptr_ne]
    simp [hb]
  | cons x xs => exact ⟨x, htext.load_ok rfl, takes 0 x (Nat.le_refl 0) (Nat.zero_le _) rfl⟩

theorem spaceLeading_eq (htext : BytesAt mem strvalP text)
    (hrun : runEnd (ctype.byteIsspace target) text 0 ≤ uintMax)
    (beyond : text = [] → ∃ b, mem strvalP = some b ∧ ctype.Takes (charToInt target b))
    (takes : TakesThrough target ctype text 0 (runEnd (ctype.byteIsspace target) text 0)) :
    (spaceLeading mem target ctype strvalP text.length tests : C σ UInt32) s =
      skipLeading mem strvalP text.length (ctype.byteIsspace target) tests s := by
  obtain ⟨first, hload, hfirst⟩ := first_taken (s := s) htext beyond takes
  rw [spaceLeading, skipLeading, bind_of_ok (spaceAt_ok hload hfirst), bind_of_ok hload]
  by_cases hspace : ctype.byteIsspace target first = true
  · rw [if_pos hspace, if_pos hspace]
    exact spaceLoop_eq htext hrun (fun _ => Iff.rfl) (Nat.zero_le _) takes
  · rw [if_neg hspace, if_neg hspace]

theorem spaceLeading_fault (htext : BytesAt mem strvalP text)
    (hrun : runEnd (ctype.byteIsspace target) text 0 ≤ uintMax) (htests : text.length < tests)
    (takes : ¬ TakesThrough target ctype text 0 (runEnd (ctype.byteIsspace target) text 0)) :
    (spaceLeading mem target ctype strvalP text.length tests : C σ UInt32) s =
      .error .outOfBounds s := by
  have hne : text ≠ [] := by
    rintro rfl
    exact takes fun k b _ _ hb => by cases hb
  obtain ⟨first, hb⟩ : ∃ first, text[0]? = some first :=
    ⟨_, List.getElem?_eq_getElem (List.length_pos_iff.mpr hne)⟩
  have hload : (load mem strvalP 0 : C σ UInt8) s = .ok first s := htext.load_ok hb
  rw [spaceLeading]
  by_cases hfirst : ctype.Takes (charToInt target first)
  · rw [bind_of_ok (spaceAt_ok hload hfirst)]
    by_cases hspace : ctype.byteIsspace target first = true
    · rw [if_pos hspace]
      exact spaceLoop_fault htext hrun (fun _ => Iff.rfl) (Nat.zero_le _) (by omega) takes
    · have hend : runEnd (ctype.byteIsspace target) text 0 = 0 := by
        apply runEnd_stop
        intro x hx
        rw [hb] at hx
        cases hx
        simpa using hspace
      exfalso
      apply takes
      intro k b _ hk hkb
      obtain rfl : k = 0 := by omega
      rw [hb] at hkb
      cases hkb
      exact hfirst
  · rw [bind_of_error (spaceAt_fault hload hfirst)]

/-- With bytes that `isspace` takes up to the second word, the call is the one that tests
the bytes. -/
theorem popCtype_eq (hs : StrAt ops mem s strval strvalP text)
    (beyond : text = [] → ∃ b, mem strvalP = some b ∧ ctype.Takes (charToInt target b))
    (fits : secondWord (ctype.byteIsspace target) text ≤ uintMax)
    (taken : TakesThrough target ctype text 0 (secondWord (ctype.byteIsspace target) text))
    (htests : text.length < tests) (part : MemHandle) :
    strSplitWhitespacePopCtype mem target ctype ops tests strval part s =
      strSplitWhitespacePop ops mem tests (ctype.byteIsspace target) strval part s := by
  unfold secondWord at fits taken
  generalize hstart : runEnd (ctype.byteIsspace target) text 0 = start at fits taken
  generalize hstop : runEnd (fun b => !ctype.byteIsspace target b) text start = stop at fits taken
  have hstartle : start ≤ text.length := hstart ▸ runEnd_le _ (Nat.zero_le _)
  have hstople : stop ≤ text.length := hstop ▸ runEnd_le _ hstartle
  have hstartstop : start ≤ stop := hstop ▸ le_runEnd _ text start
  have hstopnext : stop ≤ runEnd (ctype.byteIsspace target) text stop := le_runEnd _ text stop
  have hstopfits : stop ≤ uintMax := hstopnext.trans fits
  have hstartfits : start ≤ uintMax := hstartstop.trans hstopfits
  have hleading : TakesThrough target ctype text 0 start :=
    taken.mono (Nat.le_refl 0) (hstartstop.trans hstopnext)
  have hmiddle : TakesThrough target ctype text start stop := taken.mono (Nat.zero_le _) hstopnext
  have hskip := skipLeading_ok (s := s) hs.bytes_at (hstart ▸ hstartfits)
    (fun hnil => (beyond hnil).imp fun _ h => h.1) htests
  have hfirst := (spaceLeading_eq (s := s) hs.bytes_at (hstart ▸ hstartfits) beyond
    (hstart ▸ hleading)).trans hskip
  rw [hstart] at hfirst hskip
  rw [strSplitWhitespacePopCtype, strSplitWhitespacePop, if_neg (by simp [hs.valid]),
    if_neg (by simp [hs.valid]), bind_of_ok hs.memP_eq, bind_of_ok hs.memP_eq, hs.size_eq,
    bind_of_ok hfirst, bind_of_ok hskip]
  have hleft : text.length < start + tests := by omega
  have hsecond := spaceLoop_ok hs.bytes_at (hstop ▸ hstopfits) not_isspace_iff hstartle hleft
    (hstop ▸ hmiddle) (s := s)
  rw [bind_of_ok hsecond,
    bind_of_ok (skipLoop_ok hs.bytes_at (hstop ▸ hstopfits) hstartle hleft), hstop]
  have hleft' : text.length < stop + tests := by omega
  have hthird := spaceLoop_ok hs.bytes_at fits (fun _ => Iff.rfl) hstople hleft'
    (taken.mono (Nat.zero_le _) (Nat.le_refl _)) (s := s)
  rw [bind_of_ok hthird, bind_of_ok (skipLoop_ok hs.bytes_at fits hstople hleft')]

/-- The pop of the model with a test of the bytes. -/
theorem popCtype_returns (hs : StrAt ops mem s strval strvalP text)
    (beyond : text = [] → ∃ b, mem strvalP = some b ∧ ctype.Takes (charToInt target b))
    (part : MemHandle) {start stop next : Nat}
    (hstart : start = runEnd (ctype.byteIsspace target) text 0)
    (hstop : stop = runEnd (fun b => !ctype.byteIsspace target b) text start)
    (hnext : next = runEnd (ctype.byteIsspace target) text stop) (fits : next ≤ uintMax)
    (taken : TakesThrough target ctype text 0 next) :
    Returns (fun tests => strSplitWhitespacePopCtype mem target ctype ops tests strval part) s
      (if next = text.length then .zero else restAt strvalP text next,
        ⟨strvalP + UInt64.ofNat start, stop - start, .notAllocated⟩) := by
  have hsecond : secondWord (ctype.byteIsspace target) text = next := by
    rw [secondWord, ← hstart, ← hstop, hnext]
  obtain ⟨enough, hpop⟩ := wordPop_returns hs (fun hnil => (beyond hnil).imp fun _ h => h.1) part
    hstart hstop hnext fits
  rw [← hsecond] at fits taken
  refine ⟨enough + text.length + 1, ?_⟩
  intro tests htests
  have heq := popCtype_eq hs beyond fits taken (show text.length < tests by omega) part
  exact heq.trans (hpop tests (by omega))

/-- Otherwise one of the loops comes to a byte that `isspace` does not take. -/
theorem popCtype_fault (hs : StrAt ops mem s strval strvalP text)
    (fits : secondWord (ctype.byteIsspace target) text ≤ uintMax)
    (taken : ¬ TakesThrough target ctype text 0 (secondWord (ctype.byteIsspace target) text))
    (htests : text.length < tests) (part : MemHandle) :
    strSplitWhitespacePopCtype mem target ctype ops tests strval part s =
      .error .outOfBounds s := by
  have hne : text ≠ [] := by
    rintro rfl
    exact taken fun k b _ _ hb => by cases hb
  unfold secondWord at fits taken
  generalize hstart : runEnd (ctype.byteIsspace target) text 0 = start at fits taken
  generalize hstop : runEnd (fun b => !ctype.byteIsspace target b) text start = stop at fits taken
  have hstartle : start ≤ text.length := hstart ▸ runEnd_le _ (Nat.zero_le _)
  have hstople : stop ≤ text.length := hstop ▸ runEnd_le _ hstartle
  have hstartstop : start ≤ stop := hstop ▸ le_runEnd _ text start
  have hstopfits : stop ≤ uintMax := (le_runEnd _ text stop).trans fits
  have hstartfits : start ≤ uintMax := hstartstop.trans hstopfits
  rw [strSplitWhitespacePopCtype, if_neg (by simp [hs.valid]), bind_of_ok hs.memP_eq, hs.size_eq]
  by_cases hleading : TakesThrough target ctype text 0 start
  · have hfirst := (spaceLeading_eq (s := s) hs.bytes_at (hstart ▸ hstartfits)
      (fun hnil => absurd hnil hne) (hstart ▸ hleading)).trans
        (skipLeading_ok hs.bytes_at (hstart ▸ hstartfits) (fun hnil => absurd hnil hne) htests)
    rw [bind_of_ok hfirst, hstart]
    by_cases hword : TakesThrough target ctype text start stop
    · have hsecond := spaceLoop_ok hs.bytes_at (hstop ▸ hstopfits) not_isspace_iff hstartle
        (show text.length < start + tests by omega) (hstop ▸ hword) (s := s)
      rw [bind_of_ok hsecond, hstop]
      apply bind_of_error
      apply spaceLoop_fault hs.bytes_at fits (fun _ => Iff.rfl) hstople (by omega)
      intro hgap
      exact taken ((hleading.join hword).join hgap)
    · apply bind_of_error
      apply spaceLoop_fault hs.bytes_at (hstop ▸ hstopfits) not_isspace_iff hstartle (by omega)
      rw [hstop]
      exact hword
  · apply bind_of_error
    apply spaceLeading_fault hs.bytes_at (hstart ▸ hstartfits) htests
    rw [hstart]
    exact hleading

end Pop
end M65Tool.Source.StrFunctions
