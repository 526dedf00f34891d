import M65Tool.Source.StrReads

/-!
# What the loops over the pop functions yield

`Yields` is a run of the documented loop that ends. One pop of `str_split_pop` cuts its
str at the position that `str_find` reports; the remainder is again a str, of the bytes
behind the delimiter.
-/
namespace M65Tool.Source.StrFunctions
open Mem StringBuffer Lib.Effect Lib.Splitting

/-! ## The loop -/

section Rounds
variable {σ : Type} {pop : MemHandle → C σ (MemHandle × MemHandle)} {s : σ} {strval : MemHandle}
  {popped : MemHandle × MemHandle} {rounds : Nat}

theorem popLoop_valid (h : memIsValid strval = true) (hpop : pop strval s = .ok popped s) :
    popLoop pop (rounds + 1) strval s =
      (popLoop pop rounds popped.1 >>= fun later => pure (popped :: later)) s := by
  rw [popLoop, if_pos h, bind_of_ok hpop]

/-- A pop that returns the str it was given is repeated forever. -/
theorem popLoop_stuck (h : memIsValid strval = true) (hpop : pop strval s = .ok popped s)
    (hsame : popped.1 = strval) (rounds : Nat) :
    popLoop pop rounds strval s = .error .endlessLoop s := by
  induction rounds with
  | zero => rfl
  | succ rounds ih => rw [popLoop_valid h hpop, hsame, bind_of_error ih]

end Rounds

section Loop
variable {σ : Type} {pop : Nat → MemHandle → C σ (MemHandle × MemHandle)} {s : σ}
  {strval : MemHandle} {popped : MemHandle × MemHandle} {pops : List (MemHandle × MemHandle)}

/-- Given enough rounds, and enough tests in each pop, the loop ends after these pops. -/
def Yields (pop : Nat → MemHandle → C σ (MemHandle × MemHandle)) (s : σ) (strval : MemHandle)
    (pops : List (MemHandle × MemHandle)) : Prop :=
  ∃ enough, ∀ tests ≥ enough, ∀ rounds ≥ enough,
    popLoop (pop tests) rounds strval s = .ok pops s

theorem Yields.done (h : memIsValid strval = false) : Yields pop s strval [] := by
  refine ⟨1, ?_⟩
  intro tests _ rounds hrounds
  obtain ⟨r, rfl⟩ : ∃ r, rounds = r + 1 := ⟨rounds - 1, by omega⟩
  rw [popLoop, if_neg (by simp [h])]
  rfl

theorem Yields.step (h : memIsValid strval = true)
    (hpop : Returns (fun tests => pop tests strval) s popped) (hrest : Yields pop s popped.1 pops) :
    Yields pop s strval (popped :: pops) := by
  obtain ⟨m, hm⟩ := hpop
  obtain ⟨n, hn⟩ := hrest
  refine ⟨m + n + 1, ?_⟩
  intro tests htests rounds hrounds
  obtain ⟨r, rfl⟩ : ∃ r, rounds = r + 1 := ⟨rounds - 1, by omega⟩
  rw [popLoop_valid h (hm tests (by omega)), bind_of_ok (hn tests (by omega) r (by omega))]
  rfl

/-- The loop that ends has ended from its first remainder too. -/
theorem Yields.step_inv (h : memIsValid strval = true)
    (hpop : Returns (fun tests => pop tests strval) s popped) (hall : Yields pop s strval pops) :
    ∃ later, pops = popped :: later ∧ Yields pop s popped.1 later := by
  obtain ⟨m, hm⟩ := hpop
  obtain ⟨n, hn⟩ := hall
  have split : ∀ tests ≥ m + n, ∀ rounds ≥ m + n, ∃ later,
      popLoop (pop tests) rounds popped.1 s = .ok later s ∧ pops = popped :: later := by
    intro tests htests rounds hrounds
    have hrun := hn tests (by omega) (rounds + 1) (by omega)
    rw [popLoop_valid h (hm tests (by omega))] at hrun
    obtain ⟨later, s', hlater, hcons⟩ := bind_ok_inv hrun
    cases hcons
    exact ⟨later, hlater, rfl⟩
  obtain ⟨later, -, rfl⟩ := split (m + n) (Nat.le_refl _) (m + n) (Nat.le_refl _)
  refine ⟨later, rfl, m + n, ?_⟩
  intro tests htests rounds hrounds
  obtain ⟨later', hlater, he⟩ := split tests htests rounds hrounds
  cases he
  exact hlater

/-- Where the loop ends, the first pop returns. -/
theorem Yields.pop_ok (h : memIsValid strval = true) (hall : Yields pop s strval pops) :
    ∃ tests popped s', pop tests strval s = .ok popped s' := by
  obtain ⟨n, hn⟩ := hall
  have hrun := hn n (Nat.le_refl n) (n + 1) (Nat.le_succ n)
  rw [popLoop, if_pos h] at hrun
  obtain ⟨popped, s', hpop, -⟩ := bind_ok_inv hrun
  exact ⟨n, popped, s', hpop⟩

end Loop

/-! ## Parts of a text -/

/-- The handle refers to these bytes within the text at the address. -/
def SubRange (ptr : Addr) (text : List UInt8) (handle : MemHandle) (bytes : List UInt8) : Prop :=
  ∃ off ≤ text.length, bytes <+: text.drop off ∧
    handle = ⟨ptr + UInt64.ofNat off, bytes.length, .notAllocated⟩

/-- The str of the bytes from the offset on. -/
def restAt (ptr : Addr) (text : List UInt8) (off : Nat) : MemHandle :=
  ⟨ptr + UInt64.ofNat off, text.length - off, .notAllocated⟩

section Rest
variable {σ : Type} {libc : Libc σ} {spec : MemAllocator → Option (MemAllocatorSpec σ)}
  {mem : Memory} {ptr : Addr} {text : List UInt8} {off i n : Nat}

theorem restAt_isValid (h : BytesAt mem ptr text) (hoff : off ≤ text.length) :
    memIsValid (restAt ptr text off) = true :=
  memIsValid_eq_true.mpr (h.drop hoff).ptr_ne

/-- What is left of the bytes from one offset on is a str from a later offset on. -/
theorem strAt_restAt (unowned : spec .notAllocated = some notAllocatedSpec)
    (hfull : BytesAt mem ptr text) (hn : off + n ≤ text.length) (s : σ) :
    StrAt (memOps libc spec) mem s (restAt (ptr + UInt64.ofNat off) (text.drop off) n)
      (ptr + UInt64.ofNat (off + n)) (text.drop (off + n)) := by
  have hsize : (text.drop off).length - n = (text.drop (off + n)).length := by
    rw [List.length_drop, List.length_drop, Nat.sub_sub]
  rw [restAt, add_ofNat_add, hsize]
  exact strAt_unowned unowned (hfull.drop hn) s

theorem subRange_rest (h : off + n ≤ text.length) :
    SubRange ptr text (restAt (ptr + UInt64.ofNat off) (text.drop off) n)
      (text.drop (off + n)) := by
  refine ⟨off + n, h, List.prefix_rfl, ?_⟩
  rw [restAt, add_ofNat_add, List.length_drop, List.length_drop, Nat.sub_sub]

theorem subRange_part (ptr : Addr) (hoff : off ≤ text.length) (h : i ≤ (text.drop off).length) :
    SubRange ptr text ⟨ptr + UInt64.ofNat off, i, .notAllocated⟩ ((text.drop off).take i) := by
  refine ⟨off, hoff, List.take_prefix _ _, ?_⟩
  rw [List.length_take, Nat.min_eq_left h]

end Rest

/-! ## One pop of `str_split_pop` -/

section SplitPop
variable {σ : Type} {ops : MemOps σ} {mem : Memory} {s : σ} {strval delim part : MemHandle}
  {strvalP delimP : Addr} {text d : List UInt8} {i tests : Nat} {pos : Int}

theorem strSplitPop_found (hs : StrAt ops mem s strval strvalP text)
    (hd : StrAt ops mem s delim delimP d) (hne : pos ≠ -1)
    (hfind : strFind ops mem tests strval delim s = .ok pos s) :
    strSplitPop ops mem tests strval delim part s =
      .ok (⟨strvalP + UInt64.ofNat (intToSize pos) + UInt64.ofNat d.length,
          subSize (subSize text.length (intToSize pos)) d.length, .notAllocated⟩,
        ⟨strvalP, intToSize pos, .notAllocated⟩) s := by
  rw [strSplitPop, if_neg (by simp [hs.valid, hd.valid]), bind_of_ok hfind,
    bind_of_ok hs.memP_eq, if_neg hne, hs.size_eq, hd.size_eq]
  rfl

theorem strSplitPop_last (hs : StrAt ops mem s strval strvalP text)
    (hd : StrAt ops mem s delim delimP d)
    (hfind : strFind ops mem tests strval delim s = .ok (-1) s) :
    strSplitPop ops mem tests strval delim part s =
      .ok (.zero, ⟨strvalP, text.length, .notAllocated⟩) s := by
  rw [strSplitPop, if_neg (by simp [hs.valid, hd.valid]), bind_of_ok hfind,
    bind_of_ok hs.memP_eq, if_pos rfl, hs.size_eq]
  rfl

/-- The pop goes on behind an occurrence that an int can hold. -/
theorem splitPop_near (hs : StrAt ops mem s strval strvalP text)
    (hd : StrAt ops mem s delim delimP d) (hleft : Leftmost text d i) (hi : i ≤ intMax)
    (part : MemHandle) :
    Returns (fun tests => strSplitPop ops mem tests strval delim part) s
      (restAt strvalP text (i + d.length), ⟨strvalP, i, .notAllocated⟩) := by
  have hmax := hi
  unfold intMax at hmax
  have hends := hleft.occurs.le
  have hlen := hs.bytes_at.length_lt
  have hsize : intToSize (i : Int) = i := intToSize_natCast (by omega)
  obtain ⟨enough, hfind⟩ := strFind_hit hs hd hleft (by omega)
  refine ⟨enough, ?_⟩
  intro tests htests
  have hrun := hfind tests htests
  dsimp only at hrun ⊢
  rw [uintToInt_near hi] at hrun
  rw [strSplitPop_found hs hd (by omega) hrun, hsize, add_ofNat_add,
    subSize_eq (by omega) hlen, subSize_eq (by omega) (by omega), Nat.sub_sub]
  rfl

theorem splitPop_none (hs : StrAt ops mem s strval strvalP text)
    (hd : StrAt ops mem s delim delimP d) (habsent : ∀ i, ¬ OccursAt text d i)
    (hcount : text.length < d.length + uintMax) (part : MemHandle) :
    Returns (fun tests => strSplitPop ops mem tests strval delim part) s
      (.zero, ⟨strvalP, text.length, .notAllocated⟩) := by
  obtain ⟨enough, hfind⟩ := strFind_none hs hd habsent hcount
  exact ⟨enough, fun tests htests => strSplitPop_last hs hd (hfind tests htests)⟩

end SplitPop

/-! ## One pop of `str_split_whitespace_pop` -/

section WordPop
variable {σ : Type} {ops : MemOps σ} {mem : Memory} {s : σ} {strval : MemHandle}
  {strvalP : Addr} {text : List UInt8} {test isspace : UInt8 → Bool} {n tests : Nat}

/-- A scanning loop ends where the run of bytes that it passes does, if an unsigned int can
hold that position. -/
theorem skipLoop_ok (htext : BytesAt mem strvalP text) (hrun : runEnd test text n ≤ uintMax)
    (hn : n ≤ text.length) (htests : text.length < n + tests) :
    (skipLoop mem strvalP text.length test tests (UInt32.ofNat n) : C σ UInt32) s =
      .ok (UInt32.ofNat (runEnd test text n)) s := by
  induction tests generalizing n with
  | zero => omega
  | succ tests ih =>
    have hto : (UInt32.ofNat n).toNat = n := toNat_ofNat_fits ((le_runEnd test text n).trans hrun)
    rw [skipLoop, hto]
    by_cases hlt : n < text.length
    · have hb := List.getElem?_eq_getElem hlt
      rw [if_pos hlt, bind_of_ok (htext.load_ok hb)]
      by_cases hpass : test text[n] = true
      · have hsucc : UInt32.ofNat n + 1 = UInt32.ofNat (n + 1) := (UInt32.ofNat_add n 1).symm
        rw [runEnd_step test hb hpass] at hrun
        rw [if_pos hpass, runEnd_step test hb hpass, hsucc]
        exact ih hrun (by omega) (by omega)
      · have hstop : ∀ x, text[n]? = some x → test x = false := by
          intro x hx
          rw [hb] at hx
          cases hx
          simpa using hpass
        rw [if_neg hpass, runEnd_stop test hstop]
        rfl
    · have hstop : ∀ x, text[n]? = some x → test x = false := by
        intro x hx
        rw [List.getElem?_eq_none (by omega)] at hx
        cases hx
      rw [if_neg hlt, runEnd_stop test hstop]
      rfl

/-- The first test reads a byte also where there is none. -/
theorem load_first (htext : BytesAt mem strvalP text)
    (beyond : text = [] → ∃ b, mem strvalP = some b) :
    ∃ b, (load mem strvalP 0 : C σ UInt8) s = .ok b s ∧ ∀ x, text[0]? = some x → x = b := by
  cases text with
  | nil =>
    obtain ⟨b, hb⟩ := beyond rfl
    refine ⟨b, ?_, by simp⟩
    have hmem : mem (strvalP + UInt64.ofNat 0) = some b := by simpa using hb
    rw [load, if_neg htext.ptr_ne, hmem]
    rfl
  | cons x xs =>
    refine ⟨x, htext.load_ok rfl, ?_⟩
    intro y hy
    cases hy
    rfl

theorem skipLeading_ok (htext : BytesAt mem strvalP text) (hrun : runEnd isspace text 0 ≤ uintMax)
    (beyond : text = [] → ∃ b, mem strvalP = some b) (htests : text.length < tests) :
    (skipLeading mem strvalP text.length isspace tests : C σ UInt32) s =
      .ok (UInt32.ofNat (runEnd isspace text 0)) s := by
  obtain ⟨b, hload, hfirst⟩ := load_first (s := s) htext beyond
  rw [skipLeading, bind_of_ok hload]
  by_cases hb : isspace b = true
  · rw [if_pos hb]
    exact skipLoop_ok htext hrun (Nat.zero_le _) (by omega)
  · have hstop : ∀ x, text[0]? = some x → isspace x = false := by
      intro x hx
      rw [hfirst x hx]
      simpa using hb
    rw [if_neg hb, runEnd_stop isspace hstop]
    rfl

/-- The pop stores the first word; it leaves the bytes from the next word on, if there is
one, and an unsigned int can count them up to there. Of an empty str it reads one byte past
the end. -/
theorem wordPop_returns (hs : StrAt ops mem s strval strvalP text)
    (beyond : text = [] → ∃ b, mem strvalP = some b) (part : MemHandle) {start stop next : Nat}
    (hstart : start = runEnd isspace text 0)
    (hstop : stop = runEnd (fun b => !isspace b) text start)
    (hnext : next = runEnd isspace text stop) (fits : next ≤ uintMax) :
    Returns (fun tests => strSplitWhitespacePop ops mem tests isspace strval part) s
      (if next = text.length then .zero else restAt strvalP text next,
        ⟨strvalP + UInt64.ofNat start, stop - start, .notAllocated⟩) := by
  have hstartle : start ≤ text.length := hstart ▸ runEnd_le isspace (Nat.zero_le _)
  have hstople : stop ≤ text.length := hstop ▸ runEnd_le _ hstartle
  have hnextle : next ≤ text.length := hnext ▸ runEnd_le isspace hstople
  have hordered : start ≤ stop := hstop ▸ le_runEnd _ text start
  have hstopfits : stop ≤ uintMax := le_trans (hnext ▸ le_runEnd _ text stop) fits
  have hstartfits : start ≤ uintMax := hordered.trans hstopfits
  have hstartn : (UInt32.ofNat start).toNat = start := toNat_ofNat_fits hstartfits
  have hstopn : (UInt32.ofNat stop).toNat = stop := toNat_ofNat_fits hstopfits
  have hnextn : (UInt32.ofNat next).toNat = next := toNat_ofNat_fits fits
  have hlen : (UInt32.ofNat stop - UInt32.ofNat start).toNat = stop - start := by
    have hmax := hstopfits
    unfold uintMax at hmax
    rw [UInt32.toNat_sub, hstartn, hstopn]
    omega
  refine ⟨text.length + 1, ?_⟩
  intro tests htests
  have hskip : (skipLeading mem strvalP text.length isspace tests : C σ UInt32) s =
      .ok (UInt32.ofNat start) s := by
    rw [hstart]
    exact skipLeading_ok hs.bytes_at (hstart ▸ hstartfits) beyond htests
  have hword : (skipLoop mem strvalP text.length (fun b => !isspace b) tests (UInt32.ofNat start) :
      C σ UInt32) s = .ok (UInt32.ofNat stop) s := by
    rw [hstop]
    exact skipLoop_ok hs.bytes_at (hstop ▸ hstopfits) hstartle (by omega)
  have hgap : (skipLoop mem strvalP text.length isspace tests (UInt32.ofNat stop) :
      C σ UInt32) s = .ok (UInt32.ofNat next) s := by
    rw [hnext]
    exact skipLoop_ok hs.bytes_at (hnext ▸ fits) hstople (by omega)
  dsimp only
  rw [strSplitWhitespacePop, if_neg (by simp [hs.valid]), bind_of_ok hs.memP_eq, hs.size_eq,
    bind_of_ok hskip, bind_of_ok hword, bind_of_ok hgap, hstartn, hnextn, hlen]
  by_cases hlast : next = text.length
  · rw [if_pos hlast, if_pos hlast]
    rfl
  · rw [if_neg hlast, if_neg hlast, subSize_eq hnextle hs.bytes_at.length_lt]
    rfl

end WordPop

end M65Tool.Source.StrFunctions
