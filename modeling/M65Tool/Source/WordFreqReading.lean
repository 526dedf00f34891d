import M65Tool.Source.HashMapRun
import M65Tool.Source.StrPops
import M65Tool.Source.StringBufferGrowth
import M65Tool.Source.WordFreq

/-!
# Reading a file word by word

Whatever the file is, the program reaches `countWord` with its words, one after the other:
the buffer carries each line, and the splitting loop yields the words of the line. What
counting one word keeps is an invariant of the words counted so far; `Counting` are the
conditions under which it is carried to the end of the file.
-/
namespace M65Tool.Source.WordFreq
open Mem MapHash HashMap StringBuffer StrFunctions Lib.Block Lib.Effect Lib.Splitting

/-- A block of this size at the address ends within the address space, and the variables of
the running functions are not in it. -/
def Placed (stack a : Addr) (n : Nat) : Prop :=
  a.toNat + n < 2 ^ 64 ∧ ¬ (a.toNat ≤ stack.toNat ∧ stack.toNat < a.toNat + n)

/-- A C library with the allocators of mem.c over it. -/
structure Platform (σ : Type) where
  libc : Libc σ
  spec : MemAllocator → Option (MemAllocatorSpec σ)
  refusals : σ → Nat
  live : σ → Addr → Prop
  /-- where a function has its parameters -/
  stack : Addr
  plain : spec .plain = some (plainSpec libc)
  unowned : spec .notAllocated = some notAllocatedSpec
  allocates : Allocates libc refusals live
  /-- a call of free makes no request -/
  free_calm : ∀ a r, Triple (fun s => refusals s = r) (libc.free a) (fun _ s => refusals s = r)
    fun _ s => refusals s = r
  malloc_placed : ∀ n s a s', libc.malloc n s = .ok a s' → a ≠ 0 → Placed stack a n
  realloc_placed : ∀ ptr n s a s', libc.realloc ptr n s = .ok a s' → a ≠ 0 → Placed stack a n
  stack_ne : stack ≠ 0

namespace Platform
variable {σ : Type} (platform : Platform σ)

abbrev ops : MemOps σ := memOps platform.libc platform.spec

theorem plainServes : PlainServes platform.ops := memOps_plainServes platform.plain

theorem serves : Serves (0 < ·) platform.libc platform.refusals platform.live :=
  platform.allocates.serves _

end Platform

/-! ## Where the buffer lies -/

/-- The buffer with the text that has been read into it, in its block. -/
structure Line {σ : Type} (platform : Platform σ) (buf : MemHandle) (bufp : Strbuf)
    (text : List UInt8) : Prop extends Carries buf bufp text where
  placed : Placed platform.stack bufp.data.data bufp.data.size
  /-- the first byte can be read also while there is no text -/
  begun : ∃ b, bufp.block[0]? = some (some b)

namespace Line
variable {σ : Type} {platform : Platform σ} {buf : MemHandle} {bufp : Strbuf} {text : List UInt8}

theorem apart (h : Line platform buf bufp text) : ¬ bufp.Spans platform.stack := h.placed.2

theorem bytesAt (h : Line platform buf bufp text) :
    BytesAt (bufMemory bufp) bufp.data.data text where
  ptr_ne := h.data_data
  readable i hi := by
    have hle := h.length_le
    have hsize := h.size_le
    have hlen := h.length_eq
    unfold ptrdiffMax at hsize
    have hoffset : (bufp.data.data + UInt64.ofNat i - bufp.data.data).toNat = i := by
      rw [UInt64.add_comm, UInt64.add_sub_cancel, UInt64.toNat_ofNat']
      omega
    have hget : bufp.block[i]? = (bufp.block.take bufp.length)[i]? := by
      rw [List.getElem?_take_of_lt (by omega)]
    rw [bufMemory, hoffset, hget, h.contents, List.getElem?_map, List.getElem?_eq_getElem hi]
    rfl
  ends := by
    have hle := h.length_le
    have hlen := h.length_eq
    have hend := h.placed.1
    omega
  size_le := by
    have hle := h.length_le
    have hlen := h.length_eq
    have hsize := h.size_le
    omega

/-- The buffer is reset: the line is gone, its bytes are still there. -/
theorem reset (h : Line platform buf bufp text) :
    Line platform buf { bufp with length := 0 } [] where
  handle_plain := h.handle_plain
  handle_data := h.handle_data
  data_plain := h.data_plain
  data_data := h.data_data
  block_length := h.block_length
  size_pos := h.size_pos
  size_le := h.size_le
  length_eq := rfl
  length_le := Nat.zero_le _
  contents := rfl
  placed := h.placed
  begun := h.begun

/-- The line in a block that has grown. -/
theorem grown (h : Line platform buf bufp text) {a : Addr} {n : Nat} (ha : a ≠ 0)
    (large : bufp.data.size ≤ n) (le : n ≤ ptrdiffMax) (placed : Placed platform.stack a n) :
    Line platform buf (bufp.moved ⟨a, n, .plain⟩) text where
  toCarries := by
    have hpos := h.size_pos
    exact h.moved ha rfl (Nat.le_trans h.length_le large) (Nat.le_trans hpos large) le
  placed := placed
  begun := by
    have hpos := h.size_pos
    obtain ⟨b, hb⟩ := h.begun
    refine ⟨b, ?_⟩
    have hfirst : (resize bufp.block n none).take 1 = bufp.block.take 1 :=
      take_resize (by rw [h.block_length]; exact hpos) (Nat.le_trans hpos large)
    have hget := congrArg (·[0]?) hfirst
    simp only [List.getElem?_take_of_lt Nat.zero_lt_one] at hget
    unfold Strbuf.moved
    rw [if_pos (memIsValid_eq_true.mpr ha)]
    exact hget.trans hb

/-- The line with one character more. -/
theorem appended (h : Line platform buf bufp text) (c : UInt8)
    (room : bufp.length + 1 ≤ bufp.data.size) :
    Line platform buf (bufp.extended [some c] 1) (text ++ [c]) where
  toCarries := by
    have hstored : Carries buf (bufp.extended ([c].map some ++ []) [c].length) (text ++ [c]) :=
      h.toCarries.store room
    rw [List.append_nil] at hstored
    exact hstored
  placed := h.placed
  begun := by
    unfold Strbuf.extended overwrite
    dsimp only
    by_cases hzero : bufp.length = 0
    · rw [hzero, List.take_zero, List.nil_append]
      exact ⟨c, rfl⟩
    · obtain ⟨b, hb⟩ := h.begun
      have hlen : 0 < (bufp.block.take bufp.length).length := by
        rw [List.length_take, h.block_length]
        omega
      refine ⟨b, ?_⟩
      rw [List.append_assoc, List.getElem?_append_left hlen,
        List.getElem?_take_of_lt (by omega), hb]

end Line

/-! ## Appending a character -/

/-- A request for this many bytes is refused. -/
def Platform.Refuses {σ : Type} (platform : Platform σ) (n : Nat) (s s' : σ) : Prop :=
  platform.refusals s < platform.refusals s' ∧
    ∃ ptr s1 s2, platform.libc.realloc ptr n s1 = .ok 0 s2

section Append
variable {σ : Type} {platform : Platform σ} {buf : MemHandle} {bufp : Strbuf} {text : List UInt8}
  {s : σ}

theorem growLoop_room (hroom : bufp.length + 1 ≤ bufp.data.size) (hfits : bufp.data.size < sizeMod)
    (rounds : Nat) :
    growLoop platform.ops buf 1 (rounds + 1) bufp s = .ok (true, bufp) s := by
  have hsum : addSize bufp.length 1 = bufp.length + 1 := addSize_eq (by omega)
  rw [growLoop, if_neg (by rw [hsum]; omega)]
  rfl

/-- A full buffer asks for a block of twice the size. -/
theorem growStrbuf_full (h : Line platform buf bufp text) (alive : platform.live s bufp.data.data)
    (hfull : bufp.data.size = text.length) :
    ∃ a s', growStrbuf platform.ops buf bufp s =
        .ok (a != 0, bufp.moved ⟨a, bufp.data.size * 2, .plain⟩) s' ∧
      if a = 0 then platform.Refuses (2 * text.length) s s'
      else platform.refusals s' = platform.refusals s ∧ platform.live s' a ∧
        Line platform buf (bufp.moved ⟨a, bufp.data.size * 2, .plain⟩) text := by
  have hsize := h.size_le
  have hpos := h.size_pos
  unfold ptrdiffMax at hsize
  have hmod : bufp.data.size * 2 % sizeMod = bufp.data.size * 2 :=
    Nat.mod_eq_of_lt (by unfold sizeMod; omega)
  obtain ⟨a, s', hre, hans⟩ := plain_memRealloc (n := bufp.data.size * 2) platform.plain
    platform.serves (show 0 < _ by omega) h.data_plain h.data_data alive
  obtain ⟨a', s1, s2, hlibc, heq⟩ := memRealloc_inv platform.plain h.data_plain h.data_data hre
  cases heq
  refine ⟨a, s', ?_, ?_⟩
  · rw [growStrbuf, bind_of_ok (plain_deref platform.plain h.handle_plain h.handle_data), hmod,
      bind_of_ok hre]
    rfl
  · unfold Answered at hans
    by_cases hz : a = 0
    · subst hz
      rw [if_pos rfl] at hans ⊢
      rw [hfull, Nat.mul_comm] at hlibc
      exact ⟨hans, _, s1, s2, hlibc⟩
    · rw [if_neg hz] at hans ⊢
      exact ⟨hans.2.1, hans.2.2,
        h.grown hz (by omega) hans.1 (platform.realloc_placed _ _ _ _ _ hlibc hz)⟩

/-- The buffer has room for one character more, in its block or in one of twice the size. -/
theorem growLoop_char (h : Line platform buf bufp text) (alive : platform.live s bufp.data.data) :
    ∃ b bufp' s',
      (∀ rounds ≥ 2, growLoop platform.ops buf 1 rounds bufp s = .ok (b, bufp') s') ∧
      if b then platform.refusals s' = platform.refusals s ∧
        platform.live s' bufp'.data.data ∧ Line platform buf bufp' text ∧
        bufp'.length + 1 ≤ bufp'.data.size
      else platform.Refuses (2 * text.length) s s' := by
  have hsize := h.size_le
  have hlen := h.length_eq
  have hle := h.length_le
  have hpos := h.size_pos
  unfold ptrdiffMax at hsize
  by_cases hroom : bufp.length + 1 ≤ bufp.data.size
  · refine ⟨true, bufp, s, ?_, rfl, alive, h, hroom⟩
    intro rounds hrounds
    obtain ⟨r, rfl⟩ : ∃ r, rounds = r + 1 := ⟨rounds - 1, by omega⟩
    exact growLoop_room hroom (by unfold sizeMod; omega) r
  · have hsum : addSize bufp.length 1 = bufp.length + 1 :=
      addSize_eq (by unfold sizeMod; omega)
    obtain ⟨a, s', hgrow, hans⟩ := growStrbuf_full h alive (by omega)
    have hmore : bufp.length + 1 ≤ bufp.data.size * 2 := by omega
    refine ⟨a != 0, bufp.moved ⟨a, bufp.data.size * 2, .plain⟩, s', ?_, ?_⟩
    · intro rounds hrounds
      obtain ⟨r, rfl⟩ : ∃ r, rounds = r + 1 + 1 := ⟨rounds - 2, by omega⟩
      rw [growLoop, if_pos (by rw [hsum]; omega), bind_of_ok hgrow]
      by_cases hz : a = 0
      · subst hz
        rfl
      · have hfits : bufp.data.size * 2 < sizeMod := by
          unfold sizeMod
          omega
        have hrest : growLoop platform.ops buf 1 (r + 1)
            (bufp.moved ⟨a, bufp.data.size * 2, .plain⟩) s' =
              .ok (true, bufp.moved ⟨a, bufp.data.size * 2, .plain⟩) s' :=
          growLoop_room hmore hfits r
        dsimp only
        rw [if_pos (by simpa using hz)]
        exact hrest.trans (by simp [hz])
    · by_cases hz : a = 0
      · rw [if_pos hz] at hans
        rwa [if_neg (by simpa using hz)]
      · rw [if_neg hz] at hans
        rw [if_pos (by simpa using hz)]
        exact ⟨hans.1, hans.2.1, hans.2.2, hmore⟩

section OneChar
variable {bufp' : Strbuf} {s' : σ} {rounds : Nat} {c : UInt8}

/-- What `strbuf_concatenate_char` does when the loop has not made room. -/
theorem strbufConcatenateChar_refused (h : Line platform buf bufp text)
    (hgrow : growLoop platform.ops buf 1 rounds bufp s = .ok (false, bufp') s') :
    strbufConcatenateChar platform.ops rounds buf bufp c platform.stack s =
      .ok (false, bufp') s' := by
  rw [strbufConcatenateChar, doStrbufConcatenate,
    bind_of_ok (strbufIsValid_true platform.plain h.toIntact), if_pos rfl,
    bind_of_ok (plain_deref platform.plain h.handle_plain h.handle_data)]
  exact bind_of_ok hgrow _

theorem strbufConcatenateChar_stored (h : Line platform buf bufp text)
    (h' : Line platform buf bufp' text) (hroom : bufp'.length + 1 ≤ bufp'.data.size)
    (hgrow : growLoop platform.ops buf 1 rounds bufp s = .ok (true, bufp') s') :
    strbufConcatenateChar platform.ops rounds buf bufp c platform.stack s =
      .ok (true, bufp'.extended [some c] 1) s' := by
  have hvalid := strbufIsValid_true (s := s) platform.plain h.toIntact
  have hpointed := plain_deref (s := s) platform.plain h.handle_plain h.handle_data
  have hsum : addSize bufp'.length 1 = bufp'.length + 1 := by
    have hle := h'.size_le
    unfold ptrdiffMax at hle
    exact addSize_eq (by unfold sizeMod; omega)
  have hread : (readRegion bufp bufp' ⟨platform.stack, [some c]⟩ 1 : C σ Cells) s' =
      .ok [some c] s' :=
    readRegion_ok platform.stack_ne (fun hw => h.apart hw.1) (Nat.le_refl 1)
  have hstore : storeAtEnd platform.ops bufp' [some c] s' =
      .ok { bufp' with block := overwrite bufp'.block bufp'.length [some c] } s' :=
    storeAtEnd_ok (plain_deref platform.plain h'.data_plain h'.data_data) h'.block_length hroom
  rw [strbufConcatenateChar, doStrbufConcatenate_grown hvalid hpointed hgrow, bind_of_ok hread,
    bind_of_ok hstore]
  dsimp only
  rw [hsum]
  rfl

end OneChar

/-- The character is behind the line, or the buffer could not grow. -/
theorem appendChar_run (h : Line platform buf bufp text)
    (alive : platform.live s bufp.data.data) (c : UInt8) {g : Globals σ} (hg : g.world = s) :
    (∃ bufp' s', (∀ rounds ≥ 2, appendChar platform.ops rounds platform.stack buf bufp c g =
        .ok bufp' { g with world := s' }) ∧
      Line platform buf bufp' (text ++ [c]) ∧ platform.live s' bufp'.data.data ∧
      platform.refusals s' = platform.refusals s) ∨
    ∃ stop s', (∀ rounds ≥ 2, appendChar platform.ops rounds platform.stack buf bufp c g =
        .error stop { g with world := s' }) ∧ platform.Refuses (2 * text.length) s s' := by
  subst hg
  obtain ⟨b, bufp', s', hgrow, hout⟩ := growLoop_char h alive
  cases b with
  | false =>
    refine .inr ⟨.exit (puts "Error growing string buffer\n"), s', fun rounds hrounds => ?_, hout⟩
    have hcall : onWorld (strbufConcatenateChar platform.ops rounds buf bufp c platform.stack) g =
        .ok (false, bufp') { g with world := s' } := by
      rw [onWorld, strbufConcatenateChar_refused h (hgrow rounds hrounds)]
    rw [appendChar, bind_of_ok hcall]
    rfl
  | true =>
    obtain ⟨hr, hl, h', hroom⟩ := hout
    refine .inl ⟨bufp'.extended [some c] 1, s', fun rounds hrounds => ?_, h'.appended c hroom, hl, hr⟩
    have hcall : onWorld (strbufConcatenateChar platform.ops rounds buf bufp c platform.stack) g =
        .ok (true, bufp'.extended [some c] 1) { g with world := s' } := by
      rw [onWorld, strbufConcatenateChar_stored h h' hroom (hgrow rounds hrounds)]
    rw [appendChar, bind_of_ok hcall]
    rfl

theorem appendChar_settles (h : Line platform buf bufp text)
    (alive : platform.live s bufp.data.data) (c : UInt8) {g : Globals σ} (hg : g.world = s) :
    Settles (fun rounds => appendChar platform.ops rounds platform.stack buf bufp c) g
      (fun bufp' g' => Line platform buf bufp' (text ++ [c]) ∧
        platform.live g'.world bufp'.data.data ∧
        platform.refusals g'.world = platform.refusals s ∧ g' = { g with world := g'.world })
      fun _ g' => platform.Refuses (2 * text.length) s g'.world ∧
        g' = { g with world := g'.world } := by
  obtain ⟨bufp', s', hruns, hout⟩ | ⟨stop, s', hruns, hout⟩ := appendChar_run h alive c hg
  · exact .of_ok ⟨2, hruns⟩ ⟨hout.1, hout.2.1, hout.2.2, rfl⟩
  · exact .of_error ⟨2, hruns⟩ ⟨hout, rfl⟩

end Append

/-! ## From a line to its words -/

/-- What is carried over a file: counting its next word takes the invariant of the words
before it to that of the words with it. A request for a buffer that is refused is one of the
ways to stop, and a byte that `isspace` does not take is another. -/
structure Counting {σ : Type} (platform : Platform σ) (target : Target) (ctype : Ctype)
    (file : List UInt8) (I : List (List UInt8) → Globals σ → Prop)
    (E : Stop → Globals σ → Prop) : Prop where
  calm : ∀ done g world, I done g → platform.refusals world = platform.refusals g.world →
    I done { g with world := world }
  refused : ∀ done g world line stop, I done g → line <:+: file → newline ∉ line →
    platform.Refuses (2 * line.length) g.world world → E stop { g with world := world }
  outside : ∀ done g, I done g → ¬ TakesAll target ctype file → E (.fault .outOfBounds) g
  counts : ∀ done w, done ++ [w] <+: words (ctype.byteIsspace target) file →
    ∀ word : Str, word.bytes = w → word.handle.allocator = .notAllocated → word.handle.data ≠ 0 →
      ∀ a, Triple (fun g => I done g ∧ platform.live g.world a) (countWord platform.ops target word)
        (fun _ g => I (done ++ [w]) g ∧ platform.live g.world a) E

section Lines
variable {σ : Type} {platform : Platform σ} {target : Target} {ctype : Ctype}
  {file : List UInt8} {done : List (List UInt8)}
  {I : List (List UInt8) → Globals σ → Prop} {E : Stop → Globals σ → Prop}
  {mem : Memory} {ptr : Addr} {text : List UInt8} {g : Globals σ}

theorem onWorld_ok {α : Type} {x : C σ α} {a : α} (h : x g.world = .ok a g.world) :
    onWorld x g = .ok a g := by
  rw [onWorld, h]

theorem readStr_ok {s : σ} (h : BytesAt mem ptr text) (start stop : Nat)
    (hstop : stop ≤ text.length) :
    ∃ word : Str,
      (readStr mem ⟨ptr + UInt64.ofNat start, stop - start, .notAllocated⟩ : C σ Str) s =
        .ok word s ∧
      word.bytes = (text.drop start).take (stop - start) ∧
      word.handle.allocator = .notAllocated ∧ word.handle.data = ptr + UInt64.ofNat start := by
  have hle : start ≤ text.length ∨ stop - start = 0 := by omega
  have hload : (loadBytes mem (ptr + UInt64.ofNat start) (stop - start) 0 : C σ (List UInt8)) s =
      .ok ((text.drop start).take (stop - start)) s := by
    rcases hle with hle | hzero
    · have hdrop : (loadBytes mem (ptr + UInt64.ofNat start) (stop - start) 0 :
          C σ (List UInt8)) s = .ok (((text.drop start).drop 0).take (stop - start)) s :=
        (h.drop hle).loadBytes_ok (by rw [List.length_drop]; omega)
      rw [hdrop, List.drop_zero]
    · rw [hzero, List.take_zero]
      rfl
  refine ⟨⟨⟨ptr + UInt64.ofNat start, _, .notAllocated⟩, _, rfl⟩, ?_, rfl, rfl, rfl⟩
  rw [readStr, bind_of_ok hload]
  rfl

/-- The loop ends at the str that the last pop returns. -/
theorem processLine_done {ops : MemOps σ} {tests : Nat → Nat} {Q : Unit → Globals σ → Prop}
    (h : Q () g) :
    Settles (fun rounds => processLine ops target ctype mem (tests rounds) rounds .zero) g Q E := by
  refine .of_ok (a := ()) ⟨1, ?_⟩ h
  intro rounds hrounds
  obtain ⟨r, rfl⟩ : ∃ r, rounds = r + 1 := ⟨rounds - 1, by omega⟩
  rfl

section Rounds
variable (platform target ctype file I E mem) {a : Addr} {next : Nat}

/-- The loop of `process_line` counts the words of this str, whatever was counted before, with
at least as many tests in the scanning loops as rounds are left. -/
def CountsLine (a : Addr) (line : MemHandle) (text : List UInt8) : Prop :=
  ∀ used done g,
    done ++ words (ctype.byteIsspace target) text <+: words (ctype.byteIsspace target) file →
    I done g → platform.live g.world a →
    Settles (fun rounds => processLine platform.ops target ctype mem (rounds + used) rounds line) g
      (fun _ g' => (I (done ++ words (ctype.byteIsspace target) text) g' ∧
        platform.live g'.world a) ∧ TakesAll target ctype text) E

variable {platform target ctype file I E mem}

/-- What the pop leaves of a str. -/
theorem countsLine_rest (hnext : next ≤ text.length)
    (rest : next < text.length → CountsLine platform target ctype file I E mem a
      (restAt ptr text next) (text.drop next)) :
    CountsLine platform target ctype file I E mem a
      (if next = text.length then .zero else restAt ptr text next) (text.drop next) := by
  by_cases hlast : next = text.length
  · intro used done g _ hg alive
    rw [if_pos hlast, hlast, List.drop_length, words_nil, List.append_nil]
    exact processLine_done ⟨⟨hg, alive⟩, takesAll_nil⟩
  · rw [if_neg hlast]
    exact rest (by omega)

/-- A round pops the word from `start` to `stop` and goes on at `next`. -/
theorem processLine_round (hmem : BytesAt mem ptr text)
    (beyond : text = [] → ∃ b, mem ptr = some b ∧ ctype.Takes (charToInt target b))
    {start stop : Nat} (hstart : start = runEnd (ctype.byteIsspace target) text 0)
    (hstop : stop = runEnd (fun b => !ctype.byteIsspace target b) text start)
    (hnext : next = runEnd (ctype.byteIsspace target) text stop) (fits : next ≤ uintMax)
    (taken : TakesThrough target ctype text 0 next) (used : Nat) :
    ∃ enough, ∀ rounds ≥ enough,
      processLine platform.ops target ctype mem (rounds + 1 + used) (rounds + 1)
          ⟨ptr, text.length, .notAllocated⟩ g =
        (if stop - start > 0 then do
          let word ← onWorld (readStr mem ⟨ptr + UInt64.ofNat start, stop - start, .notAllocated⟩)
          countWord platform.ops target word
          processLine platform.ops target ctype mem (rounds + 1 + used) rounds
            (if next = text.length then .zero else restAt ptr text next)
        else processLine platform.ops target ctype mem (rounds + 1 + used) rounds
          (if next = text.length then .zero else restAt ptr text next)) g := by
  have hvalid : memIsValid ⟨ptr, text.length, .notAllocated⟩ = true :=
    memIsValid_eq_true.mpr hmem.ptr_ne
  have hstr : StrAt platform.ops mem g.world ⟨ptr, text.length, .notAllocated⟩ ptr text :=
    strAt_unowned platform.unowned hmem g.world
  obtain ⟨enough, hpop⟩ := popCtype_returns hstr beyond .zero hstart hstop hnext fits taken
  refine ⟨enough, ?_⟩
  intro rounds hrounds
  rw [processLine, if_pos hvalid, bind_of_ok (onWorld_ok (hpop (rounds + 1 + used) (by omega)))]

/-- A pop that comes to a byte which `isspace` does not take stops the program. -/
theorem processLine_outside (hmem : BytesAt mem ptr text)
    (fits : secondWord (ctype.byteIsspace target) text ≤ uintMax)
    (taken : ¬ TakesThrough target ctype text 0 (secondWord (ctype.byteIsspace target) text))
    (used rounds : Nat) (hrounds : rounds ≥ text.length) :
    processLine platform.ops target ctype mem (rounds + 1 + used) (rounds + 1)
      ⟨ptr, text.length, .notAllocated⟩ g = .error (.fault .outOfBounds) g := by
  have hvalid : memIsValid ⟨ptr, text.length, .notAllocated⟩ = true :=
    memIsValid_eq_true.mpr hmem.ptr_ne
  have hstr : StrAt platform.ops mem g.world ⟨ptr, text.length, .notAllocated⟩ ptr text :=
    strAt_unowned platform.unowned hmem g.world
  have hpop := popCtype_fault hstr fits taken (show text.length < rounds + 1 + used by omega) .zero
  rw [processLine, if_pos hvalid]
  refine bind_of_error ?_ _
  rw [onWorld, hpop]

/-- One round, given what the loop does from the next word on. -/
theorem countsLine_step (counting : Counting platform target ctype file I E)
    (hmem : BytesAt mem ptr text)
    (fits : secondWord (ctype.byteIsspace target) text ≤ uintMax)
    (beyond : text = [] → ∃ b, mem ptr = some b ∧ ctype.Takes (charToInt target b))
    (part : ∀ b ∈ text, b ∈ file)
    (rest : secondWord (ctype.byteIsspace target) text < text.length →
      CountsLine platform target ctype file I E mem a
        (restAt ptr text (secondWord (ctype.byteIsspace target) text))
        (text.drop (secondWord (ctype.byteIsspace target) text))) :
    CountsLine platform target ctype file I E mem a ⟨ptr, text.length, .notAllocated⟩ text := by
  intro used done g within hg alive
  refine .step ?_
  by_cases taken : TakesThrough target ctype text 0 (secondWord (ctype.byteIsspace target) text)
  swap
  · refine .of_error ⟨text.length, processLine_outside hmem fits taken used⟩ ?_
    refine counting.outside done g hg fun all => taken fun k b _ _ hb => ?_
    exact all b (part b (List.mem_of_getElem? hb))
  unfold secondWord at fits rest taken
  generalize hstart : runEnd (ctype.byteIsspace target) text 0 = start at fits rest taken
  generalize hstop : runEnd (fun b => !ctype.byteIsspace target b) text start = stop
    at fits rest taken
  generalize hnext : runEnd (ctype.byteIsspace target) text stop = next at fits rest taken
  have hstartle : start ≤ text.length := hstart ▸ runEnd_le _ (Nat.zero_le _)
  have hstople : stop ≤ text.length := hstop ▸ runEnd_le _ hstartle
  have hnextle : next ≤ text.length := hnext ▸ runEnd_le _ hstople
  have hstartstop : start ≤ stop := hstop ▸ le_runEnd _ _ _
  have hstopnext : stop ≤ next := hnext ▸ le_runEnd _ _ _
  have hwords := words_runEnd (ctype.byteIsspace target) text hstart.symm hstop.symm hnext.symm
  refine .congr (processLine_round hmem beyond hstart.symm hstop.symm hnext.symm fits taken
    used) ?_
  by_cases hword : start < text.length
  · rw [if_pos hword] at hwords
    have hlong : start < stop := hstop ▸ lt_runEnd_word _ hstart hword
    have hshift : ∀ rounds, rounds + (used + 1) = rounds + 1 + used := fun rounds => by omega
    have hrest := countsLine_rest hnextle rest (used + 1)
    simp only [hshift] at hrest
    rw [hwords, List.append_cons] at within ⊢
    obtain ⟨word, hread, hbytes, hunowned, hdata⟩ :=
      readStr_ok (s := g.world) hmem start stop hstople
    refine .congr ⟨0, fun rounds _ => ?_⟩
      (.seq (.of_triple (counting.counts done _ ?_ word hbytes hunowned ?_ a) ⟨hg, alive⟩)
        fun _ g' hg' => (hrest _ g' within hg'.1 hg'.2).weaken
          fun _ _ h => ⟨h.1, takesAll_of_through taken h.2⟩)
    · rw [if_pos (by omega), bind_of_ok (onWorld_ok hread)]
    · exact (List.prefix_append _ _).trans within
    · rw [hdata]
      exact (hmem.drop hstartle).ptr_ne
  · -- only whitespace is left
    rw [if_neg hword] at hwords
    rw [hwords] at within ⊢
    have hend : next = text.length := by omega
    have hall : TakesAll target ctype text := by
      refine takesAll_of_through taken ?_
      rw [hend, List.drop_length]
      exact takesAll_nil
    refine .congr ⟨0, fun rounds _ => by rw [if_neg (by omega)]⟩ ?_
    rw [if_pos hend, List.append_nil]
    exact processLine_done ⟨⟨hg, alive⟩, hall⟩

theorem countsLine (counting : Counting platform target ctype file I E)
    (hmem : BytesAt mem ptr text)
    (strides : StridesWithin (ctype.byteIsspace target) uintMax text)
    (beyond : text = [] → ∃ b, mem ptr = some b ∧ ctype.Takes (charToInt target b))
    (part : ∀ b ∈ text, b ∈ file) :
    CountsLine platform target ctype file I E mem a ⟨ptr, text.length, .notAllocated⟩ text := by
  generalize hlength : text.length = length
  induction length using Nat.strong_induction_on generalizing ptr text with
  | _ length ih =>
    subst hlength
    refine countsLine_step counting hmem strides.first beyond part ?_
    intro hlt
    have hpos : 0 < secondWord (ctype.byteIsspace target) text := by
      obtain ⟨i, -, -, hi, -⟩ := secondWord_behind hlt
      omega
    have hlen : (text.drop (secondWord (ctype.byteIsspace target) text)).length =
        text.length - secondWord (ctype.byteIsspace target) text := List.length_drop
    have hnil : text.drop (secondWord (ctype.byteIsspace target) text) ≠ [] := by
      intro hnil
      rw [hnil, List.length_nil] at hlen
      omega
    exact ih _ (by omega) (hmem.drop (Nat.le_of_lt hlt)) (strides.second hlt)
      (fun h => absurd h hnil) (fun b hb => part b (List.mem_of_mem_drop hb)) hlen

end Rounds

/-- The loop of `process_line` counts the words of its str. -/
theorem processLine_settles (counting : Counting platform target ctype file I E)
    (hmem : BytesAt mem ptr text)
    (strides : StridesWithin (ctype.byteIsspace target) uintMax text)
    (beyond : text = [] → ∃ b, mem ptr = some b ∧ ctype.Takes (charToInt target b))
    (part : ∀ b ∈ text, b ∈ file)
    (within : done ++ words (ctype.byteIsspace target) text <+:
      words (ctype.byteIsspace target) file) (hg : I done g) {a : Addr}
    (alive : platform.live g.world a) :
    Settles (fun rounds => processLine platform.ops target ctype mem rounds rounds
        ⟨ptr, text.length, .notAllocated⟩) g
      (fun _ g' => (I (done ++ words (ctype.byteIsspace target) text) g' ∧
        platform.live g'.world a) ∧ TakesAll target ctype text) E :=
  countsLine counting hmem strides beyond part 0 done g within hg alive

end Lines

/-! ## From the file to its lines -/

/-- On each line an unsigned int can count the bytes from one word to the next. -/
def CountableStrides (isspace : UInt8 → Bool) (file : List UInt8) : Prop :=
  ∀ line ∈ file.splitOn newline, StridesWithin isspace uintMax line

/-- A buffer for each line, and one of twice its size, is within what malloc can give. -/
def BufferableLines (file : List UInt8) : Prop :=
  ∀ line, line <:+: file → newline ∉ line → 2 * line.length ≤ ptrdiffMax

section Split
variable {isspace : UInt8 → Bool} {text rest : List UInt8}

theorem splitOn_line (h : newline ∉ text) (rest : List UInt8) :
    (text ++ newline :: rest).splitOn newline = text :: rest.splitOn newline := by
  refine List.splitOnP_append_cons_of_forall_mem (fun b hb => ?_) newline (by simp) rest
  simpa using fun he : b = newline => h (he ▸ hb)

theorem splitOn_last (h : newline ∉ text) : text.splitOn newline = [text] := by
  refine List.splitOnP_eq_singleton fun b hb => ?_
  simpa using fun he : b = newline => h (he ▸ hb)

theorem CountableStrides.line (h : CountableStrides isspace (text ++ newline :: rest))
    (hline : newline ∉ text) :
    StridesWithin isspace uintMax text ∧ CountableStrides isspace rest := by
  rw [CountableStrides, splitOn_line hline, List.forall_mem_cons] at h
  exact h

theorem CountableStrides.last (h : CountableStrides isspace text) (hline : newline ∉ text) :
    StridesWithin isspace uintMax text := by
  rw [CountableStrides, splitOn_last hline, List.forall_mem_singleton] at h
  exact h

end Split

/-- The line that is being read when the words before it are counted. -/
structure Reading {σ : Type} (platform : Platform σ) (target : Target) (ctype : Ctype)
    (file : List UInt8) (I : List (List UInt8) → Globals σ → Prop)
    (buf : MemHandle) (done : List (List UInt8)) (text : List UInt8) (bufp : Strbuf)
    (g : Globals σ) : Prop where
  line : Line platform buf bufp text
  alive : platform.live g.world bufp.data.data
  counted : I done g
  no_newline : newline ∉ text
  part : text <:+: file
  /-- what an earlier line has left at the begin of the block has been tested -/
  stale : text = [] → ∀ b, bufp.block[0]? = some (some b) → ctype.Takes (charToInt target b)

section Files
variable {σ : Type} {platform : Platform σ} {target : Target} {ctype : Ctype}
  {file : List UInt8} {done : List (List UInt8)}
  {I : List (List UInt8) → Globals σ → Prop} {E : Stop → Globals σ → Prop}
  {text bytes : List UInt8} {g : Globals σ} {buf : MemHandle} {bufp : Strbuf}

theorem strbufStr_ok (h : Line platform buf bufp text) (s : σ) :
    strbufStr platform.ops buf bufp s = .ok ⟨bufp.data.data, text.length, .notAllocated⟩ s := by
  rw [strbufStr, if_pos (memIsValid_eq_true.mpr h.handle_data),
    bind_of_ok (plain_deref platform.plain h.handle_plain h.handle_data), ← h.length_eq]
  rfl

theorem strbufReset_ok (h : Line platform buf bufp text) (s : σ) :
    strbufReset platform.ops buf bufp s = .ok { bufp with length := 0 } s := by
  rw [strbufReset, if_pos (memIsValid_eq_true.mpr h.handle_data),
    bind_of_ok (plain_deref platform.plain h.handle_plain h.handle_data)]
  rfl

/-- The first byte of the block is that of the line. -/
theorem Line.first_byte (h : Line platform buf bufp text) {b : UInt8} (hne : text ≠ [])
    (hb : bufp.block[0]? = some (some b)) : b ∈ text := by
  have hpos : 0 < bufp.length := by
    rw [h.length_eq]
    exact List.length_pos_iff.mpr hne
  have hget := congrArg (·[0]?) h.contents
  simp only [List.getElem?_take_of_lt hpos, List.getElem?_map, hb] at hget
  cases htext : text[0]? with
  | none => rw [htext] at hget; cases hget
  | some x =>
    rw [htext] at hget
    cases hget
    exact List.mem_of_getElem? htext

theorem Reading.beyond (reading : Reading platform target ctype file I buf done text bufp g)
    (hnil : text = []) :
    ∃ b, bufMemory bufp bufp.data.data = some b ∧ ctype.Takes (charToInt target b) := by
  obtain ⟨b, hb⟩ := reading.line.begun
  refine ⟨b, ?_, reading.stale hnil b hb⟩
  rw [bufMemory, UInt64.sub_self, UInt64.toNat_zero, hb]
  rfl

/-- The line has been processed: the buffer is reset, and the words of the line are counted. -/
theorem Reading.next_line (reading : Reading platform target ctype file I buf done text bufp g)
    (taken : TakesAll target ctype text) {done' : List (List UInt8)} {g' : Globals σ}
    (counted : I done' g') (alive : platform.live g'.world bufp.data.data) :
    Reading platform target ctype file I buf done' [] { bufp with length := 0 } g' where
  line := reading.line.reset
  alive := alive
  counted := counted
  no_newline := List.not_mem_nil
  part := List.nil_infix
  stale _ b hb := by
    by_cases hnil : text = []
    · exact reading.stale hnil b hb
    · exact taken b (reading.line.first_byte hnil hb)

theorem line_settles (counting : Counting platform target ctype file I E)
    (reading : Reading platform target ctype file I buf done text bufp g)
    (strides : StridesWithin (ctype.byteIsspace target) uintMax text)
    (within : done ++ words (ctype.byteIsspace target) text <+:
      words (ctype.byteIsspace target) file) :
    Settles (fun rounds => processLine platform.ops target ctype (bufMemory bufp) rounds rounds
        ⟨bufp.data.data, text.length, .notAllocated⟩) g
      (fun _ g' => (I (done ++ words (ctype.byteIsspace target) text) g' ∧
        platform.live g'.world bufp.data.data) ∧ TakesAll target ctype text) E :=
  processLine_settles counting reading.line.bytesAt strides reading.beyond
    (fun _ hb => reading.part.subset hb) within reading.counted reading.alive

theorem endLine_settles (counting : Counting platform target ctype file I E)
    (reading : Reading platform target ctype file I buf done text bufp g)
    (strides : StridesWithin (ctype.byteIsspace target) uintMax text)
    (within : done ++ words (ctype.byteIsspace target) text <+:
      words (ctype.byteIsspace target) file) :
    Settles (fun rounds => endLine platform.ops target ctype rounds buf bufp) g
      (fun bufp' g' => Reading platform target ctype file I buf
        (done ++ words (ctype.byteIsspace target) text) [] bufp' g' ∧
          TakesAll target ctype text) E := by
  refine .congr ⟨0, fun rounds _ => ?_⟩
    (.seq (line_settles counting reading strides within) fun _ g' h =>
      .of_ok ⟨0, fun _ _ => onWorld_ok (strbufReset_ok reading.line g'.world)⟩
        ⟨reading.next_line h.2 h.1.1 h.1.2, h.2⟩)
  rw [endLine, bind_of_ok (onWorld_ok (strbufStr_ok reading.line g.world))]

theorem lastLine_settles (counting : Counting platform target ctype file I E)
    (reading : Reading platform target ctype file I buf done text bufp g)
    (strides : StridesWithin (ctype.byteIsspace target) uintMax text)
    (within : done ++ words (ctype.byteIsspace target) text <+:
      words (ctype.byteIsspace target) file) :
    Settles (fun rounds => lastLine platform.ops target ctype rounds buf bufp) g
      (fun _ g' => I (done ++ words (ctype.byteIsspace target) text) g' ∧
        TakesAll target ctype text) E := by
  by_cases hnone : text.length > 0
  · refine .congr ⟨0, fun rounds _ => ?_⟩
      ((line_settles counting reading strides within).weaken fun _ _ h => ⟨h.1.1, h.2⟩)
    rw [lastLine, bind_of_ok (onWorld_ok (strbufStr_ok reading.line g.world)), if_pos hnone]
  · obtain rfl : text = [] := List.length_eq_zero_iff.mp (by omega)
    rw [words_nil, List.append_nil]
    refine .of_ok (a := ()) ⟨0, fun rounds _ => ?_⟩ ⟨reading.counted, takesAll_nil⟩
    rw [lastLine, bind_of_ok (onWorld_ok (strbufStr_ok reading.line g.world)), if_neg hnone]
    rfl

theorem append_settles (counting : Counting platform target ctype file I E)
    (reading : Reading platform target ctype file I buf done text bufp g) {c : UInt8}
    (hc : c ≠ newline) (part : text ++ [c] <:+: file) :
    Settles (fun rounds => appendChar platform.ops rounds platform.stack buf bufp c) g
      (fun bufp' g' => Reading platform target ctype file I buf done (text ++ [c]) bufp' g') E := by
  obtain ⟨outcome, enough, hrun, hout⟩ := appendChar_settles reading.line reading.alive c rfl
  refine ⟨outcome, enough, hrun, ?_⟩
  cases outcome with
  | ok bufp' g' =>
    obtain ⟨hline, halive, hcalm, hsame⟩ := hout
    refine ⟨hline, halive, ?_, ?_, part, fun hnil => absurd hnil (by simp)⟩
    · rw [hsame]
      exact counting.calm done g _ reading.counted hcalm
    · rw [List.mem_append, List.mem_singleton, not_or]
      exact ⟨reading.no_newline, hc.symm⟩
  | error stop g' =>
    obtain ⟨hrefused, hsame⟩ := hout
    rw [hsame]
    exact counting.refused done g _ text stop reading.counted reading.part reading.no_newline
      hrefused

/-- The loop over the file counts the words of all lines that end, and has the rest of the
file in its buffer. -/
theorem readLoop_settles (counting : Counting platform target ctype file I E)
    (hspace : ctype.byteIsspace target newline = true)
    (reading : Reading platform target ctype file I buf done text bufp g)
    (strides : CountableStrides (ctype.byteIsspace target) (text ++ bytes))
    (part : text ++ bytes <:+: file)
    (within : done ++ words (ctype.byteIsspace target) (text ++ bytes) <+:
      words (ctype.byteIsspace target) file) :
    Settles (fun rounds => readLoop platform.ops target ctype rounds platform.stack buf bytes bufp)
      g (fun bufp' g' => ∃ done' text',
        Reading platform target ctype file I buf done' text' bufp' g' ∧
        StridesWithin (ctype.byteIsspace target) uintMax text' ∧
        done' ++ words (ctype.byteIsspace target) text' =
          done ++ words (ctype.byteIsspace target) (text ++ bytes) ∧
        (TakesAll target ctype text' → TakesAll target ctype (text ++ bytes))) E := by
  induction bytes generalizing text bufp g done with
  | nil =>
    rw [List.append_nil] at strides ⊢
    exact .of_ok ⟨0, fun _ _ => rfl⟩
      ⟨done, text, reading, strides.last reading.no_newline, rfl, fun h => h⟩
  | cons c rest ih =>
    by_cases hc : c = newline
    · subst hc
      rw [words_append_cons hspace, ← List.append_assoc] at within
      obtain ⟨hline, hrest⟩ := strides.line reading.no_newline
      have hbehind : rest <:+: file := by
        refine List.IsInfix.trans ?_ part
        exact (List.suffix_append (text ++ [newline]) rest).isInfix.trans (by simp)
      refine .congr ⟨0, fun rounds _ => ?_⟩ (.seq (endLine_settles counting reading hline
        ((List.prefix_append _ _).trans within)) fun bufp' g' ⟨reading', taken⟩ =>
          (ih reading' hrest hbehind within).weaken ?_)
      · rw [readLoop, if_pos rfl]
      · intro bufp'' g'' ⟨done', text', h, hstrides, hsame, hall⟩
        refine ⟨done', text', h, hstrides, ?_, fun htext => ?_⟩
        · rw [hsame, words_append_cons hspace, List.nil_append, List.append_assoc]
        · exact takesAll_append taken
            (List.forall_mem_cons.mpr ⟨takes_ascii (by decide), hall htext⟩)
    · have hmore : text ++ [c] ++ rest = text ++ c :: rest := by simp
      rw [← hmore] at strides part within
      refine .congr ⟨0, fun rounds _ => ?_⟩ (.seq (append_settles counting reading hc
        ((List.prefix_append _ _).isInfix.trans part)) fun bufp' g' reading' =>
          (ih reading' strides part within).weaken ?_)
      · rw [readLoop, if_neg hc]
      · rw [hmore]
        exact fun _ _ h => h

/-- Once the buffer is there, all words of the file are counted. -/
theorem reading_settles (counting : Counting platform target ctype file I E)
    (hspace : ctype.byteIsspace target newline = true)
    (reading : Reading platform target ctype file I buf [] [] bufp g)
    (strides : CountableStrides (ctype.byteIsspace target) file) :
    Settles (fun rounds => do
        let bufp ← readLoop platform.ops target ctype rounds platform.stack buf file bufp
        lastLine platform.ops target ctype rounds buf bufp) g
      (fun _ g' => I (words (ctype.byteIsspace target) file) g' ∧
        TakesAll target ctype file) E := by
  refine .seq (readLoop_settles counting hspace reading strides (List.infix_refl _)
    (List.prefix_refl _)) ?_
  intro bufp' g' ⟨done, text, reading', hstrides, hsame, hall⟩
  rw [List.nil_append, List.nil_append] at hsame
  have hlast := lastLine_settles counting reading' hstrides ⟨[], by rw [List.append_nil, hsame]⟩
  rw [hsame] at hlast
  exact hlast.weaken fun _ _ h => ⟨h.1, hall h.2⟩

end Files

/-! ## The array, the map and the buffer -/

/-- The array as it is created. -/
structure EmptyCounts {σ : Type} (g : Globals σ) : Prop where
  none_seen : g.wordsSeen = 0
  none_stored : g.cells = List.replicate initialCountsSize none
  size : g.counts.size = sizeofUint * initialCountsSize
  plain : g.counts.allocator = .plain
  data : g.counts.data ≠ 0
  ends : g.counts.data.toNat + g.counts.size < 2 ^ 64

/-- The map as it is created. -/
structure EmptyMap {σ : Type} (g : Globals σ) : Prop where
  attached : Attached .plain g.mymap g.mapStruct
  created : g.mapStruct = .created g.mapStruct.entriesMh

section Creation
variable {σ : Type} {platform : Platform σ} {r : Nat} {s : σ} {g : Globals σ}

/-- The state before a request, and after one that is granted. -/
def Calm (platform : Platform σ) (r : Nat) (g : Globals σ) : Prop := platform.refusals g.world = r

/-- A run that stops because a request was refused. -/
def Refused (platform : Platform σ) (r : Nat) (g : Globals σ) : Prop :=
  r < platform.refusals g.world

theorem onWorld_run {α : Type} {x : C σ α} {a : α} {s' : σ} (h : x g.world = .ok a s') :
    onWorld x g = .ok a { g with world := s' } := by
  rw [onWorld, h]

theorem memFree_calm (platform : Platform σ) (a : Addr) (n r : Nat) :
    Triple (fun s => r < platform.refusals s) (platform.ops.memFree ⟨a, n, .plain⟩)
      (fun _ s => r < platform.refusals s) fun _ s => r < platform.refusals s := by
  have hsignal : ∀ handler, Triple (fun s => r < platform.refusals s)
      (platform.libc.signal handler) (fun _ s => r < platform.refusals s)
      fun _ s => r < platform.refusals s := by
    intro handler s hs
    obtain ⟨old, s', hrun, hcalm, -⟩ := platform.allocates.signal handler s
    rw [hrun]
    exact Nat.lt_of_lt_of_eq hs hcalm.symm
  have hfree : Triple (fun s => r < platform.refusals s) (platform.libc.free a)
      (fun _ s => r < platform.refusals s) fun _ s => r < platform.refusals s := by
    intro s hs
    have hcalm := platform.free_calm a (platform.refusals s) s rfl
    cases hrun : platform.libc.free a s with
    | ok _ s' =>
      rw [hrun] at hcalm
      exact Nat.lt_of_lt_of_eq hs (Eq.symm hcalm)
    | error _ s' =>
      rw [hrun] at hcalm
      exact Nat.lt_of_lt_of_eq hs (Eq.symm hcalm)
  change Triple _ (memFree platform.libc platform.spec ⟨a, n, .plain⟩) _ _
  rw [memFree]
  refine .cond (fun _ => ?_) fun _ => .ret fun _ h => h
  rw [platform.plain]
  exact .seq (hsignal _) fun old => .seq (.seq hfree fun _ => .ret fun _ h => h) fun _ =>
    .seq (hsignal old) fun _ => .ret fun _ h => h

theorem createCounts_calm :
    Triple (fun g => Calm platform r g ∧ g.wordsSeen = 0 ∧ g.cells = []) (createCounts platform.ops)
      (fun _ g => Calm platform r g ∧ EmptyCounts g) fun _ => Refused platform r := by
  rintro g ⟨hcalm, hseen, hcells⟩
  obtain ⟨a, s', hrun, hans⟩ := plain_memAlloc (n := sizeofUint * initialCountsSize) g.world
    platform.plain platform.serves (by decide)
  unfold Answered at hans
  rw [createCounts, bind_of_ok (onWorld_run hrun)]
  by_cases hz : a = 0
  · rw [if_pos hz] at hans
    subst hz
    unfold Calm at hcalm
    exact hcalm ▸ hans
  · rw [if_neg hz] at hans
    have hvalid : memIsValid ⟨a, sizeofUint * initialCountsSize, .plain⟩ = true :=
      memIsValid_eq_true.mpr hz
    rw [if_pos hvalid]
    obtain ⟨a', s1, s2, hmalloc, heq⟩ := memAlloc_inv platform.plain hrun
    cases heq
    refine ⟨hans.2.1.trans hcalm, hseen, ?_, rfl, rfl, hz,
      (platform.malloc_placed _ _ _ _ hmalloc hz).1⟩
    change (if memIsValid _ = true then _ else _) = _
    rw [if_pos hvalid, hcells]
    simp [resize, sizeofUint, initialCountsSize]

/-- `map_create` returns a map of two blocks, or has had a request refused. -/
theorem mapCreate_calm :
    Triple (fun s => platform.refusals s = r) (mapCreate platform.ops .plain)
      (fun result s => match result.2 with
        | some mp => platform.refusals s = r ∧ Attached .plain result.1 mp ∧
          mp = .created mp.entriesMh
        | none => r < platform.refusals s)
      fun _ s => r < platform.refusals s := by
  rintro s rfl
  obtain ⟨a, s1, halloc, hans⟩ := plain_memAlloc (n := sizeofMap) s platform.plain platform.serves
    (by decide)
  unfold Answered at hans
  rw [mapCreate, bind_of_ok halloc]
  by_cases ha : a = 0
  · rw [if_pos ha] at hans
    rw [if_neg (by simpa using ha)]
    exact hans
  · rw [if_neg ha] at hans
    obtain ⟨b, s2, hclear, hans'⟩ := plain_memAllocClear (n := sizeofMapEntry * initialTableSize)
      s1 platform.plain platform.serves (by decide)
    unfold Answered at hans'
    rw [if_pos (memIsValid_eq_true.mpr ha), bind_of_ok (plain_deref platform.plain rfl ha),
      bind_of_ok hclear]
    by_cases hb : b = 0
    · rw [if_pos hb, hans.2.1] at hans'
      rw [if_neg (by simpa using hb)]
      exact ((memFree_calm platform a sizeofMap (platform.refusals s)).seq fun _ =>
        .ret fun _ h => h) s2 hans'
    · rw [if_neg hb] at hans'
      rw [if_pos (memIsValid_eq_true.mpr hb)]
      exact ⟨hans'.2.1.trans hans.2.1, ⟨rfl, ha, rfl, hb⟩, rfl⟩

/-- `strbuf_create` returns an empty buffer, or has had a request refused. -/
theorem strbufCreate_calm {c : Nat} (hc : 1 ≤ c) :
    Triple (fun s => platform.refusals s = r) (strbufCreate platform.ops .plain c)
      (fun result s => match result.2 with
        | some bufp => platform.refusals s = r ∧ Line platform result.1 bufp [] ∧
          platform.live s bufp.data.data ∧ bufp.block[0]? = some (some 0)
        | none => r < platform.refusals s)
      fun _ s => r < platform.refusals s := by
  rintro s rfl
  obtain ⟨a, s1, halloc, hans⟩ := plain_memAlloc (n := sizeofStrbuf) s platform.plain
    platform.serves (by decide)
  unfold Answered at hans
  rw [strbufCreate, bind_of_ok halloc]
  by_cases ha : a = 0
  · rw [if_pos ha] at hans
    rw [if_neg (by simpa using ha)]
    exact hans
  · rw [if_neg ha] at hans
    obtain ⟨b, s2, hclear, hans'⟩ := plain_memAllocClear (n := c) s1 platform.plain
      platform.serves hc
    unfold Answered at hans'
    rw [if_pos (memIsValid_eq_true.mpr ha), bind_of_ok hclear]
    by_cases hb : b = 0
    · rw [if_pos hb, hans.2.1] at hans'
      rw [if_neg (by simpa using hb)]
      exact ((memFree_calm platform a sizeofStrbuf (platform.refusals s)).seq fun _ =>
        .ret fun _ h => h) s2 hans'
    · rw [if_neg hb] at hans'
      rw [if_pos (memIsValid_eq_true.mpr hb), bind_of_ok (plain_deref platform.plain rfl ha)]
      have hplaced : Placed platform.stack b c := by
        obtain ⟨h, s3, hmem, hclear⟩ := bind_ok_inv hclear
        obtain ⟨b', s4, s5, hmalloc, rfl⟩ := memAlloc_inv platform.plain hmem
        by_cases hb' : b' = 0
        · rw [if_neg (by simpa using hb')] at hclear
          cases hclear
          exact absurd hb' hb
        · rw [if_pos (memIsValid_eq_true.mpr hb'),
            bind_of_ok (plain_deref platform.plain rfl hb')] at hclear
          cases hclear
          exact platform.malloc_placed c s4 _ s5 hmalloc hb
      have hfirst : (List.replicate c (some (0 : UInt8)))[0]? = some (some 0) := by
        rw [List.getElem?_replicate, if_pos (show 0 < c from hc)]
      exact ⟨hans'.2.1.trans hans.2.1,
        { handle_plain := rfl, handle_data := ha, data_plain := rfl, data_data := hb
          block_length := List.length_replicate, size_pos := hc, size_le := hans'.1
          length_eq := rfl, length_le := Nat.zero_le _, contents := rfl, placed := hplaced
          begun := ⟨0, hfirst⟩ }, hans'.2.2, hfirst⟩

/-- The program behind the three creations. -/
structure Created (platform : Platform σ) (r : Nat) (buf : MemHandle × Strbuf) (g : Globals σ) :
    Prop where
  calm : platform.refusals g.world = r
  counts : EmptyCounts g
  map : EmptyMap g
  line : Line platform buf.1 buf.2 []
  alive : platform.live g.world buf.2.data.data
  cleared : buf.2.block[0]? = some (some 0)

/-- A library call that keeps to its own world. -/
theorem onWorld_triple {α : Type} {x : C σ α} {P : σ → Prop} {R : Globals σ → Prop}
    {Q : α → σ → Prop} {E : σ → Prop} (h : Triple P x Q fun _ => E)
    (frame : ∀ g world, R g → R { g with world := world }) :
    Triple (fun g => P g.world ∧ R g) (onWorld x) (fun a g => Q a g.world ∧ R g)
      fun _ g => E g.world := by
  intro g ⟨hp, hr⟩
  have hx := h g.world hp
  unfold onWorld
  cases hrun : x g.world with
  | ok a s' =>
    rw [hrun] at hx
    exact ⟨hx, frame g s' hr⟩
  | error e s' =>
    rw [hrun] at hx
    exact hx

theorem createMap_calm :
    Triple (fun g => Calm platform r g ∧ EmptyCounts g) (createMap platform.ops)
      (fun _ g => Calm platform r g ∧ EmptyCounts g ∧ EmptyMap g) fun _ => Refused platform r := by
  refine .seq (onWorld_triple (R := EmptyCounts) mapCreate_calm
    fun _ _ h => ⟨h.1, h.2, h.3, h.4, h.5, h.6⟩) ?_
  rintro ⟨mymap, created⟩ g ⟨hout, hempty⟩
  cases created with
  | none => exact hout
  | some mp =>
    obtain ⟨hcalm, hattached, hcreated⟩ := hout
    have hvalid : mapIsValid platform.ops mymap mp g.world = .ok true g.world := by
      rw [mapIsValid, if_pos (memIsValid_eq_true.mpr hattached.map_data),
        bind_of_ok (plain_deref platform.plain hattached.map_allocator hattached.map_data),
        memIsValid_eq_true.mpr hattached.entries_data]
      rfl
    have hstored : (modify fun g : Globals σ => { g with mymap := mymap, mapStruct := mp } :
        Prog σ Unit) g = .ok () { g with mymap := mymap, mapStruct := mp } := rfl
    have hchecked : onWorld (mapIsValid platform.ops mymap mp)
        { g with mymap := mymap, mapStruct := mp } =
          .ok true { g with mymap := mymap, mapStruct := mp } := onWorld_ok hvalid
    dsimp only
    rw [bind_of_ok hstored, bind_of_ok hchecked, if_pos rfl]
    exact ⟨hcalm, ⟨hempty.1, hempty.2, hempty.3, hempty.4, hempty.5, hempty.6⟩, hattached, hcreated⟩

theorem createBuf_calm :
    Triple (fun g => Calm platform r g ∧ EmptyCounts g ∧ EmptyMap g) (createBuf platform.ops)
      (Created platform r) fun _ => Refused platform r := by
  refine .seq (onWorld_triple (R := fun g => EmptyCounts g ∧ EmptyMap g)
    (strbufCreate_calm (c := 100) (by decide))
    fun _ _ h => ⟨⟨h.1.1, h.1.2, h.1.3, h.1.4, h.1.5, h.1.6⟩, h.2.1, h.2.2⟩) ?_
  rintro ⟨buf, created⟩ g ⟨hout, hempty, hmap⟩
  cases created with
  | none => exact hout
  | some bufp =>
    obtain ⟨hcalm, hline, halive, hcleared⟩ := hout
    dsimp only
    rw [bind_of_ok (onWorld_ok (strbufIsValid_true platform.plain hline.toIntact)), if_pos rfl]
    exact ⟨hcalm, hempty, hmap, hline, halive, hcleared⟩

/-- m65tool.c:121-139. -/
def createAll (ops : MemOps σ) : Prog σ (MemHandle × Strbuf) := do
  createCounts ops
  createMap ops
  createBuf ops

theorem createAll_calm {world : σ} (hr : platform.refusals world = r) :
    Triple (fun g => g = start world) (createAll platform.ops) (Created platform r)
      fun _ => Refused platform r := by
  refine .seq (createCounts_calm.weaken ?_ fun _ _ h => h) fun _ =>
    .seq createMap_calm fun _ => createBuf_calm
  rintro _ rfl
  exact ⟨hr, rfl, rfl⟩

/-- The first line of a file. -/
theorem Created.reading {buf : MemHandle × Strbuf} {target : Target} {ctype : Ctype}
    {file : List UInt8} {I : List (List UInt8) → Globals σ → Prop}
    (made : Created platform r buf g) (counted : I [] g) :
    Reading platform target ctype file I buf.1 [] [] buf.2 g where
  line := made.line
  alive := made.alive
  counted := counted
  no_newline := List.not_mem_nil
  part := List.nil_infix
  stale _ b hb := by
    obtain rfl : 0 = b := Option.some.inj (Option.some.inj (made.cleared.symm.trans hb))
    exact takes_ascii (by decide)

/-- Whatever the file is, its words are counted, unless the array, the map or the buffer
could not be made. -/
theorem readWords_settles {target : Target} {ctype : Ctype} {file : List UInt8}
    {I : List (List UInt8) → Globals σ → Prop} {E : Stop → Globals σ → Prop} {world : σ}
    (counting : Counting platform target ctype file I E)
    (hspace : ctype.byteIsspace target newline = true)
    (strides : CountableStrides (ctype.byteIsspace target) file)
    (begins : ∀ buf g, Created platform (platform.refusals world) buf g → I [] g)
    (refused : ∀ stop g, createAll platform.ops (start world) = .error stop g →
      Refused platform (platform.refusals world) g → E stop g)
    (fname : String) :
    Settles (fun rounds => readWords platform.ops target ctype rounds platform.stack fname
      (some file)) (start world)
      (fun _ g => I (words (ctype.byteIsspace target) file) g ∧ TakesAll target ctype file) E := by
  have hmade : Settles (fun _ => createAll platform.ops) (start world)
      (Created platform (platform.refusals world)) E := by
    have hcreate : Triple (fun g => g = start world) (createAll platform.ops)
        (Created platform (platform.refusals world))
        fun _ => Refused platform (platform.refusals world) := createAll_calm rfl
    have hcalm := hcreate (start world) rfl
    cases hrun : createAll platform.ops (start world) with
    | ok buf g =>
      rw [hrun] at hcalm
      exact .of_ok ⟨0, fun _ _ => hrun⟩ hcalm
    | error stop g =>
      rw [hrun] at hcalm
      exact .of_error ⟨0, fun _ _ => hrun⟩ (refused stop g hrun hcalm)
  refine .congr ⟨0, fun rounds _ => ?_⟩ (hmade.seq fun buf g made =>
    reading_settles counting hspace (made.reading (begins buf g made)) strides)
  simp only [readWords, createAll, bind_assoc]

end Creation
end M65Tool.Source.WordFreq
