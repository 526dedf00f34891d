import M65Tool.Source.HashMap
import M65Tool.Source.StrCtype

/-!
# Reading a file and counting its words

Source: src/m65tool/m65tool.c:73-158. The global variables are kept with the block of the
counts array and the map struct, and with a record of the words that were taken for new.
A `str` that `process_line` takes from the line refers to the block of the string buffer,
which nothing changes before the line is done.
-/
namespace M65Tool.Source.WordFreq
open Mem MapHash HashMap StringBuffer StrFunctions Lib.Block Lib.Effect

/-- `sizeof(unsigned int)`. -/
def sizeofUint : Nat := 4

/-- `INITIAL_COUNTS_SIZE`. -/
def initialCountsSize : Nat := 128

structure Globals (σ : Type) where
  world : σ
  counts : MemHandle
  /-- the elements of the counts block; one that nothing has been stored in is absent -/
  cells : List (Option UInt32)
  wordsSeen : UInt32
  mymap : MemHandle
  /-- the struct at `mymap` -/
  mapStruct : Map
  /-- `words_seen` as it was when a word was taken for new, newest first -/
  newAt : List UInt32

/-- The end of a program that does not return from `word_freq`. -/
inductive Stop where
  | fault (fault : Fault)
  /-- `exit(EXIT_FAILURE)`, with what has been printed -/
  | exit (message : String)
  deriving DecidableEq, Repr

abbrev Prog (σ α : Type) := EStateM Stop (Globals σ) α

/-- `puts`. -/
def puts (text : String) : String := text ++ "\n"

section Program
variable {σ : Type}

/-- A call into the library. -/
def onWorld {α : Type} (x : C σ α) : Prog σ α := fun g =>
  match x g.world with
  | .ok a world => .ok a { g with world := world }
  | .error fault world => .error (.fault fault) { g with world := world }

/-- The index of the element of the counts block at an address. -/
def countIndex (g : Globals σ) (ptr : Addr) : Option Nat :=
  let offset := (ptr - g.counts.data).toNat
  if offset % sizeofUint = 0 ∧ offset / sizeofUint < g.cells.length then
    some (offset / sizeofUint)
  else none

/-- `++(*valp)`. -/
def incrCount (valp : Addr) : Prog σ Unit := fun g =>
  if valp = 0 then .error (.fault .nullDereference) g
  else
    match countIndex g valp with
    | none => .error (.fault .strayPointer) g
    | some i =>
      match g.cells[i]? with
      | some (some count) => .ok () { g with cells := g.cells.set i (some (count + 1)) }
      | _ => .error (.fault .outOfBounds) g

/-- `arr[i] = count`. -/
def storeCount (arr : Addr) (i : UInt32) (count : UInt32) : Prog σ Unit := fun g =>
  if arr = 0 then .error (.fault .nullDereference) g
  else if i.toNat < g.cells.length then
    .ok () { g with cells := g.cells.set i.toNat (some count) }
  else .error (.fault .outOfBounds) g

/-- `++words_seen`. -/
def incrWordsSeen : Prog σ Unit :=
  modify fun g => { g with wordsSeen := g.wordsSeen + 1, newAt := g.wordsSeen :: g.newAt }

/-- The result of an allocation is the counts array from here on. -/
def setCounts (handle : MemHandle) : Prog σ Unit :=
  modify fun g => { g with
    counts := handle
    cells := if memIsValid handle then resize g.cells (handle.size / sizeofUint) none else [] }

variable (ops : MemOps σ) (target : Target)

/-- m65tool.c:92-98. The number of the words is compared with a size in bytes. -/
def growCounts : Prog σ Unit := do
  let g ← get
  if g.wordsSeen.toNat > g.counts.size then
    let counts ← onWorld (ops.memRealloc g.counts (g.counts.size * 2 % sizeMod))
    setCounts counts
    if memIsValid counts then pure () else throw (.exit (puts "Error resizing counts array\n"))
  else pure ()

/-- `map_set(mymap, word, value)`. -/
def setWord (word : Str) (value : MemHandle) : Prog σ Bool := do
  let g ← get
  let (stored, mapStruct) ← onWorld (mapSetStr ops target g.mymap g.mapStruct word value)
  modify fun g => { g with mapStruct := mapStruct }
  pure stored

/-- m65tool.c:91-106. -/
def newWord (word : Str) : Prog σ Unit := do
  incrWordsSeen
  growCounts ops
  let g ← get
  let arr ← onWorld (ops.memP g.counts)
  let value := memHandleFromPtr
    (arr + UInt64.ofNat (sizeofUint * (g.wordsSeen - 1).toNat)) sizeofUint
  let stored ← setWord ops target word value
  if stored then storeCount arr (g.wordsSeen - 1) 1
  else throw (.exit (puts "Error adding new key to map\n"))

/-- m65tool.c:83-107. -/
def countWord (word : Str) : Prog σ Unit := do
  let g ← get
  let entry ← onWorld (mapGetStr ops target g.mymap g.mapStruct word)
  if memIsValid entry then
    let valp ← onWorld (ops.memP entry)
    incrCount valp
  else newWord ops target word

variable (ctype : Ctype)

/-- The part of a line with its bytes. -/
def readStr (mem : Memory) (part : MemHandle) : C σ Str := do
  let bytes ← loadBytes mem part.data part.size 0
  let handle : MemHandle := { part with size := bytes.length }
  have size_eq : handle.size = bytes.length := rfl
  pure ⟨handle, bytes, size_eq⟩

/-- m65tool.c:78-110, for at most the given number of tests of the condition. What `word`
is before the first pop is never used. -/
def processLine (mem : Memory) (tests : Nat) : Nat → MemHandle → Prog σ Unit
  | 0, _ => throw (.fault .endlessLoop)
  | rounds + 1, line =>
    if memIsValid line then do
      let (rest, part) ← onWorld (strSplitWhitespacePopCtype mem target ctype ops tests line .zero)
      if part.size > 0 then
        let word ← onWorld (readStr mem part)
        countWord ops target word
      processLine mem tests rounds rest
    else pure ()

/-- The bytes of the buffer's block. -/
def bufMemory (bufp : Strbuf) : Memory := fun a => (bufp.block[(a - bufp.data.data).toNat]?).join

/-- `'\n'`. -/
def newline : UInt8 := 10

variable (rounds : Nat) (cPtr : Addr)

/-- m65tool.c:146-149: the line in the buffer is processed, and the buffer reset. -/
def endLine (buf : MemHandle) (bufp : Strbuf) : Prog σ Strbuf := do
  let line ← onWorld (strbufStr ops buf bufp)
  processLine ops target ctype (bufMemory bufp) rounds rounds line
  onWorld (strbufReset ops buf bufp)

/-- m65tool.c:151-154; `cPtr` is where `strbuf_concatenate_char` has its parameter. -/
def appendChar (buf : MemHandle) (bufp : Strbuf) (c : UInt8) : Prog σ Strbuf := do
  let (appended, bufp) ← onWorld (strbufConcatenateChar ops rounds buf bufp c cPtr)
  if appended then pure bufp else throw (.exit (puts "Error growing string buffer\n"))

/-- m65tool.c:141-156: the loop over `getc`, for what is left of the file. -/
def readLoop (buf : MemHandle) : List UInt8 → Strbuf → Prog σ Strbuf
  | [], bufp => pure bufp
  | c :: rest, bufp =>
    if c = newline then do
      let bufp ← endLine ops target ctype rounds buf bufp
      readLoop buf rest bufp
    else do
      let bufp ← appendChar ops rounds cPtr buf bufp c
      readLoop buf rest bufp

/-- m65tool.c:157-158: what follows the last newline. -/
def lastLine (buf : MemHandle) (bufp : Strbuf) : Prog σ Unit := do
  let line ← onWorld (strbufStr ops buf bufp)
  if line.size > 0 then processLine ops target ctype (bufMemory bufp) rounds rounds line
  else pure ()

/-- m65tool.c:121-126. -/
def createCounts : Prog σ Unit := do
  let counts ← onWorld (ops.memAlloc .plain (sizeofUint * initialCountsSize))
  setCounts counts
  if memIsValid counts then pure () else throw (.exit (puts "Error creating counts array\n"))

/-- m65tool.c:128-132. A handle without a struct is not valid. -/
def createMap : Prog σ Unit := do
  let (mymap, created) ← onWorld (mapCreate ops .plain)
  match created with
  | some mapStruct =>
    modify fun g => { g with mymap := mymap, mapStruct := mapStruct }
    let valid ← onWorld (mapIsValid ops mymap mapStruct)
    if valid then pure () else throw (.exit (puts "Error creating map\n"))
  | none => throw (.exit (puts "Error creating map\n"))

/-- m65tool.c:135-139. -/
def createBuf : Prog σ (MemHandle × Strbuf) := do
  let (buf, created) ← onWorld (strbufCreate ops .plain 100)
  match created with
  | some bufp =>
    let valid ← onWorld (strbufIsValid ops buf bufp)
    if valid then pure (buf, bufp) else throw (.exit (puts "Error creating strbuf\n"))
  | none => throw (.exit (puts "Error creating strbuf\n"))

/-- m65tool.c:112-158: `word_freq` up to its two arrays; `file` is what the file has in
it, if it can be opened. -/
def readWords (fname : String) (file : Option (List UInt8)) : Prog σ Unit := do
  match file with
  | none => throw (.exit ("Could not open file '" ++ fname ++ "'\n"))
  | some bytes =>
    createCounts ops
    createMap ops
    let (buf, bufp) ← createBuf ops
    let bufp ← readLoop ops target ctype rounds cPtr buf bytes bufp
    lastLine ops target ctype rounds buf bufp

/-- The program as it starts. -/
def start (world : σ) : Globals σ :=
  ⟨world, .zero, [], 0, .zero, ⟨.zero, [], 0, 0⟩, []⟩

/-- The globals where a run of the program comes to an end. -/
def stoppedAt {α : Type} (program : Prog σ α) (world : σ) : Globals σ :=
  match program (start world) with
  | .ok _ g => g
  | .error _ g => g

end Program

/-! ## What a call into the library leaves as it is -/

section Calls
variable {σ α : Type} {x : C σ α} {R : α → Prop} {P : Globals σ → Prop}
  {E : Stop → Globals σ → Prop}

/-- A library call reaches none of the globals; it returns what it can return. -/
theorem onWorld_returns (frame : ∀ g world, P g → P { g with world := world })
    (stops : ∀ stop g, P g → E stop g) (hx : ∀ s a s', x s = .ok a s' → R a) :
    Triple P (onWorld x) (fun a g => P g ∧ R a) E := by
  intro g hg
  unfold onWorld
  cases hrun : x g.world with
  | ok a world => exact ⟨frame g world hg, hx _ _ _ hrun⟩
  | error fault world => exact stops _ _ (frame g world hg)

theorem onWorld_frames (frame : ∀ g world, P g → P { g with world := world })
    (stops : ∀ stop g, P g → E stop g) : Triple P (onWorld x) (fun _ => P) E :=
  (onWorld_returns (R := fun _ => True) frame stops fun _ _ _ _ => trivial).weaken
    (fun _ hg => hg) fun _ _ hg => hg.1

end Calls

/-! ## The two stores into the counts array -/

section Stores
variable {σ : Type} {g : Globals σ}

theorem incrCount_ok {valp : Addr} {i : Nat} {count : UInt32} (hptr : valp ≠ 0)
    (hindex : countIndex g valp = some i) (hcell : g.cells[i]? = some (some count)) :
    incrCount valp g = .ok () { g with cells := g.cells.set i (some (count + 1)) } := by
  unfold incrCount
  rw [if_neg hptr, hindex]
  dsimp only
  rw [hcell]

/-- An element is counted up, or nothing happens. -/
theorem incrCount_cases (g : Globals σ) (valp : Addr) :
    (∃ i count, countIndex g valp = some i ∧ g.cells[i]? = some (some count) ∧
      incrCount valp g = .ok () { g with cells := g.cells.set i (some (count + 1)) }) ∨
    ∃ stop, incrCount valp g = .error stop g := by
  by_cases hptr : valp = 0
  · exact Or.inr ⟨_, by rw [incrCount, if_pos hptr]⟩
  · cases hindex : countIndex g valp with
    | none => exact Or.inr ⟨_, by rw [incrCount, if_neg hptr, hindex]⟩
    | some i =>
      match hcell : g.cells[i]? with
      | some (some count) => exact Or.inl ⟨i, count, rfl, hcell, incrCount_ok hptr hindex hcell⟩
      | some none =>
        exact Or.inr ⟨_, by rw [incrCount, if_neg hptr, hindex]; dsimp only; rw [hcell]⟩
      | none => exact Or.inr ⟨_, by rw [incrCount, if_neg hptr, hindex]; dsimp only; rw [hcell]⟩

theorem storeCount_ok {arr : Addr} {i count : UInt32} (hptr : arr ≠ 0)
    (hi : i.toNat < g.cells.length) :
    storeCount arr i count g = .ok () { g with cells := g.cells.set i.toNat (some count) } := by
  unfold storeCount
  rw [if_neg hptr, if_pos hi]

/-- An element is stored, or nothing happens. -/
theorem storeCount_cases (g : Globals σ) (arr : Addr) (i count : UInt32) :
    (i.toNat < g.cells.length ∧
      storeCount arr i count g = .ok () { g with cells := g.cells.set i.toNat (some count) }) ∨
    ∃ stop, storeCount arr i count g = .error stop g := by
  by_cases hptr : arr = 0
  · exact Or.inr ⟨_, by rw [storeCount, if_pos hptr]⟩
  · by_cases hi : i.toNat < g.cells.length
    · exact Or.inl ⟨hi, storeCount_ok hptr hi⟩
    · exact Or.inr ⟨_, by rw [storeCount, if_neg hptr, if_neg hi]⟩

end Stores
end M65Tool.Source.WordFreq
