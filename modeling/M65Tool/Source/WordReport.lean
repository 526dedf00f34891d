import M65Tool.Source.MapIteration
import M65Tool.Source.WordFreq
import M65Tool.Source.WordSelection
import Mathlib.Data.List.ReduceOption

/-!
# The report on the words of a file

Source: src/m65tool/m65tool.c:112-223. Behind the reading of the file `word_freq` selects
the counts, goes over the map for the number of words that have each of them, and prints
the two tables. What the program returns here is the text that it has printed; a text that
comes with `exit` is in the `Stop`.
-/
namespace M65Tool.Source.WordFreq
open Mem MapHash HashMap StringBuffer StrFunctions

section Counts
variable {σ : Type}

/-- The elements at `arr` that the loops read, up to one in which nothing has been stored. -/
def storedCounts (g : Globals σ) (arr : Addr) : List UInt32 :=
  if arr = 0 then []
  else ((g.cells.take g.wordsSeen.toNat).takeWhile Option.isSome).reduceOption

/-- `*((unsigned int *)ptr)`. -/
def loadCount (ptr : Addr) : Prog σ UInt32 := fun g =>
  if ptr = 0 then .error (.fault .nullDereference) g
  else
    match countIndex g ptr with
    | none => .error (.fault .strayPointer) g
    | some i =>
      match g.cells[i]? with
      | some (some count) => .ok count g
      | _ => .error (.fault .outOfBounds) g

/-- The loop over the five cells, for `most_freq` or for `least_freq`. -/
def countMatches (count : UInt32) (freq : List Int) (matched : List UInt32) : List UInt32 :=
  List.zipWith (fun cell n => if count = intToUint cell then n + 1 else n) freq matched

/-- `{0}`. -/
def noMatches : List UInt32 := List.replicate 5 0

variable (ops : MemOps σ)

/-- m65tool.c:191-203, for at most the given number of tests of the condition. -/
def matchesLoop (tests : Nat) (mostFreq leastFreq : List Int) :
    Nat → MapIter → List UInt32 → List UInt32 → Prog σ (List UInt32 × List UInt32)
  | 0, _, _, _ => throw (.fault .endlessLoop)
  | rounds + 1, it, mostFreqMatches, leastFreqMatches => do
    let done ← onWorld (mapIterDone ops it)
    if done then pure (mostFreqMatches, leastFreqMatches)
    else
      let ptr ← onWorld (ops.memP (mapIterValue it))
      let count ← loadCount ptr
      let g ← get
      let next ← onWorld (nextIter ops g.mapStruct tests it)
      matchesLoop tests mostFreq leastFreq rounds next (countMatches count mostFreq mostFreqMatches)
        (countMatches count leastFreq leastFreqMatches)

end Counts

/-! ## What is printed -/

/-- `printf("%d\t%d\n", cell, n)`. -/
def printRow (cell : Int) (n : UInt32) : String :=
  toString cell ++ "\t" ++ toString (uintToInt n) ++ "\n"

def printRows (freq : List Int) (matched : List UInt32) : String :=
  String.join (List.zipWith printRow freq matched)

/-- m65tool.c:205-212. -/
def printTables (mostFreq leastFreq : List Int) (mostFreqMatches leastFreqMatches : List UInt32) :
    String :=
  puts "Most frequent words\n==================\nCount\tWords\n" ++
    printRows mostFreq mostFreqMatches ++
    puts "\nLeast frequent words\n==================\nCount\tWords\n" ++
    printRows leastFreq leastFreqMatches

section Program
variable {σ : Type} (ops : MemOps σ) (target : Target) (ctype : Ctype) (rounds : Nat)
  (cPtr : Addr)

/-- m65tool.c:160-212. -/
def report : Prog σ String := do
  let g ← get
  let arr ← onWorld (ops.memP g.counts)
  let (mostFreq, leastFreq) ←
    onWorld (selectCounts (storedCounts g arr) g.wordsSeen rounds)
  let first ← onWorld (firstIter ops g.mapStruct rounds g.mymap)
  let (mostFreqMatches, leastFreqMatches) ←
    matchesLoop ops rounds mostFreq leastFreq rounds first noMatches noMatches
  pure (printTables mostFreq leastFreq mostFreqMatches leastFreqMatches)

/-- m65tool.c:112-215; `file` is what the file has in it, if it can be opened. -/
def wordFreq (fname : String) (file : Option (List UInt8)) : Prog σ String := do
  readWords ops target ctype rounds cPtr fname file
  report ops rounds

/-- m65tool.c:217-223, with the files that can be opened. -/
def main (files : String → Option (List UInt8)) : List String → Prog σ String
  | [_, fname] => wordFreq ops target ctype rounds cPtr fname (files fname)
  | _ => throw (.exit (puts "Usage: m65tool file.txt"))

end Program
end M65Tool.Source.WordFreq
