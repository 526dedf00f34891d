import M65Tool.Source.StrFunctions

/-!
# The most and the least frequent counts

Source: src/m65tool/m65tool.c:160-186. The counts are of `unsigned int`, the two arrays
that take the five highest and lowest of them, and the index, are of `int`. Where the
source compares or exchanges an int and an unsigned int the int is converted.
-/
namespace M65Tool.Source.WordFreq
open Mem StringBuffer StrFunctions

/-- The conversion of an int to unsigned int. -/
def intToUint (i : Int) : UInt32 := UInt32.ofNat (i % 2 ^ 32).toNat

/-- The inner loop over `most_freq`, from a cell on. -/
def insertMost : List Int → UInt32 → List Int
  | [], _ => []
  | cell :: rest, count =>
    if intToUint cell = count then cell :: rest
    else if intToUint cell < count then uintToInt count :: insertMost rest (intToUint cell)
    else cell :: insertMost rest count

/-- The inner loop over `least_freq`, from a cell on. A cell with 0 is free. -/
def insertLeast : List Int → UInt32 → List Int
  | [], _ => []
  | cell :: rest, count =>
    if intToUint cell = count then cell :: rest
    else if intToUint cell > count ∨ cell = 0 then
      uintToInt count :: insertLeast rest (intToUint cell)
    else cell :: insertLeast rest count

/-- `{0}`. -/
def noCounts : List Int := List.replicate 5 0

section Loop
variable {σ : Type}

/-- `arr[i]`. -/
def readCount (arr : List UInt32) (i : Int) : C σ UInt32 :=
  if i < 0 then throw .outOfBounds
  else
    match arr[i.toNat]? with
    | some count => pure count
    | none => throw .outOfBounds

/-- m65tool.c:163-186, for at most the given number of tests of the condition. -/
def selectLoop (arr : List UInt32) (wordsSeen : UInt32) :
    Nat → Int → List Int → List Int → C σ (List Int × List Int)
  | 0, _, _, _ => throw .endlessLoop
  | tests + 1, i, mostFreq, leastFreq =>
    if intToUint i < wordsSeen then do
      let count ← readCount arr i
      let mostFreq := insertMost mostFreq count
      let leastFreq := insertLeast leastFreq count
      let next ← incrInt i
      selectLoop arr wordsSeen tests next mostFreq leastFreq
    else pure (mostFreq, leastFreq)

/-- m65tool.c:160-186: `most_freq` and `least_freq` behind the loop. -/
def selectCounts (arr : List UInt32) (wordsSeen : UInt32) (tests : Nat) :
    C σ (List Int × List Int) :=
  selectLoop arr wordsSeen tests 0 noCounts noCounts

end Loop
end M65Tool.Source.WordFreq
