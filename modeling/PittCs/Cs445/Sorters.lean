import Mathlib.Data.Int.Order.Basic
import Mathlib.Data.Int.DivMod
import PittCs.Lib.Outcome
import PittCs.Lib.StableSort

/-!
# Quick sort and merge sort

`QuickSort.java` with its three pivots, and `MergeSort.java`. An access outside of an array
ends a run. The recursion of quick sort takes fuel; what it does without is `diverges`.
-/

namespace PittCs.Cs445.Sorters

/-- `Comparable`, with what its documentation asks of `compareTo`. -/
class Comparable (α : Type) where
  compareTo : α → α → Int
  antisymm : ∀ x y, (compareTo x y).sign = -(compareTo y x).sign
  trans : ∀ x y z, 0 < compareTo x y → 0 < compareTo y z → 0 < compareTo x z
  congr : ∀ x y z, compareTo x y = 0 → (compareTo x z).sign = (compareTo y z).sign

open Comparable

inductive Exc where
  | illegalArgument
  | arrayIndexOutOfBounds
  | negativeArraySize
  /-- The recursion goes deeper than the fuel. -/
  | diverges
deriving DecidableEq

variable {α : Type}

@[grind =] def load (a : List α) (i : Int) : Except Exc α :=
  if 0 ≤ i then
    match a[i.toNat]? with
    | some x => .ok x
    | none => .error .arrayIndexOutOfBounds
  else .error .arrayIndexOutOfBounds

@[grind =] def store (a : List α) (i : Int) (x : α) : Except Exc (List α) :=
  if 0 ≤ i ∧ i < a.length then .ok (a.set i.toNat x) else .error .arrayIndexOutOfBounds

@[grind =] def swap (a : List α) (i j : Int) : Except Exc (List α) := do
  let temp ← load a i
  let x ← load a j
  let a ← store a i x
  store a j temp

variable [Comparable α]

/-! ## Insertion sort -/

/-- The inner loop. -/
@[grind =] def shiftLoop (low : Int) (curr : α) (j : Int) (a : List α) : Except Exc (Int × List α) :=
  if j ≥ low then do
    let x ← load a j
    if compareTo x curr > 0 then do
      let a ← store a (j + 1) x
      shiftLoop low curr (j - 1) a
    else return (j, a)
  else return (j, a)
termination_by (j + 1 - low).toNat
decreasing_by omega

@[grind =] def insertLoop (low high : Int) (i : Int) (a : List α) : Except Exc (List α) :=
  if i ≤ high then do
    let curr ← load a i
    let (j, a) ← shiftLoop low curr (i - 1) a
    let a ← store a (j + 1) curr
    insertLoop low high (i + 1) a
  else return a
termination_by (high + 1 - i).toNat

def insertionSort (a : List α) (low high : Int) : Except Exc (List α) :=
  insertLoop low high (low + 1) a

/-! ## Pivots -/

/-- A way to partition. The first argument counts the calls so far. -/
structure Partitionable (α : Type) where
  partition : Nat → List α → Int → Int → Except Exc (Int × List α)

@[grind =] def partitionLoop (pivot : α) (high : Int) (i j : Int) (a : List α) : Except Exc (Int × List α) :=
  if j ≤ high then do
    let x ← load a j
    if compareTo x pivot < 0 then do
      let a ← swap a i j
      partitionLoop pivot high (i + 1) (j + 1) a
    else partitionLoop pivot high i (j + 1) a
  else return (i, a)
termination_by (high + 1 - j).toNat
decreasing_by all_goals omega

def SimplePivot.partition (a : List α) (low high : Int) : Except Exc (Int × List α) :=
  if high < low ∨ low < 0 ∨ high < 0 then .error .illegalArgument
  else do
    let pivot ← load a high
    let (i, a) ← partitionLoop pivot high low low a
    let a ← swap a i high
    return (i, a)

def SimplePivot : Partitionable α := ⟨fun _ => SimplePivot.partition⟩

def MedOfThree.findMid (a : List α) (low med high : Int) : Except Exc Int := do
  let l ← load a low
  let m ← load a med
  let h ← load a high
  return if compareTo l m ≥ 0 ∧ compareTo l h ≤ 0 ∨ compareTo l m ≤ 0 ∧ compareTo l h ≥ 0 then low
    else if compareTo m l ≥ 0 ∧ compareTo m h ≤ 0 ∨ compareTo m l ≤ 0 ∧ compareTo m h ≥ 0 then med
    else high

def MedOfThree.partition (a : List α) (low high : Int) : Except Exc (Int × List α) :=
  if high < low ∨ low < 0 ∨ high < 0 then .error .illegalArgument
  else do
    let med := (high + low).tdiv 2
    let piv ← MedOfThree.findMid a low med high
    let a ← swap a piv high
    SimplePivot.partition a low high

def MedOfThree : Partitionable α := ⟨fun _ => MedOfThree.partition⟩

/-- The numbers that are drawn: what `new Random().nextInt(bound)` is at each call. -/
structure Random where
  nextInt : Nat → Int → Int
  nonneg : ∀ call bound, 0 < bound → 0 ≤ nextInt call bound
  lt : ∀ call bound, 0 < bound → nextInt call bound < bound

def RandomPivot.partition (r : Random) (call : Nat) (a : List α) (low high : Int) :
    Except Exc (Int × List α) :=
  if high < low ∨ low < 0 ∨ high < 0 then .error .illegalArgument
  else do
    let piv := r.nextInt call ((high - low) + 1) + low
    let a ← swap a piv high
    SimplePivot.partition a low high

def RandomPivot (r : Random) : Partitionable α := ⟨RandomPivot.partition r⟩

/-! ## Quick sort -/

structure QuickSort (α : Type) where
  partAlgo : Partitionable α
  MIN_SIZE : Int

namespace QuickSort

def new (part : Partitionable α) : QuickSort α := ⟨part, 3⟩

def setMin (s : QuickSort α) (min : Int) : Except Exc (QuickSort α) :=
  if min < 0 then .error .illegalArgument else .ok { s with MIN_SIZE := min }

/-- With the number of calls of `partition` so far. -/
def quicksort (s : QuickSort α) : Nat → Nat → List α → Int → Int → Except Exc (Nat × List α)
  | 0, _, _, _, _ => .error .diverges
  | fuel + 1, call, a, low, high =>
    if high - low + 1 ≤ s.MIN_SIZE then do
      let a ← insertionSort a low high
      return (call, a)
    else if low < high then do
      let (div, a) ← s.partAlgo.partition call a low high
      let (call, a) ← quicksort s fuel (call + 1) a low (div - 1)
      quicksort s fuel call a (div + 1) high
    else return (call, a)

def sort (s : QuickSort α) (fuel : Nat) (a : List α) (len : Int) : Except Exc (List α) :=
  if len > 0 ∧ len ≤ a.length then do
    let (_, a) ← s.quicksort fuel 0 a 0 (len - 1)
    return a
  else if len < 0 ∨ len > a.length then .error .illegalArgument
  else return a

end QuickSort

/-! ## Merge sort -/

structure MergeSort where
  MIN_SIZE : Int

namespace MergeSort

def new : MergeSort := ⟨3⟩

def setMin (_s : MergeSort) (min : Int) : Except Exc MergeSort :=
  if min < 0 then .error .illegalArgument else .ok ⟨min⟩

omit [Comparable α] in
/-- The elements from `start + i` to `start + n - 1`. -/
def copyLoop (a : List α) (start n i : Int) : Except Exc (List α) :=
  if i < n then do
    let x ← load a (start + i)
    let rest ← copyLoop a start n (i + 1)
    return x :: rest
  else return []
termination_by (n - i).toNat

/-- A new array of `n` elements, filled from `start` on. -/
def copy (a : List α) (start n : Int) : Except Exc (List α) :=
  if n < 0 then .error .negativeArraySize else copyLoop a start n 0

def mergeLoop (left right : List α) (n1 n2 : Int) (i j k : Int) (a : List α) :
    Except Exc (Int × Int × Int × List α) :=
  if i < n1 ∧ j < n2 then do
    let x ← load left i
    let y ← load right j
    if compareTo x y ≤ 0 then do
      let a ← store a k x
      mergeLoop left right n1 n2 (i + 1) j (k + 1) a
    else do
      let a ← store a k y
      mergeLoop left right n1 n2 i (j + 1) (k + 1) a
  else return (i, j, k, a)
termination_by (n1 - i).toNat + (n2 - j).toNat

/-- What is left of one side. -/
@[grind =] def restLoop (side : List α) (n i k : Int) (a : List α) : Except Exc (Int × List α) :=
  if i < n then do
    let x ← load side i
    let a ← store a k x
    restLoop side n (i + 1) (k + 1) a
  else return (k, a)
termination_by (n - i).toNat

def merge (a : List α) (low med high : Int) : Except Exc (List α) := do
  let n1 := med - low + 1
  let n2 := high - med
  let left ← copy a low n1
  let right ← copy a (med + 1) n2
  let (i, j, k, a) ← mergeLoop left right n1 n2 0 0 low a
  let (k, a) ← restLoop left n1 i k a
  let (_, a) ← restLoop right n2 j k a
  return a

def mergeSort (s : MergeSort) (a : List α) (low high : Nat) : Except Exc (List α) :=
  let med := (low + high) / 2
  if (high : Int) - low + 1 ≤ s.MIN_SIZE then do
    let a ← insertionSort a low high
    merge a low med high
  else if low < high then do
    let a ← mergeSort s a low med
    let a ← mergeSort s a (med + 1) high
    merge a low med high
  else return a
termination_by high - low

def sort (s : MergeSort) (a : List α) (len : Int) : Except Exc (List α) :=
  if len > 0 ∧ len ≤ a.length then s.mergeSort a 0 (len - 1).toNat
  else if len < 0 ∨ len > a.length then .error .illegalArgument
  else return a

end MergeSort

end PittCs.Cs445.Sorters
