import PittCs.Cs445.LinkedList

/-!
# Really long integers

`ReallyLongInt.java`: a list of digits, the least significant digit first. A loop that
walks along a list is a recursion on the number of turns that are left.
-/

namespace PittCs.Cs445.ReallyLongInt

/-! ## From and to texts -/

/-- The loop of the constructor. It gives the last digit. -/
def addDigits (this : Ref) : List Char → Int → Java Int Int
  | [], digit => return digit
  | c :: cs, _ => do
      if '0' ≤ c ∧ c ≤ '9' then
        let digit : Int := c.toNat - '0'.toNat
        -- no leading zeros
        if !(digit == 0 && (← getNumberOfEntries this) == 0) then
          discard (addAt this 1 digit)
        addDigits this cs digit
      else throw (.numberFormat ("Illegal digit " ++ c.toString))

/-- `new ReallyLongInt(s)`. -/
def ofString (s : String) : Java Int Ref := do
  let this ← newList
  let digit ← addDigits this s.toList (-1)
  if digit = 0 ∧ (← getNumberOfEntries this) = 0 then
    discard (addAt this 1 digit)
  return this

def appendDigits : Nat → Option Ptr → String → Java Int String
  | 0, _, b => return b
  | n + 1, curr, b => do
      let b := b ++ toString (← getData curr)
      appendDigits n (← getPrevNode curr) b

/-- `toString`. -/
def text (this : Ref) : Java Int String := do
  let curr ← getPrevNode (← getFirstNode this)
  appendDigits (← getNumberOfEntries this) curr ""

/-! ## Comparing -/

def compareDigits : Nat → Option Ptr → Option Ptr → Java Int Int
  | 0, _, _ => return 0
  | n + 1, curr_node, comp_node => do
      let curr_data ← getData curr_node
      let comp_data ← getData comp_node
      if curr_data > comp_data then return 1
      else if curr_data < comp_data then return -1
      else compareDigits n (← getPrevNode curr_node) (← getPrevNode comp_node)

def compareTo (this rOp : Ref) : Java Int Int := do
  let numberOfEntries ← getNumberOfEntries this
  let other ← getNumberOfEntries rOp
  if numberOfEntries > other then return 1
  else if numberOfEntries < other then return -1
  else
    let curr_node ← getPrevNode (← getFirstNode this)
    let comp_node ← getPrevNode (← getFirstNode rOp)
    compareDigits numberOfEntries curr_node comp_node

def equals (this rightOp : Ref) : Java Int Bool := do return (← compareTo this rightOp) == 0

/-! ## Shifting by powers of ten -/

/-- The loop of `removeZero`, with the number of zeros that may still be counted. -/
def countZeros : Nat → Option Ptr → Java Int Nat
  | 0, newLast => do
      let _ ← getData newLast
      return 0
  | n + 1, newLast => do
      if (← getData newLast) = 0 then return (← countZeros n (← getPrevNode newLast)) + 1
      else return 0

/-- The zeros of `num` are counted up to the length of `this`. -/
def removeZero (this num : Ref) : Java Int Ref := do
  let newLast ← getPrevNode (← getFirstNode num)
  let shift ← countZeros ((← getNumberOfEntries this) - 1) newLast
  rightShift num shift
  return num

def addZeros (this : Ref) : Nat → Java Int Unit
  | 0 => return ()
  | n + 1 => do
      discard (addAt this 1 (0 : Int))
      addZeros this n

def multTenToThe (this : Ref) (num : Int) : Java Int Unit := do
  addZeros this num.toNat
  discard (removeZero this this)

def divTenToThe (this : Ref) (num : Int) : Java Int Unit := do
  leftShift this num
  if (← getFirstNode this) = none then add this (0 : Int)

/-! ## Adding and subtracting -/

/-- A sum of two digits, with the carry: the next digit and the next carry. -/
def carrySum (sum : Int) (carry : Bool) : Int × Bool :=
  let sum := if carry then sum + 1 else sum
  if sum > 9 then (sum - 10, true) else (sum, false)

/-- A difference of two digits, with the borrow. -/
def borrowDiff (diff : Int) (borrow : Bool) : Int × Bool :=
  let diff := if borrow then diff - 1 else diff
  if diff < 0 then (diff + 10, true) else (diff, false)

/-- The first loop of `add` and of `subtract`: the digits that both operands have. -/
def pairLoop (op : Int → Int → Int) (adjust : Int → Bool → Int × Bool) (ans : Ref) :
    Nat → Option Ptr → Option Ptr → Bool → Java Int (Option Ptr × Bool)
  | 0, curr_x, _, carry => return (curr_x, carry)
  | n + 1, curr_x, curr_y, carry => do
      let (digit, carry) := adjust (op (← getData curr_x) (← getData curr_y)) carry
      Cs445.add ans digit
      pairLoop op adjust ans n (← getNextNode curr_x) (← getNextNode curr_y) carry

/-- The second loop: the digits that only the longer operand has. -/
def restLoop (adjust : Int → Bool → Int × Bool) (ans : Ref) :
    Nat → Option Ptr → Bool → Java Int Bool
  | 0, _, carry => return carry
  | n + 1, curr_x, carry => do
      let (digit, carry) := adjust (← getData curr_x) carry
      Cs445.add ans digit
      restLoop adjust ans n (← getNextNode curr_x) carry

/-- The sum of `x` and `y`, of which `x` is not the smaller one. -/
def addSmaller (ans x y : Ref) : Java Int Ref := do
  let curr_x ← getFirstNode x
  let curr_y ← getFirstNode y
  let xEntries ← getNumberOfEntries x
  let yEntries ← getNumberOfEntries y
  let (curr_x, carry) ← pairLoop (· + ·) carrySum ans yEntries curr_x curr_y false
  let carry ← restLoop carrySum ans (xEntries - yEntries) curr_x carry
  if carry then
    Cs445.add ans (1 : Int)
  return ans

def add (this rightOp : Ref) : Java Int Ref := do
  let ans ← newList
  let result ← compareTo this rightOp
  if result = 1 ∨ result = 0 then addSmaller ans this rightOp
  else addSmaller ans rightOp this

def subtract (this rightOp : Ref) : Java Int Ref := do
  let ans ← newList
  let curr_x ← getFirstNode this
  let curr_y ← getFirstNode rightOp
  let result ← compareTo this rightOp
  if result = -1 then throw (.arithmetic "first term less than second term")
  else
    let xEntries ← getNumberOfEntries this
    let yEntries ← getNumberOfEntries rightOp
    let (curr_x, borrow) ← pairLoop (· - ·) borrowDiff ans yEntries curr_x curr_y false
    discard (restLoop borrowDiff ans (xEntries - yEntries) curr_x borrow)
    removeZero this ans

end PittCs.Cs445.ReallyLongInt
