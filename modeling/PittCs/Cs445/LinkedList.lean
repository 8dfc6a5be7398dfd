import Mathlib.Logic.Function.Basic

/-!
# Circular doubly linked lists

`A2LList.java` and `LinkedListPlus.java`. The memory holds nodes and list objects; a list
object has a reference to its first node and the number of its entries, which is counted
without a limit here. A reference may be null, and following it then is an exception.
-/

namespace PittCs.Cs445

/-- The address of a node. -/
abbrev Ptr := Nat

/-- The address of a list object. -/
abbrev Ref := Nat

inductive Exc where
  | nullPointer
  | numberFormat (message : String)
  | arithmetic (message : String)
deriving DecidableEq

structure A2LList where
  firstNode : Option Ptr
  numberOfEntries : Nat

/-- Each field of the nodes is a map from addresses. `nodes` and `lists` are the next free
addresses. -/
structure Heap (T : Type) where
  data : Ptr → Option T
  next : Ptr → Option Ptr
  prev : Ptr → Option Ptr
  list : Ref → A2LList
  nodes : Nat
  lists : Nat

def Heap.empty {T : Type} : Heap T where
  data _ := none
  next _ := none
  prev _ := none
  list _ := ⟨none, 0⟩
  nodes := 0
  lists := 0

/-- What a method does with the memory, and what it returns or throws. -/
abbrev Java (T : Type) := EStateM Exc (Heap T)

variable {T : Type}

/-! ## Nodes -/

/-- `new Node(data)`. -/
def newNode (data : T) : Java T Ptr := fun h =>
  .ok h.nodes { h with
    data := Function.update h.data h.nodes (some data)
    next := Function.update h.next h.nodes none
    prev := Function.update h.prev h.nodes none
    nodes := h.nodes + 1 }

def getData (p : Option Ptr) : Java T T := fun h =>
  match p.bind h.data with
  | some data => .ok data h
  | none => .error .nullPointer h

def getNextNode (p : Option Ptr) : Java T (Option Ptr) := fun h =>
  match p with
  | some p => .ok (h.next p) h
  | none => .error .nullPointer h

def getPrevNode (p : Option Ptr) : Java T (Option Ptr) := fun h =>
  match p with
  | some p => .ok (h.prev p) h
  | none => .error .nullPointer h

def setData (p : Option Ptr) (newData : T) : Java T Unit := fun h =>
  match p with
  | some p => .ok () { h with data := Function.update h.data p (some newData) }
  | none => .error .nullPointer h

def setNextNode (p nextNode : Option Ptr) : Java T Unit := fun h =>
  match p with
  | some p => .ok () { h with next := Function.update h.next p nextNode }
  | none => .error .nullPointer h

def setPrevNode (p prevNode : Option Ptr) : Java T Unit := fun h =>
  match p with
  | some p => .ok () { h with prev := Function.update h.prev p prevNode }
  | none => .error .nullPointer h

/-! ## Fields of a list -/

def setList (this : Ref) (f : A2LList → A2LList) : Java T Unit := fun h =>
  .ok () { h with list := Function.update h.list this (f (h.list this)) }

def getFirstNode (this : Ref) : Java T (Option Ptr) := fun h => .ok (h.list this).firstNode h

def getNumberOfEntries (this : Ref) : Java T Nat := fun h => .ok (h.list this).numberOfEntries h

def setFirstNode (this : Ref) (p : Option Ptr) : Java T Unit :=
  setList this fun l => { l with firstNode := p }

def setNumberOfEntries (this : Ref) (n : Nat) : Java T Unit :=
  setList this fun l => { l with numberOfEntries := n }

/-! ## A2LList -/

def clear (this : Ref) : Java T Unit := do
  setFirstNode this none
  setNumberOfEntries this 0

def newObject : Java T Ref := fun h => .ok h.lists { h with lists := h.lists + 1 }

/-- `new A2LList()`. -/
def newList : Java T Ref := do
  let this ← newObject
  clear this
  return this

def isEmpty (this : Ref) : Java T Bool := do return (← getNumberOfEntries this) == 0

/-- The only node of a list leads to itself. -/
def addFirstEntry (this : Ref) (newNode : Ptr) : Java T Unit := do
  setFirstNode this newNode
  setPrevNode newNode newNode
  setNextNode newNode newNode

/-- `add(newEntry)`. -/
def add (this : Ref) (newEntry : T) : Java T Unit := do
  let newNode ← newNode newEntry
  let firstNode ← getFirstNode this
  if ← isEmpty this then addFirstEntry this newNode
  else
    let lastNode ← getPrevNode firstNode
    setNextNode lastNode newNode
    setPrevNode newNode lastNode
    setNextNode newNode firstNode
    setPrevNode firstNode newNode
  setNumberOfEntries this ((← getNumberOfEntries this) + 1)

/-- So many links on from `p`: the loops `p = p.next` and `p = p.prev`. -/
def walk (link : Option Ptr → Java T (Option Ptr)) : Nat → Option Ptr → Java T (Option Ptr)
  | 0, p => return p
  | n + 1, p => do walk link n (← link p)

def getNodeAt (this : Ref) (givenPosition : Nat) : Java T (Option Ptr) := do
  walk getNextNode (givenPosition - 1) (← getFirstNode this)

/-- `add(newPosition, newEntry)`. -/
def addAt (this : Ref) (newPosition : Nat) (newEntry : T) : Java T Bool := do
  if 1 ≤ newPosition ∧ newPosition ≤ (← getNumberOfEntries this) + 1 then
    let newNode ← newNode newEntry
    let firstNode ← getFirstNode this
    if ← isEmpty this then addFirstEntry this newNode
    else if newPosition = 1 then
      let lastNode ← getPrevNode firstNode
      setNextNode newNode firstNode
      setPrevNode firstNode newNode
      setPrevNode newNode lastNode
      setNextNode lastNode newNode
      setFirstNode this newNode
    else
      let nodeBefore ← getNodeAt this (newPosition - 1)
      let nodeAfter ← getNextNode nodeBefore
      setNextNode newNode nodeAfter
      setNextNode nodeBefore newNode
      setPrevNode nodeAfter newNode
      setPrevNode newNode nodeBefore
    setNumberOfEntries this ((← getNumberOfEntries this) + 1)
    return true
  else return false

/-- `remove(givenPosition)`, which returns null where it fails. -/
def remove (this : Ref) (givenPosition : Nat) : Java T (Option T) := do
  let numberOfEntries ← getNumberOfEntries this
  if 1 ≤ givenPosition ∧ givenPosition ≤ numberOfEntries then
    let firstNode ← getFirstNode this
    let result ←
      if numberOfEntries = 1 then do
        let result ← getData firstNode
        setFirstNode this none
        pure result
      else if givenPosition = 1 then do
        let result ← getData firstNode
        let lastNode ← getPrevNode firstNode
        let firstNode ← getNextNode firstNode
        setFirstNode this firstNode
        setNextNode lastNode firstNode
        setPrevNode firstNode lastNode
        pure result
      else do
        let nodeBefore ← getNodeAt this (givenPosition - 1)
        let nodeToRemove ← getNextNode nodeBefore
        let nodeAfter ← getNextNode nodeToRemove
        setNextNode nodeBefore nodeAfter
        setPrevNode nodeAfter nodeBefore
        getData nodeToRemove
    setNumberOfEntries this (numberOfEntries - 1)
    return some result
  else return none

/-- `replace(givenPosition, newEntry)`. -/
def replace (this : Ref) (givenPosition : Nat) (newEntry : T) : Java T Bool := do
  if 1 ≤ givenPosition ∧ givenPosition ≤ (← getNumberOfEntries this) then
    setData (← getNodeAt this givenPosition) newEntry
    return true
  else return false

/-! ## LinkedListPlus -/

/-- The loop of the copy constructor, for so many more nodes. -/
def copyLoop : Nat → Option Ptr → Option Ptr → Java T (Option Ptr)
  | 0, _, currNode => return currNode
  | n + 1, temp, currNode => do
      let newNode ← newNode (← getData temp)
      setNextNode currNode newNode
      setPrevNode newNode currNode
      copyLoop n (← getNextNode temp) (← getNextNode currNode)

/-- `new LinkedListPlus(oldList)`. -/
def copy (oldList : Ref) : Java T Ref := do
  let this ← newList
  if (← getNumberOfEntries oldList) > 0 then
    let temp ← getFirstNode oldList
    let newNode ← newNode (← getData temp)
    setFirstNode this newNode
    let currNode ← copyLoop ((← getNumberOfEntries oldList) - 1) (← getNextNode temp)
      (← getFirstNode this)
    setNextNode currNode (← getFirstNode this)
    setPrevNode (← getFirstNode this) currNode
    setNumberOfEntries this (← getNumberOfEntries oldList)
  return this

/-- Removes `num` items from the front. -/
def leftShift (this : Ref) (num : Int) : Java T Unit := do
  let numberOfEntries ← getNumberOfEntries this
  if num ≥ numberOfEntries then clear this
  else if num ≤ 0 then pure ()
  else
    let firstNode ← getFirstNode this
    let last ← getPrevNode firstNode
    let newFirst ← walk getNextNode num.toNat firstNode
    setNextNode last newFirst
    setPrevNode newFirst last
    setFirstNode this newFirst
    setNumberOfEntries this (numberOfEntries - num.toNat)

/-- Removes `num` items from the end. -/
def rightShift (this : Ref) (num : Int) : Java T Unit := do
  let numberOfEntries ← getNumberOfEntries this
  if num ≥ numberOfEntries then clear this
  else if num ≤ 0 then pure ()
  else
    let firstNode ← getFirstNode this
    let newLast ← walk getPrevNode num.toNat (← getPrevNode firstNode)
    setPrevNode firstNode newLast
    setNextNode newLast firstNode
    setNumberOfEntries this (numberOfEntries - num.toNat)

/-- `Math.floorMod` of a divisor that is not negative. -/
def floorMod (x : Int) (y : Nat) : Java T Int := fun h =>
  if y = 0 then .error (.arithmetic "/ by zero") h else .ok (x % y) h

/-- Rotates to the left. -/
def leftRotate (this : Ref) (num : Int) : Java T Unit := do
  let num ← floorMod num (← getNumberOfEntries this)
  setFirstNode this (← walk getNextNode num.toNat (← getFirstNode this))

/-- Rotates to the right. -/
def rightRotate (this : Ref) (num : Int) : Java T Unit := do
  let num ← floorMod num (← getNumberOfEntries this)
  setFirstNode this (← walk getPrevNode num.toNat (← getFirstNode this))

/-- The loop of `reverse`, for so many more nodes. -/
def reverseLoop : Nat → Option Ptr → Java T (Option Ptr)
  | 0, curr => return curr
  | n + 1, curr => do
      let temp ← getNextNode curr
      setNextNode curr (← getPrevNode curr)
      setPrevNode curr temp
      reverseLoop n (← getNextNode curr)

/-- Reverses the nodes. -/
def reverse (this : Ref) : Java T Unit := do
  let curr ← reverseLoop (← getNumberOfEntries this) (← getFirstNode this)
  setFirstNode this (← getNextNode curr)

end PittCs.Cs445
