import Mathlib.Algebra.Group.Int.Defs
import Mathlib.Algebra.Group.Nat.Defs
import Mathlib.Logic.Function.Basic

/-!
# The queue of strings

`queue.c`: a singly linked list with a pointer to its last element and a count. An
element holds a copy of its string in an array of its own. `malloc` succeeds; the address
of a new element is the number of elements made so far, and the contents of a new array
are arbitrary.

A step is undefined and gives nothing when an `int` overflows, when an array is left, or
when a pointer does not lead to an element that is allocated.
-/

namespace PittCs.QueueLab

/-- A string: characters other than the one that ends it. -/
structure CString where
  chars : List UInt8
  nonzero : 0 ∉ chars

/-- The array of a string. -/
def CString.bytes (s : CString) : List UInt8 := s.chars ++ [0]

/-- The value that an `int` takes. -/
def int (x : Int) : Option Int := if -2 ^ 31 ≤ x ∧ x < 2 ^ 31 then some x else none

/-! ## Strings -/

/-- The loop of `get_str_length` and the addition after it. -/
def strLengthLoop : List UInt8 → Int → Option Int
  | [], _ => none
  | currChar :: rest, strLen => do
    let strLen ← int (strLen + 1)
    if currChar = 0 then some strLen else strLengthLoop rest strLen

def getStrLength (s : List UInt8) : Option Int := strLengthLoop s 0

/-- The loop of `copy_n_chars` for the characters that remain, and the terminator. -/
def copyLoop : Nat → List UInt8 → List UInt8 → Option (List UInt8)
  | 0, _, _ :: dst => some (0 :: dst)
  | n + 1, c :: src, _ :: dst => (copyLoop n src dst).map (c :: ·)
  | _, _, _ => none

/-- `copy_n_chars` -/
def copyNChars (n : Int) (src dst : List UInt8) : Option (List UInt8) :=
  if 0 < n then copyLoop (n - 1).toNat src dst else some dst

/-! ## The queue -/

/-- `list_ele_t` -/
structure Ele where
  value : List UInt8
  next : Option Nat

/-- `queue_t`, with the elements in memory and the address of the next one. -/
structure Queue where
  size : Int
  head : Option Nat
  tail : Option Nat
  mem : Nat → Option Ele
  fresh : Nat

/-- `q_new` -/
def qNew : Queue := ⟨0, none, none, fun _ => none, 0⟩

/-- `a->next = p` -/
def setNext (mem : Nat → Option Ele) (a : Nat) (p : Option Nat) : Nat → Option Ele :=
  Function.update mem a ((mem a).map ({ · with next := p }))

namespace Queue

/-- The copy of a string in a new array; `garbage` is what the array holds at first. -/
def copyString (garbage : Nat → UInt8) (s : List UInt8) : Option (List UInt8) := do
  let strLen ← getStrLength s
  copyNChars strLen s ((List.range strLen.toNat).map garbage)

/-- `q_insert_head` -/
def qInsertHead (q : Queue) (garbage : Nat → UInt8) (s : List UInt8) : Option Queue := do
  let newh := q.fresh
  let value ← copyString garbage s
  let size ← int (q.size + 1)
  some {
    size := size
    head := some newh
    tail := if q.tail = none then some newh else q.tail
    mem := Function.update q.mem newh (some ⟨value, q.head⟩)
    fresh := q.fresh + 1 }

/-- `q_insert_tail` -/
def qInsertTail (q : Queue) (garbage : Nat → UInt8) (s : List UInt8) : Option Queue := do
  let newt := q.fresh
  let value ← copyString garbage s
  let mem := Function.update q.mem newt (some ⟨value, none⟩)
  let size ← int (q.size + 1)
  if q.head = none ∧ q.tail = none then
    some ⟨size, some newt, some newt, mem, q.fresh + 1⟩
  else do
    let tail ← q.tail
    let _ ← mem tail
    some ⟨size, q.head, some newt, setNext mem tail (some newt), q.fresh + 1⟩

/-- The copy of a removed string; `bufsize` becomes an `int` for the call. -/
def copyRemoved (strLen : Int) (removedString sp : List UInt8) (bufsize : Nat) :
    Option (List UInt8) :=
  if bufsize < strLen.toNat then copyNChars ((bufsize : Int).bmod (2 ^ 32)) removedString sp
  else copyNChars strLen removedString sp

/-- `q_remove_head` with the buffer `sp`: the queue, the buffer and the value returned. -/
def qRemoveHead (q : Queue) (sp : List UInt8) (bufsize : Nat) :
    Option (Queue × List UInt8 × Bool) :=
  match q.head with
  | none => some (q, sp, false)
  | some toRemove => do
    let ele ← q.mem toRemove
    let strLen ← getStrLength ele.value
    let sp ← copyRemoved strLen ele.value sp bufsize
    let size ← int (q.size - 1)
    some ({
      size := size
      head := ele.next
      tail := if ele.next = none then none else q.tail
      mem := Function.update q.mem toRemove none
      fresh := q.fresh }, sp, true)

/-- `q_size` -/
def qSize (q : Queue) : Int := q.size

/-- The loop of `q_reverse`: the memory, `curr_node` and `next_node` at its end. -/
def reverseLoop : Nat → (Nat → Option Ele) → Nat → Nat → Option ((Nat → Option Ele) × Nat × Nat)
  | 0, _, _, _ => none
  | fuel + 1, mem, currNode, nextNode => do
    let ele ← mem nextNode
    match ele.next with
    | none => some (mem, currNode, nextNode)
    | some tempNode => reverseLoop fuel (setNext mem nextNode (some currNode)) nextNode tempNode

/-- `q_reverse`. The loop makes fewer turns than there are elements. -/
def qReverse (q : Queue) : Option Queue :=
  match q.head with
  | none => some q
  | some head => do
    let ele ← q.mem head
    match ele.next with
    | none => some q
    | some nextNode => do
      let (mem, currNode, nextNode) ← reverseLoop q.fresh q.mem head nextNode
      let mem := setNext (setNext mem nextNode (some currNode)) head none
      some { q with head := q.tail, tail := q.head, mem := mem }

end Queue

/-! ## Calls -/

/-- A buffer of the caller. -/
structure Buffer where
  bytes : List UInt8
  nonempty : bytes ≠ []
  size_lt : bytes.length < 2 ^ 64

/-- A call, with what `malloc` finds in the array for a string. -/
inductive Call where
  | insertHead (garbage : Nat → UInt8) (s : CString)
  | insertTail (garbage : Nat → UInt8) (s : CString)
  | removeHead (sp : Buffer)
  | reverse

/-- The string at the start of an array. -/
def stringAt (bytes : List UInt8) : List UInt8 := bytes.takeWhile (· ≠ 0)

/-- The queue after a call, and the string that a removal returns. -/
def Call.run (q : Queue) : Call → Option (Queue × Option (List UInt8))
  | insertHead garbage s => (q.qInsertHead garbage s.bytes).map fun q => (q, none)
  | insertTail garbage s => (q.qInsertTail garbage s.bytes).map fun q => (q, none)
  | removeHead sp => (q.qRemoveHead sp.bytes sp.bytes.length).map fun r =>
    (r.1, if r.2.2 then some (stringAt r.2.1) else none)
  | reverse => q.qReverse.map fun q => (q, none)

/-- A sequence of calls, with the answers in order. -/
def runCalls : Queue → List Call → Option (Queue × List (Option (List UInt8)))
  | q, [] => some (q, [])
  | q, c :: calls => do
    let r ← c.run q
    let later ← runCalls r.1 calls
    some (later.1, r.2 :: later.2)

/-! ## The list of strings -/

/-- A call on the list: cons, append, removal of the head, reversal. -/
def Call.spec (l : List CString) : Call → List CString × Option (List UInt8)
  | insertHead _ s => (s :: l, none)
  | insertTail _ s => (l ++ [s], none)
  | removeHead sp =>
    match l with
    | [] => ([], none)
    | s :: l => (l, some (s.chars.take (sp.bytes.length - 1)))
  | reverse => (l.reverse, none)

def specCalls : List CString → List Call → List CString × List (Option (List UInt8))
  | l, [] => (l, [])
  | l, c :: calls =>
    let r := c.spec l
    let later := specCalls r.1 calls
    (later.1, r.2 :: later.2)

end PittCs.QueueLab
