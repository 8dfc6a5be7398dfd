import Mathlib.Algebra.Group.Int.Defs
import Mathlib.Data.Finset.Sort

/-!
# The page cache of the paging simulator

`Cache.java`: a cache of `numFrames` pages with one of two replacement algorithms. The
access itself is the same for both, up to the page table it works on: `LruCache`, a
doubly linked list between two sentinels with a hash map into it, or `OptCache`, a hash
set with the future access times of every page.

The offset of a page in an address, which the constructor computes with a floating point
logarithm, is a field that may have any value.
-/

namespace PittCs.Cs1550

abbrev Long := BitVec 64

/-- `Long.MAX_VALUE`. -/
def Long.MAX_VALUE : Int := 2 ^ 63 - 1

inductive Exn where
  | nullPointer
  | noSuchElement
  | illegalArgument (message : String)
deriving DecidableEq

/-- A value that is used must not be `null`. -/
def nonNull {β : Type} : Option β → Except Exn β
  | some b => .ok b
  | none => .error .nullPointer

theorem nonNull_some_bind {β γ : Type} (b : β) (f : β → Except Exn γ) :
    (nonNull (some b) >>= f) = f b := rfl

/-! ## Node -/

structure Node where
  frame : Long
  next : Option Nat
  prev : Option Nat

/-! ## LruCache -/

/-- Nodes are numbered in the order of their creation; from `fresh` on there are none. -/
structure LruCache where
  node : Nat → Node
  fresh : Nat
  head : Nat
  tail : Nat
  table : Long → Option Nat
  length : Int

namespace LruCache

def init : LruCache where
  node := Function.update (Function.update (fun _ => ⟨0, none, none⟩) 0 ⟨0, some 1, none⟩)
    1 ⟨0, none, some 0⟩
  fresh := 2
  head := 0
  tail := 1
  table _ := none
  length := 0

/-- `new Node(frameNum)`. -/
def new (c : LruCache) (frameNum : Long) : LruCache :=
  { c with node := Function.update c.node c.fresh ⟨frameNum, none, none⟩, fresh := c.fresh + 1 }

def setNext (c : LruCache) (a : Nat) (b : Option Nat) : LruCache :=
  { c with node := Function.update c.node a { c.node a with next := b } }

def setPrev (c : LruCache) (a : Nat) (b : Option Nat) : LruCache :=
  { c with node := Function.update c.node a { c.node a with prev := b } }

/-- The node is put between the head and the node behind it. -/
def linkFront (c : LruCache) (a : Nat) : Except Exn LruCache := do
  let front ← nonNull (c.node c.head).next
  let c := c.setNext a (some front)
  let c := c.setPrev front (some a)
  let c := c.setPrev a (some c.head)
  return c.setNext c.head (some a)

def add (c : LruCache) (frameNum : Long) : Except Exn LruCache := do
  let nextNode := c.fresh
  let c ← (c.new frameNum).linkFront nextNode
  return { c with
    length := c.length + 1
    table := Function.update c.table (c.node nextNode).frame (some nextNode) }

def remove (c : LruCache) : Except Exn (Long × LruCache) := do
  let toRemove ← nonNull (c.node c.tail).prev
  if toRemove = c.head then throw .noSuchElement
  let prevNode ← nonNull (c.node toRemove).prev
  let c := c.setNext prevNode (some c.tail)
  let c := c.setPrev c.tail (some prevNode)
  let frame := (c.node toRemove).frame
  return (frame, { c with
    length := c.length - 1
    table := Function.update c.table frame none })

def updatePos (c : LruCache) (frameNum : Long) : Except Exn LruCache := do
  let toUpdate ← nonNull (c.table frameNum)
  let prevNode ← nonNull (c.node toUpdate).prev
  let nextNode ← nonNull (c.node toUpdate).next
  let c := c.setNext prevNode (some nextNode)
  let c := c.setPrev nextNode (some prevNode)
  c.linkFront toUpdate

/-- `containsKey`. -/
def contains (c : LruCache) (frameNum : Long) : Bool := (c.table frameNum).isSome

end LruCache

/-! ## OptCache -/

/-- The order in which an iterator visits a hash set. It is not specified and may be
another one at every access. -/
structure IterationOrder where
  order : Nat → Finset Long → List Long
  nodup (i : Nat) (s : Finset Long) : (order i s).Nodup
  mem (i : Nat) (s : Finset Long) (x : Long) : x ∈ order i s ↔ x ∈ s

/-- The pages in ascending order. -/
def IterationOrder.ascending : IterationOrder where
  order _ s := ((s.image BitVec.toNat).sort (· ≤ ·)).map (BitVec.ofNat 64)
  nodup _ s := by
    refine List.Nodup.map_on ?_ (Finset.sort_nodup _ _)
    intro a ha b hb hab
    rw [Finset.mem_sort, Finset.mem_image] at ha hb
    obtain ⟨x, -, rfl⟩ := ha
    obtain ⟨y, -, rfl⟩ := hb
    rw [BitVec.ofNat_toNat, BitVec.ofNat_toNat, BitVec.setWidth_eq, BitVec.setWidth_eq] at hab
    rw [hab]
  mem _ s x := by
    rw [List.mem_map]
    constructor
    · rintro ⟨a, ha, rfl⟩
      rw [Finset.mem_sort, Finset.mem_image] at ha
      obtain ⟨y, hy, rfl⟩ := ha
      rw [BitVec.ofNat_toNat, BitVec.setWidth_eq]
      exact hy
    · intro hx
      refine ⟨x.toNat, ?_, ?_⟩
      · rw [Finset.mem_sort]
        exact Finset.mem_image_of_mem _ hx
      · rw [BitVec.ofNat_toNat, BitVec.setWidth_eq]

structure OptCache where
  cacheState : Finset Long
  accessTimes : Long → Option (List Int)
  lastAccess : Long → Option Int

/-- The variables of the loop of `evict`. -/
structure Candidate where
  toEvict : Long
  highestNextUse : Int
  lowestLruTime : Int

namespace OptCache

def init : OptCache := ⟨∅, fun _ => none, fun _ => none⟩

def size (c : OptCache) : Int := c.cacheState.card

def contains (c : OptCache) (frame : Long) : Bool := decide (frame ∈ c.cacheState)

/-- The access is taken off the list of those to come. -/
def record (c : OptCache) (frame : Long) (currTime : Int) (times : List Int) : OptCache :=
  { c with
    accessTimes := Function.update c.accessTimes frame (some times)
    lastAccess := Function.update c.lastAccess frame (some currTime) }

def hit (c : OptCache) (frame : Long) : Except Exn OptCache := do
  match ← nonNull (c.accessTimes frame) with
  | [] => return c
  | currTime :: times => return c.record frame currTime times

def add (c : OptCache) (frame : Long) : Except Exn OptCache := do
  match ← nonNull (c.accessTimes frame) with
  | [] => return c
  | currTime :: times =>
    let c := c.record frame currTime times
    return { c with cacheState := insert frame c.cacheState }

/-- The body of the loop of `evict`. -/
def consider (c : OptCache) (best : Candidate) (currFrame : Long) : Except Exn Candidate := do
  let times ← nonNull (c.accessTimes currFrame)
  let nextUse := times.headD Long.MAX_VALUE
  if nextUse > best.highestNextUse then
    return ⟨currFrame, nextUse, ← nonNull (c.lastAccess currFrame)⟩
  else if nextUse = best.highestNextUse then
    let lruTime ← nonNull (c.lastAccess currFrame)
    if lruTime < best.lowestLruTime then
      return ⟨currFrame, nextUse, lruTime⟩
    else
      return best
  else
    return best

/-- The pages are visited in the order of `iter`. -/
def evict (c : OptCache) (iter : List Long) : Except Exn (Long × OptCache) := do
  let best ← iter.foldlM c.consider ⟨-1, -1, Long.MAX_VALUE⟩
  return (best.toEvict, { c with cacheState := c.cacheState.erase best.toEvict })

def initTable (c : OptCache) (time : Int) (frame : Long) : OptCache :=
  match c.accessTimes frame with
  | none => { c with
      accessTimes := Function.update c.accessTimes frame (some [time])
      lastAccess := Function.update c.lastAccess frame (some (Long.MAX_VALUE - 1)) }
  | some times => { c with
      accessTimes := Function.update c.accessTimes frame (some (times ++ [time])) }

end OptCache

/-! ## Cache -/

/-- What a cache does with its page table. `evict` is given the number of the access. -/
structure PageTable (σ : Type) where
  contains : σ → Long → Bool
  size : σ → Int
  hit : σ → Long → Except Exn σ
  add : σ → Long → Except Exn σ
  evict : Nat → σ → Except Exn (Long × σ)

/-- `dirty` is a hash map. -/
structure Cache (σ : Type) where
  numFrames : Int
  pageOffset : Nat
  memAccesses : Nat
  pageFaults : Nat
  diskWrites : Nat
  dirty : Long → Option Bool
  pages : σ

namespace Cache

variable {σ : Type}

def init (numFrames : Int) (pageOffset : Nat) (pages : σ) : Cache σ :=
  ⟨numFrames, pageOffset, 0, 0, 0, fun _ => none, pages⟩

/-- `addr >>> pageOffset`: only six bits of the distance count. -/
def frameOf (pageOffset : Nat) (addr : Long) : Long := addr >>> (pageOffset % 64)

/-- `lruAccess` and `optAccess`. -/
def access (T : PageTable σ) (instType : String) (frame : Long) (c : Cache σ) :
    Except Exn (Cache σ) := do
  if T.contains c.pages frame then
    let dirty := if instType = "s" then Function.update c.dirty frame (some true) else c.dirty
    return { c with dirty := dirty, pages := ← T.hit c.pages frame }
  else if T.size c.pages < c.numFrames then
    return { c with
      pages := ← T.add c.pages frame
      dirty := Function.update c.dirty frame (some (decide (instType ≠ "l")))
      pageFaults := c.pageFaults + 1 }
  else
    let (evicted, pages) ← T.evict c.memAccesses c.pages
    let modified ← nonNull (c.dirty evicted)
    let dirty := Function.update c.dirty evicted none
    return { c with
      pages := ← T.add pages frame
      dirty := Function.update dirty frame (some (decide (instType ≠ "l")))
      pageFaults := c.pageFaults + 1
      diskWrites := if modified then c.diskWrites + 1 else c.diskWrites }

def memAccess (T : PageTable σ) (instType : String) (addr : Long) (c : Cache σ) :
    Except Exn (Cache σ) := do
  if instType ≠ "l" ∧ instType ≠ "s" then throw (.illegalArgument "Invalid access type.")
  let c ← access T instType (frameOf c.pageOffset addr) c
  return { c with memAccesses := c.memAccesses + 1 }

end Cache

/-- `new Cache("lru", ..)`. -/
def lruTable : PageTable LruCache where
  contains := LruCache.contains
  size c := c.length
  hit := LruCache.updatePos
  add := LruCache.add
  evict _ := LruCache.remove

/-- `new Cache("opt", ..)`. -/
def optTable (O : IterationOrder) : PageTable OptCache where
  contains := OptCache.contains
  size := OptCache.size
  hit := OptCache.hit
  add := OptCache.add
  evict i c := c.evict (O.order i c.cacheState)

def initAccessTime (time : Int) (addr : Long) (c : Cache OptCache) : Cache OptCache :=
  { c with pages := c.pages.initTable time (Cache.frameOf c.pageOffset addr) }

/-! ## Traces -/

inductive Inst where
  | load
  | store
deriving DecidableEq

/-- The letter of the trace file. -/
def Inst.letter : Inst → String
  | .load => "l"
  | .store => "s"

abbrev Trace := List (Inst × Long)

/-- The accesses of a trace, one after the other. -/
def run {σ : Type} (T : PageTable σ) (c : Cache σ) (trace : Trace) : Except Exn (Cache σ) :=
  trace.foldlM (fun c a => Cache.memAccess T a.1.letter a.2 c) c

/-- The pages that a trace accesses. -/
def pagesOf (pageOffset : Nat) (trace : Trace) : List Long :=
  trace.map fun a => Cache.frameOf pageOffset a.2

end PittCs.Cs1550
