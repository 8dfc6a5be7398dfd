import Mathlib.Algebra.Group.Int.Defs
import Mathlib.Algebra.Group.Nat.Defs
import Mathlib.Tactic.Common

/-!
# The allocator of `mm.c`

An explicit free list over a heap of blocks with boundary tags. The memory is addressed
in bytes; every access of the allocator is to an aligned word of 8 bytes, so the memory
is the word stored at each address. Words and `size_t` values are naturals below 2^64,
and the arithmetic of `size_t` wraps. `NULL` is 0.

`struct block` has its header at offset 0, its payload at offset 8 and, in a free block,
the links `prev` at offset 8 and `next` at offset 16.
-/

namespace PittCs.MallocLab

/-- `dsize` -/
def dsize : Nat := 16

/-- `min_block_size` -/
def minBlockSize : Nat := 32

/-- `chunksize` -/
def chunksize : Nat := 4096

/-- `MAX_HEAP` -/
def maxHeap : Nat := 40 * 2 ^ 20

/-- `alloc_mask` -/
def allocMask : Nat := 1

/-- `size_mask`, the complement of 0xF in 64 bits. -/
def sizeMask : Nat := 2 ^ 64 - 16

/-- The value of a sum, difference or product of `size_t`. -/
def sizeT (x : Nat) : Nat := x % 2 ^ 64

/-- The memory with the simulated break of `memlib.c`, and the globals of `mm.c`. -/
structure Heap where
  mem : Nat → Nat
  memStartBrk : Nat
  memBrk : Nat
  memMaxAddr : Nat
  heapStart : Nat
  freeListHead : Nat

namespace Heap

/-- A word is stored. -/
def write (h : Heap) (a v : Nat) : Heap := { h with mem := Function.update h.mem a v }

/-- The byte at address `a`. -/
def byte (h : Heap) (a : Nat) : Nat := h.mem (a / 8 * 8) / 256 ^ (a % 8) % 256

/-- One byte of a word is replaced. -/
def writeByte (h : Heap) (a v : Nat) : Heap :=
  let w := h.mem (a / 8 * 8)
  h.write (a / 8 * 8)
    (w / 256 ^ (a % 8 + 1) * 256 ^ (a % 8 + 1) + v % 256 * 256 ^ (a % 8) + w % 256 ^ (a % 8))

end Heap

/-! ## Words -/

/-- `round_up` -/
def roundUp (size n : Nat) : Nat := sizeT (n * (sizeT (size + (n - 1)) / n))

/-- `pack` -/
def pack (size : Nat) (alloc : Bool) : Nat := if alloc then size ||| allocMask else size

/-- `extract_size` -/
def extractSize (word : Nat) : Nat := word &&& sizeMask

/-- `extract_alloc` -/
def extractAlloc (word : Nat) : Bool := word &&& allocMask != 0

/-- `payload_to_header` -/
def payloadToHeader (bp : Nat) : Nat := bp - 8

/-- `header_to_payload` -/
def headerToPayload (block : Nat) : Nat := block + 8

/-- `find_prev_footer` -/
def findPrevFooter (block : Nat) : Nat := block - 8

namespace Heap

/-- `get_size` -/
def getSize (h : Heap) (block : Nat) : Nat := extractSize (h.mem block)

/-- `get_alloc` -/
def getAlloc (h : Heap) (block : Nat) : Bool := extractAlloc (h.mem block)

/-- `is_free` -/
def isFree (h : Heap) (block : Nat) : Bool := !h.getAlloc block

/-- `block->payload.links.prev` -/
def prev (h : Heap) (block : Nat) : Nat := h.mem (block + 8)

/-- `block->payload.links.next` -/
def next (h : Heap) (block : Nat) : Nat := h.mem (block + 16)

def setPrev (h : Heap) (block v : Nat) : Heap := h.write (block + 8) v

def setNext (h : Heap) (block v : Nat) : Heap := h.write (block + 16) v

/-- `header_to_footer` -/
def headerToFooter (h : Heap) (block : Nat) : Nat := block + 8 + h.getSize block - dsize

/-- `write_header` -/
def writeHeader (h : Heap) (block size : Nat) (alloc : Bool) : Heap :=
  h.write block (pack size alloc)

/-- `write_footer`: the place of the footer is that of the size in the header. -/
def writeFooter (h : Heap) (block size : Nat) (alloc : Bool) : Heap :=
  h.write (h.headerToFooter block) (pack size alloc)

/-- `find_next` -/
def findNext (h : Heap) (block : Nat) : Nat := block + h.getSize block

/-- `find_prev`: before the first block there is only the footer of the prologue. -/
def findPrev (h : Heap) (block : Nat) : Nat :=
  let size := extractSize (h.mem (findPrevFooter block))
  if size = 0 then findPrevFooter block else block - size

/-- `mem_sbrk`: the start of the new area, or `none` when the heap is full. -/
def memSbrk (h : Heap) (incr : Nat) : Option (Heap × Nat) :=
  if h.memMaxAddr < h.memBrk + incr then none
  else some ({ h with memBrk := h.memBrk + incr }, h.memBrk)

/-! ## The free list -/

/-- `insert_block` -/
def insertBlock (h : Heap) (freeBlock : Nat) : Heap :=
  let h₁ :=
    if h.freeListHead = 0 then (h.setNext freeBlock 0).setPrev freeBlock 0
    else
      let oldRoot := h.freeListHead
      ((h.setNext freeBlock oldRoot).setPrev freeBlock 0).setPrev oldRoot freeBlock
  { h₁ with freeListHead := freeBlock }

/-- `remove_block` -/
def removeBlock (h : Heap) (freeBlock : Nat) : Heap :=
  if freeBlock = 0 then h
  else
    let previous := h.prev freeBlock
    let next := h.next freeBlock
    if previous = 0 ∧ next = 0 then { h with freeListHead := 0 }
    else if previous = 0 then { h with freeListHead := next }.setPrev next 0
    else if next = 0 then h.setNext previous 0
    else (h.setNext previous next).setPrev next previous

/-- The variables of the loop of `find_fit`. -/
structure Fit where
  first : Bool
  bestFit : Nat
  bestSize : Nat
deriving DecidableEq, Repr

/-- The two tests of the loop body for a block that is large enough and free. -/
def Fit.consider (f : Fit) (currBlock currSize : Nat) : Fit :=
  let f₁ := if f.first then ⟨false, currBlock, currSize⟩ else f
  if currSize < f₁.bestSize ∧ f₁.first = false then ⟨false, currBlock, currSize⟩ else f₁

/-- The loop of `find_fit`; `none` when the fuel does not last to the end of the list. -/
def findFitLoop (h : Heap) (asize : Nat) : Nat → Fit → Nat → Option Nat
  | 0, _, _ => none
  | fuel + 1, f, currBlock =>
    if currBlock = 0 then some f.bestFit
    else
      let currSize := h.getSize currBlock
      let f' := if asize ≤ currSize ∧ h.isFree currBlock then f.consider currBlock currSize else f
      findFitLoop h asize fuel f' (h.next currBlock)

/-- `find_fit`. The heap has fewer blocks than bytes. -/
def findFit (h : Heap) (asize : Nat) : Option Nat :=
  if h.freeListHead = 0 then some 0
  else h.findFitLoop asize (h.memBrk - h.memStartBrk) ⟨true, 0, 0⟩ h.freeListHead

/-! ## Blocks -/

/-- `coalesce_block` -/
def coalesceBlock (h : Heap) (block : Nat) : Heap × Nat :=
  let blockBefore := h.findPrev block
  let blockAfter := h.findNext block
  if h.isFree blockBefore && h.getAlloc blockAfter then
    let h₁ := h.removeBlock block
    let newSize := sizeT (h₁.getSize blockBefore + h₁.getSize block)
    ((h₁.writeHeader blockBefore newSize false).writeFooter blockBefore newSize false, blockBefore)
  else if h.getAlloc blockBefore && h.isFree blockAfter then
    let h₁ := h.removeBlock blockAfter
    let newSize := sizeT (h₁.getSize block + h₁.getSize blockAfter)
    ((h₁.writeHeader block newSize false).writeFooter block newSize false, block)
  else if h.isFree blockBefore && h.isFree blockAfter then
    let newSize :=
      sizeT (sizeT (h.getSize blockBefore + h.getSize block) + h.getSize blockAfter)
    let h₁ := (h.removeBlock block).removeBlock blockAfter
    ((h₁.writeHeader blockBefore newSize false).writeFooter blockBefore newSize false, blockBefore)
  else (h, block)

/-- `split_block` -/
def splitBlock (h : Heap) (block asize : Nat) : Heap :=
  let blockSize := h.getSize block
  let splitSize := sizeT (blockSize + (2 ^ 64 - asize))
  if minBlockSize ≤ splitSize then
    let h₁ := (h.writeHeader block asize true).writeFooter block asize true
    let nextBlock := h₁.findNext block
    let h₂ := (h₁.writeHeader nextBlock splitSize false).writeFooter nextBlock splitSize false
    h₂.insertBlock nextBlock
  else h

/-- `extend_heap`: `none` stands for `NULL`. -/
def extendHeap (h : Heap) (size : Nat) : Option (Heap × Nat) :=
  let size := roundUp size dsize
  let size := if size < minBlockSize then minBlockSize else size
  match h.memSbrk size with
  | none => none
  | some (h, bp) =>
    let newBlock := payloadToHeader bp
    let lastBlock := h.findPrev newBlock
    if h.getAlloc lastBlock = false then
      let lastSize := h.getSize lastBlock
      let h₁ := h.writeHeader lastBlock (sizeT (lastSize + size)) false
      let h₂ := h₁.writeFooter lastBlock (sizeT (lastSize + size)) false
      let epilogue := h₂.findNext lastBlock
      some (h₂.writeHeader epilogue 0 true, lastBlock)
    else
      let h₁ := (h.writeHeader newBlock size false).writeFooter newBlock size false
      let h₂ := h₁.insertBlock newBlock
      let epilogue := h₂.findNext newBlock
      some (h₂.writeHeader epilogue 0 true, newBlock)

/-! ## The interface -/

/-- `mm_init`: the heap and the value returned. -/
def mmInit (h : Heap) : Heap × Int :=
  let h := { h with freeListHead := 0 }
  match h.memSbrk 16 with
  | none => (h, -1)
  | some (h, start) =>
    let h₁ := (h.write start (pack 0 true)).write (start + 8) (pack 0 true)
    let h₂ := { h₁ with heapStart := start + 8 }
    match h₂.extendHeap chunksize with
    | none => (h₂, -1)
    | some (h₃, _) => (h₃, 0)

/-- The block size for a request. -/
def requestSize (size : Nat) : Nat :=
  if size ≤ dsize then minBlockSize else roundUp (sizeT (size + dsize)) dsize

/-- `mm_malloc` after a block is found. -/
def place (h : Heap) (allocBlock asize : Nat) : Heap × Nat :=
  let h₁ := h.removeBlock allocBlock
  let blockSize := h₁.getSize allocBlock
  let h₂ := (h₁.writeHeader allocBlock blockSize true).writeFooter allocBlock blockSize true
  (h₂.splitBlock allocBlock asize, headerToPayload allocBlock)

/-- `mm_malloc` with a bound on its recursion; `none` when it does not return in time. -/
def mmMallocLoop : Nat → Heap → Nat → Option (Heap × Nat)
  | 0, _, _ => none
  | fuel + 1, h, size =>
    if size = 0 then some (h, 0)
    else
      match h.findFit (requestSize size) with
      | none => none
      | some 0 =>
        match h.extendHeap chunksize with
        | none => some (h, 0)
        | some (h₁, _) => mmMallocLoop fuel h₁ size
      | some allocBlock => some (h.place allocBlock (requestSize size))

/-- `mm_malloc`. Each round of the recursion extends the heap. -/
def mmMalloc (h : Heap) (size : Nat) : Option (Heap × Nat) :=
  mmMallocLoop (h.memMaxAddr - h.memBrk + 1) h size

/-- `mm_free` -/
def mmFree (h : Heap) (bp : Nat) : Heap :=
  if bp = 0 then h
  else
    let toFree := payloadToHeader bp
    if h.getAlloc toFree = false then h
    else if h.getSize toFree = 0 then h
    else
      let h₁ := h.writeHeader toFree (h.getSize toFree) false
      let h₂ := h₁.writeFooter toFree (h₁.getSize toFree) false
      let h₃ := h₂.insertBlock toFree
      (h₃.coalesceBlock toFree).1

end Heap

end PittCs.MallocLab
