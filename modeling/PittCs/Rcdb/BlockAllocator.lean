import Mathlib.Data.List.Chain
import PittCs.Lib.Layout
import PittCs.Rcdb.Disk

/-!
# The block allocator

`BlockAllocator.cpp`. The records of one country of origin lie in one block of
consecutive slots; the blocks, used and free, tile the column files from offset
0. The doubly linked list of headers is a list of nodes here, and a `Node *` is
the address of a node: `malloc` hands out a new address each time.

`block_insert` asks `FileManager` to copy the records of a block it moves. The
copy reads and writes the column files only, so the model returns the request
(`Relocation`) and the table carries it out.
-/

namespace PittCs.Rcdb

open Std PittCs.Lib List

/-- `struct Node`; the links are the order of the list. -/
structure Node where
  addr : Nat
  key : CountryOfOrigin
deriving DecidableEq

namespace Node

def size (n : Node) : Nat := n.key.blockSize

@[simp] theorem size_mk (addr : Nat) (key : CountryOfOrigin) :
    (⟨addr, key⟩ : Node).size = key.blockSize := rfl

end Node

/-- `struct alloc_info`. -/
structure AllocInfo where
  offset : Nat
  loc : Nat
deriving DecidableEq

/-- The records of a block that moves: `count` records from `oldOffset` on. -/
structure Relocation where
  oldOffset : Nat
  newOffset : Nat
  count : Nat
deriving DecidableEq

/-- `class BlockAllocator`: the list from head to tail, its length, the map from
block names to blocks, and the next address `malloc` returns. -/
structure BlockAllocator where
  nodes : List Node
  len : Nat
  blockMap : TreeMap Str AllocInfo
  fresh : Nat

namespace BlockAllocator

/-- `BlockAllocator::BlockAllocator`. -/
def init : BlockAllocator := ⟨[], 0, ∅, 0⟩

/-- `BlockAllocator::is_free`. -/
def isFree (h : CountryOfOrigin) : Bool := h.val.text.length = 0 ∧ h.recordCount = -1

/-- `BlockAllocator::make_header`. -/
def makeHeader (blockId : Str) (totalLines : Nat) (usedLines : Int) : CountryOfOrigin :=
  ⟨strncpy8 blockId, totalLines, usedLines⟩

def emptyName : Str := Str.ofBytes []

/-! ## The linked list -/

/-- `*loc`. -/
def node? (a : BlockAllocator) (loc : Nat) : Option Node := a.nodes.find? fun n => n.addr = loc

/-- `loc->next` in a list of nodes. -/
def nextIn (loc : Nat) : List Node → Option Node
  | [] => none
  | n :: rest => if n.addr = loc then rest.head? else nextIn loc rest

/-- `loc->prev` in a list of nodes, with the node before the list. -/
def prevIn (loc : Nat) : Option Node → List Node → Option Node
  | _, [] => none
  | before, n :: rest => if n.addr = loc then before else prevIn loc (some n) rest

/-- Link a node in behind `loc`. -/
def insertBehind (loc : Nat) (next : Node) : List Node → List Node
  | [] => []
  | n :: rest => if n.addr = loc then n :: next :: rest else n :: insertBehind loc next rest

/-- `loc->key = f(loc->key)`. -/
def setKey (a : BlockAllocator) (loc : Nat) (f : CountryOfOrigin → CountryOfOrigin) :
    BlockAllocator :=
  { a with nodes := a.nodes.map fun n => if n.addr = loc then { n with key := f n.key } else n }

/-- `BlockAllocator::delete_node`. -/
def deleteNode (a : BlockAllocator) (loc : Nat) : BlockAllocator :=
  { a with nodes := a.nodes.filter fun n => n.addr ≠ loc, len := a.len - 1 }

/-- `BlockAllocator::insert_tail`, with the new node's address. -/
def insertTail (a : BlockAllocator) (key : CountryOfOrigin) : BlockAllocator × Nat :=
  ({ a with nodes := a.nodes ++ [⟨a.fresh, key⟩], len := a.len + 1, fresh := a.fresh + 1 }, a.fresh)

/-- `BlockAllocator::insert_after`. -/
def insertAfter (a : BlockAllocator) (before : Nat) (key : CountryOfOrigin) : BlockAllocator :=
  { a with
    nodes := insertBehind before ⟨a.fresh, key⟩ a.nodes
    len := a.len + 1
    fresh := a.fresh + 1 }

/-! ## Allocation -/

/-- The scan of `get_min_free_block`: the running offset and the smallest free
block of at least `size` lines so far. -/
def getMinFreeBlockLoop (size : Nat) :
    List Node → Nat → Option (Nat × Node) → Nat × Option (Nat × Node)
  | [], offset, best => (offset, best)
  | n :: rest, offset, best =>
    let best' :=
      if isFree n.key ∧ n.size ≥ size then
        match best with
        | none => some (offset, n)
        | some (o, m) => if m.size > n.size then some (offset, n) else some (o, m)
      else best
    getMinFreeBlockLoop size rest (offset + n.size) best'

/-- `BlockAllocator::get_min_free_block`: the end of the last block, and the
block found with its offset. -/
def getMinFreeBlock (a : BlockAllocator) (size : Nat) : Nat × Option (Nat × Node) :=
  getMinFreeBlockLoop size a.nodes 0 none

/-- `BlockAllocator::free_block`. -/
def freeBlock (a : BlockAllocator) (toFree : Nat) : BlockAllocator :=
  let a := a.setKey toFree fun k => makeHeader emptyName k.blockSize (-1)
  let a :=
    match nextIn toFree a.nodes with
    | some next =>
      if isFree next.key then
        (a.setKey toFree fun k => { k with blockSize := k.blockSize + next.size }).deleteNode
          next.addr
      else a
    | none => a
  match prevIn toFree none a.nodes, a.node? toFree with
  | some prev, some node =>
    if isFree prev.key then
      (a.setKey prev.addr fun k => { k with blockSize := k.blockSize + node.size }).deleteNode toFree
    else a
  | _, _ => a

/-- Give `lines` lines of the free block at `loc` to a block: what is left over
becomes a free block behind it. -/
def takeFree (a : BlockAllocator) (found : Node) (lines : Nat) (header : CountryOfOrigin) :
    BlockAllocator :=
  let a :=
    if found.size ≥ lines + MIN_BLOCK_SIZE then
      (a.setKey found.addr fun k => { k with blockSize := lines }).insertAfter found.addr
        (makeHeader emptyName (found.size - lines) (-1))
    else a
  a.setKey found.addr fun _ => header

/-- `block_insert`, case 1: no block of this name yet. -/
def allocateBlock (a : BlockAllocator) (blockId : Str) : BlockAllocator × Nat :=
  let header := makeHeader blockId MIN_BLOCK_SIZE 1
  match a.getMinFreeBlock MIN_BLOCK_SIZE with
  | (totalOffset, none) =>
    let (a, node) := a.insertTail header
    ({ a with blockMap := a.blockMap.insert blockId ⟨totalOffset, node⟩ }, totalOffset)
  | (_, some (offset, found)) =>
    let a := a.takeFree found MIN_BLOCK_SIZE header
    ({ a with blockMap := a.blockMap.insert blockId ⟨offset, found.addr⟩ }, offset)

/-- `block_insert`, the last part of case 3: move a full block to a free block of
twice its size, or to the end. -/
def relocateBlock (a : BlockAllocator) (blockId : Str) (curr : AllocInfo) (node : Node) :
    BlockAllocator × Nat × Relocation :=
  let oldSize := node.size
  let oldCount := node.key.recordCount
  let header := makeHeader blockId (2 * oldSize) (oldCount + 1)
  match a.getMinFreeBlock (2 * oldSize) with
  | (totalOffset, none) =>
    let (a, loc) := (a.freeBlock curr.loc).insertTail header
    ({ a with blockMap := a.blockMap.insert blockId ⟨totalOffset, loc⟩ },
      totalOffset + oldCount.toNat, ⟨curr.offset, totalOffset, oldCount.toNat⟩)
  | (_, some (offset, found)) =>
    let a := a.takeFree found (2 * oldSize) header
    let a := { a with blockMap := a.blockMap.insert blockId ⟨offset, found.addr⟩ }
    (a.freeBlock curr.loc, offset + oldCount.toNat, ⟨curr.offset, offset, oldCount.toNat⟩)

/-- One more record in the block at `loc`, whose size becomes `lines`. -/
def addRecord (a : BlockAllocator) (loc lines : Nat) : BlockAllocator :=
  a.setKey loc fun k => { k with blockSize := lines, recordCount := k.recordCount + 1 }

/-- `BlockAllocator::block_insert`: the slot for the new record, and the records
to copy when the block moved. -/
def blockInsert (a : BlockAllocator) (blockId : Str) :
    Except Err (BlockAllocator × Nat × Option Relocation) := do
  if blockId.length ≤ 0 ∨ blockId.length > 8 then
    throw (.invalidArgument "block id must be between 1 and 8 characters long")
  match a.blockMap[blockId]? with
  | none =>
    let (a', offset) := a.allocateBlock blockId
    return (a', offset, none)
  | some curr =>
    match a.node? curr.loc with
    | none => throw (.undefinedBehaviour "block_map points to a deleted node")
    | some node =>
      let offset := curr.offset + node.key.recordCount.toNat
      if (node.size : Int) ≤ node.key.recordCount then
        match nextIn curr.loc a.nodes with
        | some next =>
          if isFree next.key then
            if next.size ≥ 2 * MIN_BLOCK_SIZE then
              -- take MIN_BLOCK_SIZE lines from the next block
              let a' := a.setKey next.addr fun k =>
                { k with blockSize := k.blockSize - MIN_BLOCK_SIZE }
              return (a'.addRecord curr.loc (node.size + MIN_BLOCK_SIZE), offset, none)
            else
              -- swallow the next block
              let a' := (a.addRecord curr.loc (node.size + next.size)).deleteNode next.addr
              return (a', offset, none)
          else
            let (a', slot, move) := a.relocateBlock blockId curr node
            return (a', slot, some move)
        | none =>
          -- last block of the file
          return (a.addRecord curr.loc (node.size + MIN_BLOCK_SIZE), offset, none)
      else
        return (a.addRecord curr.loc node.size, offset, none)

/-! ## The list at a node

`pre ++ n :: post` is the list around a node; the addresses of the others differ. -/

section Split

variable {pre post : List Node} {n : Node}

theorem find?_split (hpre : ∀ x ∈ pre, x.addr ≠ n.addr) :
    (pre ++ n :: post).find? (fun x => x.addr = n.addr) = some n := by
  rw [find?_append]
  have hnone : pre.find? (fun x => x.addr = n.addr) = none := by
    simpa using hpre
  rw [hnone]
  simp

theorem map_split (f : CountryOfOrigin → CountryOfOrigin) (hpre : ∀ x ∈ pre, x.addr ≠ n.addr)
    (hpost : ∀ x ∈ post, x.addr ≠ n.addr) :
    (pre ++ n :: post).map (fun x => if x.addr = n.addr then { x with key := f x.key } else x) =
      pre ++ { n with key := f n.key } :: post := by
  have hid : ∀ l : List Node, (∀ x ∈ l, x.addr ≠ n.addr) →
      l.map (fun x => if x.addr = n.addr then { x with key := f x.key } else x) = l := by
    intro l hl
    refine (map_congr_left fun x hx => ?_).trans (map_id l)
    simp [hl x hx]
  rw [map_append, map_cons, hid pre hpre, hid post hpost, if_pos rfl]

theorem filter_split (hpre : ∀ x ∈ pre, x.addr ≠ n.addr) (hpost : ∀ x ∈ post, x.addr ≠ n.addr) :
    (pre ++ n :: post).filter (fun x => x.addr ≠ n.addr) = pre ++ post := by
  rw [filter_append, filter_cons_of_neg (by simp)]
  rw [filter_eq_self.mpr (by simpa using hpre), filter_eq_self.mpr (by simpa using hpost)]

theorem nextIn_split (hpre : ∀ x ∈ pre, x.addr ≠ n.addr) :
    nextIn n.addr (pre ++ n :: post) = post.head? := by
  induction pre with
  | nil => simp [nextIn]
  | cons x pre ih =>
    have hx : x.addr ≠ n.addr := hpre x (by simp)
    simp only [cons_append, nextIn, hx, if_false]
    exact ih fun y hy => hpre y (by simp [hy])

theorem prevIn_split (hpre : ∀ x ∈ pre, x.addr ≠ n.addr) (before : Option Node) :
    prevIn n.addr before (pre ++ n :: post) = pre.getLast?.or before := by
  induction pre generalizing before with
  | nil => simp [prevIn]
  | cons x pre ih =>
    have hx : x.addr ≠ n.addr := hpre x (by simp)
    simp only [cons_append, prevIn, hx, if_false]
    rw [ih fun y hy => hpre y (by simp [hy])]
    cases pre with
    | nil => rfl
    | cons y pre =>
      rcases hl : (y :: pre).getLast? with _ | z
      · simp at hl
      · simp [getLast?_cons_cons, hl]

theorem insertBehind_split (next : Node) (hpre : ∀ x ∈ pre, x.addr ≠ n.addr) :
    insertBehind n.addr next (pre ++ n :: post) = pre ++ n :: next :: post := by
  induction pre with
  | nil => simp [insertBehind]
  | cons x pre ih =>
    have hx : x.addr ≠ n.addr := hpre x (by simp)
    simp only [cons_append, insertBehind, hx, if_false]
    rw [ih fun y hy => hpre y (by simp [hy])]

/-- Distinct addresses: no other node has the address of `n`. -/
theorem ne_addr_of_nodup (h : ((pre ++ n :: post).map Node.addr).Nodup) :
    (∀ x ∈ pre, x.addr ≠ n.addr) ∧ ∀ x ∈ post, x.addr ≠ n.addr := by
  rw [map_append, map_cons, nodup_append, nodup_cons] at h
  constructor
  · intro x hx
    exact h.2.2 _ (mem_map_of_mem hx) _ (mem_cons_self ..)
  · intro x hx he
    exact h.2.1.1 (he ▸ mem_map_of_mem hx)

end Split

/-! ## Used blocks and the tiling invariant -/

/-- The used blocks with their offsets, the first block at `off`. -/
def usedFrom (off : Nat) (nodes : List Node) : List (Nat × Node) :=
  (layout Node.size off nodes).filter fun e => !isFree e.2.key

@[simp] theorem usedFrom_nil (off : Nat) : usedFrom off [] = [] := rfl

theorem usedFrom_append (off : Nat) (l l' : List Node) :
    usedFrom off (l ++ l') = usedFrom off l ++ usedFrom (off + total Node.size l) l' := by
  simp [usedFrom, layout_append]

theorem usedFrom_cons_free {off : Nat} {n : Node} {l : List Node} (h : isFree n.key = true) :
    usedFrom off (n :: l) = usedFrom (off + n.size) l := by
  simp [usedFrom, h]

theorem usedFrom_cons_used {off : Nat} {n : Node} {l : List Node} (h : isFree n.key = false) :
    usedFrom off (n :: l) = (off, n) :: usedFrom (off + n.size) l := by
  simp [usedFrom, h]

theorem mem_usedFrom {off : Nat} {l : List Node} {e : Nat × Node} :
    e ∈ usedFrom off l ↔ e ∈ layout Node.size off l ∧ isFree e.2.key = false := by
  simp [usedFrom]

/-- The header carries the block name `id`. -/
def Named (k : CountryOfOrigin) (id : Str) : Prop :=
  0 < id.length ∧ id.length ≤ 8 ∧ k.val = strncpy8 id

theorem Named.text {k : CountryOfOrigin} {id : Str} (h : Named k id) : k.val.text = id := by
  rw [h.2.2, text_strncpy8 h.2.1]

theorem Named.unique {k : CountryOfOrigin} {id id' : Str} (h : Named k id) (h' : Named k id') :
    id = id' := by
  rw [← h.text, ← h'.text]

theorem Named.not_free {k : CountryOfOrigin} {id : Str} (h : Named k id) : isFree k = false := by
  have hpos := h.1
  have hlen : k.val.text.length ≠ 0 := by
    rw [h.text]
    omega
  simp [isFree, hlen]

theorem isFree_makeHeader_empty (lines : Nat) : isFree (makeHeader emptyName lines (-1)) = true := by
  have hempty : (strncpy8 emptyName).text.length = 0 := by decide
  simp [isFree, makeHeader, hempty]

/-- A used header: a name, and between one record and as many as it has lines. -/
def UsedKey (k : CountryOfOrigin) : Prop :=
  (∃ id, Named k id) ∧ 0 < k.recordCount ∧ k.recordCount ≤ k.blockSize

/-- Every block is a positive multiple of `MIN_BLOCK_SIZE`, free or well used. -/
def GoodNode (n : Node) : Prop :=
  0 < n.size ∧ MIN_BLOCK_SIZE ∣ n.size ∧ (isFree n.key = true ∨ UsedKey n.key)

/-- Two neighbours are not both free. -/
def Apart (x y : Node) : Prop := ¬ (isFree x.key = true ∧ isFree y.key = true)

theorem apart_of_used_left {x y : Node} (h : isFree x.key = false) : Apart x y := by
  simp [Apart, h]

theorem apart_of_used_right {x y : Node} (h : isFree y.key = false) : Apart x y := by
  simp [Apart, h]

/-- The list of headers is in order. -/
structure Tiled (nodes : List Node) (fresh : Nat) : Prop where
  nodup : (nodes.map Node.addr).Nodup
  lt_fresh : ∀ n ∈ nodes, n.addr < fresh
  good : ∀ n ∈ nodes, GoodNode n
  apart : nodes.IsChain Apart

theorem tiled_nil (fresh : Nat) : Tiled [] fresh :=
  ⟨nodup_nil, by simp, by simp, .nil⟩

section Tiling

variable {pre post : List Node} {n n' : Node} {fresh : Nat}

/-- Replace a node by a good one at the same address. -/
theorem Tiled.replace (h : Tiled (pre ++ n :: post) fresh) (haddr : n'.addr = n.addr)
    (hgood : GoodNode n') (hleft : ∀ x ∈ pre.getLast?, Apart x n')
    (hright : ∀ y ∈ post.head?, Apart n' y) : Tiled (pre ++ n' :: post) fresh where
  nodup := by
    have := h.nodup
    simpa [haddr] using this
  lt_fresh := by
    intro x hx
    rcases mem_append.mp hx with hx | hx
    · exact h.lt_fresh x (by simp [hx])
    · rcases mem_cons.mp hx with rfl | hx
      · exact haddr ▸ h.lt_fresh n (by simp)
      · exact h.lt_fresh x (by simp [hx])
  good := by
    intro x hx
    rcases mem_append.mp hx with hx | hx
    · exact h.good x (by simp [hx])
    · rcases mem_cons.mp hx with rfl | hx
      · exact hgood
      · exact h.good x (by simp [hx])
  apart := by
    have hch := h.apart
    rw [isChain_append, isChain_cons] at hch ⊢
    refine ⟨hch.1, ⟨hright, hch.2.1.2⟩, fun x hx y hy => ?_⟩
    rw [head?_cons, Option.mem_some_iff] at hy
    exact hy ▸ hleft x hx

/-- A used node may stand anywhere. -/
theorem Tiled.replace_used (h : Tiled (pre ++ n :: post) fresh) (haddr : n'.addr = n.addr)
    (hgood : GoodNode n') (hused : isFree n'.key = false) : Tiled (pre ++ n' :: post) fresh :=
  h.replace haddr hgood (fun _ _ => apart_of_used_right hused) fun _ _ => apart_of_used_left hused

/-- A free node has used neighbours. -/
theorem Tiled.used_neighbours (h : Tiled (pre ++ n :: post) fresh) (hn : isFree n.key = true) :
    (∀ x ∈ pre.getLast?, isFree x.key = false) ∧ ∀ y ∈ post.head?, isFree y.key = false := by
  have hch := h.apart
  rw [isChain_append, isChain_cons] at hch
  constructor
  · intro x hx
    have hap := hch.2.2 x hx n (by simp)
    simpa [Apart, hn] using hap
  · intro y hy
    have hap := hch.2.1.1 y hy
    simpa [Apart, hn] using hap

/-- Drop a node whose neighbours may then touch. -/
theorem Tiled.remove (h : Tiled (pre ++ n :: post) fresh)
    (hap : ∀ x ∈ pre.getLast?, ∀ y ∈ post.head?, Apart x y) : Tiled (pre ++ post) fresh where
  nodup := by
    have := h.nodup
    rw [map_append, map_cons, nodup_append, nodup_cons] at this
    rw [map_append, nodup_append]
    exact ⟨this.1, this.2.1.2, fun a ha b hb => this.2.2 a ha b (mem_cons_of_mem _ hb)⟩
  lt_fresh := fun x hx => h.lt_fresh x (by
    rcases mem_append.mp hx with hx | hx <;> simp [hx])
  good := fun x hx => h.good x (by
    rcases mem_append.mp hx with hx | hx <;> simp [hx])
  apart := by
    have hch := h.apart
    rw [isChain_append, isChain_cons] at hch
    exact isChain_append.mpr ⟨hch.1, hch.2.1.2, hap⟩

/-- Append a used node with a new address. -/
theorem Tiled.append (h : Tiled pre fresh) (haddr : n.addr = fresh) (hgood : GoodNode n)
    (hused : isFree n.key = false) : Tiled (pre ++ [n]) (fresh + 1) where
  nodup := by
    rw [map_append, nodup_append]
    refine ⟨h.nodup, by simp, fun a ha b hb => ?_⟩
    rcases mem_map.mp ha with ⟨x, hx, rfl⟩
    have hb' : b = n.addr := by simpa using hb
    have := h.lt_fresh x hx
    omega
  lt_fresh := by
    intro x hx
    rcases mem_append.mp hx with hx | hx
    · have := h.lt_fresh x hx
      omega
    · have hx' : x = n := by simpa using hx
      subst hx'
      omega
  good := by
    intro x hx
    rcases mem_append.mp hx with hx | hx
    · exact h.good x hx
    · have hx' : x = n := by simpa using hx
      exact hx' ▸ hgood
  apart := by
    refine isChain_append.mpr ⟨h.apart, .singleton n, fun x _ y hy => ?_⟩
    rw [head?_cons, Option.mem_some_iff] at hy
    exact apart_of_used_right (hy ▸ hused)

/-- Put a free node with a new address behind a used one; what follows is not free. -/
theorem Tiled.insertFree (h : Tiled (pre ++ n :: post) fresh) (hn : isFree n.key = false)
    (haddr : n'.addr = fresh) (hgood : GoodNode n')
    (hpost : ∀ y ∈ post.head?, isFree y.key = false) :
    Tiled (pre ++ n :: n' :: post) (fresh + 1) where
  nodup := by
    have hnot : n'.addr ∉ (pre ++ n :: post).map Node.addr := by
      intro hmem
      rcases mem_map.mp hmem with ⟨x, hx, hxa⟩
      have := h.lt_fresh x hx
      omega
    have hperm : ((pre ++ n :: n' :: post).map Node.addr).Perm
        (n'.addr :: (pre ++ n :: post).map Node.addr) := by
      have hp : (pre ++ n :: n' :: post).Perm (n' :: (pre ++ n :: post)) :=
        ((List.Perm.swap n' n post).append_left pre).trans perm_middle
      exact hp.map Node.addr
    exact hperm.nodup_iff.mpr (nodup_cons.mpr ⟨hnot, h.nodup⟩)
  lt_fresh := by
    intro x hx
    have hx' : x ∈ pre ++ n :: post ∨ x = n' := by
      simp only [mem_append, mem_cons] at hx ⊢
      tauto
    rcases hx' with hx' | rfl
    · have := h.lt_fresh x hx'
      omega
    · omega
  good := by
    intro x hx
    have hx' : x ∈ pre ++ n :: post ∨ x = n' := by
      simp only [mem_append, mem_cons] at hx ⊢
      tauto
    rcases hx' with hx' | rfl
    · exact h.good x hx'
    · exact hgood
  apart := by
    have hch := h.apart
    rw [isChain_append, isChain_cons] at hch
    refine isChain_append.mpr ⟨hch.1, ?_, fun x hx y hy => ?_⟩
    · refine isChain_cons.mpr ⟨fun _ _ => apart_of_used_left hn, ?_⟩
      exact isChain_cons.mpr ⟨fun y hy => apart_of_used_right (hpost y hy), hch.2.1.2⟩
    · rw [head?_cons, Option.mem_some_iff] at hy
      exact apart_of_used_right (hy ▸ hn)

end Tiling

/-! ## Freeing a block -/

/-- The header of a free block of `lines` lines. -/
def freeKey (lines : Nat) : CountryOfOrigin := makeHeader emptyName lines (-1)

@[simp] theorem freeKey_blockSize (lines : Nat) : (freeKey lines).blockSize = lines := rfl

theorem isFree_freeKey (lines : Nat) : isFree (freeKey lines) = true :=
  isFree_makeHeader_empty lines

/-- The header with `lines` more lines. -/
def growKey (k : CountryOfOrigin) (lines : Nat) : CountryOfOrigin :=
  { k with blockSize := k.blockSize + lines }

@[simp] theorem growKey_blockSize (k : CountryOfOrigin) (lines : Nat) :
    (growKey k lines).blockSize = k.blockSize + lines := rfl

theorem growKey_freeKey (m lines : Nat) : growKey (freeKey m) lines = freeKey (m + lines) := rfl

theorem goodNode_freeKey {addr lines : Nat} (hpos : 0 < lines) (hdvd : MIN_BLOCK_SIZE ∣ lines) :
    GoodNode ⟨addr, freeKey lines⟩ :=
  ⟨hpos, hdvd, .inl (isFree_freeKey lines)⟩

section Update

variable {a : BlockAllocator} {pre post : List Node} {n : Node}

theorem nodes_setKey (hs : a.nodes = pre ++ n :: post) (hnd : (a.nodes.map Node.addr).Nodup)
    (f : CountryOfOrigin → CountryOfOrigin) :
    (a.setKey n.addr f).nodes = pre ++ ⟨n.addr, f n.key⟩ :: post := by
  rw [hs] at hnd
  rcases ne_addr_of_nodup hnd with ⟨hpre, hpost⟩
  show a.nodes.map _ = _
  rw [hs, map_split f hpre hpost]

theorem nodes_deleteNode (hs : a.nodes = pre ++ n :: post)
    (hnd : (a.nodes.map Node.addr).Nodup) : (a.deleteNode n.addr).nodes = pre ++ post := by
  rw [hs] at hnd
  rcases ne_addr_of_nodup hnd with ⟨hpre, hpost⟩
  show a.nodes.filter _ = _
  rw [hs, filter_split hpre hpost]

theorem node?_split (hs : a.nodes = pre ++ n :: post) (hnd : (a.nodes.map Node.addr).Nodup) :
    a.node? n.addr = some n := by
  rw [hs] at hnd
  rw [node?, hs]
  exact find?_split (ne_addr_of_nodup hnd).1

theorem nodup_setKey (hnd : (a.nodes.map Node.addr).Nodup) (loc : Nat)
    (f : CountryOfOrigin → CountryOfOrigin) : ((a.setKey loc f).nodes.map Node.addr).Nodup := by
  have haddr : (a.setKey loc f).nodes.map Node.addr = a.nodes.map Node.addr := by
    simp only [setKey, List.map_map]
    apply map_congr_left
    intro x _
    by_cases hx : x.addr = loc <;> simp [hx]
  rw [haddr]
  exact hnd

end Update

@[simp] theorem setKey_fresh (a : BlockAllocator) (loc : Nat)
    (f : CountryOfOrigin → CountryOfOrigin) : (a.setKey loc f).fresh = a.fresh := rfl

@[simp] theorem setKey_len (a : BlockAllocator) (loc : Nat)
    (f : CountryOfOrigin → CountryOfOrigin) : (a.setKey loc f).len = a.len := rfl

@[simp] theorem setKey_length (a : BlockAllocator) (loc : Nat)
    (f : CountryOfOrigin → CountryOfOrigin) : (a.setKey loc f).nodes.length = a.nodes.length := by
  simp [setKey]

@[simp] theorem deleteNode_len (a : BlockAllocator) (loc : Nat) :
    (a.deleteNode loc).len = a.len - 1 := rfl

/-- First half of `free_block`: mark the node free and swallow a free successor. -/
def freeAhead (a : BlockAllocator) (toFree : Nat) : BlockAllocator :=
  let a := a.setKey toFree fun k => freeKey k.blockSize
  match nextIn toFree a.nodes with
  | some next =>
    if isFree next.key then
      (a.setKey toFree fun k => growKey k next.size).deleteNode next.addr
    else a
  | none => a

/-- Second half of `free_block`: let a free predecessor swallow the node. -/
def freeBehind (a : BlockAllocator) (toFree : Nat) : BlockAllocator :=
  match prevIn toFree none a.nodes, a.node? toFree with
  | some prev, some node =>
    if isFree prev.key then
      (a.setKey prev.addr fun k => growKey k node.size).deleteNode toFree
    else a
  | _, _ => a

theorem freeBlock_eq (a : BlockAllocator) (toFree : Nat) :
    a.freeBlock toFree = (a.freeAhead toFree).freeBehind toFree := rfl

/-- After the first half the node is free, its successor is used, and the blocks
from it on hold the same used blocks at the same offsets. -/
theorem freeAhead_spec {a : BlockAllocator} {pre post : List Node} {n : Node}
    (h : Tiled a.nodes a.fresh) (hs : a.nodes = pre ++ n :: post)
    (hn : isFree n.key = false) (hlen : a.len = a.nodes.length) :
    ∃ lines post', (a.freeAhead n.addr).nodes = pre ++ ⟨n.addr, freeKey lines⟩ :: post' ∧
      Tiled (pre ++ n :: post') a.fresh ∧ 0 < lines ∧ MIN_BLOCK_SIZE ∣ lines ∧
      (∀ y ∈ post'.head?, isFree y.key = false) ∧
      lines + total Node.size post' = n.size + total Node.size post ∧
      (∀ off, usedFrom (off + lines) post' = usedFrom (off + n.size) post) ∧
      (a.freeAhead n.addr).blockMap = a.blockMap ∧ (a.freeAhead n.addr).fresh = a.fresh ∧
      (a.freeAhead n.addr).len = (a.freeAhead n.addr).nodes.length := by
  have hgoodn := h.good n (by simp [hs])
  have hset := nodes_setKey hs h.nodup fun k => freeKey k.blockSize
  have hnd := nodup_setKey h.nodup n.addr fun k => freeKey k.blockSize
  have hlen' : (a.setKey n.addr fun k => freeKey k.blockSize).len =
      (a.setKey n.addr fun k => freeKey k.blockSize).nodes.length := by
    rw [setKey_len, setKey_length, hlen]
  have hmap : (a.setKey n.addr fun k => freeKey k.blockSize).blockMap = a.blockMap := rfl
  have hfresh : (a.setKey n.addr fun k => freeKey k.blockSize).fresh = a.fresh := rfl
  unfold freeAhead
  generalize (a.setKey n.addr fun k => freeKey k.blockSize) = a₁ at hset hnd hlen' hmap hfresh
  have hpre : ∀ x ∈ pre, x.addr ≠ n.addr := by
    rw [hset] at hnd
    exact (ne_addr_of_nodup hnd).1
  have hnext : nextIn n.addr a₁.nodes = post.head? := by
    rw [hset]
    exact nextIn_split (n := ⟨n.addr, freeKey n.size⟩) hpre
  rw [hs] at h
  simp only [hnext]
  cases post with
  | nil =>
    exact ⟨n.size, [], hset, h, hgoodn.1, hgoodn.2.1, by simp, rfl, fun _ => rfl, hmap, hfresh,
      hlen'⟩
  | cons q post =>
    simp only [head?_cons]
    by_cases hq : isFree q.key = true
    · rw [if_pos hq]
      have hq' : Tiled ((pre ++ [n]) ++ q :: post) a.fresh := by simpa using h
      have hgoodq := h.good q (by simp)
      have hset' := nodes_setKey (n := ⟨n.addr, freeKey n.size⟩) hset hnd fun k =>
        growKey k q.size
      have hsplit : (a₁.setKey n.addr fun k => growKey k q.size).nodes =
          (pre ++ [⟨n.addr, freeKey (n.size + q.size)⟩]) ++ q :: post := by
        rw [hset', growKey_freeKey]
        simp
      have hdel := nodes_deleteNode hsplit (nodup_setKey hnd _ _)
      have htile : Tiled (pre ++ n :: post) a.fresh := by
        have hrem := hq'.remove (by simpa using fun y _ => apart_of_used_left hn)
        simpa using hrem
      refine ⟨n.size + q.size, post, ?_, htile, ?_, Nat.dvd_add hgoodn.2.1 hgoodq.2.1,
        (hq'.used_neighbours hq).2, ?_, ?_, hmap, hfresh, ?_⟩
      · rw [hdel]
        simp
      · have := hgoodn.1
        omega
      · rw [total_cons]
        omega
      · intro off
        rw [usedFrom_cons_free hq, Nat.add_assoc]
      · rw [hdel, deleteNode_len, setKey_len, hlen', hset]
        simp
    · rw [if_neg hq]
      have hq' : isFree q.key = false := by simpa using hq
      exact ⟨n.size, q :: post, hset, h, hgoodn.1, hgoodn.2.1, by simpa using hq', rfl,
        fun _ => rfl, hmap, hfresh, hlen'⟩

/-- `free_block` takes one used block away and leaves the others where they are. -/
theorem freeBlock_spec {a : BlockAllocator} {pre post : List Node} {n : Node}
    (h : Tiled a.nodes a.fresh) (hs : a.nodes = pre ++ n :: post)
    (hn : isFree n.key = false) (hlen : a.len = a.nodes.length) :
    Tiled (a.freeBlock n.addr).nodes a.fresh ∧
      usedFrom 0 (a.freeBlock n.addr).nodes =
        usedFrom 0 pre ++ usedFrom (total Node.size pre + n.size) post ∧
      total Node.size (a.freeBlock n.addr).nodes = total Node.size a.nodes ∧
      (a.freeBlock n.addr).blockMap = a.blockMap ∧ (a.freeBlock n.addr).fresh = a.fresh ∧
      (a.freeBlock n.addr).len = (a.freeBlock n.addr).nodes.length := by
  rw [freeBlock_eq]
  obtain ⟨lines, post', hnodes, htile, hpos, hdvd, hhead, htotal, hused, hmap, hfresh, hlen'⟩ :=
    freeAhead_spec h hs hn hlen
  generalize a.freeAhead n.addr = a' at hnodes hmap hfresh hlen' ⊢
  have hpre := (ne_addr_of_nodup htile.nodup).1
  have hnd' : (a'.nodes.map Node.addr).Nodup := by
    have := htile.nodup
    rw [hnodes]
    simpa using this
  have hprev : prevIn n.addr none a'.nodes = pre.getLast? := by
    have hsplit : prevIn n.addr none (pre ++ (⟨n.addr, freeKey lines⟩ : Node) :: post') =
        pre.getLast?.or none := prevIn_split (n := ⟨n.addr, freeKey lines⟩) hpre none
    rw [hnodes, hsplit, Option.or_none]
  have hnode : a'.node? n.addr = some ⟨n.addr, freeKey lines⟩ :=
    node?_split (n := ⟨n.addr, freeKey lines⟩) hnodes hnd'
  have hsame : total Node.size a'.nodes = total Node.size a.nodes := by
    rw [hs, hnodes]
    simp only [total_append, total_cons, Node.size_mk, freeKey_blockSize]
    omega
  unfold freeBehind
  rw [hprev, hnode]
  rcases eq_nil_or_concat' pre with rfl | ⟨pre', p, rfl⟩
  · -- no predecessor
    have hrepl : Tiled ([] ++ (⟨n.addr, freeKey lines⟩ : Node) :: post') a.fresh :=
      htile.replace rfl (goodNode_freeKey hpos hdvd) (by simp)
        fun y hy => apart_of_used_right (hhead y hy)
    refine ⟨hnodes ▸ hrepl, ?_, hsame, hmap, hfresh, hlen'⟩
    simp only [getLast?_nil, hnodes, nil_append, usedFrom_nil, total_nil]
    rw [usedFrom_cons_free (isFree_freeKey lines)]
    exact hused 0
  · have hlast : (pre' ++ [p]).getLast? = some p := by simp
    rw [hlast]
    dsimp only
    by_cases hp : isFree p.key = true
    · -- the free predecessor swallows the node
      rw [if_pos hp]
      have htile' : Tiled (pre' ++ p :: n :: post') a.fresh := by simpa using htile
      have hgoodp := htile'.good p (by simp)
      have hleft := (htile'.used_neighbours hp).1
      have hsplit : a'.nodes = pre' ++ p :: ⟨n.addr, freeKey lines⟩ :: post' := by
        rw [hnodes]
        simp
      have hset := nodes_setKey hsplit hnd' fun k => growKey k lines
      have hsplit' : (a'.setKey p.addr fun k => growKey k lines).nodes =
          (pre' ++ [⟨p.addr, growKey p.key lines⟩]) ++ ⟨n.addr, freeKey lines⟩ :: post' := by
        rw [hset]
        simp
      have hdel := nodes_deleteNode hsplit' (nodup_setKey hnd' _ _)
      have hnodes' : ((a'.setKey p.addr fun k => growKey k lines).deleteNode n.addr).nodes =
          pre' ++ (⟨p.addr, growKey p.key lines⟩ : Node) :: post' := by
        rw [hdel]
        simp
      have hrem : Tiled (pre' ++ p :: post') a.fresh := by
        have := htile.remove fun x _ y hy => apart_of_used_right (hhead y hy)
        simpa using this
      have hrepl : Tiled (pre' ++ (⟨p.addr, growKey p.key lines⟩ : Node) :: post') a.fresh := by
        refine hrem.replace rfl ⟨?_, Nat.dvd_add hgoodp.2.1 hdvd, .inl hp⟩
          (fun x hx => apart_of_used_left (hleft x hx)) fun y hy => apart_of_used_right (hhead y hy)
        simp only [Node.size_mk, growKey_blockSize]
        omega
      refine ⟨by simpa [hnodes'] using hrepl, ?_, ?_, hmap, hfresh, ?_⟩
      · simp only [Node.size_mk, freeKey_blockSize, hnodes']
        have hfree : isFree (growKey p.key lines) = true := hp
        rw [usedFrom_append, usedFrom_cons_free (n := ⟨p.addr, growKey p.key lines⟩) hfree,
          usedFrom_append, usedFrom_cons_free hp, usedFrom_nil, append_nil]
        have hshift := hused (total Node.size pre' + p.size)
        simp only [total_append, total_cons, total_nil, Node.size_mk, growKey_blockSize,
          Nat.zero_add, Nat.add_zero] at hshift ⊢
        rw [← hshift, Nat.add_assoc]
        rfl
      · simp only [Node.size_mk, freeKey_blockSize, hnodes']
        rw [← hsame, hsplit]
        simp only [total_append, total_cons, Node.size_mk, growKey_blockSize, freeKey_blockSize]
        have hpsize : p.size = p.key.blockSize := rfl
        omega
      · simp only [Node.size_mk, freeKey_blockSize, hnodes', deleteNode_len, setKey_len, hlen', hsplit]
        simp
    · rw [if_neg hp]
      have hp' : isFree p.key = false := by simpa using hp
      have hrepl : Tiled (pre' ++ [p] ++ (⟨n.addr, freeKey lines⟩ : Node) :: post') a.fresh :=
        htile.replace rfl (goodNode_freeKey hpos hdvd)
          (by simpa using apart_of_used_left hp') fun y hy => apart_of_used_right (hhead y hy)
      refine ⟨hnodes ▸ hrepl, ?_, hsame, hmap, hfresh, hlen'⟩
      rw [hnodes, usedFrom_append, usedFrom_cons_free (isFree_freeKey lines)]
      have hshift := hused (total Node.size (pre' ++ [p]))
      rw [Nat.zero_add, ← hshift]
      rfl

end BlockAllocator

end PittCs.Rcdb
