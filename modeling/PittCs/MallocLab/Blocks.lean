import Mathlib.Data.Nat.Bitwise
import PittCs.Lib.LinkedLists
import PittCs.Lib.Layout
import PittCs.MallocLab.Mm

/-!
# Blocks, boundary tags and the free list

The heap between the prologue and the epilogue as a list of blocks, one after the other,
each with the same tag in its header and its footer, and the free list as a list of the
addresses of free blocks. The operations of the allocator write either the tags of a
stretch of blocks or the links of free blocks; what each kind of write keeps is proved
once for all of them.
-/

namespace PittCs.MallocLab

open PittCs.Lib Function List

/-! ## Words -/

theorem extractSize_eq {w : Nat} (hw : w < 2 ^ 64) : extractSize w = w / 16 * 16 := by
  have hdiv : (w &&& sizeMask) / 2 ^ 4 = w / 16 := by
    rw [Nat.and_div_two_pow]
    show w / 16 &&& (2 ^ 60 - 1) = w / 16
    rw [Nat.and_two_pow_sub_one_eq_mod]
    exact Nat.mod_eq_of_lt (by omega)
  have hmod : (w &&& sizeMask) % 2 ^ 4 = 0 := by
    rw [Nat.and_mod_two_pow]
    show w % 2 ^ 4 &&& 0 = 0
    exact Nat.and_zero _
  unfold extractSize
  omega

theorem pack_eq {size : Nat} (hs : size % 16 = 0) (alloc : Bool) :
    pack size alloc = size + alloc.toNat := by
  cases alloc with
  | false => rfl
  | true =>
    have hor := Nat.two_pow_add_eq_or_of_lt (i := 4) (b := 1) (by decide) (size / 16)
    have hsize : 2 ^ 4 * (size / 16) = size := by omega
    rw [hsize] at hor
    exact hor.symm

theorem extractSize_pack {size : Nat} (hs : size % 16 = 0) (hlt : size < 2 ^ 64) (alloc : Bool) :
    extractSize (pack size alloc) = size := by
  have hle := alloc.toNat_le
  rw [pack_eq hs, extractSize_eq (by omega)]
  omega

theorem extractAlloc_pack {size : Nat} (hs : size % 16 = 0) (alloc : Bool) :
    extractAlloc (pack size alloc) = alloc := by
  rw [pack_eq hs, extractAlloc, allocMask, Nat.and_one_is_mod]
  cases alloc <;> simp <;> omega

/-! ## The shape of the heap -/

/-- A block: a header, a payload and a footer. -/
structure Block where
  size : Nat
  alloc : Bool
  aligned : size % 16 = 0
  large : 32 ≤ size
deriving DecidableEq

/-- The word in the header and in the footer. -/
def Block.tag (b : Block) : Nat := pack b.size b.alloc

/-- The area of `mem_init`, with the first block header at its second word. -/
structure Heap.Arena (h : Heap) : Prop where
  pos : 0 < h.memStartBrk
  aligned : h.memStartBrk % 16 = 0
  max : h.memMaxAddr = h.memStartBrk + maxHeap
  addr : h.memMaxAddr ≤ 2 ^ 64
  start : h.heapStart = h.memStartBrk + 8
  brk : h.memBrk ≤ h.memMaxAddr

/-- The area does not depend on the memory and the free list. -/
theorem Heap.Arena.congr {h : Heap} (ha : h.Arena) (mem : Nat → Nat) (freeListHead : Nat) :
    { h with mem, freeListHead }.Arena :=
  ⟨ha.pos, ha.aligned, ha.max, ha.addr, ha.start, ha.brk⟩

/-- Header and footer of the block at `x.1` hold its tag. -/
def Heap.Tagged (h : Heap) (x : Nat × Block) : Prop :=
  h.mem x.1 = x.2.tag ∧ h.mem (x.1 + x.2.size - 8) = x.2.tag

/-- The blocks with their addresses. -/
def Heap.layout (h : Heap) (bs : List Block) : List (Nat × Block) :=
  Lib.layout Block.size h.heapStart bs

/-- The blocks `bs` tile the heap between prologue and epilogue, and `fl` is the free list,
a list of free blocks. -/
structure Heap.Shape (h : Heap) (bs : List Block) (fl : List Nat) : Prop extends h.Arena where
  memBrk : h.memBrk = h.heapStart + total Block.size bs + 8
  prologue : h.mem h.memStartBrk = pack 0 true
  epilogue : h.mem (h.heapStart + total Block.size bs) = pack 0 true
  tags : ∀ x ∈ h.layout bs, h.Tagged x
  links : Chain 0 h.prev h.next 0 h.freeListHead fl
  free : ∀ a ∈ fl, ∃ b, (a, b) ∈ h.layout bs ∧ b.alloc = false
  nodup : fl.Nodup

/-- Every allocated block, other than one at `p`, stays where it is, and nothing in it
changes. -/
def Keeps (p : Nat) (h : Heap) (bs : List Block) (h' : Heap) (bs' : List Block) : Prop :=
  ∀ x ∈ h.layout bs, x.2.alloc = true → x.1 ≠ p →
    x ∈ h'.layout bs' ∧ ∀ a, x.1 ≤ a → a < x.1 + x.2.size → h'.mem a = h.mem a

variable {h h' : Heap} {bs pre mid mid' post : List Block} {fl : List Nat} {x y : Nat × Block}

theorem total_mod (bs : List Block) : total Block.size bs % 16 = 0 := by
  induction bs with
  | nil => rfl
  | cons b bs ih =>
    have := b.aligned
    rw [total_cons]
    omega

namespace Heap.Shape

/-- Where a block can be. -/
theorem bounds (hs : h.Shape bs fl) (hx : x ∈ h.layout bs) :
    h.heapStart ≤ x.1 ∧ x.1 + x.2.size ≤ h.heapStart + total Block.size bs ∧
      x.1 % 16 = 8 ∧ x.1 + x.2.size + 8 ≤ h.memBrk := by
  have hle := le_of_mem_layout Block.size hx
  have hend := end_le_of_mem_layout Block.size hx
  obtain ⟨pre, post, -, ho⟩ := (mem_layout_iff Block.size).mp hx
  have hmod := total_mod pre
  have hstart := hs.start
  have halign := hs.aligned
  have hbrk := hs.memBrk
  omega

theorem size_lt (hs : h.Shape bs fl) (hx : x ∈ h.layout bs) : x.2.size < 2 ^ 64 := by
  have hb := hs.bounds hx
  have hbrk := hs.brk
  have haddr := hs.addr
  omega

theorem getSize (hs : h.Shape bs fl) (hx : x ∈ h.layout bs) : h.getSize x.1 = x.2.size := by
  rw [Heap.getSize, (hs.tags x hx).1]
  exact extractSize_pack x.2.aligned (hs.size_lt hx) _

theorem getAlloc (hs : h.Shape bs fl) (hx : x ∈ h.layout bs) : h.getAlloc x.1 = x.2.alloc := by
  rw [Heap.getAlloc, (hs.tags x hx).1]
  exact extractAlloc_pack x.2.aligned _

/-- Two blocks that share an address are the same block. -/
theorem eq_of_overlap (_ : h.Shape bs fl) (hx : x ∈ h.layout bs) (hy : y ∈ h.layout bs)
    {a : Nat} (hxa : x.1 ≤ a) (hxa' : a < x.1 + x.2.size) (hya : y.1 ≤ a)
    (hya' : a < y.1 + y.2.size) : x = y :=
  layout_eq_of_overlap Block.size hx hy (i := a - x.1) (j := a - y.1) (by omega) (by omega)
    (by omega)

/-- There is one block at an address. -/
theorem eq_of_addr (hs : h.Shape bs fl) (hx : x ∈ h.layout bs) (hy : y ∈ h.layout bs)
    (hxy : x.1 = y.1) : x = y := by
  have hxl := x.2.large
  have hyl := y.2.large
  exact hs.eq_of_overlap hx hy (le_refl x.1) (by omega) (by omega) (by omega)

end Heap.Shape

theorem Keeps.refl (p : Nat) (h : Heap) (bs : List Block) : Keeps p h bs h bs :=
  fun _ hx _ _ => ⟨hx, fun _ _ _ => rfl⟩

theorem Keeps.trans {p : Nat} {h'' : Heap} {bs' bs'' : List Block} (h₁ : Keeps p h bs h' bs')
    (h₂ : Keeps p h' bs' h'' bs'') : Keeps p h bs h'' bs'' := by
  intro x hx hal hp
  obtain ⟨hx', hsame⟩ := h₁ x hx hal hp
  obtain ⟨hx'', hsame'⟩ := h₂ x hx' hal hp
  exact ⟨hx'', fun a hlo hhi => (hsame' a hlo hhi).trans (hsame a hlo hhi)⟩

/-! ## Writing tags -/

/-- The blocks of a stretch `mid` are replaced by `mid'`. The memory may change inside the
stretch, and beyond the heap when the stretch is its end; the links of the free list stay
as they are. -/
structure Restacks (h h' : Heap) (pre mid mid' post : List Block) (fl : List Nat) : Prop where
  arena : h'.Arena
  startBrk : h'.memStartBrk = h.memStartBrk
  head : h'.freeListHead = h.freeListHead
  memBrk : h'.memBrk = h.heapStart + total Block.size (pre ++ mid' ++ post) + 8
  epilogue : h'.mem (h.heapStart + total Block.size (pre ++ mid' ++ post)) = pack 0 true
  same : post = [] ∨ total Block.size mid' = total Block.size mid
  outside : ∀ a, a < h.heapStart + total Block.size pre ∨
    (h.heapStart + total Block.size (pre ++ mid) ≤ a ∧
      a < h.heapStart + total Block.size (pre ++ mid ++ post)) → h'.mem a = h.mem a
  links : ∀ a ∈ fl, h'.prev a = h.prev a ∧ h'.next a = h.next a
  tags : ∀ x ∈ Lib.layout Block.size (h.heapStart + total Block.size pre) mid', h'.Tagged x
  free : ∀ a ∈ fl, ∀ b, (a, b) ∈ Lib.layout Block.size (h.heapStart + total Block.size pre) mid →
    ∃ b', (a, b') ∈ Lib.layout Block.size (h.heapStart + total Block.size pre) mid' ∧
      b'.alloc = false

theorem mem_layout_append₃ {off : Nat} :
    x ∈ Lib.layout Block.size off (pre ++ mid ++ post) ↔
      x ∈ Lib.layout Block.size off pre ∨
      x ∈ Lib.layout Block.size (off + total Block.size pre) mid ∨
      x ∈ Lib.layout Block.size (off + total Block.size (pre ++ mid)) post := by
  rw [layout_append, layout_append, mem_append, mem_append, or_assoc]

theorem Restacks.heapStart (hr : Restacks h h' pre mid mid' post fl) (hs : h.Arena) :
    h'.heapStart = h.heapStart := by
  rw [hr.arena.start, hs.start, hr.startBrk]

/-- The blocks before and after the stretch are where they were. -/
theorem Restacks.mem_layout (hr : Restacks h h' pre mid mid' post fl) (hs : h.Arena) :
    x ∈ h'.layout (pre ++ mid' ++ post) ↔
      x ∈ Lib.layout Block.size h.heapStart pre ∨
      x ∈ Lib.layout Block.size (h.heapStart + total Block.size pre) mid' ∨
      x ∈ Lib.layout Block.size (h.heapStart + total Block.size (pre ++ mid)) post := by
  rw [Heap.layout, hr.heapStart hs, mem_layout_append₃]
  rcases hr.same with rfl | hsame
  · simp only [layout_nil]
  · simp only [total_append, hsame]

/-- A block outside of the stretch is not written to. -/
theorem Restacks.outside_block (hr : Restacks h h' pre mid mid' post fl)
    (hx : x ∈ Lib.layout Block.size h.heapStart pre ∨
      x ∈ Lib.layout Block.size (h.heapStart + total Block.size (pre ++ mid)) post)
    {a : Nat} (hlo : x.1 ≤ a) (hhi : a < x.1 + x.2.size) : h'.mem a = h.mem a := by
  refine hr.outside a ?_
  rcases hx with hx | hx
  · have hend := end_le_of_mem_layout Block.size hx
    exact .inl (by omega)
  · have hle := le_of_mem_layout Block.size hx
    have hend := end_le_of_mem_layout Block.size hx
    rw [total_append _ (pre ++ mid)]
    exact .inr (by omega)

theorem Restacks.shape (hr : Restacks h h' pre mid mid' post fl)
    (hs : h.Shape (pre ++ mid ++ post) fl) : h'.Shape (pre ++ mid' ++ post) fl := by
  have hstart := hr.heapStart hs.toArena
  have hkeep : ∀ x, (x ∈ Lib.layout Block.size h.heapStart pre ∨
      x ∈ Lib.layout Block.size (h.heapStart + total Block.size (pre ++ mid)) post) →
      h'.Tagged x := by
    intro x hx
    have hlarge := x.2.large
    have htag := hs.tags x (mem_layout_append₃.mpr (hx.imp id .inr))
    refine ⟨?_, ?_⟩
    · rw [hr.outside_block hx (le_refl x.1) (by omega)]
      exact htag.1
    · rw [hr.outside_block hx (by omega) (by omega)]
      exact htag.2
  refine ⟨hr.arena, ?_, ?_, ?_, fun x hx => ?_, ?_, fun a ha => ?_, hs.nodup⟩
  · rw [hstart]
    exact hr.memBrk
  · rw [hr.startBrk, hr.outside _ (.inl (by rw [hs.start]; omega))]
    exact hs.prologue
  · rw [hstart]
    exact hr.epilogue
  · rcases (hr.mem_layout hs.toArena).mp hx with hx | hx | hx
    · exact hkeep x (.inl hx)
    · exact hr.tags x hx
    · exact hkeep x (.inr hx)
  · rw [hr.head]
    exact hs.links.congr (fun a ha => (hr.links a ha).1) fun a ha => (hr.links a ha).2
  · obtain ⟨b, hb, hal⟩ := hs.free a ha
    rcases mem_layout_append₃.mp hb with hb | hb | hb
    · exact ⟨b, (hr.mem_layout hs.toArena).mpr (.inl hb), hal⟩
    · obtain ⟨b', hb', hal'⟩ := hr.free a ha b hb
      exact ⟨b', (hr.mem_layout hs.toArena).mpr (.inr (.inl hb')), hal'⟩
    · exact ⟨b, (hr.mem_layout hs.toArena).mpr (.inr (.inr hb)), hal⟩

theorem Restacks.keeps {p : Nat} (hr : Restacks h h' pre mid mid' post fl)
    (hs : h.Shape (pre ++ mid ++ post) fl)
    (hmid : ∀ x ∈ Lib.layout Block.size (h.heapStart + total Block.size pre) mid,
      x.2.alloc = true → x.1 = p) :
    Keeps p h (pre ++ mid ++ post) h' (pre ++ mid' ++ post) := by
  intro x hx hal hp
  have hx' : x ∈ Lib.layout Block.size h.heapStart pre ∨
      x ∈ Lib.layout Block.size (h.heapStart + total Block.size (pre ++ mid)) post := by
    rcases mem_layout_append₃.mp hx with hx | hx | hx
    · exact .inl hx
    · exact absurd (hmid x hx hal) hp
    · exact .inr hx
  exact ⟨(hr.mem_layout hs.toArena).mpr (hx'.imp id .inr), fun a hlo hhi =>
    hr.outside_block hx' hlo hhi⟩

/-- `write_header` and `write_footer` of one block. -/
def Heap.writeTags (h : Heap) (a : Nat) (b : Block) : Heap :=
  (h.writeHeader a b.size b.alloc).writeFooter a b.size b.alloc

theorem writeTags_mem {b : Block} (hb : b.size < 2 ^ 64) (h : Heap) (a c : Nat) :
    (h.writeTags a b).mem c = if c = a ∨ c = a + b.size - 8 then b.tag else h.mem c := by
  have hsize : (h.writeHeader a b.size b.alloc).getSize a = b.size := by
    simp only [Heap.getSize, Heap.writeHeader, Heap.write, update_self]
    exact extractSize_pack b.aligned hb _
  have hfoot : a + 8 + b.size - dsize = a + b.size - 8 := by
    simp only [dsize]
    omega
  rw [Heap.writeTags, Heap.writeFooter, Heap.headerToFooter, hsize, hfoot]
  simp only [Heap.write, Heap.writeHeader, update_apply, Block.tag]
  split_ifs <;> first | rfl | tauto

theorem writeTags_tagged {b : Block} (hb : b.size < 2 ^ 64) (h : Heap) (a : Nat) :
    (h.writeTags a b).Tagged (a, b) := by
  refine ⟨?_, ?_⟩ <;> simp [writeTags_mem hb]

/-- One block is written over a stretch. Free blocks in the stretch have left the free list,
except the first one, which may go on as the new block. -/
theorem restacks_writeTags (hs : h.Shape (pre ++ mid ++ post) fl) {b : Block}
    (hb : b.size = total Block.size mid)
    (hfl : ∀ a ∈ fl, ∀ c, (a, c) ∈ Lib.layout Block.size (h.heapStart + total Block.size pre) mid →
      a = h.heapStart + total Block.size pre ∧ b.alloc = false) :
    Restacks h (h.writeTags (h.heapStart + total Block.size pre) b) pre mid [b] post fl := by
  have hbrk := hs.memBrk
  have hmax := hs.brk
  have haddr := hs.addr
  have hlarge := b.large
  have htotal : total Block.size (pre ++ [b] ++ post) = total Block.size (pre ++ mid ++ post) := by
    simp [hb]
  have hsum : total Block.size (pre ++ mid ++ post) =
      total Block.size pre + total Block.size mid + total Block.size post := by
    rw [total_append, total_append]
  have hmid : total Block.size (pre ++ mid) = total Block.size pre + total Block.size mid :=
    total_append ..
  have hlt : b.size < 2 ^ 64 := by omega
  refine ⟨hs.toArena.congr _ _, rfl, rfl, ?_, ?_, .inr (by simp [hb]), fun a ha => ?_, fun a ha => ?_, ?_, ?_⟩
  · rw [htotal]
    exact hbrk
  · rw [htotal, writeTags_mem hlt, if_neg (by omega)]
    exact hs.epilogue
  · rw [writeTags_mem hlt, if_neg (by omega)]
  · -- the links of a free block are neither its tags nor in the stretch
    have hcell : ∀ i, i = 8 ∨ i = 16 → (h.writeTags (h.heapStart + total Block.size pre) b).mem (a + i)
        = h.mem (a + i) := by
      intro i hi
      rw [writeTags_mem hlt, if_neg]
      obtain ⟨c, hc, -⟩ := hs.free a ha
      have hcl := c.large
      rcases mem_layout_append₃.mp hc with hc | hc | hc
      · have hend := end_le_of_mem_layout Block.size hc
        omega
      · have heq := (hfl a ha c hc).1
        omega
      · have hle := le_of_mem_layout Block.size hc
        omega
    exact ⟨hcell 8 (.inl rfl), hcell 16 (.inr rfl)⟩
  · intro x hx
    rw [layout_cons, layout_nil, mem_singleton] at hx
    rw [hx]
    exact writeTags_tagged hlt h _
  · intro a ha c hc
    obtain ⟨rfl, hal⟩ := hfl a ha c hc
    exact ⟨b, by simp, hal⟩

/-! ## Writing links -/

/-- Only links of free blocks are written. -/
structure Relinks (h h' : Heap) (bs : List Block) : Prop where
  arena : h'.Arena
  startBrk : h'.memStartBrk = h.memStartBrk
  memBrk : h'.memBrk = h.memBrk
  cells : ∀ c, h'.mem c ≠ h.mem c →
    ∃ x ∈ h.layout bs, x.2.alloc = false ∧ (c = x.1 + 8 ∨ c = x.1 + 16)

theorem Relinks.heapStart (hr : Relinks h h' bs) (hs : h.Arena) : h'.heapStart = h.heapStart := by
  rw [hr.arena.start, hs.start, hr.startBrk]

theorem Relinks.layout (hr : Relinks h h' bs) (hs : h.Arena) (bs' : List Block) :
    h'.layout bs' = h.layout bs' := by
  rw [Heap.layout, Heap.layout, hr.heapStart hs]

theorem Relinks.keeps (hr : Relinks h h' bs) (hs : h.Shape bs fl) (p : Nat) :
    Keeps p h bs h' bs := by
  intro x hx hal _
  refine ⟨by rwa [hr.layout hs.toArena], fun a hlo hhi => ?_⟩
  by_contra hne
  obtain ⟨y, hy, hfree, hcell⟩ := hr.cells a hne
  have hyl := y.2.large
  obtain rfl := hs.eq_of_overlap hx hy hlo hhi (by omega) (by omega)
  rw [hal] at hfree
  cases hfree

/-- The tags stay when only links are written. -/
theorem Relinks.shape (hr : Relinks h h' bs) (hs : h.Shape bs fl) {fl' : List Nat}
    (hlinks : Chain 0 h'.prev h'.next 0 h'.freeListHead fl')
    (hfree : ∀ a ∈ fl', ∃ b, (a, b) ∈ h.layout bs ∧ b.alloc = false) (hnodup : fl'.Nodup) :
    h'.Shape bs fl' := by
  have hstart := hr.heapStart hs.toArena
  have hout : ∀ c, (∀ y ∈ h.layout bs, c ≠ y.1 + 8 ∧ c ≠ y.1 + 16) → h'.mem c = h.mem c := by
    intro c hc
    by_contra hne
    obtain ⟨y, hy, -, hcell⟩ := hr.cells c hne
    have := hc y hy
    omega
  refine ⟨hr.arena, ?_, ?_, ?_, fun x hx => ?_, hlinks, ?_, hnodup⟩
  · rw [hr.memBrk, hstart]
    exact hs.memBrk
  · rw [hr.startBrk, hout _ fun y hy => ?_]
    · exact hs.prologue
    · have := hs.bounds hy
      have := hs.start
      omega
  · rw [hstart, hout _ fun y hy => ?_]
    · exact hs.epilogue
    · have := hs.bounds hy
      have := y.2.large
      omega
  · rw [hr.layout hs.toArena] at hx
    have hxl := x.2.large
    have hxout : ∀ c, c = x.1 ∨ c = x.1 + x.2.size - 8 → h'.mem c = h.mem c := by
      intro c hc
      refine hout c fun y hy => ?_
      have hyl := y.2.large
      rcases eq_or_ne x y with rfl | hne
      · omega
      · have := layout_disjoint Block.size hx hy hne
        omega
    exact ⟨(hxout _ (.inl rfl)).trans (hs.tags x hx).1, (hxout _ (.inr rfl)).trans (hs.tags x hx).2⟩
  · rw [hr.layout hs.toArena]
    exact hfree

end PittCs.MallocLab
