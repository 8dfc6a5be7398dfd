import PittCs.MallocLab.Coalesce

/-!
# `mm_init`, `mm_malloc` and `mm_free`

Every call keeps the invariant and leaves the allocated blocks alone, except the one that
is freed. `mm_malloc` returns: each round of its recursion extends the heap, and the heap
is bounded.
-/

namespace PittCs.MallocLab

open PittCs.Lib Function List

variable {h h' : Heap} {bs pre mid post : List Block} {fl : List Nat} {a : Nat} {b : Block}

/-- The block with another flag. -/
def Block.setAlloc (b : Block) (alloc : Bool) : Block := { b with alloc }

/-- An allocated block is not in the free list. -/
theorem Heap.Shape.notMem_of_alloc (hs : h.Shape bs fl) (hx : (a, b) ∈ h.layout bs)
    (hal : b.alloc = true) : a ∉ fl := by
  intro ha
  obtain ⟨c, hc, hfree⟩ := hs.free a ha
  have heq := hs.eq_of_addr hx hc rfl
  cases heq
  rw [hal] at hfree
  cases hfree

/-! ## Freeing -/

theorem getSize_writeHeader {size : Nat} (hs : size % 16 = 0) (hlt : size < 2 ^ 64) (h : Heap)
    (a : Nat) (alloc : Bool) : (h.writeHeader a size alloc).getSize a = size := by
  simp only [Heap.getSize, Heap.writeHeader, Heap.write, update_self]
  exact extractSize_pack hs hlt _

/-- `mm_free` of an allocated block writes its tags, puts it into the free list and
coalesces. -/
theorem mmFree_eq (hs : h.Shape bs fl) (hx : (a, b) ∈ h.layout bs) (hal : b.alloc = true) :
    h.mmFree (a + 8) =
      (((h.writeTags a (b.setAlloc false)).insertBlock a).coalesceBlock a).1 := by
  have hlarge := b.large
  have halloc : h.getAlloc a = true := (hs.getAlloc hx).trans hal
  have hsize : h.getSize a = b.size := hs.getSize hx
  have hagain := getSize_writeHeader b.aligned (hs.size_lt hx) h a false
  have hhead : payloadToHeader (a + 8) = a := Nat.add_sub_cancel a 8
  unfold Heap.mmFree
  rw [if_neg (by omega), hhead, if_neg (by simp [halloc]), if_neg (by omega), hsize]
  dsimp only
  rw [hagain]
  rfl

/-- The flag of a block that is not in the free list changes. -/
theorem restacks_setAlloc (hs : h.Shape (pre ++ [b] ++ post) fl) (alloc : Bool)
    (hnot : h.heapStart + total Block.size pre ∉ fl) :
    Restacks h (h.writeTags (h.heapStart + total Block.size pre) (b.setAlloc alloc)) pre [b]
      [b.setAlloc alloc] post fl := by
  refine restacks_writeTags hs (by simp [Block.setAlloc]) fun a ha c hc => ?_
  rw [layout_cons, layout_nil, mem_singleton] at hc
  cases hc
  exact absurd ha hnot

theorem inv_mmFree (hi : h.Inv bs fl) (hx : (a, b) ∈ h.layout bs) (hal : b.alloc = true) :
    ∃ bs' fl', (h.mmFree (a + 8)).Inv bs' fl' ∧ Keeps a h bs (h.mmFree (a + 8)) bs' := by
  have hnot := hi.notMem_of_alloc hx hal
  rw [mmFree_eq hi.toShape hx hal]
  obtain ⟨pre, post, rfl, rfl⟩ := exists_of_mem_layout hx
  have hr := restacks_setAlloc hi.toShape false hnot
  have hs₁ := hr.shape hi.toShape
  have hstart := hr.heapStart hi.toArena
  have hk₁ := hr.keeps hi.toShape (p := h.heapStart + total Block.size pre) fun x hx _ => by
    rw [layout_cons, layout_nil, mem_singleton] at hx
    rw [hx]
  generalize h.writeTags (h.heapStart + total Block.size pre) (b.setAlloc false) = h₁ at *
  have hmem := mem_layout_middle h₁ pre post (b.setAlloc false)
  rw [hstart] at hmem
  have hs₂ := shape_insertBlock hs₁ hmem rfl hnot
  have hr₂ := relinks_insertBlock hs₁ hmem rfl
  have hstart₂ := hr₂.heapStart hs₁.toArena
  -- the block that was allocated is the only free one that was not in the list
  have hcomp : (h₁.insertBlock (h.heapStart + total Block.size pre)).Complete
      (pre ++ [b.setAlloc false] ++ post) ((h.heapStart + total Block.size pre) :: fl) := by
    intro x hx hfree
    rw [hr₂.layout hs₁.toArena] at hx
    rcases (hr.mem_layout hi.toArena).mp hx with hx | hx | hx
    · exact mem_cons_of_mem _ (hi.complete x (mem_layout_append₃.mpr (.inl hx)) hfree)
    · rw [layout_cons, layout_nil, mem_singleton] at hx
      rw [hx]
      exact mem_cons_self
    · exact mem_cons_of_mem _ (hi.complete x (mem_layout_append₃.mpr (.inr (.inr hx))) hfree)
  obtain ⟨hpre, hpost, -, -⟩ := coalesced_append_iff.mp hi.coalesced
  obtain ⟨bs', fl', hinv, hk₃⟩ := inv_coalesceBlock hs₂ hcomp rfl hpre hpost
  rw [hstart₂, hstart] at hinv hk₃
  exact ⟨bs', fl', hinv, (hk₁.trans (hr₂.keeps hs₁ _)).trans (hk₃ _)⟩

/-! ## Splitting -/

/-- A block that is not in the free list is written over by two. -/
theorem restacks_split {c d : Block} (hs : h.Shape (pre ++ [b] ++ post) fl)
    (hcd : c.size + d.size = b.size) (hnot : h.heapStart + total Block.size pre ∉ fl) :
    Restacks h ((h.writeTags (h.heapStart + total Block.size pre) c).writeTags
      (h.heapStart + total Block.size pre + c.size) d) pre [b] [c, d] post fl := by
  have hcl := c.large
  have hdl := d.large
  have hlt := total_lt hs
  have hbrk := hs.memBrk
  have hsum : total Block.size (pre ++ [b] ++ post) =
      total Block.size pre + b.size + total Block.size post := by
    simp only [total_append, total_cons, total_nil, Nat.add_zero]
  have hmid : total Block.size (pre ++ [b]) = total Block.size pre + b.size := by
    simp only [total_append, total_cons, total_nil, Nat.add_zero]
  have htotal : total Block.size (pre ++ [c, d] ++ post) = total Block.size (pre ++ [b] ++ post) := by
    simp only [total_append, total_cons, total_nil]
    omega
  have hc : c.size < 2 ^ 64 := by omega
  have hd : d.size < 2 ^ 64 := by omega
  refine ⟨hs.toArena.congr _ _, rfl, rfl, ?_, ?_, .inr (by simp [hcd]), fun a ha => ?_,
    fun a ha => ?_, ?_, ?_⟩
  · rw [htotal]
    exact hbrk
  · rw [htotal, writeTags_mem hd, if_neg (by omega), writeTags_mem hc, if_neg (by omega)]
    exact hs.epilogue
  · rw [writeTags_mem hd, if_neg (by omega), writeTags_mem hc, if_neg (by omega)]
  · -- the free blocks are outside of the block that is split
    have hcell : ∀ i, i = 8 ∨ i = 16 → ((h.writeTags (h.heapStart + total Block.size pre) c).writeTags
        (h.heapStart + total Block.size pre + c.size) d).mem (a + i) = h.mem (a + i) := by
      intro i hi
      obtain ⟨e, he, -⟩ := hs.free a ha
      have hel := e.large
      have hout : a + i < h.heapStart + total Block.size pre ∨
          h.heapStart + total Block.size pre + b.size ≤ a := by
        rcases mem_layout_append₃.mp he with he | he | he
        · have hend := end_le_of_mem_layout Block.size he
          exact .inl (by omega)
        · rw [layout_cons, layout_nil, mem_singleton] at he
          cases he
          exact absurd ha hnot
        · have hle := le_of_mem_layout Block.size he
          exact .inr (by omega)
      rw [writeTags_mem hd, if_neg (by omega), writeTags_mem hc, if_neg (by omega)]
    exact ⟨hcell 8 (.inl rfl), hcell 16 (.inr rfl)⟩
  · intro x hx
    rw [layout_cons, layout_cons, layout_nil, mem_cons, mem_singleton] at hx
    rcases hx with rfl | rfl
    · obtain ⟨hhead, hfoot⟩ := writeTags_tagged hc h (h.heapStart + total Block.size pre)
      dsimp only at hhead hfoot
      refine ⟨?_, ?_⟩
      · rw [writeTags_mem hd, if_neg (by dsimp only; omega)]
        exact hhead
      · rw [writeTags_mem hd, if_neg (by dsimp only; omega)]
        exact hfoot
    · exact writeTags_tagged hd _ _
  · intro a ha e he
    rw [layout_cons, layout_nil, mem_singleton] at he
    cases he
    exact absurd ha hnot

theorem splitSize_eq {size asize : Nat} (hle : asize ≤ size) (hlt : size < 2 ^ 64) :
    sizeT (size + (2 ^ 64 - asize)) = size - asize := by
  have heq : size + (2 ^ 64 - asize) = size - asize + 2 ^ 64 := by omega
  rw [heq, sizeT, Nat.add_mod_right]
  exact Nat.mod_eq_of_lt (by omega)

/-- `split_block`, when the rest is large enough for a block of its own. -/
theorem splitBlock_eq {c d : Block} (hs : h.Shape (pre ++ [b] ++ post) fl)
    (hcd : c.size + d.size = b.size) (hc : c.alloc = true) (hd : d.alloc = false) :
    h.splitBlock (h.heapStart + total Block.size pre) c.size =
      ((h.writeTags (h.heapStart + total Block.size pre) c).writeTags
        (h.heapStart + total Block.size pre + c.size) d).insertBlock
        (h.heapStart + total Block.size pre + c.size) := by
  have hblt : b.size < 2 ^ 64 := hs.size_lt (mem_layout_middle h pre post b)
  have hclt : c.size < 2 ^ 64 := by omega
  have hsplit : b.size - c.size = d.size := by omega
  have hlarge : minBlockSize ≤ d.size := d.large
  have hnext : (h.writeTags (h.heapStart + total Block.size pre) c).findNext
      (h.heapStart + total Block.size pre) = h.heapStart + total Block.size pre + c.size := by
    have htag := (writeTags_tagged hclt h (h.heapStart + total Block.size pre)).1
    dsimp only at htag
    rw [Heap.findNext, Heap.getSize, htag, Block.tag, extractSize_pack c.aligned hclt]
  unfold Heap.splitBlock
  dsimp only
  rw [getSize_middle hs, splitSize_eq (by omega) hblt, hsplit, if_pos hlarge, ← hc, ← hd]
  have hfold : (h.writeHeader (h.heapStart + total Block.size pre) c.size c.alloc).writeFooter
      (h.heapStart + total Block.size pre) c.size c.alloc =
      h.writeTags (h.heapStart + total Block.size pre) c := rfl
  rw [hfold, hnext]
  rfl

/-- `split_block`: the block keeps at least the size asked for, and the rest, when it is
large enough, becomes a free block. -/
theorem inv_splitBlock {asize : Nat} (hi : h.Inv (pre ++ [b] ++ post) fl) (hal : b.alloc = true)
    (hmod : asize % 16 = 0) (hmin : 32 ≤ asize) (hle : asize ≤ b.size)
    (hhead : ∀ y ∈ post.head?, y.alloc = true) :
    ∃ bs' fl', (h.splitBlock (h.heapStart + total Block.size pre) asize).Inv bs' fl' ∧
      Keeps (h.heapStart + total Block.size pre) h (pre ++ [b] ++ post)
        (h.splitBlock (h.heapStart + total Block.size pre) asize) bs' ∧
      ∃ c : Block, (h.heapStart + total Block.size pre, c) ∈
        (h.splitBlock (h.heapStart + total Block.size pre) asize).layout bs' ∧
        c.alloc = true ∧ asize ≤ c.size := by
  have hmem := mem_layout_middle h pre post b
  have hblt : b.size < 2 ^ 64 := hi.size_lt hmem
  have hba := b.aligned
  have hnot := hi.notMem_of_alloc hmem hal
  obtain ⟨hpre, hpost, -, -⟩ := coalesced_append_iff.mp hi.coalesced
  by_cases hsplit : 32 ≤ b.size - asize
  · obtain ⟨c, hcs, hca⟩ : ∃ c : Block, c.size = asize ∧ c.alloc = true :=
      ⟨⟨asize, true, hmod, hmin⟩, rfl, rfl⟩
    obtain ⟨d, hds, hda⟩ : ∃ d : Block, d.size = b.size - asize ∧ d.alloc = false :=
      ⟨⟨b.size - asize, false, by omega, hsplit⟩, rfl, rfl⟩
    have hcd : c.size + d.size = b.size := by omega
    rw [← hcs, splitBlock_eq hi.toShape hcd hca hda]
    have hr := restacks_split hi.toShape hcd hnot
    have hs₁ := hr.shape hi.toShape
    have hstart := hr.heapStart hi.toArena
    have hk₁ := hr.keeps hi.toShape (p := h.heapStart + total Block.size pre) fun x hx _ => by
      rw [layout_cons, layout_nil, mem_singleton] at hx
      rw [hx]
    generalize (h.writeTags (h.heapStart + total Block.size pre) c).writeTags
      (h.heapStart + total Block.size pre + c.size) d = h₁ at *
    have hcmem : (h.heapStart + total Block.size pre, c) ∈ h₁.layout (pre ++ [c, d] ++ post) :=
      (hr.mem_layout hi.toArena).mpr (.inr (.inl (by simp)))
    have hdmem : (h.heapStart + total Block.size pre + c.size, d) ∈
        h₁.layout (pre ++ [c, d] ++ post) :=
      (hr.mem_layout hi.toArena).mpr (.inr (.inl (by simp)))
    -- the rest starts inside the old block, so it is not in the free list yet
    have hdnot : h.heapStart + total Block.size pre + c.size ∉ fl := by
      intro hin
      obtain ⟨e, he, -⟩ := hi.free _ hin
      have hcl := c.large
      have hdl := d.large
      have hel := e.large
      have heq := hi.eq_of_overlap hmem he (a := h.heapStart + total Block.size pre + c.size)
        (by dsimp only; omega) (by dsimp only; omega) (le_refl _) (by dsimp only; omega)
      have := congrArg Prod.fst heq
      dsimp only at this
      omega
    have hs₂ := shape_insertBlock hs₁ hdmem hda hdnot
    have hr₂ := relinks_insertBlock hs₁ hdmem hda
    refine ⟨_, _, ⟨hs₂, fun x hx hfree => ?_, ?_⟩, hk₁.trans (hr₂.keeps hs₁ _), c, ?_, hca, le_refl _⟩
    · rw [hr₂.layout hs₁.toArena] at hx
      rcases (hr.mem_layout hi.toArena).mp hx with hx | hx | hx
      · exact mem_cons_of_mem _ (hi.complete x (mem_layout_append₃.mpr (.inl hx)) hfree)
      · rw [layout_cons, layout_cons, layout_nil, mem_cons, mem_singleton] at hx
        rcases hx with rfl | rfl
        · rw [hca] at hfree
          cases hfree
        · exact mem_cons_self
      · exact mem_cons_of_mem _ (hi.complete x (mem_layout_append₃.mpr (.inr (.inr hx))) hfree)
    · have hdpost : Coalesced ([] ++ [d] ++ post) := coalesced_append_iff.mpr
        ⟨isChain_nil, hpost, by simp, fun y hy => .inr (hhead y hy)⟩
      have hall : Coalesced (pre ++ [c] ++ ([] ++ [d] ++ post)) := coalesced_append_iff.mpr
        ⟨hpre, hdpost, fun _ _ => .inr hca, fun _ _ => .inl hca⟩
      simpa using hall
    · rw [hr₂.layout hs₁.toArena]
      exact hcmem
  · have hsame : h.splitBlock (h.heapStart + total Block.size pre) asize = h := by
      unfold Heap.splitBlock
      dsimp only
      rw [getSize_middle hi.toShape, splitSize_eq hle hblt]
      exact if_neg hsplit
    rw [hsame]
    exact ⟨_, _, hi, Keeps.refl _ _ _, b, hmem, hal, hle⟩

/-! ## Placing a request -/

/-- `mm_malloc` with the block it has found. -/
theorem inv_place {asize : Nat} (hi : h.Inv bs fl) (ha : a ∈ fl) (hmod : asize % 16 = 0)
    (hmin : 32 ≤ asize) (hle : asize ≤ h.getSize a) :
    ∃ bs' fl', (h.place a asize).1.Inv bs' fl' ∧ (∀ p, Keeps p h bs (h.place a asize).1 bs') ∧
      ∃ c : Block, (a, c) ∈ (h.place a asize).1.layout bs' ∧ c.alloc = true ∧ asize ≤ c.size := by
  obtain ⟨b, hb, hfree⟩ := hi.free a ha
  have hsize : h.getSize a = b.size := hi.getSize hb
  have hsize₁ : (h.removeBlock a).getSize a = b.size := getSize_removeBlock hi.toShape ha hb
  obtain ⟨hs₁, hr₁⟩ := shape_removeBlock_erase hi.toShape ha
  have hk₁ := hr₁.keeps hi.toShape
  have hstart₁ := hr₁.heapStart hi.toArena
  have hlayout₁ := hr₁.layout hi.toArena
  -- an allocated block is another one
  have hother : ∀ x ∈ h.layout bs, x.2.alloc = true → x.1 ≠ a := by
    intro x hx hal heq
    rw [hi.eq_of_addr hx hb heq, hfree] at hal
    cases hal
  have hplace : (h.place a asize).1 =
      ((h.removeBlock a).writeTags a (b.setAlloc true)).splitBlock a asize := by
    unfold Heap.place
    dsimp only
    rw [hsize₁]
    rfl
  rw [hplace]
  obtain ⟨pre, post, rfl, rfl⟩ := exists_of_mem_layout hb
  obtain ⟨hpre, hpost, -, hhead⟩ := coalesced_append_iff.mp hi.coalesced
  generalize h.removeBlock (h.heapStart + total Block.size pre) = h₁ at *
  rw [← hstart₁] at hs₁ hother ⊢
  have hr₂ := restacks_setAlloc hs₁ true hi.nodup.not_mem_erase
  have hs₂ := hr₂.shape hs₁
  have hstart₂ := hr₂.heapStart hs₁.toArena
  have hk₂ : ∀ p, Keeps p h₁ (pre ++ [b] ++ post) _ _ := fun p => hr₂.keeps hs₁ fun x hx hal => by
    rw [layout_cons, layout_nil, mem_singleton] at hx
    rw [hx, hfree] at hal
    cases hal
  generalize h₁.writeTags (h₁.heapStart + total Block.size pre) (b.setAlloc true) = h₂ at *
  have hi₂ : h₂.Inv (pre ++ [b.setAlloc true] ++ post)
      (fl.erase (h₁.heapStart + total Block.size pre)) := by
    refine ⟨hs₂, fun x hx hal => ?_, coalesced_append_iff.mpr
      ⟨hpre, hpost, fun _ _ => .inr rfl, fun _ _ => .inl rfl⟩⟩
    have hxl := x.2.large
    have hbl := b.large
    have hin : x ∈ h.layout (pre ++ [b] ++ post) ∧
        x.1 ≠ h₁.heapStart + total Block.size pre := by
      rw [← hlayout₁]
      rcases (hr₂.mem_layout hs₁.toArena).mp hx with hx | hx | hx
      · have hend := end_le_of_mem_layout Block.size hx
        exact ⟨mem_layout_append₃.mpr (.inl hx), by omega⟩
      · rw [layout_cons, layout_nil, mem_singleton] at hx
        rw [hx] at hal
        cases hal
      · have hle' := le_of_mem_layout Block.size hx
        rw [total_append, total_cons, total_nil] at hle'
        exact ⟨mem_layout_append₃.mpr (.inr (.inr hx)), by omega⟩
    exact hi.nodup.mem_erase_iff.mpr ⟨hin.2, hi.complete x hin.1 hal⟩
  obtain ⟨bs', fl', hi₃, hk₃, c, hc⟩ := inv_splitBlock hi₂ rfl hmod hmin
    (hle.trans_eq hsize) fun y hy => (hhead y hy).resolve_left (by simp [hfree])
  rw [hstart₂] at hi₃ hk₃ hc
  refine ⟨bs', fl', hi₃, fun p x hx hal hp => ?_, c, hc⟩
  obtain ⟨hx₂, hsame₂⟩ := ((hk₁ p).trans (hk₂ p)) x hx hal hp
  obtain ⟨hx₃, hsame₃⟩ := hk₃ x hx₂ hal (hother x hx hal)
  exact ⟨hx₃, fun c hlo hhi => (hsame₃ c hlo hhi).trans (hsame₂ c hlo hhi)⟩

/-! ## Extending the heap -/

/-- The heap grows by a block that takes the place of the epilogue, or by a larger last
block, and gets a new epilogue. -/
theorem restacks_extend {m : Block} {incr : Nat} (hs : h.Shape (pre ++ mid ++ []) fl)
    (hm : m.size = total Block.size mid + incr) (hfree : m.alloc = false)
    (hfl : ∀ a ∈ fl, ∀ c, (a, c) ∈ Lib.layout Block.size (h.heapStart + total Block.size pre) mid →
      a = h.heapStart + total Block.size pre)
    (hroom : h.memBrk + incr ≤ h.memMaxAddr) :
    Restacks h (({ h with memBrk := h.memBrk + incr }.writeTags
        (h.heapStart + total Block.size pre) m).writeHeader
          (h.heapStart + total Block.size pre + m.size) 0 true) pre mid [m] [] fl := by
  have hbrk := hs.memBrk
  have haddr := hs.addr
  have hlarge := m.large
  have hsum : total Block.size (pre ++ mid ++ []) = total Block.size pre + total Block.size mid := by
    rw [append_nil, total_append]
  have hsum' : total Block.size (pre ++ [m] ++ []) = total Block.size pre + m.size := by
    rw [append_nil, total_append, total_cons, total_nil, Nat.add_zero]
  have hmid : total Block.size (pre ++ mid) = total Block.size pre + total Block.size mid :=
    total_append ..
  have hlt : m.size < 2 ^ 64 := by omega
  have hmem : ∀ c, c ≠ h.heapStart + total Block.size pre + m.size →
      (({ h with memBrk := h.memBrk + incr }.writeTags
        (h.heapStart + total Block.size pre) m).writeHeader
          (h.heapStart + total Block.size pre + m.size) 0 true).mem c =
      if c = h.heapStart + total Block.size pre ∨ c = h.heapStart + total Block.size pre + m.size - 8
        then m.tag else h.mem c := by
    intro c hc
    simp only [Heap.writeHeader, Heap.write, update_of_ne hc]
    exact writeTags_mem hlt _ _ c
  refine ⟨⟨hs.pos, hs.aligned, hs.max, hs.addr, hs.start, hroom⟩, rfl, rfl, ?_, ?_, .inl rfl,
    fun a ha => ?_, fun a ha => ?_, fun x hx => ?_, fun a ha c hc => ?_⟩
  · show h.memBrk + incr = _
    omega
  · rw [hsum', ← Nat.add_assoc]
    simp [Heap.writeHeader, Heap.write]
  · rw [hmem a (by omega), if_neg (by omega)]
  · have hcell : ∀ i, i = 8 ∨ i = 16 → a + i < h.heapStart + total Block.size pre ∨
        (a = h.heapStart + total Block.size pre) := by
      intro i hi
      obtain ⟨c, hc, -⟩ := hs.free a ha
      have hcl := c.large
      rcases mem_layout_append₃.mp hc with hc | hc | hc
      · have hend := end_le_of_mem_layout Block.size hc
        exact .inl (by omega)
      · exact .inr (hfl a ha c hc)
      · cases hc
    have h8 := hcell 8 (.inl rfl)
    have h16 := hcell 16 (.inr rfl)
    refine ⟨?_, ?_⟩
    · rw [Heap.prev, hmem _ (by omega), if_neg (by omega)]
      rfl
    · rw [Heap.next, hmem _ (by omega), if_neg (by omega)]
      rfl
  · rw [layout_cons, layout_nil, mem_singleton] at hx
    rw [hx]
    refine ⟨?_, ?_⟩
    · rw [hmem _ (by dsimp only; omega), if_pos (.inl rfl)]
    · rw [hmem _ (by dsimp only; omega), if_pos (.inr rfl)]
  · refine ⟨m, ?_, hfree⟩
    rw [hfl a ha c hc]
    simp

theorem insertBlock_write {e v : Nat} (h8 : e ≠ a + 8) (h16 : e ≠ a + 16)
    (hhead : h.freeListHead ≠ 0 → e ≠ h.freeListHead + 8) :
    (h.insertBlock a).write e v = (h.write e v).insertBlock a := by
  have hmem : ∀ c, ((h.insertBlock a).write e v).mem c = ((h.write e v).insertBlock a).mem c := by
    intro c
    rw [insertBlock_mem]
    simp only [Heap.write, update_apply]
    rw [insertBlock_mem]
    split_ifs <;> first | rfl | (exfalso; tauto) | omega
  calc (h.insertBlock a).write e v
      = { h with mem := ((h.insertBlock a).write e v).mem, freeListHead := a } := by
        rw [insertBlock_eq]
        rfl
    _ = { h with mem := ((h.write e v).insertBlock a).mem, freeListHead := a } := by
        rw [funext hmem]
    _ = (h.write e v).insertBlock a := (insertBlock_eq (h.write e v) a).symm

/-- The last block, the new block and the epilogue in the extended heap are where the source
looks for them. -/
theorem payloadToHeader_memBrk (hs : h.Shape bs fl) :
    payloadToHeader h.memBrk = h.heapStart + total Block.size bs := by
  rw [payloadToHeader, hs.memBrk]
  omega

/-- The heap is extended by exactly `chunksize` bytes. -/
theorem chunksize_eq : (if roundUp chunksize dsize < minBlockSize then minBlockSize
    else roundUp chunksize dsize) = 4096 := by decide

theorem extendHeap_none (hfull : h.memMaxAddr < h.memBrk + 4096) :
    h.extendHeap chunksize = none := by
  unfold Heap.extendHeap
  dsimp only
  rw [chunksize_eq, Heap.memSbrk, if_pos hfull]

/-- `find_next` of a block reads its tag. -/
theorem findNext_of_tag {m : Block} (hlt : m.size < 2 ^ 64) (htag : h.mem a = m.tag) :
    h.findNext a = a + m.size := by
  rw [Heap.findNext, Heap.getSize, htag, Block.tag, extractSize_pack m.aligned hlt]

/-- The last block is allocated, or there is none: the new block goes into the free list. -/
theorem extendHeap_alloc (hs : h.Shape bs fl) (hroom : h.memBrk + 4096 ≤ h.memMaxAddr)
    (hlast : h.getAlloc (h.findPrev (h.heapStart + total Block.size bs)) = true) {m : Block}
    (hm : m.size = 4096) (hfree : m.alloc = false) :
    h.extendHeap chunksize = some
      ((({ h with memBrk := h.memBrk + 4096 }.writeTags (h.heapStart + total Block.size bs)
        m).writeHeader (h.heapStart + total Block.size bs + m.size) 0 true).insertBlock
          (h.heapStart + total Block.size bs), h.heapStart + total Block.size bs) := by
  have hlt : m.size < 2 ^ 64 := by omega
  -- the cells of the old list are below the new block
  have hhead : h.freeListHead ≠ 0 → h.freeListHead + 8 < h.heapStart + total Block.size bs := by
    intro hne
    obtain ⟨c, hc, -⟩ := hs.free _ (hs.freeListHead_mem hne)
    have hbd := hs.bounds hc
    have hcl := c.large
    dsimp only at hbd
    omega
  unfold Heap.extendHeap
  dsimp only
  rw [chunksize_eq, Heap.memSbrk, if_neg (by omega)]
  dsimp only
  rw [payloadToHeader_memBrk hs, if_neg (by
    show ¬ h.getAlloc (h.findPrev _) = false
    simp [hlast])]
  generalize hn : h.heapStart + total Block.size bs = n at *
  have hfold : ({ h with memBrk := h.memBrk + 4096 }.writeHeader n 4096 false).writeFooter n 4096
      false = { h with memBrk := h.memBrk + 4096 }.writeTags n m := by
    rw [Heap.writeTags, hm, hfree]
  have htag := (writeTags_tagged hlt { h with memBrk := h.memBrk + 4096 } n).1
  rw [hfold]
  have hkept : (({ h with memBrk := h.memBrk + 4096 }.writeTags n m).insertBlock n).mem n = m.tag := by
    rw [insertBlock_mem, if_neg, if_neg (by omega), if_neg (by omega)]
    · exact htag
    · rintro ⟨hne, heq⟩
      have hlow : h.freeListHead + 8 < n := hhead hne
      have heq' : n = h.freeListHead + 8 := heq
      omega
  rw [findNext_of_tag hlt hkept]
  have hwrite := insertBlock_write (h := { h with memBrk := h.memBrk + 4096 }.writeTags n m)
    (a := n) (e := n + m.size) (v := pack 0 true) (by omega) (by omega) fun hne => by
      have hlow : h.freeListHead + 8 < n := hhead hne
      show n + m.size ≠ h.freeListHead + 8
      omega
  exact congrArg (fun h' => some (h', n)) hwrite

/-- The last block is free: it grows. -/
theorem extendHeap_free {c m : Block} (hs : h.Shape (pre ++ [c] ++ []) fl)
    (hroom : h.memBrk + 4096 ≤ h.memMaxAddr)
    (hprev : h.findPrev (h.heapStart + total Block.size (pre ++ [c])) =
      h.heapStart + total Block.size pre)
    (hlast : h.getAlloc (h.heapStart + total Block.size pre) = false)
    (hm : m.size = c.size + 4096) (hfree : m.alloc = false) :
    h.extendHeap chunksize = some
      (({ h with memBrk := h.memBrk + 4096 }.writeTags (h.heapStart + total Block.size pre)
        m).writeHeader (h.heapStart + total Block.size pre + m.size) 0 true,
          h.heapStart + total Block.size pre) := by
  have hbrk := hs.memBrk
  have haddr := hs.addr
  have hmem := mem_layout_middle h pre [] c
  have hbd := (hs.bounds hmem).2.2.2
  dsimp only at hbd
  have hlt : m.size < 2 ^ 64 := by omega
  have hsize := getSize_middle hs
  have hhead := payloadToHeader_memBrk hs
  rw [append_nil] at hhead
  unfold Heap.extendHeap
  dsimp only
  rw [chunksize_eq, Heap.memSbrk, if_neg (by omega)]
  dsimp only
  have hprev' : { h with memBrk := h.memBrk + 4096 }.findPrev
      (h.heapStart + total Block.size (pre ++ [c])) = h.heapStart + total Block.size pre := hprev
  rw [hhead, hprev', if_pos (by exact hlast)]
  generalize hn : h.heapStart + total Block.size pre = n at *
  have hsize' : { h with memBrk := h.memBrk + 4096 }.getSize n = c.size := hsize
  have hsum : sizeT (c.size + 4096) = m.size := by
    rw [hm]
    exact sizeT_of_lt (by omega)
  rw [hsize', hsum]
  have hfold : ({ h with memBrk := h.memBrk + 4096 }.writeHeader n m.size false).writeFooter n m.size
      false = { h with memBrk := h.memBrk + 4096 }.writeTags n m := by
    rw [Heap.writeTags, hfree]
  have htag := (writeTags_tagged hlt { h with memBrk := h.memBrk + 4096 } n).1
  dsimp only at htag
  rw [hfold, findNext_of_tag hlt htag]

/-- What a call that allocates nothing leaves behind. -/
structure Extends (h : Heap) (bs : List Block) (h' : Heap) (bs' : List Block) (fl' : List Nat) :
    Prop where
  inv : h'.Inv bs' fl'
  keeps : ∀ p, Keeps p h bs h' bs'
  memBrk : h'.memBrk = h.memBrk + 4096
  memMaxAddr : h'.memMaxAddr = h.memMaxAddr

theorem extends_alloc {m : Block} (hi : h.Inv bs fl) (hroom : h.memBrk + 4096 ≤ h.memMaxAddr)
    (hlast : ∀ x ∈ bs.getLast?, x.alloc = true) (hm : m.size = 4096) (hfree : m.alloc = false) :
    Extends h bs ((({ h with memBrk := h.memBrk + 4096 }.writeTags
      (h.heapStart + total Block.size bs) m).writeHeader
        (h.heapStart + total Block.size bs + m.size) 0 true).insertBlock
          (h.heapStart + total Block.size bs)) (bs ++ [m] ++ [])
      ((h.heapStart + total Block.size bs) :: fl) := by
  have hnil : bs ++ [] ++ [] = bs := by simp
  have hr : Restacks h _ bs [] [m] [] fl := restacks_extend (hnil.symm ▸ hi.toShape) (by simp [hm]) hfree
    (fun a _ c hc => by cases hc) hroom
  have hs₁ := hr.shape (hnil.symm ▸ hi.toShape)
  have hk₁ := fun p => hr.keeps (p := p) (hnil.symm ▸ hi.toShape) fun x hx => by cases hx
  rw [hnil] at hk₁
  have hbrk₁ : (({ h with memBrk := h.memBrk + 4096 }.writeTags
      (h.heapStart + total Block.size bs) m).writeHeader
        (h.heapStart + total Block.size bs + m.size) 0 true).memBrk = h.memBrk + 4096 := rfl
  have hmax₁ : (({ h with memBrk := h.memBrk + 4096 }.writeTags
      (h.heapStart + total Block.size bs) m).writeHeader
        (h.heapStart + total Block.size bs + m.size) 0 true).memMaxAddr = h.memMaxAddr := rfl
  generalize ({ h with memBrk := h.memBrk + 4096 }.writeTags
      (h.heapStart + total Block.size bs) m).writeHeader
        (h.heapStart + total Block.size bs + m.size) 0 true = h₁ at *
  have hmem : (h.heapStart + total Block.size bs, m) ∈ h₁.layout (bs ++ [m] ++ []) :=
    (hr.mem_layout hi.toArena).mpr (.inr (.inl (by simp)))
  have hnot : h.heapStart + total Block.size bs ∉ fl := by
    intro hin
    obtain ⟨c, hc, -⟩ := hi.free _ hin
    have hbd := (hi.bounds hc).2.1
    have hcl := c.large
    dsimp only at hbd
    omega
  have hs₂ := shape_insertBlock hs₁ hmem hfree hnot
  have hr₂ := relinks_insertBlock hs₁ hmem hfree
  refine ⟨⟨hs₂, fun x hx hal => ?_, ?_⟩, fun p => (hk₁ p).trans (hr₂.keeps hs₁ p), ?_, ?_⟩
  · rw [hr₂.layout hs₁.toArena] at hx
    rcases (hr.mem_layout hi.toArena).mp hx with hx | hx | hx
    · exact mem_cons_of_mem _ (hi.complete x hx hal)
    · rw [layout_cons, layout_nil, mem_singleton] at hx
      rw [hx]
      exact mem_cons_self
    · cases hx
  · exact coalesced_append_iff.mpr ⟨hi.coalesced, isChain_nil,
      fun x hx => .inl (hlast x hx), by simp⟩
  · rw [hr₂.memBrk, hbrk₁]
  · rw [insertBlock_eq]
    exact hmax₁

theorem extends_free {c m : Block} (hi : h.Inv (pre ++ [c]) fl)
    (hroom : h.memBrk + 4096 ≤ h.memMaxAddr) (hc : c.alloc = false)
    (hm : m.size = c.size + 4096) (hfree : m.alloc = false) :
    Extends h (pre ++ [c]) (({ h with memBrk := h.memBrk + 4096 }.writeTags
      (h.heapStart + total Block.size pre) m).writeHeader
        (h.heapStart + total Block.size pre + m.size) 0 true) (pre ++ [m] ++ []) fl := by
  have hnil : pre ++ [c] ++ [] = pre ++ [c] := by simp
  have hmem : (h.heapStart + total Block.size pre, c) ∈ h.layout (pre ++ [c]) := by
    rw [← hnil]
    exact mem_layout_middle h pre [] c
  have hr : Restacks h _ pre [c] [m] [] fl := restacks_extend (hnil.symm ▸ hi.toShape) (by simp [hm]) hfree
    (fun a _ d hd => by
      rw [layout_cons, layout_nil, mem_singleton] at hd
      cases hd
      rfl) hroom
  have hs₁ := hr.shape (hnil.symm ▸ hi.toShape)
  have hk₁ := fun p => hr.keeps (p := p) (hnil.symm ▸ hi.toShape) fun x hx hal => by
    rw [layout_cons, layout_nil, mem_singleton] at hx
    rw [hx, hc] at hal
    cases hal
  rw [hnil] at hk₁
  obtain ⟨hpre, hlast⟩ := hi.coalesced.concat_free hc
  refine ⟨⟨hs₁, fun x hx hal => ?_, ?_⟩, hk₁, rfl, rfl⟩
  · rcases (hr.mem_layout hi.toArena).mp hx with hx | hx | hx
    · refine hi.complete x ?_ hal
      rw [Heap.layout, layout_append]
      exact mem_append_left _ hx
    · rw [layout_cons, layout_nil, mem_singleton] at hx
      rw [hx]
      show h.heapStart + total Block.size pre ∈ fl
      exact hi.complete (_, c) hmem hc
    · cases hx
  · exact coalesced_append_iff.mpr ⟨hpre, isChain_nil, fun x hx => .inl (hlast x hx), by simp⟩

/-- `extend_heap` with room for a chunk: there is a free block afterwards. -/
theorem extendHeap_spec (hi : h.Inv bs fl) (hroom : h.memBrk + 4096 ≤ h.memMaxAddr) :
    ∃ h' r bs' fl', h.extendHeap chunksize = some (h', r) ∧ Extends h bs h' bs' fl' ∧ fl' ≠ [] := by
  have hs : h.Shape (bs ++ []) fl := by
    rw [append_nil]
    exact hi.toShape
  rcases before_cases hs with ⟨hlast, hall⟩ | ⟨pre, c, rfl, hc, hprev, hlast⟩
  · obtain ⟨m, hm, hfree⟩ : ∃ m : Block, m.size = 4096 ∧ m.alloc = false :=
      ⟨⟨4096, false, by decide, by decide⟩, rfl, rfl⟩
    exact ⟨_, _, _, _, extendHeap_alloc hi.toShape hroom hlast hm hfree,
      extends_alloc hi hroom hall hm hfree, cons_ne_nil _ _⟩
  · have hca := c.aligned
    have hcl := c.large
    obtain ⟨m, hm, hfree⟩ : ∃ m : Block, m.size = c.size + 4096 ∧ m.alloc = false :=
      ⟨⟨c.size + 4096, false, by omega, by omega⟩, rfl, rfl⟩
    have hmem : (h.heapStart + total Block.size pre, c) ∈ h.layout (pre ++ [c]) := by
      have hmiddle := mem_layout_middle h pre [] c
      rwa [append_nil] at hmiddle
    exact ⟨_, _, _, _, extendHeap_free hs hroom hprev hlast hm hfree,
      extends_free hi hroom hc hm hfree, ne_nil_of_mem (hi.complete _ hmem hc)⟩

theorem inv_extendHeap (hi : h.Inv bs fl) (hroom : h.memBrk + 4096 ≤ h.memMaxAddr) :
    ∃ h' r bs' fl', h.extendHeap chunksize = some (h', r) ∧ Extends h bs h' bs' fl' := by
  obtain ⟨h', r, bs', fl', hrun, hext, -⟩ := extendHeap_spec hi hroom
  exact ⟨h', r, bs', fl', hrun, hext⟩

/-! ## The first heap -/

/-- The area as `mem_init` leaves it. -/
structure Heap.Fresh (h : Heap) : Prop where
  pos : 0 < h.memStartBrk
  aligned : h.memStartBrk % 16 = 0
  max : h.memMaxAddr = h.memStartBrk + maxHeap
  addr : h.memMaxAddr ≤ 2 ^ 64
  brk : h.memBrk = h.memStartBrk

/-- The heap with prologue and epilogue only. -/
def Heap.bare (h : Heap) : Heap where
  mem := Function.update (Function.update h.mem h.memBrk (pack 0 true)) (h.memBrk + 8) (pack 0 true)
  memStartBrk := h.memStartBrk
  memBrk := h.memBrk + 16
  memMaxAddr := h.memMaxAddr
  heapStart := h.memBrk + 8
  freeListHead := 0

theorem mmInit_eq (hroom : h.memBrk + 16 ≤ h.memMaxAddr) : h.mmInit =
    match h.bare.extendHeap chunksize with
    | none => (h.bare, -1)
    | some (h₃, _) => (h₃, 0) := by
  unfold Heap.mmInit
  dsimp only
  rw [Heap.memSbrk, if_neg (Nat.not_lt.mpr hroom)]
  rfl

theorem inv_bare (hf : h.Fresh) : h.bare.Inv [] [] := by
  have hmax := hf.max
  simp only [maxHeap] at hmax
  have hbrk := hf.brk
  have hpro : h.bare.mem h.memStartBrk = pack 0 true := by
    simp [Heap.bare, hbrk]
  refine ⟨⟨⟨hf.pos, hf.aligned, hf.max, hf.addr, ?_, ?_⟩, rfl, hpro, ?_, ?_, rfl, ?_, ?_⟩, ?_, ?_⟩
  · show h.memBrk + 8 = h.memStartBrk + 8
    rw [hbrk]
  · show h.memBrk + 16 ≤ h.memMaxAddr
    omega
  · simp [Heap.bare]
  · intro x hx
    cases hx
  · intro a ha
    cases ha
  · exact nodup_nil
  · intro x hx
    cases hx
  · exact isChain_nil

/-- `mm_init` succeeds and sets up the invariant. -/
theorem inv_mmInit (hf : h.Fresh) : h.mmInit.2 = 0 ∧ ∃ bs fl, h.mmInit.1.Inv bs fl := by
  have hmax := hf.max
  simp only [maxHeap] at hmax
  have hbrk := hf.brk
  obtain ⟨h', r, bs', fl', hext, hi⟩ := inv_extendHeap (inv_bare hf) (by
    show h.memBrk + 16 + 4096 ≤ h.memMaxAddr
    omega)
  rw [mmInit_eq (by omega), hext]
  exact ⟨rfl, bs', fl', hi.inv⟩

/-! ## Allocating -/

/-- The block for a request is aligned and has room for it. -/
theorem requestSize_spec {size : Nat} (hs : size ≤ 2 ^ 64 - 32) : Heap.requestSize size % 16 = 0 ∧
    32 ≤ Heap.requestSize size ∧ size + 16 ≤ Heap.requestSize size := by
  unfold Heap.requestSize
  by_cases hle : size ≤ dsize
  · rw [if_pos hle]
    simp only [dsize, minBlockSize] at hle ⊢
    exact ⟨trivial, le_refl _, by omega⟩
  · rw [if_neg hle]
    simp only [dsize, roundUp, sizeT] at hle ⊢
    have h₁ : (size + 16) % 2 ^ 64 = size + 16 := Nat.mod_eq_of_lt (by omega)
    have h₂ : (size + 16 + (16 - 1)) % 2 ^ 64 = size + 31 := Nat.mod_eq_of_lt (by omega)
    have h₃ : 16 * ((size + 31) / 16) % 2 ^ 64 = 16 * ((size + 31) / 16) :=
      Nat.mod_eq_of_lt (by omega)
    rw [h₁, h₂, h₃]
    omega

/-- What `mm_malloc` leaves behind: `NULL`, or the payload of a block that has room for the
request and was not allocated before. -/
structure Allocates (h : Heap) (bs : List Block) (size : Nat) (h' : Heap) (p : Nat)
    (bs' : List Block) (fl' : List Nat) : Prop where
  inv : h'.Inv bs' fl'
  keeps : ∀ q, Keeps q h bs h' bs'
  result : p = 0 ∨ ∃ a c, p = a + 8 ∧ (a, c) ∈ h'.layout bs' ∧ c.alloc = true ∧
    size + 16 ≤ c.size ∧ ∀ x ∈ h.layout bs, x.2.alloc = true → x.1 ≠ a

theorem inv_mmMallocLoop {size fuel : Nat} (hi : h.Inv bs fl) (hsize : size ≤ 2 ^ 64 - 32)
    (hfuel : h.memMaxAddr - h.memBrk < fuel) : ∃ h' p bs' fl',
    Heap.mmMallocLoop fuel h size = some (h', p) ∧ Allocates h bs size h' p bs' fl' := by
  induction fuel generalizing h bs fl with
  | zero => omega
  | succ fuel ih =>
    unfold Heap.mmMallocLoop
    split
    · exact ⟨h, 0, bs, fl, rfl, hi, fun q => Keeps.refl q h bs, .inl rfl⟩
    obtain ⟨hmod, hmin, hroom⟩ := requestSize_spec hsize
    obtain ⟨r, hfit, ⟨rfl, -⟩ | ⟨hr, hle, -⟩⟩ := findFit_spec hi.toShape (Heap.requestSize size)
    · -- no block fits: extend the heap and try again
      rw [hfit]
      by_cases hfull : h.memMaxAddr < h.memBrk + 4096
      · rw [extendHeap_none hfull]
        exact ⟨h, 0, bs, fl, rfl, hi, fun q => Keeps.refl q h bs, .inl rfl⟩
      · obtain ⟨h₁, r₁, bs₁, fl₁, hext, he⟩ := inv_extendHeap hi (Nat.not_lt.mp hfull)
        have hbrk := he.memBrk
        have hmax := he.memMaxAddr
        obtain ⟨h', p, bs', fl', hloop, hal⟩ := ih he.inv (by omega)
        rw [hext]
        refine ⟨h', p, bs', fl', hloop, hal.inv, fun q => (he.keeps q).trans (hal.keeps q), ?_⟩
        rcases hal.result with hp | ⟨a, c, hp, hc, hca, hcs, hnew⟩
        · exact .inl hp
        · refine .inr ⟨a, c, hp, hc, hca, hcs, fun x hx hxa heq => ?_⟩
          have hxpos := (hi.bounds hx).1
          have hstart := hi.start
          -- an allocated block of the old heap is one of the extended heap
          exact hnew x (he.keeps 0 x hx hxa (by omega)).1 hxa heq
    · have hr0 := (hi.mod_of_mem hr).2
      obtain ⟨bs', fl', hinv, hkeeps, c, hc, hca, hcs⟩ := inv_place hi hr hmod hmin hle
      refine ⟨(h.place r (Heap.requestSize size)).1, r + 8, bs', fl', ?_, hinv, hkeeps, ?_⟩
      · rw [hfit]
        split
        · cases ‹some r = none›
        · exact absurd (Option.some.inj ‹some r = some 0›) hr0
        · rename_i heq
          rw [← Option.some.inj heq]
          rfl
      · refine .inr ⟨r, c, rfl, hc, hca, by omega, fun x hx hxa heq => ?_⟩
        obtain ⟨b, hb, hfree⟩ := hi.free r hr
        rw [hi.eq_of_addr hx hb heq, hfree] at hxa
        cases hxa

/-- `mm_malloc` returns. -/
theorem inv_mmMalloc {size : Nat} (hi : h.Inv bs fl) (hsize : size ≤ 2 ^ 64 - 32) :
    ∃ h' p bs' fl',
    h.mmMalloc size = some (h', p) ∧ Allocates h bs size h' p bs' fl' :=
  inv_mmMallocLoop hi hsize (Nat.lt_succ_self _)

end PittCs.MallocLab
