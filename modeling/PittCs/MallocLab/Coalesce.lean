import PittCs.MallocLab.FreeList

/-!
# The invariant and coalescing

The invariant of the allocator: the blocks tile the heap, no two neighbours are both free,
and the free list has every free block. `coalesce_block` restores it around a block that
has just been freed, without writing to an allocated block.
-/

namespace PittCs.MallocLab

open PittCs.Lib List

/-- No two neighbours are both free. -/
def Coalesced (bs : List Block) : Prop := bs.IsChain fun b c => b.alloc = true ∨ c.alloc = true

/-- The free list has every free block. -/
def Heap.Complete (h : Heap) (bs : List Block) (fl : List Nat) : Prop :=
  ∀ x ∈ h.layout bs, x.2.alloc = false → x.1 ∈ fl

/-- The invariant between calls. -/
structure Heap.Inv (h : Heap) (bs : List Block) (fl : List Nat) : Prop extends h.Shape bs fl where
  complete : h.Complete bs fl
  coalesced : Coalesced bs

variable {h : Heap} {bs pre mid post : List Block} {fl : List Nat} {a : Nat} {b m : Block}

theorem coalesced_append_iff : Coalesced (pre ++ [m] ++ post) ↔ Coalesced pre ∧ Coalesced post ∧
    (∀ x ∈ pre.getLast?, x.alloc = true ∨ m.alloc = true) ∧
    (∀ y ∈ post.head?, m.alloc = true ∨ y.alloc = true) := by
  simp only [Coalesced, isChain_append, isChain_singleton, true_and]
  constructor
  · rintro ⟨⟨hpre, hl⟩, hpost, hr⟩
    exact ⟨hpre, hpost, fun x hx => hl x hx m rfl, fun y hy => hr m (by simp) y hy⟩
  · rintro ⟨hpre, hpost, hl, hr⟩
    refine ⟨⟨hpre, fun x hx y hy => ?_⟩, hpost, fun x hx y hy => ?_⟩
    · obtain rfl : m = y := by simpa using hy
      exact hl x hx
    · obtain rfl : m = x := by simpa using hx
      exact hr y hy

/-! ## Neighbours -/

theorem mem_layout_middle (h : Heap) (pre post : List Block) (b : Block) :
    (h.heapStart + total Block.size pre, b) ∈ h.layout (pre ++ [b] ++ post) :=
  (mem_layout_iff Block.size).mpr ⟨pre, post, by simp, rfl⟩

theorem getSize_middle (hs : h.Shape (pre ++ [b] ++ post) fl) :
    h.getSize (h.heapStart + total Block.size pre) = b.size :=
  hs.getSize (mem_layout_middle h pre post b)

theorem getAlloc_middle (hs : h.Shape (pre ++ [b] ++ post) fl) :
    h.getAlloc (h.heapStart + total Block.size pre) = b.alloc :=
  hs.getAlloc (mem_layout_middle h pre post b)

theorem exists_of_mem_layout (hx : (a, b) ∈ h.layout bs) : ∃ pre post,
    bs = pre ++ [b] ++ post ∧ a = h.heapStart + total Block.size pre := by
  obtain ⟨pre, post, hbs, ho⟩ := (mem_layout_iff Block.size).mp hx
  exact ⟨pre, post, by simpa using hbs, ho⟩

/-- What `find_next` sees behind a block: the epilogue or an allocated block, or a free
block. -/
theorem after_cases (hs : h.Shape (pre ++ [b] ++ post) fl) :
    (h.getAlloc (h.findNext (h.heapStart + total Block.size pre)) = true ∧
      ∀ y ∈ post.head?, y.alloc = true) ∨
    ∃ d post', post = d :: post' ∧ d.alloc = false ∧
      h.findNext (h.heapStart + total Block.size pre) =
        h.heapStart + total Block.size (pre ++ [b]) ∧
      h.getAlloc (h.heapStart + total Block.size (pre ++ [b])) = false := by
  have hnext : h.findNext (h.heapStart + total Block.size pre) =
      h.heapStart + total Block.size (pre ++ [b]) := by
    rw [Heap.findNext, getSize_middle hs, total_append, total_cons, total_nil]
    omega
  rw [hnext]
  cases post with
  | nil =>
    refine .inl ⟨?_, by simp⟩
    have hep := hs.epilogue
    rw [append_nil] at hep
    rw [Heap.getAlloc, hep]
    exact extractAlloc_pack rfl _
  | cons d post' =>
    rw [append_cons] at hs
    have hd := getAlloc_middle hs
    cases hal : d.alloc with
    | true => exact .inl ⟨hd.trans hal, by simp [hal]⟩
    | false => exact .inr ⟨d, post', rfl, hal, rfl, hd.trans hal⟩

/-- What `find_prev` sees before a block: the prologue or an allocated block, or a free
block. -/
theorem before_cases (hs : h.Shape (pre ++ post) fl) :
    (h.getAlloc (h.findPrev (h.heapStart + total Block.size pre)) = true ∧
      ∀ x ∈ pre.getLast?, x.alloc = true) ∨
    ∃ pre' c, pre = pre' ++ [c] ∧ c.alloc = false ∧
      h.findPrev (h.heapStart + total Block.size pre) = h.heapStart + total Block.size pre' ∧
      h.getAlloc (h.heapStart + total Block.size pre') = false := by
  rcases eq_nil_or_concat' pre with rfl | ⟨pre', c, rfl⟩
  · -- the footer of the prologue has size 0 and stands for the block
    refine .inl ⟨?_, by simp⟩
    have hfoot : findPrevFooter (h.heapStart + total Block.size ([] : List Block)) =
        h.memStartBrk := by
      rw [findPrevFooter, hs.start, total_nil]
      omega
    rw [Heap.findPrev, hfoot, hs.prologue, extractSize_pack rfl (by decide), if_pos rfl,
      Heap.getAlloc, hs.prologue]
    exact extractAlloc_pack rfl _
  · have hmem := mem_layout_middle h pre' post c
    have hlarge := c.large
    have hfoot : findPrevFooter (h.heapStart + total Block.size (pre' ++ [c])) =
        h.heapStart + total Block.size pre' + c.size - 8 := by
      rw [findPrevFooter, total_append, total_cons, total_nil]
      omega
    have hprev : h.findPrev (h.heapStart + total Block.size (pre' ++ [c])) =
        h.heapStart + total Block.size pre' := by
      have htag := (hs.tags _ hmem).2
      have hsize := extractSize_pack c.aligned (hs.size_lt hmem) c.alloc
      rw [Heap.findPrev, hfoot, htag, Block.tag, hsize, if_neg (by omega), total_append,
        total_cons, total_nil]
      omega
    have hc := getAlloc_middle hs
    cases hal : c.alloc with
    | true => exact .inl ⟨by rw [hprev, hc, hal], by simp [hal]⟩
    | false => exact .inr ⟨pre', c, rfl, hal, hprev, hc.trans hal⟩

/-! ## Coalescing -/

/-- `remove_block`, for a list that is searched for the block. -/
theorem shape_removeBlock_erase (hs : h.Shape bs fl) (ha : a ∈ fl) :
    (h.removeBlock a).Shape bs (fl.erase a) ∧ Relinks h (h.removeBlock a) bs := by
  obtain ⟨xs, ys, rfl⟩ := append_of_mem ha
  have hnot : a ∉ xs := fun hmem => by
    have := (nodup_append.mp hs.nodup).2.2 a hmem a mem_cons_self
    exact this rfl
  rw [erase_append_right _ hnot, erase_cons_head]
  exact ⟨shape_removeBlock hs, relinks_removeBlock hs⟩

/-- Free blocks that lie next to each other are written over by one block, when the first
of them is in the free list and the others have left it. -/
theorem merge_spec (hs : h.Shape (pre ++ mid ++ post) fl) (hm : m.size = total Block.size mid)
    (hfree : m.alloc = false) (hmid : ∀ c ∈ mid, c.alloc = false)
    (hlo : h.heapStart + total Block.size pre ∈ fl)
    (hfl : ∀ x ∈ Lib.layout Block.size (h.heapStart + total Block.size pre) mid, x.1 ∈ fl →
      x.1 = h.heapStart + total Block.size pre)
    (hout : ∀ x ∈ h.layout (pre ++ mid ++ post), x.2.alloc = false →
      x ∉ Lib.layout Block.size (h.heapStart + total Block.size pre) mid → x.1 ∈ fl) :
    (h.writeTags (h.heapStart + total Block.size pre) m).Shape (pre ++ [m] ++ post) fl ∧
    (h.writeTags (h.heapStart + total Block.size pre) m).Complete (pre ++ [m] ++ post) fl ∧
    ∀ p, Keeps p h (pre ++ mid ++ post)
      (h.writeTags (h.heapStart + total Block.size pre) m) (pre ++ [m] ++ post) := by
  have hr := restacks_writeTags hs hm fun a ha c hc => ⟨hfl (a, c) hc ha, hfree⟩
  have hdisj : ∀ x, x ∈ Lib.layout Block.size h.heapStart pre ∨
      x ∈ Lib.layout Block.size (h.heapStart + total Block.size (pre ++ mid)) post →
      x ∉ Lib.layout Block.size (h.heapStart + total Block.size pre) mid := by
    intro x hx hin
    have hxl := x.2.large
    have hle := le_of_mem_layout Block.size hin
    have hend := end_le_of_mem_layout Block.size hin
    rcases hx with hx | hx
    · have := end_le_of_mem_layout Block.size hx
      omega
    · have := le_of_mem_layout Block.size hx
      rw [total_append] at this
      omega
  refine ⟨hr.shape hs, fun x hx hal => ?_, fun p => hr.keeps hs fun x hx hal => ?_⟩
  · rcases (hr.mem_layout hs.toArena).mp hx with hx | hx | hx
    · exact hout x (mem_layout_append₃.mpr (.inl hx)) hal (hdisj x (.inl hx))
    · rw [layout_cons, layout_nil, mem_singleton] at hx
      rw [hx]
      exact hlo
    · exact hout x (mem_layout_append₃.mpr (.inr (.inr hx))) hal (hdisj x (.inr hx))
  · rw [hmid x.2 (mem_of_mem_layout Block.size hx)] at hal
    cases hal

/-- The same with the invariant restored: the neighbours of the stretch are allocated. -/
theorem inv_merge {c : Block} {rest : List Block} (hs : h.Shape (pre ++ c :: rest ++ post) fl)
    (hm : m.size = total Block.size (c :: rest)) (hfree : m.alloc = false)
    (hmid : ∀ d ∈ c :: rest, d.alloc = false)
    (hcomp : ∀ x ∈ h.layout (pre ++ c :: rest ++ post), x.2.alloc = false → x.1 ∈ fl ∨
      x ∈ Lib.layout Block.size (h.heapStart + total Block.size pre + c.size) rest)
    (hgone : ∀ x ∈ Lib.layout Block.size (h.heapStart + total Block.size pre + c.size) rest,
      x.1 ∉ fl)
    (hpre : Coalesced pre) (hpost : Coalesced post) (hlast : ∀ x ∈ pre.getLast?, x.alloc = true)
    (hhead : ∀ y ∈ post.head?, y.alloc = true) :
    (h.writeTags (h.heapStart + total Block.size pre) m).Inv (pre ++ [m] ++ post) fl ∧
    ∀ p, Keeps p h (pre ++ c :: rest ++ post)
      (h.writeTags (h.heapStart + total Block.size pre) m) (pre ++ [m] ++ post) := by
  have hlarge := c.large
  have hlo : h.heapStart + total Block.size pre ∈ fl := by
    have hmem : (h.heapStart + total Block.size pre, c) ∈ h.layout (pre ++ c :: rest ++ post) := by
      have := mem_layout_middle h pre (rest ++ post) c
      simpa using this
    refine (hcomp _ hmem (hmid c mem_cons_self)).resolve_right fun hin => ?_
    have hle := le_of_mem_layout Block.size hin
    omega
  obtain ⟨hshape, hcomplete, hkeeps⟩ := merge_spec hs hm hfree hmid hlo
    (fun x hx hmem => by
      rcases mem_cons.mp hx with rfl | hx
      · rfl
      · exact absurd hmem (hgone x hx))
    fun x hx hal hnot => (hcomp x hx hal).resolve_right fun hin =>
      hnot (mem_cons_of_mem _ hin)
  refine ⟨⟨hshape, hcomplete, ?_⟩, hkeeps⟩
  exact coalesced_append_iff.mpr ⟨hpre, hpost, fun x hx => .inl (hlast x hx), fun y hy =>
    .inr (hhead y hy)⟩

/-- Two free blocks as one. -/
def Block.join (b c : Block) : Block where
  size := b.size + c.size
  alloc := false
  aligned := by have := b.aligned; have := c.aligned; omega
  large := by have := b.large; omega

theorem Coalesced.concat_free {c : Block} (h : Coalesced (pre ++ [c])) (hc : c.alloc = false) :
    Coalesced pre ∧ ∀ x ∈ pre.getLast?, x.alloc = true := by
  rw [← append_nil (pre ++ [c]), coalesced_append_iff] at h
  exact ⟨h.1, fun x hx => (h.2.2.1 x hx).resolve_right (by simp [hc])⟩

theorem Coalesced.cons_free {c : Block} (h : Coalesced (c :: post)) (hc : c.alloc = false) :
    Coalesced post ∧ ∀ y ∈ post.head?, y.alloc = true := by
  have h' : Coalesced ([] ++ [c] ++ post) := h
  rw [coalesced_append_iff] at h'
  exact ⟨h'.2.1, fun y hy => (h'.2.2.2 y hy).resolve_left (by simp [hc])⟩

/-- The second of two free neighbours leaves the free list and the first takes its place. -/
theorem inv_merge_two {c d : Block} (hs : h.Shape (pre ++ [c] ++ [d] ++ post) fl)
    (hcomp : h.Complete (pre ++ [c] ++ [d] ++ post) fl) (hc : c.alloc = false)
    (hd : d.alloc = false) (hpre : Coalesced pre) (hpost : Coalesced post)
    (hlast : ∀ x ∈ pre.getLast?, x.alloc = true) (hhead : ∀ y ∈ post.head?, y.alloc = true) :
    ((h.removeBlock (h.heapStart + total Block.size (pre ++ [c]))).writeTags
      (h.heapStart + total Block.size pre) (c.join d)).Inv (pre ++ [c.join d] ++ post)
      (fl.erase (h.heapStart + total Block.size (pre ++ [c]))) ∧
    ∀ p, Keeps p h (pre ++ [c] ++ [d] ++ post)
      ((h.removeBlock (h.heapStart + total Block.size (pre ++ [c]))).writeTags
        (h.heapStart + total Block.size pre) (c.join d)) (pre ++ [c.join d] ++ post) := by
  have hmem := mem_layout_middle h (pre ++ [c]) post d
  obtain ⟨hs₁, hr⟩ := shape_removeBlock_erase hs (hcomp _ hmem hd)
  have hstart := hr.heapStart hs.toArena
  have hassoc : pre ++ [c] ++ [d] ++ post = pre ++ c :: [d] ++ post := by simp
  have haddr : h.heapStart + total Block.size pre + c.size =
      h.heapStart + total Block.size (pre ++ [c]) := by
    rw [total_append, total_cons, total_nil]
    omega
  have hmerge := inv_merge (m := c.join d) (hassoc ▸ hs₁) (by simp [Block.join]) rfl
    (by simp [hc, hd])
    (fun x hx hal => by
      rw [← hassoc, hr.layout hs.toArena] at hx
      rw [hstart, haddr, layout_cons, layout_nil, mem_singleton, hs.nodup.mem_erase_iff]
      by_cases hxa : x.1 = h.heapStart + total Block.size (pre ++ [c])
      · exact .inr (hs.eq_of_addr hx hmem hxa)
      · exact .inl ⟨hxa, hcomp x hx hal⟩)
    (fun x hx => by
      rw [hstart, haddr, layout_cons, layout_nil, mem_singleton] at hx
      rw [hx]
      exact hs.nodup.not_mem_erase)
    hpre hpost hlast hhead
  rw [hstart, ← hassoc] at hmerge
  exact ⟨hmerge.1, fun p => (hr.keeps hs p).trans (hmerge.2 p)⟩

/-- The second and the third of three free neighbours leave the free list. -/
theorem inv_merge_three {c d e : Block} (hs : h.Shape (pre ++ [c] ++ [d] ++ [e] ++ post) fl)
    (hcomp : h.Complete (pre ++ [c] ++ [d] ++ [e] ++ post) fl) (hc : c.alloc = false)
    (hd : d.alloc = false) (he : e.alloc = false) (hpre : Coalesced pre) (hpost : Coalesced post)
    (hlast : ∀ x ∈ pre.getLast?, x.alloc = true) (hhead : ∀ y ∈ post.head?, y.alloc = true) :
    (((h.removeBlock (h.heapStart + total Block.size (pre ++ [c]))).removeBlock
      (h.heapStart + total Block.size (pre ++ [c] ++ [d]))).writeTags
      (h.heapStart + total Block.size pre) ((c.join d).join e)).Inv
      (pre ++ [(c.join d).join e] ++ post)
      ((fl.erase (h.heapStart + total Block.size (pre ++ [c]))).erase
        (h.heapStart + total Block.size (pre ++ [c] ++ [d]))) ∧
    ∀ p, Keeps p h (pre ++ [c] ++ [d] ++ [e] ++ post)
      (((h.removeBlock (h.heapStart + total Block.size (pre ++ [c]))).removeBlock
        (h.heapStart + total Block.size (pre ++ [c] ++ [d]))).writeTags
        (h.heapStart + total Block.size pre) ((c.join d).join e))
      (pre ++ [(c.join d).join e] ++ post) := by
  have hdlarge := d.large
  have hdmem : (h.heapStart + total Block.size (pre ++ [c]), d) ∈
      h.layout (pre ++ [c] ++ [d] ++ [e] ++ post) := by
    have := mem_layout_middle h (pre ++ [c]) ([e] ++ post) d
    simpa using this
  have hemem := mem_layout_middle h (pre ++ [c] ++ [d]) post e
  obtain ⟨hs₁, hr₁⟩ := shape_removeBlock_erase hs (hcomp _ hdmem hd)
  have hstart₁ := hr₁.heapStart hs.toArena
  have hne : h.heapStart + total Block.size (pre ++ [c] ++ [d]) ≠
      h.heapStart + total Block.size (pre ++ [c]) := by
    rw [total_append _ (pre ++ [c]), total_cons]
    omega
  obtain ⟨hs₂, hr₂⟩ := shape_removeBlock_erase hs₁
    (hs.nodup.mem_erase_iff.mpr ⟨hne, hcomp _ hemem he⟩)
  have hstart : _ = h.heapStart := (hr₂.heapStart hs₁.toArena).trans hstart₁
  have hassoc : pre ++ [c] ++ [d] ++ [e] ++ post = pre ++ c :: [d, e] ++ post := by simp
  have haddr : h.heapStart + total Block.size pre + c.size =
      h.heapStart + total Block.size (pre ++ [c]) := by
    rw [total_append, total_cons, total_nil]
    omega
  have haddr' : h.heapStart + total Block.size (pre ++ [c]) + d.size =
      h.heapStart + total Block.size (pre ++ [c] ++ [d]) := by
    rw [total_append _ (pre ++ [c]), total_cons, total_nil]
    omega
  have hmerge := inv_merge (m := (c.join d).join e) (hassoc ▸ hs₂)
    (by simp [Block.join, Nat.add_assoc]) rfl (by simp [hc, hd, he])
    (fun x hx hal => by
      rw [← hassoc, hr₂.layout hs₁.toArena, hr₁.layout hs.toArena] at hx
      rw [hstart, haddr, layout_cons, layout_cons, layout_nil, haddr', hs₁.nodup.mem_erase_iff,
        hs.nodup.mem_erase_iff]
      by_cases hxd : x.1 = h.heapStart + total Block.size (pre ++ [c])
      · exact .inr (by simp [hs.eq_of_addr hx hdmem hxd])
      · by_cases hxe : x.1 = h.heapStart + total Block.size (pre ++ [c] ++ [d])
        · exact .inr (by simp [hs.eq_of_addr hx hemem hxe])
        · exact .inl ⟨hxe, hxd, hcomp x hx hal⟩)
    (fun x hx => by
      rw [hstart, haddr, layout_cons, layout_cons, layout_nil, haddr', mem_cons,
        mem_singleton] at hx
      rcases hx with rfl | rfl
      · exact fun hmem => hs.nodup.not_mem_erase (mem_of_mem_erase hmem)
      · exact hs₁.nodup.not_mem_erase)
    hpre hpost hlast hhead
  rw [hstart, ← hassoc] at hmerge
  exact ⟨hmerge.1, fun p => ((hr₁.keeps hs p).trans (hr₂.keeps hs₁ p)).trans (hmerge.2 p)⟩

/-- The sizes of neighbours add up below the end of the heap. -/
theorem total_lt (hs : h.Shape bs fl) : total Block.size bs < 2 ^ 64 := by
  have := hs.memBrk
  have := hs.brk
  have := hs.addr
  omega

theorem sizeT_of_lt {x : Nat} (hx : x < 2 ^ 64) : sizeT x = x := Nat.mod_eq_of_lt hx

/-- `remove_block` does not change the size of a block. -/
theorem getSize_removeBlock (hs : h.Shape bs fl) (ha : a ∈ fl) {x : Nat × Block}
    (hx : x ∈ h.layout bs) : (h.removeBlock a).getSize x.1 = x.2.size := by
  obtain ⟨hs₁, hr⟩ := shape_removeBlock_erase hs ha
  exact hs₁.getSize (by rwa [hr.layout hs.toArena])

theorem sizeT_join {p q : Nat} {c d : Block} (hs : h.Shape bs fl) (ha : a ∈ fl)
    (hc : (p, c) ∈ h.layout bs) (hd : (q, d) ∈ h.layout bs) (hlt : c.size + d.size < 2 ^ 64) :
    sizeT ((h.removeBlock a).getSize p + (h.removeBlock a).getSize q) = (c.join d).size := by
  rw [getSize_removeBlock hs ha hc, getSize_removeBlock hs ha hd]
  exact sizeT_of_lt hlt

/-- `coalesce_block`: a freed block in the free list is joined with its free neighbours. -/
theorem inv_coalesceBlock (hs : h.Shape (pre ++ [b] ++ post) fl)
    (hcomp : h.Complete (pre ++ [b] ++ post) fl) (hb : b.alloc = false) (hpre : Coalesced pre)
    (hpost : Coalesced post) : ∃ bs' fl',
    (h.coalesceBlock (h.heapStart + total Block.size pre)).1.Inv bs' fl' ∧
    ∀ p, Keeps p h (pre ++ [b] ++ post)
      (h.coalesceBlock (h.heapStart + total Block.size pre)).1 bs' := by
  have hlt := total_lt hs
  have hs' : h.Shape (pre ++ ([b] ++ post)) fl := by rwa [← append_assoc]
  unfold Heap.coalesceBlock
  rcases before_cases hs' with ⟨hbefore, hlast⟩ | ⟨pre', c, rfl, hc, hprev, hbefore⟩ <;>
    rcases after_cases hs with ⟨hafter, hhead⟩ | ⟨d, post', rfl, hd, hnext, hafter⟩
  · -- both neighbours are allocated
    simp only [Heap.isFree, hbefore, hafter]
    refine ⟨_, _, ⟨hs, hcomp, coalesced_append_iff.mpr ⟨hpre, hpost, ?_, ?_⟩⟩, fun p =>
      Keeps.refl p h _⟩
    · exact fun x hx => .inl (hlast x hx)
    · exact fun y hy => .inr (hhead y hy)
  · -- the block after is free
    obtain ⟨hpost', hhead⟩ := hpost.cons_free hd
    rw [append_cons (pre ++ [b]) d post'] at hs hcomp hlt ⊢
    have hmerge := inv_merge_two hs hcomp hb hd hpre hpost' hlast hhead
    have hbmem : (h.heapStart + total Block.size pre, b) ∈ h.layout (pre ++ [b] ++ [d] ++ post') := by
      have := mem_layout_middle h pre ([d] ++ post') b
      simpa using this
    have hdmem := mem_layout_middle h (pre ++ [b]) post' d
    have hin := hcomp _ hdmem hd
    have hsize := sizeT_join hs hin hbmem hdmem (by simp at hlt ⊢; omega)
    simp only [Heap.isFree, hbefore, hnext, hafter, hsize, Bool.not_true, Bool.not_false, Bool.and_true,
      Bool.and_false, Bool.false_eq_true, if_false, if_true]
    exact ⟨_, _, hmerge⟩
  · -- the block before is free
    obtain ⟨hpre', hlast⟩ := hpre.concat_free hc
    have hmerge := inv_merge_two hs hcomp hc hb hpre' hpost hlast hhead
    have hcmem : (h.heapStart + total Block.size pre', c) ∈ h.layout (pre' ++ [c] ++ [b] ++ post) := by
      have := mem_layout_middle h pre' ([b] ++ post) c
      simpa using this
    have hbmem := mem_layout_middle h (pre' ++ [c]) post b
    have hin := hcomp _ hbmem hb
    have hsize := sizeT_join hs hin hcmem hbmem (by simp at hlt ⊢; omega)
    simp only [Heap.isFree, hprev, hbefore, hafter, hsize, Bool.not_true, Bool.not_false, Bool.and_true,
      Bool.and_false, Bool.false_eq_true, if_false, if_true]
    exact ⟨_, _, hmerge⟩
  · -- both are free
    obtain ⟨hpre', hlast⟩ := hpre.concat_free hc
    obtain ⟨hpost', hhead⟩ := hpost.cons_free hd
    rw [append_cons (pre' ++ [c] ++ [b]) d post'] at hs hcomp hlt ⊢
    have hmerge := inv_merge_three hs hcomp hc hb hd hpre' hpost' hlast hhead
    have hsize : sizeT (sizeT (h.getSize (h.heapStart + total Block.size pre') +
        h.getSize (h.heapStart + total Block.size (pre' ++ [c]))) +
        h.getSize (h.heapStart + total Block.size (pre' ++ [c] ++ [b]))) =
        ((c.join b).join d).size := by
      have hc' := hs.getSize (x := (h.heapStart + total Block.size pre', c)) (by
        have := mem_layout_middle h pre' ([b] ++ [d] ++ post') c
        simpa using this)
      have hb' := hs.getSize (x := (h.heapStart + total Block.size (pre' ++ [c]), b)) (by
        have := mem_layout_middle h (pre' ++ [c]) ([d] ++ post') b
        simpa using this)
      have hd' := getSize_middle hs
      dsimp only at hc' hb'
      rw [hc', hb', hd']
      simp only [total_append, total_cons, total_nil] at hlt
      have hinner : sizeT (c.size + b.size) = c.size + b.size := sizeT_of_lt (by omega)
      rw [hinner, sizeT_of_lt (by omega)]
      rfl
    simp only [Heap.isFree, hprev, hbefore, hnext, hafter, hsize, Bool.not_false, Bool.and_true,
      Bool.and_false, Bool.false_eq_true, if_false, if_true]
    exact ⟨_, _, hmerge⟩

end PittCs.MallocLab
