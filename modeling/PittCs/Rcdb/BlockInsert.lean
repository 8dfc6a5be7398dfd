import Mathlib.Data.List.Nodup
import PittCs.Lib.TreeMap
import PittCs.Rcdb.BlockAllocator

/-!
# Allocation keeps the blocks in order

What `get_min_free_block`, the allocation of a free block and `block_insert` do
to the used blocks. A call of `block_insert` changes one used block, the named
one: it is new, it gets one more record where it is, or it moves. The other
used blocks keep their place and their header.
-/

namespace PittCs.Rcdb

open Std PittCs.Lib List

namespace BlockAllocator

/-! ## The smallest free block -/

theorem getMinFreeBlockLoop_fst (size : Nat) (nodes : List Node) (off : Nat)
    (best : Option (Nat × Node)) :
    (getMinFreeBlockLoop size nodes off best).1 = off + total Node.size nodes := by
  induction nodes generalizing off best with
  | nil => rfl
  | cons n rest ih =>
    simp only [getMinFreeBlockLoop, ih, total_cons, Nat.add_assoc]

/-- The block found is the one passed in, or a free block of the list that is
large enough. -/
theorem getMinFreeBlockLoop_snd {size : Nat} {nodes : List Node} {off : Nat}
    {best : Option (Nat × Node)} {e : Nat × Node}
    (h : (getMinFreeBlockLoop size nodes off best).2 = some e) :
    best = some e ∨
      e ∈ layout Node.size off nodes ∧ isFree e.2.key = true ∧ size ≤ e.2.size := by
  induction nodes generalizing off best with
  | nil => exact .inl h
  | cons n rest ih =>
    simp only [getMinFreeBlockLoop] at h
    rw [layout_cons]
    rcases ih h with hbest | ⟨hmem, hfree, hsize⟩
    · by_cases hn : isFree n.key = true ∧ n.size ≥ size
      · rw [if_pos hn] at hbest
        have hnew : (off, n) = e → e ∈ (off, n) :: layout Node.size (off + n.size) rest ∧
            isFree e.2.key = true ∧ size ≤ e.2.size := by
          rintro rfl
          exact ⟨mem_cons_self .., hn⟩
        rcases best with _ | ⟨o, m⟩
        · exact .inr (hnew (by simpa using hbest))
        · dsimp only at hbest
          split at hbest
          · exact .inr (hnew (by simpa using hbest))
          · exact .inl hbest
      · rw [if_neg hn] at hbest
        exact .inl hbest
    · exact .inr ⟨mem_cons_of_mem _ hmem, hfree, hsize⟩

theorem getMinFreeBlock_fst (a : BlockAllocator) (size : Nat) :
    (a.getMinFreeBlock size).1 = total Node.size a.nodes := by
  rw [getMinFreeBlock, getMinFreeBlockLoop_fst, Nat.zero_add]

theorem getMinFreeBlock_snd {a : BlockAllocator} {size o : Nat} {m : Node}
    (h : (a.getMinFreeBlock size).2 = some (o, m)) :
    (∃ pre post, a.nodes = pre ++ m :: post ∧ o = total Node.size pre) ∧
      isFree m.key = true ∧ size ≤ m.size := by
  rcases getMinFreeBlockLoop_snd h with hbest | ⟨hmem, hfree, hsize⟩
  · cases hbest
  · rcases (mem_layout_iff Node.size).mp hmem with ⟨pre, post, hs, ho⟩
    exact ⟨⟨pre, post, hs, by omega⟩, hfree, hsize⟩

/-! ## One used block more, one used block less -/

/-- What every operation on the list keeps. -/
structure Ordered (a : BlockAllocator) : Prop where
  tiled : Tiled a.nodes a.fresh
  len_eq : a.len = a.nodes.length

/-- The used blocks of the allocator with their offsets. -/
def used (a : BlockAllocator) : List (Nat × Node) := usedFrom 0 a.nodes

/-- A used block and the part of the list before and after it. -/
theorem mem_used_iff {a : BlockAllocator} {o : Nat} {n : Node} :
    (o, n) ∈ a.used ↔ (∃ pre post, a.nodes = pre ++ n :: post ∧ o = total Node.size pre) ∧
      isFree n.key = false := by
  rw [used, mem_usedFrom, mem_layout_iff]
  simp

theorem used_split {a : BlockAllocator} {pre post : List Node} {n : Node}
    (hs : a.nodes = pre ++ n :: post) (hn : isFree n.key = false) :
    a.used.Perm ((total Node.size pre, n) ::
      (usedFrom 0 pre ++ usedFrom (total Node.size pre + n.size) post)) := by
  rw [used, hs, usedFrom_append, usedFrom_cons_used hn, Nat.zero_add]
  exact perm_middle

theorem freeBlock_used {a : BlockAllocator} {o : Nat} {n : Node} (h : Ordered a)
    (hmem : (o, n) ∈ a.used) :
    Ordered (a.freeBlock n.addr) ∧ a.used.Perm ((o, n) :: (a.freeBlock n.addr).used) ∧
      total Node.size (a.freeBlock n.addr).nodes = total Node.size a.nodes ∧
      (a.freeBlock n.addr).blockMap = a.blockMap ∧ (a.freeBlock n.addr).fresh = a.fresh := by
  rcases mem_used_iff.mp hmem with ⟨⟨pre, post, hs, ho⟩, hn⟩
  rcases freeBlock_spec h.tiled hs hn h.len_eq with ⟨htile, hused, htotal, hmap, hfresh, hlen⟩
  refine ⟨⟨hfresh ▸ htile, hlen⟩, ?_, htotal, hmap, hfresh⟩
  have hrest : (a.freeBlock n.addr).used =
      usedFrom 0 pre ++ usedFrom (total Node.size pre + n.size) post := hused
  rw [ho, hrest]
  exact used_split hs hn

theorem insertTail_used {a : BlockAllocator} {key : CountryOfOrigin} (h : Ordered a)
    (hgood : GoodNode ⟨a.fresh, key⟩) (hused : isFree key = false) :
    Ordered (a.insertTail key).1 ∧
      (a.insertTail key).1.used.Perm ((total Node.size a.nodes, ⟨a.fresh, key⟩) :: a.used) := by
  refine ⟨⟨h.tiled.append rfl hgood hused, ?_⟩, ?_⟩
  · simp only [insertTail, length_append, length_singleton, h.len_eq]
  · have hcons : usedFrom (total Node.size a.nodes) [⟨a.fresh, key⟩] =
        [(total Node.size a.nodes, ⟨a.fresh, key⟩)] := by
      rw [usedFrom_cons_used hused, usedFrom_nil]
    simp only [used, insertTail]
    rw [usedFrom_append, Nat.zero_add, hcons]
    exact perm_append_singleton ..

section TakeFree

variable {a : BlockAllocator} {pre post : List Node} {m : Node} {lines : Nat}
  {header : CountryOfOrigin}

theorem takeFree_whole (hs : a.nodes = pre ++ m :: post) (hnd : (a.nodes.map Node.addr).Nodup)
    (hsize : ¬ m.size ≥ lines + MIN_BLOCK_SIZE) :
    (a.takeFree m lines header).nodes = pre ++ ⟨m.addr, header⟩ :: post := by
  rw [takeFree, if_neg hsize]
  exact nodes_setKey hs hnd _

theorem takeFree_split (hs : a.nodes = pre ++ m :: post) (hnd : (a.nodes.map Node.addr).Nodup)
    (hlt : ∀ x ∈ a.nodes, x.addr < a.fresh) (hsize : m.size ≥ lines + MIN_BLOCK_SIZE) :
    (a.takeFree m lines header).nodes =
      pre ++ ⟨m.addr, header⟩ :: ⟨a.fresh, freeKey (m.size - lines)⟩ :: post := by
  rw [takeFree, if_pos hsize]
  have hset := nodes_setKey hs hnd fun k => { k with blockSize := lines }
  have hpre : ∀ x ∈ pre, x.addr ≠ m.addr := by
    rw [hs] at hnd
    exact (ne_addr_of_nodup hnd).1
  have hins : ((a.setKey m.addr fun k => { k with blockSize := lines }).insertAfter m.addr
      (makeHeader emptyName (m.size - lines) (-1))).nodes =
      pre ++ ⟨m.addr, { m.key with blockSize := lines }⟩ ::
        ⟨a.fresh, freeKey (m.size - lines)⟩ :: post := by
    simp only [insertAfter]
    rw [hset]
    exact insertBehind_split (n := ⟨m.addr, { m.key with blockSize := lines }⟩) _ hpre
  have hpost : ∀ x ∈ post, x.addr ≠ m.addr := by
    rw [hs] at hnd
    exact (ne_addr_of_nodup hnd).2
  have hfresh : a.fresh ≠ m.addr := by
    have := hlt m (by simp [hs])
    omega
  have hbehind : ∀ x ∈ (⟨a.fresh, freeKey (m.size - lines)⟩ : Node) :: post, x.addr ≠ m.addr := by
    intro x hx
    rcases mem_cons.mp hx with rfl | hx
    · exact hfresh
    · exact hpost x hx
  show List.map _ (BlockAllocator.nodes _) = _
  rw [hins]
  exact map_split (n := ⟨m.addr, { m.key with blockSize := lines }⟩) (fun _ => header) hpre hbehind

/-- A free block of which `lines` lines are given away: one used block more, at
the offset of the free one. -/
theorem takeFree_used (h : Ordered a) (hs : a.nodes = pre ++ m :: post)
    (hm : isFree m.key = true) (hle : lines ≤ m.size)
    (hgood : GoodNode ⟨m.addr, header⟩) (hused : isFree header = false)
    (hlines : header.blockSize = lines) :
    Ordered (a.takeFree m lines header) ∧
      (a.takeFree m lines header).used.Perm ((total Node.size pre, ⟨m.addr, header⟩) :: a.used) := by
  have htile := h.tiled
  rw [hs] at htile
  have hgoodm := htile.good m (by simp)
  have hused' : a.used = usedFrom 0 pre ++ usedFrom (total Node.size pre + m.size) post := by
    rw [used, hs, usedFrom_append, usedFrom_cons_free hm, Nat.zero_add]
  by_cases hsize : m.size ≥ lines + MIN_BLOCK_SIZE
  · -- the rest of the block stays free
    have hnodes : (a.takeFree m lines header).nodes = _ :=
      takeFree_split hs h.tiled.nodup h.tiled.lt_fresh hsize
    have hdvd : MIN_BLOCK_SIZE ∣ m.size - lines :=
      Nat.dvd_sub hgoodm.2.1 (hlines ▸ hgood.2.1)
    have hpos : 0 < m.size - lines := by
      have : 0 < MIN_BLOCK_SIZE := by decide
      omega
    have hrepl : Tiled (pre ++ (⟨m.addr, header⟩ : Node) :: post) a.fresh :=
      htile.replace_used rfl hgood hused
    have hrest : GoodNode ⟨a.fresh, freeKey (m.size - lines)⟩ := goodNode_freeKey hpos hdvd
    have hins := hrepl.insertFree hused rfl hrest (htile.used_neighbours hm).2
    refine ⟨⟨?_, ?_⟩, ?_⟩
    · rw [hnodes]
      have hfresh : (a.takeFree m lines header).fresh = a.fresh + 1 := by
        simp [takeFree, hsize, insertAfter]
      rw [hfresh]
      exact hins
    · have hlen : (a.takeFree m lines header).len = a.len + 1 := by
        simp [takeFree, hsize, insertAfter]
      rw [hlen, hnodes, h.len_eq, hs]
      simp only [length_append, length_cons]
      omega
    · have hrest : total Node.size pre + lines + (m.size - lines) = total Node.size pre + m.size := by
        omega
      rw [used, hnodes, usedFrom_append, usedFrom_cons_used hused,
        usedFrom_cons_free (isFree_freeKey _), hused']
      simp only [Node.size_mk, freeKey_blockSize, hlines, Nat.zero_add, hrest]
      exact perm_middle
  · -- the block is exactly large enough
    have hnodes : (a.takeFree m lines header).nodes = _ := takeFree_whole hs h.tiled.nodup hsize
    have heq : m.size = lines := by
      rcases hgoodm.2.1 with ⟨x, hx⟩
      rcases hgood.2.1 with ⟨y, hy⟩
      rw [Node.size_mk, hlines] at hy
      have hM : MIN_BLOCK_SIZE = 16 := rfl
      rw [hM] at hx hy hsize
      omega
    refine ⟨⟨?_, ?_⟩, ?_⟩
    · have hfresh : (a.takeFree m lines header).fresh = a.fresh := by
        simp [takeFree, hsize]
      rw [hnodes, hfresh]
      exact htile.replace_used rfl hgood hused
    · have hlen : (a.takeFree m lines header).len = a.len := by
        simp [takeFree, hsize]
      rw [hlen, hnodes, h.len_eq, hs]
      simp
    · rw [used, hnodes, usedFrom_append, usedFrom_cons_used hused, hused']
      simp only [Node.size_mk, hlines, Nat.zero_add, heq]
      exact perm_middle

theorem takeFree_blockMap (a : BlockAllocator) (m : Node) (lines : Nat)
    (header : CountryOfOrigin) : (a.takeFree m lines header).blockMap = a.blockMap := by
  unfold takeFree
  split <;> rfl

end TakeFree

/-! ## The map of blocks -/

/-- The map `f` holds exactly the blocks of the list, each under its name. -/
def MapOf (f : Str → Option AllocInfo) (l : List (Nat × Node)) : Prop :=
  ∀ id info, f id = some info ↔
    ∃ n, (info.offset, n) ∈ l ∧ n.addr = info.loc ∧ Named n.key id

section MapOf

variable {f : Str → Option AllocInfo} {l l' : List (Nat × Node)} {o : Nat} {n : Node} {id : Str}

theorem MapOf.perm (h : MapOf f l) (hp : l.Perm l') : MapOf f l' := by
  intro id info
  rw [h id info]
  constructor
  · rintro ⟨n, hn, hrest⟩
    exact ⟨n, hp.mem_iff.mp hn, hrest⟩
  · rintro ⟨n, hn, hrest⟩
    exact ⟨n, hp.mem_iff.mpr hn, hrest⟩

theorem MapOf.congr {g : Str → Option AllocInfo} (h : MapOf f l) (hg : ∀ id, g id = f id) :
    MapOf g l := by
  intro id info
  rw [hg id]
  exact h id info

theorem MapOf.eq_some (h : MapOf f l) (hmem : (o, n) ∈ l) (hid : Named n.key id) :
    f id = some ⟨o, n.addr⟩ :=
  (h id ⟨o, n.addr⟩).mpr ⟨n, hmem, rfl, hid⟩

theorem MapOf.add (h : MapOf f l) (hnone : f id = none) (hid : Named n.key id) :
    MapOf (fun x => if x = id then some ⟨o, n.addr⟩ else f x) ((o, n) :: l) := by
  intro x info
  dsimp only
  by_cases hx : x = id
  · subst hx
    rw [if_pos rfl]
    constructor
    · intro he
      cases he
      exact ⟨n, mem_cons_self .., rfl, hid⟩
    · rintro ⟨m, hm, hloc, hname⟩
      rcases mem_cons.mp hm with he | hm
      · cases he
        rw [hloc]
      · -- no block of this name was in the list
        rw [h.eq_some hm hname] at hnone
        cases hnone
  · rw [if_neg hx, h x info]
    constructor
    · rintro ⟨m, hm, hrest⟩
      exact ⟨m, mem_cons_of_mem _ hm, hrest⟩
    · rintro ⟨m, hm, hloc, hname⟩
      rcases mem_cons.mp hm with he | hm
      · cases he
        exact absurd (hname.unique hid) hx
      · exact ⟨m, hm, hloc, hname⟩

theorem MapOf.remove (h : MapOf f ((o, n) :: l)) (hnot : ∀ e ∈ l, e.2.addr ≠ n.addr)
    (hid : Named n.key id) : MapOf (fun x => if x = id then none else f x) l := by
  have hthis := h.eq_some (mem_cons_self ..) hid
  intro x info
  dsimp only
  by_cases hx : x = id
  · subst hx
    rw [if_pos rfl]
    constructor
    · intro he
      cases he
    · rintro ⟨m, hm, -, hname⟩
      rw [h.eq_some (mem_cons_of_mem _ hm) hname, Option.some.injEq,
        AllocInfo.mk.injEq] at hthis
      exact absurd hthis.2 (hnot _ hm)
  · rw [if_neg hx, h x info]
    constructor
    · rintro ⟨m, hm, hloc, hname⟩
      rcases mem_cons.mp hm with he | hm
      · cases he
        exact absurd (hname.unique hid) hx
      · exact ⟨m, hm, hloc, hname⟩
    · rintro ⟨m, hm, hrest⟩
      exact ⟨m, mem_cons_of_mem _ hm, hrest⟩

end MapOf

/-- The allocator is in order: the list, its length and the map of blocks. -/
structure Inv (a : BlockAllocator) : Prop where
  ordered : Ordered a
  mapOf : MapOf (fun id => a.blockMap[id]?) a.used

theorem inv_init : Inv init :=
  ⟨⟨tiled_nil 0, rfl⟩, by intro id info; simp [init, used]⟩

/-- Used blocks have distinct addresses. -/
theorem Ordered.nodup_used {a : BlockAllocator} (h : Ordered a) :
    (a.used.map fun e => e.2.addr).Nodup := by
  have hsub : ∀ (off : Nat) (l : List Node),
      ((usedFrom off l).map fun e => e.2.addr).Sublist (l.map Node.addr) := by
    intro off l
    induction l generalizing off with
    | nil => simp
    | cons n l ih =>
      by_cases hn : isFree n.key = true
      · rw [usedFrom_cons_free hn]
        exact (ih _).cons _
      · rw [usedFrom_cons_used (by simpa using hn)]
        exact (ih _).cons_cons _
  exact h.tiled.nodup.sublist (hsub 0 a.nodes)

theorem Ordered.ne_addr {a : BlockAllocator} (h : Ordered a) {e : Nat × Node}
    {l : List (Nat × Node)} (hp : a.used.Perm (e :: l)) : ∀ x ∈ l, x.2.addr ≠ e.2.addr := by
  have hnd := (hp.map fun e => e.2.addr).nodup_iff.mp h.nodup_used
  rw [map_cons, nodup_cons] at hnd
  intro x hx he
  exact hnd.1 (he ▸ mem_map_of_mem hx)

theorem usedKey_of_mem {a : BlockAllocator} (h : Ordered a) {o : Nat} {n : Node}
    (hmem : (o, n) ∈ a.used) : UsedKey n.key ∧ GoodNode n := by
  rcases mem_used_iff.mp hmem with ⟨⟨pre, post, hs, -⟩, hn⟩
  have hgood := h.tiled.good n (by simp [hs])
  rcases hgood.2.2 with hfree | hused
  · rw [hfree] at hn
    cases hn
  · exact ⟨hused, hgood⟩

/-! ## The cases of `block_insert` -/

/-- After a call the block of `id` is `n'` at `o'`, the other used blocks are
`rest`, and `slot` is the position of its last record. -/
structure Inserted (id : Str) (a' : BlockAllocator) (slot : Nat) (rest : List (Nat × Node))
    (o' : Nat) (n' : Node) : Prop where
  inv : Inv a'
  used_perm : a'.used.Perm ((o', n') :: rest)
  named : Named n'.key id
  slot_eq : slot = o' + (n'.key.recordCount - 1).toNat

/-- Where the block of `id` was before the call. -/
inductive Before (a : BlockAllocator) (id : Str) :
    Option Relocation → List (Nat × Node) → Nat → Node → Prop
  | fresh {rest o' n'} (hnone : a.blockMap[id]? = none) (hperm : a.used.Perm rest)
      (hcount : n'.key.recordCount = 1) : Before a id none rest o' n'
  | grown {rest o n n'} (hperm : a.used.Perm ((o, n) :: rest)) (hname : Named n.key id)
      (hcount : n'.key.recordCount = n.key.recordCount + 1) : Before a id none rest o n'
  | moved {rest o n o' n'} (hperm : a.used.Perm ((o, n) :: rest)) (hname : Named n.key id)
      (hcount : n'.key.recordCount = n.key.recordCount + 1)
      (hapart : o' + n'.size ≤ o ∨ o + n.size ≤ o') :
      Before a id (some ⟨o, o', n.key.recordCount.toNat⟩) rest o' n'

section Insert

variable {a a' : BlockAllocator} {id : Str} {o o' : Nat} {n n' : Node}
  {rest : List (Nat × Node)}

theorem named_makeHeader (hpos : 0 < id.length) (hlen : id.length ≤ 8) (lines : Nat)
    (count : Int) : Named (makeHeader id lines count) id :=
  ⟨hpos, hlen, rfl⟩

theorem goodNode_makeHeader {addr lines : Nat} {count : Int} (hpos : 0 < id.length)
    (hlen : id.length ≤ 8) (hdvd : MIN_BLOCK_SIZE ∣ lines) (hcount : 0 < count)
    (hle : count ≤ lines) : GoodNode ⟨addr, makeHeader id lines count⟩ := by
  refine ⟨?_, hdvd, .inr ⟨⟨id, named_makeHeader hpos hlen lines count⟩, hcount, hle⟩⟩
  show 0 < lines
  omega

/-- A block is added: the map gains its entry. -/
theorem Inv.add (h : Inv a) (hord : Ordered a') (hp : a'.used.Perm ((o', n') :: a.used))
    (hmap : a'.blockMap = a.blockMap.insert id ⟨o', n'.addr⟩) (hnone : a.blockMap[id]? = none)
    (hname : Named n'.key id) : Inv a' := by
  refine ⟨hord, ?_⟩
  have hadd := h.mapOf.add (o := o') hnone hname
  refine (hadd.perm hp.symm).congr fun x => ?_
  rw [hmap]
  exact getElem?_insert_if ..

/-- A block is replaced by another one of the same name. -/
theorem Inv.exchange (h : Inv a) (hord : Ordered a') (hold : a.used.Perm ((o, n) :: rest))
    (hp : a'.used.Perm ((o', n') :: rest)) (hname : Named n.key id) (hname' : Named n'.key id)
    (hmap : ∀ x, a'.blockMap[x]? = if x = id then some ⟨o', n'.addr⟩ else a.blockMap[x]?) :
    Inv a' := by
  refine ⟨hord, ?_⟩
  have hrem := (h.mapOf.perm hold).remove (h.ordered.ne_addr hold) hname
  have hadd := hrem.add (o := o') (if_pos rfl) hname'
  refine (hadd.perm hp.symm).congr fun x => ?_
  rw [hmap x]
  by_cases hx : x = id
  · rw [if_pos hx, if_pos hx]
  · rw [if_neg hx, if_neg hx, if_neg hx]

/-- Case 1 of `block_insert`. -/
theorem allocateBlock_spec (h : Inv a) (hpos : 0 < id.length) (hlen : id.length ≤ 8)
    (hnone : a.blockMap[id]? = none) :
    ∃ o' n', Inserted id (a.allocateBlock id).1 (a.allocateBlock id).2 a.used o' n' ∧
      n'.key.recordCount = 1 := by
  have hname := named_makeHeader hpos hlen MIN_BLOCK_SIZE 1
  have hgood : ∀ addr, GoodNode ⟨addr, makeHeader id MIN_BLOCK_SIZE 1⟩ := fun addr =>
    goodNode_makeHeader hpos hlen (dvd_refl _) (by decide) (by decide)
  have hfst := getMinFreeBlock_fst a MIN_BLOCK_SIZE
  unfold allocateBlock
  rcases hb : a.getMinFreeBlock MIN_BLOCK_SIZE with ⟨totalOffset, _ | ⟨off, m⟩⟩
  · -- a new block at the end
    rw [hb] at hfst
    rcases insertTail_used h.ordered (hgood a.fresh) hname.not_free with ⟨hord, hperm⟩
    refine ⟨totalOffset, ⟨a.fresh, makeHeader id MIN_BLOCK_SIZE 1⟩, ?_, rfl⟩
    have hord' : Ordered { (a.insertTail (makeHeader id MIN_BLOCK_SIZE 1)).1 with
        blockMap := a.blockMap.insert id ⟨totalOffset, a.fresh⟩ } := ⟨hord.tiled, hord.len_eq⟩
    rw [← hfst] at hperm
    exact ⟨h.add hord' hperm rfl hnone hname, hperm, hname, rfl⟩
  · -- a free block
    have hsnd : (a.getMinFreeBlock MIN_BLOCK_SIZE).2 = some (off, m) := by rw [hb]
    rcases getMinFreeBlock_snd hsnd with ⟨⟨pre, post, hs, hoff⟩, hfree, hsize⟩
    rcases takeFree_used h.ordered hs hfree hsize (hgood m.addr) hname.not_free rfl with
      ⟨hord, hperm⟩
    refine ⟨off, ⟨m.addr, makeHeader id MIN_BLOCK_SIZE 1⟩, ?_, rfl⟩
    rw [← hoff] at hperm
    have hord' : Ordered { a.takeFree m MIN_BLOCK_SIZE (makeHeader id MIN_BLOCK_SIZE 1) with
        blockMap := (a.takeFree m MIN_BLOCK_SIZE (makeHeader id MIN_BLOCK_SIZE 1)).blockMap.insert
          id ⟨off, m.addr⟩ } := ⟨hord.tiled, hord.len_eq⟩
    have hmap : (a.takeFree m MIN_BLOCK_SIZE (makeHeader id MIN_BLOCK_SIZE 1)).blockMap.insert
        id ⟨off, m.addr⟩ = a.blockMap.insert id ⟨off, m.addr⟩ := by
      rw [takeFree_blockMap]
    exact ⟨h.add hord' hperm hmap hnone hname, hperm, hname, rfl⟩

/-- The last part of case 3: the block moves to twice its size. -/
theorem relocateBlock_spec (h : Inv a) (hmem : (o, n) ∈ a.used) (hname : Named n.key id) :
    ∃ rest o' n', a.used.Perm ((o, n) :: rest) ∧
      Inserted id (a.relocateBlock id ⟨o, n.addr⟩ n).1 (a.relocateBlock id ⟨o, n.addr⟩ n).2.1
        rest o' n' ∧
      n'.key.recordCount = n.key.recordCount + 1 ∧
      (o' + n'.size ≤ o ∨ o + n.size ≤ o') ∧
      (a.relocateBlock id ⟨o, n.addr⟩ n).2.2 = ⟨o, o', n.key.recordCount.toNat⟩ := by
  rcases usedKey_of_mem h.ordered hmem with ⟨⟨-, hcount, hle⟩, hgoodn⟩
  have hle' : n.key.recordCount + 1 ≤ (2 * n.size : Nat) := by
    have hpos := hgoodn.1
    have hs : n.size = n.key.blockSize := rfl
    omega
  have hname' := named_makeHeader hname.1 hname.2.1 (2 * n.size) (n.key.recordCount + 1)
  have hgood : ∀ addr, GoodNode ⟨addr, makeHeader id (2 * n.size) (n.key.recordCount + 1)⟩ :=
    fun addr => goodNode_makeHeader hname.1 hname.2.1 (hgoodn.2.1.mul_left 2) (by omega) hle'
  have hfst := getMinFreeBlock_fst a (2 * n.size)
  have hlay := (mem_usedFrom.mp hmem).1
  have hslot : (n.key.recordCount + 1 - 1).toNat = n.key.recordCount.toNat := by
    rw [Int.add_sub_cancel]
  rcases hb : a.getMinFreeBlock (2 * n.size) with ⟨totalOffset, _ | ⟨off, m⟩⟩
  · -- to the end of the file
    rw [hb] at hfst
    rcases freeBlock_used h.ordered hmem with ⟨hordf, hpermf, htotal, hmapf, -⟩
    rcases insertTail_used hordf (hgood _) hname'.not_free with ⟨hord, hperm⟩
    rw [htotal, ← hfst] at hperm
    simp only [relocateBlock, hb]
    have hord' : Ordered { ((a.freeBlock n.addr).insertTail
        (makeHeader id (2 * n.size) (n.key.recordCount + 1))).1 with
        blockMap := (a.freeBlock n.addr).blockMap.insert id
          ⟨totalOffset, (a.freeBlock n.addr).fresh⟩ } := ⟨hord.tiled, hord.len_eq⟩
    have hend := end_le_of_mem_layout Node.size hlay
    refine ⟨(a.freeBlock n.addr).used, totalOffset, _, hpermf,
      ⟨h.exchange hord' hpermf hperm hname hname' fun x => ?_, hperm, hname', ?_⟩, rfl, ?_, rfl⟩
    · show ((a.freeBlock n.addr).blockMap.insert id _)[x]? = _
      rw [hmapf]
      exact getElem?_insert_if ..
    · exact congrArg (totalOffset + ·) hslot.symm
    · right
      omega
  · -- to a free block
    have hsnd : (a.getMinFreeBlock (2 * n.size)).2 = some (off, m) := by rw [hb]
    rcases getMinFreeBlock_snd hsnd with ⟨⟨pre, post, hs, hoff⟩, hfree, hsize⟩
    rcases takeFree_used h.ordered hs hfree hsize (hgood m.addr) hname'.not_free rfl with
      ⟨hord, hperm⟩
    have hmlay : (off, m) ∈ layout Node.size 0 a.nodes :=
      (mem_layout_iff Node.size).mpr ⟨pre, post, hs, by omega⟩
    have hne : (off, m) ≠ (o, n) := by
      intro he
      cases he
      rw [hname.not_free] at hfree
      cases hfree
    have hapart := layout_disjoint Node.size hmlay hlay hne
    rw [← hoff] at hperm
    have hmapt := takeFree_blockMap a m (2 * n.size)
      (makeHeader id (2 * n.size) (n.key.recordCount + 1))
    simp only [relocateBlock, hb]
    generalize a.takeFree m (2 * n.size) (makeHeader id (2 * n.size) (n.key.recordCount + 1)) = t
      at hord hperm hmapt ⊢
    have hordt : Ordered { t with blockMap := t.blockMap.insert id ⟨off, m.addr⟩ } :=
      ⟨hord.tiled, hord.len_eq⟩
    have hmem' : (o, n) ∈ BlockAllocator.used
        { t with blockMap := t.blockMap.insert id ⟨off, m.addr⟩ } :=
      hperm.mem_iff.mpr (mem_cons_of_mem _ hmem)
    rcases freeBlock_used hordt hmem' with ⟨hordf, hpermf, -, hmapf, -⟩
    have hrest := perm_cons_erase hmem
    have hpermt : (BlockAllocator.used ((BlockAllocator.mk t.nodes t.len
        (t.blockMap.insert id ⟨off, m.addr⟩) t.fresh).freeBlock n.addr)).Perm
        ((off, ⟨m.addr, makeHeader id (2 * n.size) (n.key.recordCount + 1)⟩) :: a.used.erase (o, n)) := by
      have hswap := hpermf.symm.trans (hperm.trans (hrest.cons _))
      exact (hswap.trans (List.Perm.swap ..)).cons_inv
    refine ⟨a.used.erase (o, n), off, _, hrest,
      ⟨h.exchange hordf hrest hpermt hname hname' fun x => ?_, hpermt, hname', ?_⟩, rfl, ?_, rfl⟩
    · rw [hmapf, hmapt]
      exact getElem?_insert_if ..
    · exact congrArg (off + ·) hslot.symm
    · have hsz : (⟨m.addr, makeHeader id (2 * n.size) (n.key.recordCount + 1)⟩ : Node).size =
          2 * n.size := rfl
      dsimp only at hapart
      omega

/-- The header of a block of `lines` lines with one more record. -/
def addKey (k : CountryOfOrigin) (lines : Nat) : CountryOfOrigin :=
  { k with blockSize := lines, recordCount := k.recordCount + 1 }

theorem named_addKey {k : CountryOfOrigin} (h : Named k id) (lines : Nat) :
    Named (addKey k lines) id :=
  h

theorem goodNode_addKey {addr lines : Nat} {k : CountryOfOrigin} (hname : Named k id)
    (hdvd : MIN_BLOCK_SIZE ∣ lines) (hcount : 0 < k.recordCount) (hlt : k.recordCount < lines) :
    GoodNode ⟨addr, addKey k lines⟩ := by
  refine ⟨?_, hdvd, .inr ⟨⟨id, hname⟩, ?_, ?_⟩⟩
  · show 0 < lines
    omega
  · show 0 < k.recordCount + 1
    omega
  · show k.recordCount + 1 ≤ (lines : Int)
    omega

/-- Cases 2 and 3 without a move: the block gets `lines` lines and one more
record, and the used blocks behind it stay where they are. -/
theorem grown_spec {pre post post' : List Node} {lines : Nat} (h : Inv a)
    (hs : a.nodes = pre ++ n :: post) (hname : Named n.key id)
    (htile : Tiled (pre ++ n :: post') a.fresh) (hdvd : MIN_BLOCK_SIZE ∣ lines)
    (hlt : n.key.recordCount < lines)
    (hnodes : a'.nodes = pre ++ ⟨n.addr, addKey n.key lines⟩ :: post')
    (hmap : a'.blockMap = a.blockMap) (hfresh : a'.fresh = a.fresh)
    (hlen : a'.len = a'.nodes.length)
    (hshift : usedFrom (total Node.size pre + lines) post' =
      usedFrom (total Node.size pre + n.size) post) :
    ∃ rest, a.used.Perm ((total Node.size pre, n) :: rest) ∧
      Inserted id a' (total Node.size pre + n.key.recordCount.toNat) rest (total Node.size pre)
        ⟨n.addr, addKey n.key lines⟩ := by
  have hused : (total Node.size pre, n) ∈ a.used :=
    mem_used_iff.mpr ⟨⟨pre, post, hs, rfl⟩, hname.not_free⟩
  have hcount := (usedKey_of_mem h.ordered hused).1.2.1
  have hname' := named_addKey hname lines
  have hgood : GoodNode ⟨n.addr, addKey n.key lines⟩ := goodNode_addKey hname hdvd hcount hlt
  have hord : Ordered a' := by
    refine ⟨?_, hlen⟩
    rw [hnodes, hfresh]
    exact htile.replace_used rfl hgood hname'.not_free
  have hp := used_split hs hname.not_free
  have hp' := used_split hnodes hname'.not_free
  rw [Node.size_mk, show (addKey n.key lines).blockSize = lines from rfl, hshift] at hp'
  refine ⟨_, hp, ⟨h.exchange hord hp hp' hname hname' fun x => ?_, hp', hname', ?_⟩⟩
  · rw [hmap]
    by_cases hx : x = id
    · subst hx
      rw [if_pos rfl]
      have hthis := h.mapOf.eq_some hused hname
      exact hthis
    · rw [if_neg hx]
  · show _ = total Node.size pre + (n.key.recordCount + 1 - 1).toNat
    rw [Int.add_sub_cancel]

/-- Case 3 before a large free block: take `MIN_BLOCK_SIZE` lines of it. -/
theorem stealNext_spec {pre post : List Node} {q : Node} (h : Inv a)
    (hs : a.nodes = pre ++ n :: q :: post) (hname : Named n.key id)
    (hq : isFree q.key = true) (hq2 : q.size ≥ 2 * MIN_BLOCK_SIZE) :
    ∃ rest, a.used.Perm ((total Node.size pre, n) :: rest) ∧
      Inserted id ((a.setKey q.addr fun k =>
          { k with blockSize := k.blockSize - MIN_BLOCK_SIZE }).addRecord n.addr
            (n.size + MIN_BLOCK_SIZE))
        (total Node.size pre + n.key.recordCount.toNat) rest (total Node.size pre)
        ⟨n.addr, addKey n.key (n.size + MIN_BLOCK_SIZE)⟩ := by
  have hM : MIN_BLOCK_SIZE = 16 := rfl
  have hnd := h.ordered.tiled.nodup
  have htile := h.ordered.tiled
  rw [hs] at htile
  have hsq : a.nodes = (pre ++ [n]) ++ q :: post := by simpa using hs
  have htileq : Tiled ((pre ++ [n]) ++ q :: post) a.fresh := by simpa using htile
  have hgoodn := htile.good n (by simp)
  have hgoodq := htileq.good q (by simp)
  have hle : n.key.recordCount ≤ n.size := by
    rcases hgoodn.2.2 with hfree | hused
    · rw [hname.not_free] at hfree
      cases hfree
    · exact hused.2.2
  rcases htileq.used_neighbours hq with ⟨hleft, hright⟩
  have hset := nodes_setKey hsq hnd fun k => { k with blockSize := k.blockSize - MIN_BLOCK_SIZE }
  have hgoodq' : GoodNode ⟨q.addr, { q.key with blockSize := q.key.blockSize - MIN_BLOCK_SIZE }⟩ := by
    refine ⟨?_, Nat.dvd_sub hgoodq.2.1 (dvd_refl _), .inl hq⟩
    show 0 < q.size - MIN_BLOCK_SIZE
    omega
  have htile' : Tiled ((pre ++ [n]) ++
      (⟨q.addr, { q.key with blockSize := q.key.blockSize - MIN_BLOCK_SIZE }⟩ : Node) :: post)
      a.fresh :=
    htileq.replace rfl hgoodq' (fun x hx => apart_of_used_left (hleft x hx))
      fun y hy => apart_of_used_right (hright y hy)
  rw [append_assoc, singleton_append] at htile' hset
  have hnd' := nodup_setKey hnd q.addr fun k =>
    { k with blockSize := k.blockSize - MIN_BLOCK_SIZE }
  refine grown_spec h hs hname htile' (Nat.dvd_add hgoodn.2.1 (dvd_refl _)) (by omega)
    (nodes_setKey hset hnd' _) rfl rfl ?_ ?_
  · simp [addRecord, h.ordered.len_eq]
  · rw [usedFrom_cons_free hq, usedFrom_cons_free (n :=
      ⟨q.addr, { q.key with blockSize := q.key.blockSize - MIN_BLOCK_SIZE }⟩) hq]
    congr 1
    have hqs : q.size = q.key.blockSize := rfl
    show _ + (q.key.blockSize - MIN_BLOCK_SIZE) = _
    omega

/-- Case 3 before a small free block: swallow it. -/
theorem swallowNext_spec {pre post : List Node} {q : Node} (h : Inv a)
    (hs : a.nodes = pre ++ n :: q :: post) (hname : Named n.key id) (hq : isFree q.key = true) :
    ∃ rest, a.used.Perm ((total Node.size pre, n) :: rest) ∧
      Inserted id ((a.addRecord n.addr (n.size + q.size)).deleteNode q.addr)
        (total Node.size pre + n.key.recordCount.toNat) rest (total Node.size pre)
        ⟨n.addr, addKey n.key (n.size + q.size)⟩ := by
  have hnd := h.ordered.tiled.nodup
  have htile := h.ordered.tiled
  rw [hs] at htile
  have htileq : Tiled ((pre ++ [n]) ++ q :: post) a.fresh := by simpa using htile
  have hgoodn := htile.good n (by simp)
  have hgoodq := htileq.good q (by simp)
  have hle : n.key.recordCount ≤ n.size := by
    rcases hgoodn.2.2 with hfree | hused
    · rw [hname.not_free] at hfree
      cases hfree
    · exact hused.2.2
  have htile' := htileq.remove (by simpa using fun y _ => apart_of_used_left hname.not_free)
  rw [append_assoc, singleton_append] at htile'
  have hset : (a.addRecord n.addr (n.size + q.size)).nodes =
      pre ++ ⟨n.addr, addKey n.key (n.size + q.size)⟩ :: q :: post := nodes_setKey hs hnd _
  have hsplit : (a.addRecord n.addr (n.size + q.size)).nodes =
      (pre ++ [⟨n.addr, addKey n.key (n.size + q.size)⟩]) ++ q :: post := by
    simpa using hset
  have hdel := nodes_deleteNode hsplit (nodup_setKey hnd _ _)
  rw [append_assoc, singleton_append] at hdel
  refine grown_spec h hs hname htile' (Nat.dvd_add hgoodn.2.1 hgoodq.2.1) ?_ hdel rfl rfl ?_ ?_
  · have := hgoodq.1
    omega
  · rw [hdel, deleteNode_len, addRecord, setKey_len, h.ordered.len_eq, hs]
    simp
  · rw [usedFrom_cons_free hq, Nat.add_assoc]

/-- `block_insert` on an allocator in order, for a name of 1 to 8 characters. -/
theorem blockInsert_spec (h : Inv a) (hpos : 0 < id.length) (hlen : id.length ≤ 8) :
    ∃ a' slot move rest o' n', a.blockInsert id = .ok (a', slot, move) ∧
      Inserted id a' slot rest o' n' ∧ Before a id move rest o' n' := by
  have hguard : ¬ (id.length ≤ 0 ∨ id.length > 8) := by omega
  unfold blockInsert
  simp only [hguard, if_false]
  rcases hmap : a.blockMap[id]? with _ | ⟨o, loc⟩
  · -- case 1
    rcases allocateBlock_spec h hpos hlen hmap with ⟨o', n', hins, hcount⟩
    exact ⟨_, _, none, a.used, o', n', rfl, hins, .fresh hmap (List.Perm.refl _) hcount⟩
  · rcases (h.mapOf id ⟨o, loc⟩).mp hmap with ⟨n, hmem, rfl, hname⟩
    rcases mem_used_iff.mp hmem with ⟨⟨pre, post, hs, ho⟩, hn⟩
    dsimp only at ho
    have hnd := h.ordered.tiled.nodup
    have hlen' := h.ordered.len_eq
    have htile := h.ordered.tiled
    rw [hs] at htile
    rcases usedKey_of_mem h.ordered hmem with ⟨⟨-, hcount, hle⟩, hgoodn⟩
    have hsize : n.size = n.key.blockSize := rfl
    have hnext : nextIn n.addr a.nodes = post.head? := by
      rw [hs]
      exact nextIn_split (ne_addr_of_nodup htile.nodup).1
    simp only [node?_split hs hnd, hnext]
    by_cases hfull : (n.size : Int) ≤ n.key.recordCount
    · -- case 3
      rw [if_pos hfull]
      have hM : 0 < MIN_BLOCK_SIZE := by decide
      cases post with
      | nil =>
        -- last block of the file
        have hnodes : (a.addRecord n.addr (n.size + MIN_BLOCK_SIZE)).nodes =
            pre ++ [⟨n.addr, addKey n.key (n.size + MIN_BLOCK_SIZE)⟩] := nodes_setKey hs hnd _
        have hgrown := grown_spec h hs hname htile (Nat.dvd_add hgoodn.2.1 (dvd_refl _))
          (by omega) hnodes rfl rfl (by simp [addRecord, hlen']) rfl
        rcases hgrown with ⟨rest, hp, hins⟩
        rw [← ho] at hp hins
        exact ⟨_, _, none, rest, o, _, rfl, hins, .grown hp hname rfl⟩
      | cons q post =>
        simp only [head?_cons]
        by_cases hq : isFree q.key = true
        · rw [if_pos hq]
          by_cases hq2 : q.size ≥ 2 * MIN_BLOCK_SIZE
          · rw [if_pos hq2]
            rcases stealNext_spec h hs hname hq hq2 with ⟨rest, hp, hins⟩
            rw [← ho] at hp hins
            exact ⟨_, _, none, rest, o, _, rfl, hins, .grown hp hname rfl⟩
          · rw [if_neg hq2]
            rcases swallowNext_spec h hs hname hq with ⟨rest, hp, hins⟩
            rw [← ho] at hp hins
            exact ⟨_, _, none, rest, o, _, rfl, hins, .grown hp hname rfl⟩
        · rw [if_neg hq]
          rcases relocateBlock_spec h hmem hname with ⟨rest, o', n', hp, hins, hcnt, hap, hmove⟩
          refine ⟨_, _, some ⟨o, o', n.key.recordCount.toNat⟩, rest, o', n', ?_, hins,
            .moved hp hname hcnt hap⟩
          rw [← hmove]
          rfl
    · -- case 2
      rw [if_neg hfull]
      have hnodes : (a.addRecord n.addr n.size).nodes =
          pre ++ ⟨n.addr, addKey n.key n.size⟩ :: post := nodes_setKey hs hnd _
      have hgrown := grown_spec h hs hname htile hgoodn.2.1 (by omega) hnodes rfl rfl
        (by simp [addRecord, hlen']) rfl
      rcases hgrown with ⟨rest, hp, hins⟩
      rw [← ho] at hp hins
      exact ⟨_, _, none, rest, o, _, rfl, hins, .grown hp hname rfl⟩

end Insert

/-! ## Runs

`live` keeps the offset of every record inserted so far: a call adds the slot it
returns and moves the records of a block that moves. -/

/-- Where a record at `p` is after the records of a block were copied. -/
def Relocation.apply (move : Relocation) (p : Nat) : Nat :=
  if move.oldOffset ≤ p ∧ p < move.oldOffset + move.count then
    move.newOffset + (p - move.oldOffset)
  else p

/-- The offsets of the records after a move, or after none. -/
def moveRecords (move : Option Relocation) (live : List Nat) : List Nat :=
  match move with
  | none => live
  | some move => live.map (Relocation.apply move)

/-- One call of `block_insert`. -/
def insertStep (s : BlockAllocator × List Nat) (id : Str) :
    Except Err (BlockAllocator × List Nat) := do
  let (a, slot, move) ← s.1.blockInsert id
  return (a, moveRecords move s.2 ++ [slot])

/-- Calls of `block_insert` on an empty allocator. -/
def insertAll (ids : List Str) : Except Err (BlockAllocator × List Nat) :=
  ids.foldlM insertStep (init, [])

/-- The slots of the records of one block. -/
def blockSlots (e : Nat × Node) : List Nat :=
  (List.range e.2.key.recordCount.toNat).map (e.1 + ·)

/-- The slots of all records. -/
def recordSlots (l : List (Nat × Node)) : List Nat := l.flatMap blockSlots

theorem mem_blockSlots {e : Nat × Node} {p : Nat} :
    p ∈ blockSlots e ↔ e.1 ≤ p ∧ (p : Int) < e.1 + e.2.key.recordCount := by
  simp only [blockSlots, mem_map, mem_range]
  constructor
  · rintro ⟨i, hi, rfl⟩
    omega
  · rintro ⟨hle, hlt⟩
    exact ⟨p - e.1, by omega, by omega⟩

theorem nodup_blockSlots (e : Nat × Node) : (blockSlots e).Nodup :=
  List.Nodup.map (fun _ _ h => Nat.add_left_cancel h) nodup_range

/-- The slots of different blocks differ. -/
theorem Ordered.disjoint_blockSlots {a : BlockAllocator} (h : Ordered a) {e e' : Nat × Node}
    (he : e ∈ a.used) (he' : e' ∈ a.used) (hne : e ≠ e') :
    List.Disjoint (blockSlots e) (blockSlots e') := by
  intro p hp hp'
  rw [mem_blockSlots] at hp hp'
  have hle := (usedKey_of_mem h he).1.2.2
  have hle' := (usedKey_of_mem h he').1.2.2
  have hs : e.2.size = e.2.key.blockSize := rfl
  have hs' : e'.2.size = e'.2.key.blockSize := rfl
  refine hne (layout_eq_of_overlap Node.size (mem_usedFrom.mp he).1 (mem_usedFrom.mp he').1
    (i := p - e.1) (j := p - e'.1) ?_ ?_ ?_)
  · omega
  · omega
  · omega

theorem Ordered.nodup_recordSlots {a : BlockAllocator} (h : Ordered a) :
    (recordSlots a.used).Nodup := by
  refine nodup_flatMap.mpr ⟨fun e _ => nodup_blockSlots e, ?_⟩
  have hnd : a.used.Nodup := h.nodup_used.of_map _
  exact hnd.pairwise_of_forall_ne fun e he e' he' hne => h.disjoint_blockSlots he he' hne

theorem recordSlots_perm {l l' : List (Nat × Node)} (h : l.Perm l') :
    (recordSlots l).Perm (recordSlots l') :=
  h.flatMap_right _

/-- The slots of a block with one more record. -/
theorem blockSlots_succ {o : Nat} {n n' : Node} (hpos : 0 ≤ n.key.recordCount)
    (hcount : n'.key.recordCount = n.key.recordCount + 1) :
    blockSlots (o, n') = blockSlots (o, n) ++ [o + (n'.key.recordCount - 1).toNat] := by
  have hsucc : n'.key.recordCount.toNat = n.key.recordCount.toNat + 1 := by omega
  have hlast : (n'.key.recordCount - 1).toNat = n.key.recordCount.toNat := by omega
  simp only [blockSlots, hsucc, hlast, range_succ, map_append, map_singleton]

/-- The records of a block that moves are the records of the block at its new
place. -/
theorem map_apply_blockSlots (o o' : Nat) (n : Node) :
    (blockSlots (o, n)).map (Relocation.apply ⟨o, o', n.key.recordCount.toNat⟩) =
      blockSlots (o', n) := by
  simp only [blockSlots, map_map]
  apply map_congr_left
  intro i hi
  have hi' : i < n.key.recordCount.toNat := mem_range.mp hi
  simp [Relocation.apply, hi']

/-- A move leaves the records of other blocks alone. -/
theorem map_apply_recordSlots {a : BlockAllocator} (h : Ordered a) {o o' : Nat} {n : Node}
    {rest : List (Nat × Node)} (hp : a.used.Perm ((o, n) :: rest)) :
    (recordSlots rest).map (Relocation.apply ⟨o, o', n.key.recordCount.toNat⟩) =
      recordSlots rest := by
  refine (map_congr_left fun p hp' => ?_).trans (map_id _)
  rcases mem_flatMap.mp hp' with ⟨e, he, hpe⟩
  have hne : (o, n) ≠ e := fun heq => h.ne_addr hp e he (heq ▸ rfl)
  have hdis := h.disjoint_blockSlots (hp.mem_iff.mpr (mem_cons_self ..))
    (hp.mem_iff.mpr (mem_cons_of_mem _ he)) hne
  have hnot : p ∉ blockSlots (o, n) := fun hin => hdis hin hpe
  rw [mem_blockSlots] at hnot
  have hout : ¬ (o ≤ p ∧ p < o + n.key.recordCount.toNat) := by
    dsimp only at hnot
    omega
  simp [Relocation.apply, hout]

/-- The records of the run are the records of the blocks. -/
structure RunInv (s : BlockAllocator × List Nat) : Prop where
  inv : Inv s.1
  live_perm : s.2.Perm (recordSlots s.1.used)

theorem appendSlot_perm {live old rest : List Nat} {slot : Nat} (h : live.Perm (old ++ rest)) :
    (live ++ [slot]).Perm ((old ++ [slot]) ++ rest) := by
  refine (h.append_right _).trans ?_
  rw [append_assoc, append_assoc]
  exact perm_append_comm.append_left _

theorem insertStep_runInv {s : BlockAllocator × List Nat} {id : Str} (h : RunInv s)
    (hpos : 0 < id.length) (hlen : id.length ≤ 8) :
    ∃ s', insertStep s id = .ok s' ∧ RunInv s' ∧ s'.2.length = s.2.length + 1 := by
  rcases blockInsert_spec h.inv hpos hlen with
    ⟨a', slot, move, rest, o', n', hcall, hins, hbefore⟩
  refine ⟨(a', moveRecords move s.2 ++ [slot]), ?_, ⟨hins.inv, ?_⟩, ?_⟩
  rotate_left 2
  · cases move <;> simp [moveRecords]
  · rw [insertStep, hcall]
    rfl
  have hnew : (recordSlots a'.used).Perm (blockSlots (o', n') ++ recordSlots rest) :=
    recordSlots_perm hins.used_perm
  refine List.Perm.trans ?_ hnew.symm
  have hlive := h.live_perm
  rw [hins.slot_eq]
  cases hbefore with
  | fresh _ hperm hcount =>
    have hone : blockSlots (o', n') = [o' + (n'.key.recordCount - 1).toNat] := by
      simp [blockSlots, hcount]
    rw [hone]
    exact ((hlive.trans (recordSlots_perm hperm)).append_right _).trans perm_append_comm
  | @grown _ _ n _ hperm _ hcount =>
    have hmem := hperm.mem_iff.mpr (mem_cons_self ..)
    have hpos' := (usedKey_of_mem h.inv.ordered hmem).1.2.1
    rw [blockSlots_succ (by omega) hcount]
    exact appendSlot_perm (hlive.trans (recordSlots_perm hperm))
  | @moved _ o n _ _ hperm _ hcount _ =>
    have hmem := hperm.mem_iff.mpr (mem_cons_self ..)
    have hpos' := (usedKey_of_mem h.inv.ordered hmem).1.2.1
    rw [blockSlots_succ (by omega) hcount]
    have hmoved : ((blockSlots (o, n) ++ recordSlots rest).map
        (Relocation.apply ⟨o, o', n.key.recordCount.toNat⟩)) =
        blockSlots (o', n) ++ recordSlots rest := by
      rw [map_append, map_apply_blockSlots, map_apply_recordSlots h.inv.ordered hperm]
    have hold := (hlive.trans (recordSlots_perm hperm)).map
      (Relocation.apply ⟨o, o', n.key.recordCount.toNat⟩)
    exact appendSlot_perm (hmoved ▸ hold)

theorem insertAll_runInv (ids : List Str) (hids : ∀ id ∈ ids, 0 < id.length ∧ id.length ≤ 8) :
    ∃ s, insertAll ids = .ok s ∧ RunInv s ∧ s.2.length = ids.length := by
  have hrun : ∀ s, RunInv s → ∃ s', ids.foldlM insertStep s = .ok s' ∧ RunInv s' ∧
      s'.2.length = s.2.length + ids.length := by
    induction ids with
    | nil =>
      intro s hs
      exact ⟨s, rfl, hs, rfl⟩
    | cons id ids ih =>
      intro s hs
      have hid := hids id (mem_cons_self ..)
      rcases insertStep_runInv hs hid.1 hid.2 with ⟨s₁, hstep, hs₁, hlen₁⟩
      rcases ih (fun x hx => hids x (mem_cons_of_mem _ hx)) s₁ hs₁ with
        ⟨s', hrest, hs', hlen'⟩
      refine ⟨s', ?_, hs', ?_⟩
      · rw [foldlM_cons, hstep]
        exact hrest
      · rw [hlen', hlen₁, length_cons]
        omega
  rcases hrun (init, []) ⟨inv_init, List.Perm.refl _⟩ with ⟨s, hs, hinv, hlen⟩
  exact ⟨s, hs, hinv, by simpa using hlen⟩

/-- Every non-free block has one entry in the map, under its name and with its
offset. -/
theorem Inv.entry {a : BlockAllocator} (h : Inv a) {pre post : List Node} {n : Node}
    (hs : a.nodes = pre ++ n :: post) (hn : isFree n.key = false) :
    ∃ id, n.key.val.text = id ∧ a.blockMap[id]? = some ⟨total Node.size pre, n.addr⟩ ∧
      ∀ id' info, a.blockMap[id']? = some info → info.loc = n.addr → id' = id := by
  have hmem : (total Node.size pre, n) ∈ a.used := mem_used_iff.mpr ⟨⟨pre, post, hs, rfl⟩, hn⟩
  rcases (usedKey_of_mem h.ordered hmem).1.1 with ⟨id, hname⟩
  refine ⟨id, hname.text, h.mapOf.eq_some hmem hname, fun id' info hinfo hloc => ?_⟩
  rcases (h.mapOf id' info).mp hinfo with ⟨n', hmem', haddr, hname'⟩
  -- addresses are distinct, so it is the same block
  have hrest := perm_cons_erase hmem
  have hnot := h.ordered.ne_addr hrest
  rcases mem_cons.mp (hrest.mem_iff.mp hmem') with he | hin
  · rw [Prod.mk.injEq] at he
    rw [he.2] at hname'
    exact hname'.unique hname
  · exact absurd (haddr.trans hloc) (hnot _ hin)

/-- After any calls with names of 1 to 8 characters the blocks tile the file: all
sizes are positive multiples of `MIN_BLOCK_SIZE`, used blocks and map entries
correspond, records fit their block, free blocks are merged, a further call
returns the last record's slot of the named block, and the records inserted are
at different offsets. -/
theorem blockInsert_tiles (ids : List Str) (hids : ∀ id ∈ ids, 0 < id.length ∧ id.length ≤ 8) :
    ∃ a live, insertAll ids = .ok (a, live) ∧
      (∀ n ∈ a.nodes, 0 < n.key.blockSize ∧ MIN_BLOCK_SIZE ∣ n.key.blockSize) ∧
      (∀ pre n post, a.nodes = pre ++ n :: post → isFree n.key = false →
        ∃ id, n.key.val.text = id ∧ a.blockMap[id]? = some ⟨total Node.size pre, n.addr⟩ ∧
          ∀ id' info, a.blockMap[id']? = some info → info.loc = n.addr → id' = id) ∧
      (∀ n ∈ a.nodes, isFree n.key = false →
        0 < n.key.recordCount ∧ n.key.recordCount ≤ n.key.blockSize) ∧
      (∀ pre x y post, a.nodes = pre ++ x :: y :: post →
        ¬ (isFree x.key = true ∧ isFree y.key = true)) ∧
      (∀ id, 0 < id.length → id.length ≤ 8 →
        ∃ a' slot move info n, a.blockInsert id = .ok (a', slot, move) ∧
          a'.blockMap[id]? = some info ∧ a'.node? info.loc = some n ∧
          (slot : Int) = info.offset + n.key.recordCount - 1 ∧
          slot < info.offset + n.key.blockSize) ∧
      live.length = ids.length ∧ live.Nodup := by
  rcases insertAll_runInv ids hids with ⟨⟨a, live⟩, hrun, ⟨hinv, hperm⟩, hlen⟩
  have htile := hinv.ordered.tiled
  refine ⟨a, live, hrun, fun n hn => ?_, fun pre n post hs hn => hinv.entry hs hn,
    fun n hn hused => ?_, fun pre x y post hs => ?_, fun id hpos h8 => ?_, hlen,
    hperm.nodup_iff.mpr hinv.ordered.nodup_recordSlots⟩
  · exact ⟨(htile.good n hn).1, (htile.good n hn).2.1⟩
  · rcases (htile.good n hn).2.2 with hfree | hkey
    · rw [hused] at hfree
      cases hfree
    · exact hkey.2
  · have hch := htile.apart
    rw [hs, isChain_append, isChain_cons_cons] at hch
    exact hch.2.1.1
  · rcases blockInsert_spec hinv hpos h8 with ⟨a', slot, move, rest, o', n', hcall, hins, -⟩
    have hmem : (o', n') ∈ a'.used := hins.used_perm.mem_iff.mpr (mem_cons_self ..)
    rcases mem_used_iff.mp hmem with ⟨⟨pre, post, hs, -⟩, -⟩
    rcases (usedKey_of_mem hins.inv.ordered hmem).1 with ⟨-, hcount, hle⟩
    have hslot := hins.slot_eq
    refine ⟨a', slot, move, ⟨o', n'.addr⟩, n', hcall, hins.inv.mapOf.eq_some hmem hins.named,
      node?_split hs hins.inv.ordered.tiled.nodup, ?_, ?_⟩
    · dsimp only
      omega
    · dsimp only
      omega

/-- The block of `"US"` is in the way when the one of `"BR"` is full. -/
theorem blockInsert_tiles_moving :
    ∃ a live, insertAll (List.replicate 16 (Str.ofString "BR") ++
        [Str.ofString "US", Str.ofString "BR"]) = .ok (a, live) ∧ live.Nodup := by
  have hids : ∀ id ∈ List.replicate 16 (Str.ofString "BR") ++
      [Str.ofString "US", Str.ofString "BR"], 0 < id.length ∧ id.length ≤ 8 := by decide
  rcases blockInsert_tiles _ hids with ⟨a, live, hrun, -, -, -, -, -, -, hnd⟩
  exact ⟨a, live, hrun, hnd⟩

end BlockAllocator

end PittCs.Rcdb
