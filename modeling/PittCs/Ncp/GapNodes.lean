import Mathlib.Algebra.Group.Int.Defs
import Mathlib.Algebra.Group.Nat.Defs
import PittCs.Lib.LinkedLists
import PittCs.Ncp.GapList

/-!
# The gap list in memory

`gap_list.c` with its nodes and links, and with the `int` arithmetic of the program as it
is compiled. A node and its gap are allocated together and are one node here; memory does
not run out. An operation on a list that is linked as it should be does not use an address
that is not allocated, and does to the gaps what the list of intervals says.
-/

namespace PittCs.Ncp

open PittCs.Lib Function Option

/-- An `int`, of 32 bits; without optimisation its arithmetic wraps. -/
def toInt (x : Int) : Int := x.bmod (2 ^ 32)

/-- `INT_MAX`. -/
def intMax : Int := 2 ^ 31 - 1

theorem toInt_eq {x : Int} (hlow : 0 ≤ x) (hhigh : x ≤ intMax) : toInt x = x := by
  unfold toInt
  unfold intMax at hhigh
  exact Int.bmod_eq_of_le (by omega) (by omega)

/-- `node`. The null pointer is 0. -/
structure ListNode where
  gap : Gap
  next : Nat
  prev : Nat
deriving DecidableEq

/-- `gap_list`, with the nodes that are allocated. -/
structure NodeList where
  mem : Nat → Option ListNode
  head : Nat
  tail : Nat
  size : Int

namespace NodeList

def newList : NodeList := ⟨fun _ => none, 0, 0, 0⟩

/-- Writes into an allocated node. -/
def modify (list : NodeList) (curr : Nat) (f : ListNode → ListNode) : Option NodeList :=
  (list.mem curr).map fun node =>
    { list with mem := Function.update list.mem curr (some (f node)) }

/-- A node at an address that `malloc` has returned. -/
def allocate (list : NodeList) (addr : Nat) (node : ListNode) : NodeList :=
  { list with mem := Function.update list.mem addr (some node) }

@[simp] theorem allocate_head (list : NodeList) (addr : Nat) (node : ListNode) :
    (list.allocate addr node).head = list.head := rfl

@[simp] theorem allocate_tail (list : NodeList) (addr : Nat) (node : ListNode) :
    (list.allocate addr node).tail = list.tail := rfl

@[simp] theorem allocate_size (list : NodeList) (addr : Nat) (node : ListNode) :
    (list.allocate addr node).size = list.size := rfl

/-- `insert`; `addr` is what `malloc` returns. -/
def insert (list : NodeList) (addr : Nat) (newGap : Gap) : Option NodeList :=
  if list.head = 0 then
    some { list.allocate addr ⟨newGap, 0, 0⟩ with
      head := addr
      tail := addr
      size := toInt (list.size + 1) }
  else do
    let list := list.allocate addr ⟨newGap, 0, list.tail⟩
    let list ← list.modify list.tail fun node => { node with next := addr }
    some { list with tail := addr, size := toInt (list.size + 1) }

/-- The end of the turn of `split_gap` that has moved an endpoint: a gap with nothing left
is dropped. -/
def dropEmpty (list : NodeList) (curr : Nat) : Option NodeList := do
  let node ← list.mem curr
  if node.gap.start ≥ node.gap.stop then
    let list := { list with size := toInt (list.size - 1) }
    let list ←
      if node.next = 0 ∧ node.prev = 0 then some { list with size := 0, tail := 0, head := 0 }
      else if node.next = 0 then
        ({ list with tail := node.prev } : NodeList).modify node.prev fun n => { n with next := 0 }
      else if node.prev = 0 then
        ({ list with head := node.next } : NodeList).modify node.next fun n => { n with prev := 0 }
      else do
        let list ← list.modify node.prev fun n => { n with next := node.next }
        list.modify node.next fun n => { n with prev := node.prev }
    some { list with mem := Function.update list.mem curr none }
  else some list

/-- A gap that is split in the middle: a new node behind its node takes the upper part. -/
def splitNode (list : NodeList) (addr : Nat) (splitPoint : Int) (curr : Nat) (node : ListNode) :
    Option NodeList := do
  let list := list.allocate addr ⟨⟨toInt (splitPoint + 1), node.gap.stop⟩, node.next, curr⟩
  let list ←
    if node.next = 0 then some { list with tail := addr }
    else list.modify node.next fun n => { n with prev := addr }
  let list ← list.modify curr fun n =>
    { n with gap := ⟨n.gap.start, splitPoint⟩, next := addr }
  some { list with size := toInt (list.size + 1) }

/-- The loop of `split_gap` from `curr` on, for at most so many turns. -/
def splitFrom (list : NodeList) (addr : Nat) (splitPoint : Int) :
    Nat → Nat → Option (Bool × NodeList)
  | 0, _ => none
  | fuel + 1, curr =>
    if curr = 0 then some (false, list)
    else do
      let node ← list.mem curr
      if splitPoint < node.gap.start then some (false, list)
      else if splitPoint ≥ node.gap.stop then splitFrom list addr splitPoint fuel node.next
      else if splitPoint = node.gap.start then do
        let list ← list.modify curr fun n =>
          { n with gap := ⟨toInt (n.gap.start + 1), n.gap.stop⟩ }
        let list ← list.dropEmpty curr
        some (true, list)
      else if splitPoint = toInt (node.gap.stop - 1) then do
        let list ← list.modify curr fun n =>
          { n with gap := ⟨n.gap.start, toInt (n.gap.stop - 1)⟩ }
        let list ← list.dropEmpty curr
        some (true, list)
      else do
        let list ← list.splitNode addr splitPoint curr node
        some (true, list)

/-- `split_gap`. The loop makes one turn a node at most. -/
def splitGap (list : NodeList) (addr : Nat) (splitPoint : Int) : Option (Bool × NodeList) :=
  list.splitFrom addr splitPoint (list.size.toNat + 1) list.head

/-! ## Lists in memory -/

def next (list : NodeList) (a : Nat) : Nat := ((list.mem a).map ListNode.next).getD 0

def prev (list : NodeList) (a : Nat) : Nat := ((list.mem a).map ListNode.prev).getD 0

def gap (list : NodeList) (a : Nat) : Option Gap := (list.mem a).map ListNode.gap

/-- The nodes `ptrs` are linked in both directions and hold the gaps, in order. -/
structure Holds (list : NodeList) (ptrs : List Nat) (gaps : List Gap) : Prop where
  links : Chain 0 list.prev list.next 0 list.head ptrs
  nodup : ptrs.Nodup
  tail : list.tail = ptrs.getLastD 0
  gaps : ptrs.map list.gap = gaps.map some

theorem holds_newList : newList.Holds [] [] := ⟨rfl, List.nodup_nil, rfl, rfl⟩

section Holds

variable {list list' : NodeList} {ptrs xs ys : List Nat} {gaps gx gy : List Gap} {a addr : Nat}
  {g : Gap}

/-- The gaps are determined by the memory. -/
theorem Holds.unique (h : list.Holds ptrs gaps) {ptrs' : List Nat} {gaps' : List Gap}
    (h' : list.Holds ptrs' gaps') : gaps = gaps' := by
  have hptrs := h.links.unique h'.links
  subst hptrs
  exact (List.map_inj_right fun _ _ => some.inj).mp (h.gaps.symm.trans h'.gaps)

theorem Holds.length (h : list.Holds ptrs gaps) : ptrs.length = gaps.length := by
  simpa using congrArg List.length h.gaps

/-- The node in the middle of the list. -/
theorem Holds.node (h : list.Holds (xs ++ a :: ys) (gx ++ g :: gy)) (hlen : xs.length = gx.length) :
    list.mem a = some ⟨g, ys.headD 0, xs.getLastD 0⟩ := by
  have hlinks := h.links.links_of_mem
  have hgap : list.gap a = some g := by
    have hmap := h.gaps
    rw [List.map_append, List.map_append, List.map_cons, List.map_cons] at hmap
    exact (List.cons.inj (List.append_inj hmap (by simpa using hlen)).2).1
  unfold prev next at hlinks
  unfold gap at hgap
  cases hmem : list.mem a with
  | none => simp [hmem] at hgap
  | some node =>
    simp only [hmem, map_some, getD_some, some.injEq] at hlinks hgap
    rw [← hlinks.1, ← hlinks.2, ← hgap]

theorem Holds.allocated (h : list.Holds ptrs gaps) (ha : a ∈ ptrs) : list.mem a ≠ none := by
  intro hnone
  have hgap : list.gap a ∈ gaps.map some := h.gaps ▸ List.mem_map_of_mem ha
  simp [gap, hnone] at hgap

theorem mem_of_around {b : Nat} (hb : b ∈ xs ++ ys) : b ∈ xs ++ a :: ys :=
  List.perm_middle.mem_iff.mpr (List.mem_cons_of_mem a hb)

/-- The other nodes of the list. -/
theorem Holds.ne_node (h : list.Holds (xs ++ a :: ys) gaps) {b : Nat} (hb : b ∈ xs ++ ys) :
    b ≠ a := by
  rintro rfl
  exact (List.nodup_cons.mp (List.nodup_middle.mp h.nodup)).1 hb

/-- A gap changes in its node. -/
theorem Holds.setGap (h : list.Holds (xs ++ a :: ys) (gx ++ g :: gy)) (hlen : xs.length = gx.length)
    (g' : Gap) :
    (list.allocate a ⟨g', ys.headD 0, xs.getLastD 0⟩).Holds (xs ++ a :: ys) (gx ++ g' :: gy) := by
  have hnode := h.node hlen
  have hax : ∀ b ∈ xs, b ≠ a := fun b hb => h.ne_node (List.mem_append_left _ hb)
  have hay : ∀ b ∈ ys, b ≠ a := fun b hb => h.ne_node (List.mem_append_right _ hb)
  constructor
  case links =>
    refine h.links.congr (fun b _ => ?_) fun b _ => ?_
    · by_cases hb : b = a
      · subst hb
        simp [prev, allocate, hnode]
      · simp [prev, allocate, hb]
    · by_cases hb : b = a
      · subst hb
        simp [next, allocate, hnode]
      · simp [next, allocate, hb]
  case nodup => exact h.nodup
  case tail => exact h.tail
  case gaps =>
    have hgaps := h.gaps
    rw [List.map_append, List.map_append, List.map_cons, List.map_cons] at hgaps ⊢
    rcases List.append_inj hgaps (by simpa using hlen) with ⟨hgx, hgy⟩
    rw [← hgx, ← (List.cons.inj hgy).2]
    refine congrArg₂ _ (List.map_congr_left fun b hb => ?_)
      (congrArg₂ _ ?_ (List.map_congr_left fun b hb => ?_))
    · simp [gap, allocate, hax b hb]
    · simp [gap, allocate]
    · simp [gap, allocate, hay b hb]

/-- The neighbours of a node are linked to each other, and the node is left out. -/
theorem Holds.unlink {p q : Nat} (h : list.Holds (xs ++ a :: ys) (gx ++ g :: gy))
    (hlen : xs.length = gx.length) (hp : xs.getLastD 0 = p) (hq : ys.headD 0 = q)
    (hmem : ∀ b ∈ xs ++ ys, list'.mem b = (list.mem b).map fun n =>
      ⟨n.gap, if b = p then q else n.next, if b = q then p else n.prev⟩)
    (hhead : list'.head = if p = 0 then q else list.head)
    (htail : list'.tail = if q = 0 then p else list.tail) :
    list'.Holds (xs ++ ys) (gx ++ gy) := by
  subst hp
  subst hq
  have hlinks := h.links.links_of_mem
  have hsub : ∀ b ∈ xs ++ ys, b ∈ xs ++ a :: ys := fun b hb => mem_of_around hb
  have hzero : 0 ∉ xs ++ a :: ys := fun hmem => h.links.ne_null hmem rfl
  have hfield : ∀ b ∈ xs ++ ys, ∃ n, list.mem b = some n := fun b hb =>
    ne_none_iff_exists'.mp (h.allocated (hsub b hb))
  constructor
  case links =>
    have hprev : ∀ b ∈ xs ++ ys,
        list'.prev b = if b = list.next a then list.prev a else list.prev b := by
      intro b hb
      rcases hfield b hb with ⟨n, hn⟩
      simp only [prev, hmem b hb, hn, map_some, getD_some]
      rw [← hlinks.1, ← hlinks.2]
      rfl
    have hnext : ∀ b ∈ xs ++ ys,
        list'.next b = if b = list.prev a then list.next a else list.next b := by
      intro b hb
      rcases hfield b hb with ⟨n, hn⟩
      simp only [next, hmem b hb, hn, map_some, getD_some]
      rw [← hlinks.1, ← hlinks.2]
      rfl
    have hchain := h.links.remove h.nodup hzero hprev hnext
    rw [hhead]
    rw [hlinks.1, hlinks.2] at hchain
    exact hchain
  case nodup =>
    have hsublist : (xs ++ ys).Sublist (xs ++ a :: ys) :=
      (List.Sublist.refl xs).append (List.sublist_cons_self a ys)
    exact h.nodup.sublist hsublist
  case tail =>
    rw [htail]
    cases ys with
    | nil => simp
    | cons y ys =>
      have hy : y ≠ 0 := fun heq => hzero (by simp [heq])
      rw [List.headD_cons, if_neg hy, h.tail]
      simp [List.getLastD_eq_getLast?, List.getLast?_append]
  case gaps =>
    have hgaps := h.gaps
    have hsame : ∀ b ∈ xs ++ ys, list'.gap b = list.gap b := by
      intro b hb
      simp [gap, hmem b hb, Option.map_map, comp_def]
    rw [List.map_append, List.map_append, List.map_cons, List.map_cons] at hgaps
    rcases List.append_inj hgaps (by simpa using hlen) with ⟨hgx, hgy⟩
    rw [List.map_congr_left hsame, List.map_append, List.map_append, hgx, (List.cons.inj hgy).2]

theorem modify_eq {node : ListNode} (h : list.mem a = some node) (f : ListNode → ListNode) :
    list.modify a f = some (list.allocate a (f node)) := by
  simp [modify, allocate, h]

theorem getLastD_mem {p : Nat} (hlast : xs.getLastD 0 = p) (hp : p ≠ 0) : p ∈ xs := by
  by_contra hxs
  exact Chain.getLastD_ne hp hxs hlast.symm

theorem headD_mem {q : Nat} (hhead : ys.headD 0 = q) (hq : q ≠ 0) : q ∈ ys := by
  by_contra hys
  exact Chain.headD_ne hq hys hhead.symm

theorem eq_nil_iff_getLastD {p : Nat} (hlast : xs.getLastD 0 = p) (hzero : ∀ b ∈ xs, b ≠ 0) :
    xs = [] ↔ p = 0 := by
  constructor
  · rintro rfl
    exact hlast.symm
  · intro hp
    subst hp
    rcases List.eq_nil_or_concat xs with rfl | ⟨l, b, rfl⟩
    · rfl
    · refine absurd ?_ (hzero b (by simp))
      simpa using hlast

theorem eq_nil_iff_headD {q : Nat} (hhead : ys.headD 0 = q) (hzero : ∀ b ∈ ys, b ≠ 0) :
    ys = [] ↔ q = 0 := by
  constructor
  · rintro rfl
    exact hhead.symm
  · intro hq
    subst hq
    cases ys with
    | nil => rfl
    | cons y ys => exact absurd hhead (hzero y (by simp))

/-- A gap of which nothing is left is dropped. -/
theorem Holds.dropEmpty (h : list.Holds (xs ++ a :: ys) (gx ++ g :: gy))
    (hlen : xs.length = gx.length) (hempty : g.start ≥ g.stop) :
    ∃ list', list.dropEmpty a = some list' ∧ list'.Holds (xs ++ ys) (gx ++ gy) ∧
      list'.size = if xs = [] ∧ ys = [] then 0 else toInt (list.size - 1) := by
  obtain ⟨p, hlast⟩ : ∃ p, xs.getLastD 0 = p := ⟨_, rfl⟩
  obtain ⟨q, hhead⟩ : ∃ q, ys.headD 0 = q := ⟨_, rfl⟩
  have hnode := h.node hlen
  rw [hlast, hhead] at hnode
  have hnodup := List.nodup_append.mp h.nodup
  have hne : ∀ b ∈ xs ++ ys, b ≠ a := fun b hb => h.ne_node hb
  have hzero : ∀ b ∈ xs ++ a :: ys, b ≠ 0 := fun b hb => h.links.ne_null hb
  have hsub : ∀ b ∈ xs ++ ys, b ∈ xs ++ a :: ys := fun b hb => mem_of_around hb
  have hmem : ∀ b ∈ xs ++ ys, ∃ n, list.mem b = some n := fun b hb =>
    ne_none_iff_exists'.mp (h.allocated (hsub b hb))
  have hxs : xs = [] ↔ p = 0 :=
    eq_nil_iff_getLastD hlast fun b hb => hzero b (List.mem_append_left _ hb)
  have hys : ys = [] ↔ q = 0 :=
    eq_nil_iff_headD hhead fun b hb => hzero b (List.mem_append_right _ (List.mem_cons_of_mem a hb))
  simp only [hxs, hys]
  unfold NodeList.dropEmpty
  simp only [hnode, bind_eq_bind, bind_some, if_pos hempty]
  by_cases hp : p = 0
  case pos =>
      by_cases hq : q = 0
      case pos =>
          -- the only node
          rw [if_pos ⟨hq, hp⟩]
          refine ⟨_, rfl, h.unlink hlen hlast hhead (fun b hb => ?_) ?_ ?_, ?_⟩
          · simp [hne b hb, hp, hq, hzero b (hsub b hb)]
          · simp [hp, hq]
          · simp [hp, hq]
          · simp [hp, hq]
      case neg =>
          -- the first node
          rcases hmem q (List.mem_append_right _ (headD_mem hhead hq)) with ⟨nq, hnq⟩
          rw [if_neg (fun hboth => hq hboth.1), if_neg hq, if_pos hp, modify, hnq]
          refine ⟨_, rfl, h.unlink hlen hlast hhead (fun b hb => ?_) ?_ ?_, ?_⟩
          · by_cases hbq : b = q
            · simp [hbq, hnq, hne q (hbq ▸ hb), hp, hq]
            · simp [hbq, hne b hb, hp, hzero b (hsub b hb)]
          · simp [hp]
          · simp [hq]
          · simp [hq]
  case neg =>
      rcases hmem p (List.mem_append_left _ (getLastD_mem hlast hp)) with ⟨np, hnp⟩
      by_cases hq : q = 0
      case pos =>
          -- the last node
          rw [if_neg (fun hboth => hp hboth.2), if_pos hq, modify, hnp]
          refine ⟨_, rfl, h.unlink hlen hlast hhead (fun b hb => ?_) ?_ ?_, ?_⟩
          · by_cases hbp : b = p
            · simp [hbp, hnp, hne p (hbp ▸ hb), hp, hq]
            · simp [hbp, hne b hb, hq, hzero b (hsub b hb)]
          · simp [hp]
          · simp [hq]
          · simp [hp]
      case neg =>
          rcases hmem q (List.mem_append_right _ (headD_mem hhead hq)) with ⟨nq, hnq⟩
          have hqp : q ≠ p := by
            rintro rfl
            exact hnodup.2.2 q (getLastD_mem hlast hq) q (by simp [headD_mem hhead hq]) rfl
          rw [if_neg (fun hboth => hp hboth.2), if_neg hq, if_neg hp, modify, hnp]
          simp only [map_some, bind_some, modify, update_of_ne hqp, hnq]
          refine ⟨_, rfl, h.unlink hlen hlast hhead (fun b hb => ?_) ?_ ?_, ?_⟩
          · by_cases hbq : b = q
            · simp [hbq, hnq, hne q (hbq ▸ hb), hqp]
            · by_cases hbp : b = p
              · simp [hbp, hnp, hne p (hbp ▸ hb), hqp.symm]
              · simp [hbp, hbq, hne b hb]
          · simp [hp]
          · simp [hq]
          · simp [hp]

/-- A new node is linked in behind a node, whose gap may change. -/
theorem Holds.insertAfter {p q : Nat} {g₁ g₂ : Gap}
    (h : list.Holds (xs ++ a :: ys) (gx ++ g :: gy)) (hlen : xs.length = gx.length)
    (hp : xs.getLastD 0 = p) (hq : ys.headD 0 = q) (hfresh : addr ∉ xs ++ a :: ys)
    (haddr : addr ≠ 0) (hnew : list'.mem addr = some ⟨g₂, q, a⟩)
    (ha : list'.mem a = some ⟨g₁, addr, p⟩)
    (hmem : ∀ b ∈ xs ++ ys, list'.mem b = (list.mem b).map fun n =>
      ⟨n.gap, n.next, if b = q then addr else n.prev⟩)
    (hhead : list'.head = list.head) (htail : list'.tail = if q = 0 then addr else list.tail) :
    list'.Holds (xs ++ a :: addr :: ys) (gx ++ g₁ :: g₂ :: gy) := by
  subst hp
  subst hq
  have hnode := h.node hlen
  have hlinks := h.links.links_of_mem
  have hay : a ∉ ys := fun hmem => h.ne_node (List.mem_append_right _ hmem) rfl
  have hax : a ∉ xs := fun hmem => h.ne_node (List.mem_append_left _ hmem) rfl
  have hzero : ∀ b ∈ xs ++ a :: ys, b ≠ 0 := fun b hb => h.links.ne_null hb
  have hfield : ∀ b ∈ xs ++ ys, ∃ n, list.mem b = some n := by
    intro b hb
    refine ne_none_iff_exists'.mp (h.allocated ?_)
    rcases List.mem_append.mp hb with hb | hb
    · simp [hb]
    · simp [hb]
  -- a node of the list is `a` or another one
  have hcases : ∀ b ∈ xs ++ a :: ys, b = a ∨ (b ≠ a ∧ b ∈ xs ++ ys) := by
    intro b hb
    rcases List.mem_append.mp hb with hb | hb
    · exact .inr ⟨fun heq => hax (heq ▸ hb), by simp [hb]⟩
    · rcases List.mem_cons.mp hb with rfl | hb
      · exact .inl rfl
      · exact .inr ⟨fun heq => hay (heq ▸ hb), by simp [hb]⟩
  constructor
  case links =>
    have hprev : ∀ b ∈ xs ++ a :: ys,
        list'.prev b = if b = list.next a then addr else list.prev b := by
      intro b hb
      rw [hlinks.2]
      rcases hcases b hb with rfl | ⟨-, hb⟩
      · have hne : b ≠ ys.headD 0 := Chain.headD_ne (hzero b hb) hay
        rw [if_neg hne, hlinks.1]
        simp [prev, ha]
      · rcases hfield b hb with ⟨n, hn⟩
        simp only [prev, hmem b hb, hn, map_some, getD_some]
    have hnext : ∀ b ∈ xs ++ a :: ys,
        list'.next b = if b = a then addr else list.next b := by
      intro b hb
      rcases hcases b hb with rfl | ⟨hne, hb⟩
      · simp [next, ha]
      · rcases hfield b hb with ⟨n, hn⟩
        simp only [next, hmem b hb, hn, map_some, getD_some, if_neg hne]
    rw [hhead]
    refine h.links.insertAfter h.nodup haddr ?_ ?_ hprev hnext
    · simp [prev, hnew]
    · rw [hlinks.2]
      simp [next, hnew]
  case nodup =>
    have hmiddle : (xs ++ [a] ++ addr :: ys).Perm (addr :: (xs ++ [a] ++ ys)) := List.perm_middle
    have hperm : (xs ++ a :: addr :: ys).Perm (addr :: (xs ++ a :: ys)) := by
      simpa using hmiddle
    exact hperm.nodup_iff.mpr (List.nodup_cons.mpr ⟨hfresh, h.nodup⟩)
  case tail =>
    rw [htail]
    cases ys with
    | nil => simp
    | cons y ys =>
      have hy : y ≠ 0 := hzero y (by simp)
      rw [List.headD_cons, if_neg hy, h.tail]
      simp [List.getLastD_eq_getLast?, List.getLast?_append, List.getLast?_cons]
  case gaps =>
    have hgaps := h.gaps
    have hsame : ∀ b ∈ xs ++ ys, list'.gap b = list.gap b := by
      intro b hb
      simp [gap, hmem b hb, Option.map_map, comp_def]
    rw [List.map_append, List.map_append, List.map_cons, List.map_cons] at hgaps
    rcases List.append_inj hgaps (by simpa using hlen) with ⟨hgx, hgy⟩
    have hxs : xs.map list'.gap = xs.map list.gap :=
      List.map_congr_left fun b hb => hsame b (List.mem_append_left _ hb)
    have hys : ys.map list'.gap = ys.map list.gap :=
      List.map_congr_left fun b hb => hsame b (List.mem_append_right _ hb)
    simp only [List.map_append, List.map_cons, hxs, hys, hgx, (List.cons.inj hgy).2]
    simp [gap, ha, hnew]

theorem Holds.fresh (h : list.Holds ptrs gaps) (hfree : list.mem addr = none) : addr ∉ ptrs :=
  fun hmem => h.allocated hmem hfree

/-- `insert` appends a gap. -/
theorem Holds.insert (h : list.Holds ptrs gaps) (hfree : list.mem addr = none) (haddr : addr ≠ 0)
    (newGap : Gap) :
    ∃ list', list.insert addr newGap = some list' ∧
      list'.Holds (ptrs ++ [addr]) (gaps ++ [newGap]) ∧ list'.size = toInt (list.size + 1) := by
  have hfresh := h.fresh hfree
  have hlength := h.length
  unfold NodeList.insert
  rcases List.eq_nil_or_concat' ptrs with rfl | ⟨xs, a, rfl⟩
  case inl =>
      have hgaps : gaps = [] := List.length_eq_zero_iff.mp hlength.symm
      subst hgaps
      have hhead : list.head = 0 := h.links
      rw [if_pos hhead]
      refine ⟨_, rfl, ?_, rfl⟩
      refine ⟨⟨rfl, haddr, ?_, ?_⟩, List.nodup_singleton _, rfl, ?_⟩
      · simp [prev, allocate]
      · simp [Chain, next, allocate]
      · simp [gap, allocate]
  case inr =>
      rcases List.eq_nil_or_concat' gaps with rfl | ⟨gx, g, rfl⟩
      case inl => simp at hlength
      case inr =>
          have hlen : xs.length = gx.length := by simpa using hlength
          have hnode := h.node hlen
          have hne : a ≠ addr := fun heq => hfresh (by simp [heq])
          have hhead : list.head ≠ 0 := by
            rw [h.links.eq_headD]
            refine h.links.ne_null ?_
            cases xs <;> simp
          have htail : list.tail = a := by simpa using h.tail
          have hallocated : (list.allocate addr ⟨newGap, 0, a⟩).mem a =
              some ⟨g, 0, xs.getLastD 0⟩ := by
            simpa [allocate, hne] using hnode
          rw [if_neg hhead]
          simp only [allocate_tail, htail, modify_eq hallocated, bind_eq_bind,
            bind_some]
          refine ⟨_, rfl, ?_, rfl⟩
          rw [List.append_assoc, List.append_assoc]
          show Holds _ (xs ++ a :: addr :: []) (gx ++ g :: newGap :: [])
          refine h.insertAfter hlen rfl rfl hfresh haddr ?_ ?_ (fun b hb => ?_) rfl rfl
          · simp [allocate, hne.symm]
          · simp [allocate]
          · have hbx : b ∈ xs := by simpa using hb
            have hba : b ≠ a := (List.nodup_append.mp h.nodup).2.2 b hbx a (by simp)
            have hb0 : b ≠ 0 := h.links.ne_null (List.mem_append_left _ hbx)
            have hbaddr : b ≠ addr := fun heq => hfresh (heq ▸ List.mem_append_left [a] hbx)
            simp [allocate, hba, hb0, hbaddr]

/-- A gap is split in the middle. -/
theorem Holds.splitNode (h : list.Holds (xs ++ a :: ys) (gx ++ g :: gy))
    (hlen : xs.length = gx.length) (hfree : list.mem addr = none) (haddr : addr ≠ 0)
    (splitPoint : Int) :
    ∃ list', list.splitNode addr splitPoint a ⟨g, ys.headD 0, xs.getLastD 0⟩ = some list' ∧
      list'.Holds (xs ++ a :: addr :: ys)
        (gx ++ ⟨g.start, splitPoint⟩ :: ⟨toInt (splitPoint + 1), g.stop⟩ :: gy) ∧
      list'.size = toInt (list.size + 1) := by
  obtain ⟨p, hlast⟩ : ∃ p, xs.getLastD 0 = p := ⟨_, rfl⟩
  obtain ⟨q, hhead⟩ : ∃ q, ys.headD 0 = q := ⟨_, rfl⟩
  have hfresh := h.fresh hfree
  have hnode := h.node hlen
  rw [hlast, hhead] at hnode ⊢
  have hsub : ∀ b ∈ xs ++ ys, b ∈ xs ++ a :: ys := fun b hb => mem_of_around hb
  have hne : ∀ b ∈ xs ++ ys, b ≠ a := fun b hb => h.ne_node hb
  have hbaddr : ∀ b ∈ xs ++ a :: ys, b ≠ addr := fun b hb heq => hfresh (heq ▸ hb)
  have ha : a ≠ addr := hbaddr a (by simp)
  have hmem : (list.allocate addr ⟨⟨toInt (splitPoint + 1), g.stop⟩, q, a⟩).mem a =
      some ⟨g, q, p⟩ := by
    simp [allocate, ha, hnode]
  unfold NodeList.splitNode
  by_cases hq : q = 0
  case pos =>
      -- the last node
      simp only [if_pos hq, bind_eq_bind, bind_some, modify, hmem, map_some]
      refine ⟨_, rfl,
        h.insertAfter hlen hlast hhead hfresh haddr ?_ ?_ (fun b hb => ?_) rfl ?_, rfl⟩
      · simp [allocate, ha.symm]
      · simp
      · have hb0 : b ≠ 0 := h.links.ne_null (hsub b hb)
        simp [allocate, hne b hb, hbaddr b (hsub b hb), hq, hb0]
      · simp [hq]
  case neg =>
      have hqys := headD_mem hhead hq
      have hqa : q ≠ a := hne q (List.mem_append_right _ hqys)
      have hqaddr : q ≠ addr := hbaddr q (hsub q (List.mem_append_right _ hqys))
      rcases ne_none_iff_exists'.mp
        (h.allocated (hsub q (List.mem_append_right _ hqys))) with ⟨nq, hnq⟩
      have hmemq : (list.allocate addr ⟨⟨toInt (splitPoint + 1), g.stop⟩, q, a⟩).mem q =
          some nq := by
        simp [allocate, hqaddr, hnq]
      simp only [if_neg hq, bind_eq_bind, bind_some, modify, hmemq, map_some,
        update_of_ne hqa.symm, hmem]
      refine ⟨_, rfl,
        h.insertAfter hlen hlast hhead hfresh haddr ?_ ?_ (fun b hb => ?_) rfl ?_, rfl⟩
      · simp [allocate, ha.symm, hqaddr.symm]
      · simp
      · by_cases hbq : b = q
        · simp [hbq, hqa, hnq]
        · simp [allocate, hne b hb, hbaddr b (hsub b hb), hbq]
      · simp [hq]

/-! ## `split_gap` -/

/-- Nothing of a gap in the memory wraps when a point is taken out of it. -/
theorem split_eq_of_int {splitPoint : Int} (hstart : 0 ≤ g.start) (hstop : g.stop ≤ intMax)
    (hp : g.Has splitPoint) :
    toInt (g.start + 1) = g.start + 1 ∧ toInt (g.stop - 1) = g.stop - 1 ∧
      toInt (splitPoint + 1) = splitPoint + 1 := by
  rcases hp with ⟨hlow, hhigh⟩
  exact ⟨toInt_eq (by omega) (by omega), toInt_eq (by omega) (by omega),
    toInt_eq (by omega) (by omega)⟩

/-- What `split_gap` does to the list in memory is what it does to the intervals. -/
def SplitResult (list : NodeList) (result : Option (Bool × NodeList)) :
    Option (List Gap) → Prop
  | none => result = some (false, list)
  | some gaps' => ∃ list' ptrs', result = some (true, list') ∧ list'.Holds ptrs' gaps' ∧
      list'.size = toInt gaps'.length

/-- An endpoint of a gap is moved. -/
theorem Holds.moveEnd (h : list.Holds (xs ++ a :: ys) (gx ++ g :: gy))
    (hlen : xs.length = gx.length) (hsize : list.size = (gx ++ g :: gy).length)
    (hbound : list.size ≤ intMax) (g' : Gap) (f : ListNode → ListNode)
    (hf : f ⟨g, ys.headD 0, xs.getLastD 0⟩ = ⟨g', ys.headD 0, xs.getLastD 0⟩) :
    SplitResult list
      (do
        let list ← list.modify a f
        let list ← list.dropEmpty a
        some (true, list)) (some (gx ++ g'.keep ++ gy)) := by
  have hset := h.setGap hlen g'
  simp only [modify_eq (h.node hlen), hf, bind_eq_bind, bind_some]
  unfold Gap.keep
  by_cases hempty : g'.start ≥ g'.stop
  case pos =>
      rcases hset.dropEmpty hlen hempty with ⟨list', hdrop, hholds, hsize'⟩
      rw [if_pos hempty, hdrop, List.append_nil]
      refine ⟨list', xs ++ ys, rfl, hholds, ?_⟩
      have hlength : ((gx ++ gy).length : Int) = list.size - 1 := by
        rw [hsize]
        simp only [List.length_append, List.length_cons]
        omega
      rw [hsize', hlength]
      split
      case isTrue hnil =>
          -- it was the only gap
          have hx : gx.length = 0 := by rw [← hlen, hnil.1, List.length_nil]
          have hy : gy.length = 0 := by
            have hall := h.length
            rw [hnil.1, hnil.2, List.length_eq_zero_iff.mp hx] at hall
            simpa using hall.symm
          rw [← hlength, List.length_append, hx, hy]
          exact (toInt_eq (Int.le_refl 0) (by decide)).symm
      case isFalse => rfl
  case neg =>
      have hdrop : (list.allocate a ⟨g', ys.headD 0, xs.getLastD 0⟩).dropEmpty a =
          some (list.allocate a ⟨g', ys.headD 0, xs.getLastD 0⟩) := by
        unfold NodeList.dropEmpty
        simp only [hset.node hlen, bind_eq_bind, bind_some, if_neg hempty]
      rw [if_neg hempty, hdrop]
      refine ⟨_, xs ++ a :: ys, rfl, by simpa using hset, ?_⟩
      have hlength : ((gx ++ [g'] ++ gy).length : Int) = list.size := by
        rw [hsize]
        simp only [List.length_append, List.length_cons, List.length_nil]
        omega
      rw [hlength, allocate_size, toInt_eq (by omega) hbound]

/-- The loop of `split_gap`, from the node on that comes after `xs`. -/
theorem Holds.splitFrom {splitPoint : Int} (h : list.Holds ptrs gaps)
    (hfree : list.mem addr = none) (haddr : addr ≠ 0) (hsize : list.size = gaps.length)
    (hbound : list.size ≤ intMax) (hint : ∀ g ∈ gaps, 0 ≤ g.start ∧ g.stop ≤ intMax)
    {fuel : Nat} (hptrs : ptrs = xs ++ ys) (hgaps : gaps = gx ++ gy)
    (hlen : xs.length = gx.length) (hfuel : ys.length < fuel) :
    SplitResult list (list.splitFrom addr splitPoint fuel (ys.headD 0))
      ((splitNodes splitPoint gy).map (gx ++ ·)) := by
  induction ys generalizing xs gx gy fuel with
  | nil =>
    have hgy : gy = [] := by
      have hall := h.length
      rw [hptrs, hgaps, List.append_nil, List.length_append, hlen] at hall
      exact List.length_eq_zero_iff.mp (by omega)
    subst hgy
    rcases Nat.exists_eq_add_of_lt hfuel with ⟨k, rfl⟩
    simp [NodeList.splitFrom, splitNodes, SplitResult]
  | cons a ys ih =>
    rcases Nat.exists_eq_add_of_lt hfuel with ⟨k, rfl⟩
    cases gy with
    | nil =>
      have hall := h.length
      rw [hptrs, hgaps, List.append_nil, List.length_append, List.length_cons] at hall
      omega
    | cons g gy =>
      subst hptrs
      subst hgaps
      have hnode := h.node hlen
      have ha : a ≠ 0 := h.links.ne_null (by simp)
      rcases hint g (by simp) with ⟨hstart, hstop⟩
      have hrest : splitNodes splitPoint (g :: gy) =
          if splitPoint < g.start then none
          else if splitPoint ≥ g.stop then (splitNodes splitPoint gy).map (g :: ·)
          else some (g.split splitPoint ++ gy) := rfl
      rw [NodeList.splitFrom, hrest, List.headD_cons, if_neg ha]
      simp only [hnode, bind_eq_bind, bind_some]
      by_cases hbefore : splitPoint < g.start
      case pos =>
          rw [if_pos hbefore, if_pos hbefore]
          rfl
      rw [if_neg hbefore, if_neg hbefore]
      by_cases hafter : splitPoint ≥ g.stop
      case pos =>
          -- the node is passed, and its gap stays
          rw [if_pos hafter, if_pos hafter, Option.map_map]
          have hptrs : xs ++ a :: ys = xs ++ [a] ++ ys := by simp
          have hgaps : gx ++ g :: gy = gx ++ [g] ++ gy := by simp
          have hpass : (xs ++ [a]).length = (gx ++ [g]).length := by simpa using hlen
          have hmap : (gx ++ ·) ∘ (g :: ·) = ((gx ++ [g]) ++ · : List Gap → List Gap) := by
            funext l
            simp
          rw [hmap]
          refine ih hptrs hgaps hpass ?_
          rw [List.length_cons]
          omega
      rw [if_neg hafter, if_neg hafter]
      have hp : g.Has splitPoint := ⟨by omega, by omega⟩
      rcases split_eq_of_int hstart hstop hp with ⟨hup, hdown, hpoint⟩
      rw [map_some, ← List.append_assoc]
      unfold Gap.split
      rw [hdown]
      by_cases hfirst : splitPoint = g.start
      case pos =>
          rw [if_pos hfirst, if_pos hfirst]
          exact h.moveEnd hlen hsize hbound _ _ (by rw [hup])
      rw [if_neg hfirst, if_neg hfirst]
      by_cases hlast : splitPoint = g.stop - 1
      case pos =>
          rw [if_pos hlast, if_pos hlast]
          exact h.moveEnd hlen hsize hbound _ _ (by rw [hdown])
      rw [if_neg hlast, if_neg hlast]
      rcases h.splitNode hlen hfree haddr splitPoint with ⟨list', hsplit, hholds, hsize'⟩
      rw [hsplit]
      refine ⟨list', xs ++ a :: addr :: ys, rfl, ?_, ?_⟩
      · rw [hpoint] at hholds
        simpa using hholds
      · rw [hsize', hsize]
        congr 1
        simp only [List.length_append, List.length_cons, List.length_nil]
        omega

/-- `split_gap` returns, and does to the gaps what the list of intervals says. -/
theorem Holds.splitGap (h : list.Holds ptrs gaps) (hfree : list.mem addr = none)
    (haddr : addr ≠ 0) (hsize : list.size = gaps.length) (hbound : list.size ≤ intMax)
    (hint : ∀ g ∈ gaps, 0 ≤ g.start ∧ g.stop ≤ intMax) (splitPoint : Int) :
    SplitResult list (list.splitGap addr splitPoint) (splitNodes splitPoint gaps) := by
  have hfuel : ptrs.length < list.size.toNat + 1 := by
    have := h.length
    omega
  have hfrom : SplitResult list
      (list.splitFrom addr splitPoint (list.size.toNat + 1) (ptrs.headD 0))
      ((splitNodes splitPoint gaps).map ([] ++ ·)) :=
    h.splitFrom hfree haddr hsize hbound hint (List.nil_append ptrs).symm
      (List.nil_append gaps).symm rfl hfuel
  have hid : ([] ++ · : List Gap → List Gap) = id := rfl
  rw [hid, Option.map_id, ← h.links.eq_headD] at hfrom
  exact hfrom

end Holds

end NodeList

end PittCs.Ncp
