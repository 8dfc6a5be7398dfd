import PittCs.Cs1501.Bst

/-!
# The search tree in memory

`BST.java` once more, with the nodes as objects that have an address: `put`, `delete`
and `reverse` write into nodes that exist, so what they do to another tree is a
question. An object is known by its place in the list of all objects made so far.

A call gives `none` when it reads a field of `null` or makes more than `fuel` turns or
nested calls.
-/

namespace PittCs.Cs1501

open List Option

/-- A reference to a node. -/
abbrev Ref := Option Nat

/-- The fields of a `BTNode`. -/
structure Cell (α : Type*) where
  key : α
  left : Ref
  right : Ref
deriving Repr, DecidableEq

/-- The nodes made so far. -/
abbrev Heap (α : Type*) := List (Cell α)

variable {α : Type*}

namespace Heap

def setKey (h : Heap α) (a : Nat) (key : α) : Heap α := h.modify a ({ · with key := key })

def setLeft (h : Heap α) (a : Nat) (left : Ref) : Heap α := h.modify a ({ · with left := left })

def setRight (h : Heap α) (a : Nat) (right : Ref) : Heap α := h.modify a ({ · with right := right })

@[simp] theorem length_setKey (h : Heap α) (a : Nat) (key : α) :
    (h.setKey a key).length = h.length := length_modify _ _ a

@[simp] theorem length_setLeft (h : Heap α) (a : Nat) (left : Ref) :
    (h.setLeft a left).length = h.length := length_modify _ _ a

@[simp] theorem length_setRight (h : Heap α) (a : Nat) (right : Ref) :
    (h.setRight a right).length = h.length := length_modify _ _ a

theorem getElem?_setKey_ne (h : Heap α) {a b : Nat} (hne : a ≠ b) (key : α) :
    (h.setKey a key)[b]? = h[b]? := List.getElem?_modify_ne _ h hne

theorem getElem?_setLeft_ne (h : Heap α) {a b : Nat} (hne : a ≠ b) (left : Ref) :
    (h.setLeft a left)[b]? = h[b]? := List.getElem?_modify_ne _ h hne

theorem getElem?_setRight_ne (h : Heap α) {a b : Nat} (hne : a ≠ b) (right : Ref) :
    (h.setRight a right)[b]? = h[b]? := List.getElem?_modify_ne _ h hne

section Cell

variable {h : Heap α} {a : Nat} {cell : Cell α}

theorem getElem?_setKey (hcell : h[a]? = some cell) (key : α) :
    (h.setKey a key)[a]? = some ⟨key, cell.left, cell.right⟩ := by
  unfold setKey
  rw [List.getElem?_modify_eq, hcell]
  rfl

theorem getElem?_setLeft (hcell : h[a]? = some cell) (left : Ref) :
    (h.setLeft a left)[a]? = some ⟨cell.key, left, cell.right⟩ := by
  unfold setLeft
  rw [List.getElem?_modify_eq, hcell]
  rfl

theorem getElem?_setRight (hcell : h[a]? = some cell) (right : Ref) :
    (h.setRight a right)[a]? = some ⟨cell.key, cell.left, right⟩ := by
  unfold setRight
  rw [List.getElem?_modify_eq, hcell]
  rfl

end Cell

/-! ## The methods -/

section Methods

variable [LinearOrder α]

/-- The loop of `put`: `prev_node` and the flag, or `none` inside when the key is there. -/
def putLoop (h : Heap α) (new_val : α) : Nat → Ref → Ref → Bool → Option (Option (Ref × Bool))
  | 0, _, _, _ => none
  | _ + 1, none, prev_node, insert_right => some (some (prev_node, insert_right))
  | fuel + 1, some curr_node, _, insert_right =>
    h[curr_node]?.bind fun node =>
      if node.key < new_val then
        putLoop h new_val fuel node.right (some curr_node)
          (if node.right.isNone then true else insert_right)
      else if new_val < node.key then
        putLoop h new_val fuel node.left (some curr_node) insert_right
      else some none

def put (fuel : Nat) (new_val : α) (h : Heap α) (root : Ref) : Option (Heap α × Ref) :=
  let new_node := h.length
  let h := h ++ [⟨new_val, none, none⟩]
  match root with
  | none => some (h, some new_node)
  | some root =>
    match putLoop h new_val fuel (some root) none false with
    | none => none
    | some none => some (h, some root)
    | some (some (none, _)) => none
    | some (some (some prev_node, insert_right)) =>
      some (if insert_right then h.setRight prev_node (some new_node)
        else h.setLeft prev_node (some new_node), some root)

/-- `find_swap` from the right child on. -/
def findSwap (h : Heap α) : Nat → Nat → Option (Cell α)
  | 0, _ => none
  | fuel + 1, curr_swap => do
    let node ← h[curr_swap]?
    match node.left with
    | none => some node
    | some left => findSwap h fuel left

def deleteRec : Nat → Heap α → Ref → α → Option (Heap α × Ref)
  | 0, _, _, _ => none
  | _ + 1, h, none, _ => some (h, none)
  | fuel + 1, h, some curr_node, target => do
    let node ← h[curr_node]?
    if node.key < target then
      let (h, child) ← deleteRec fuel h node.right target
      some (h.setRight curr_node child, some curr_node)
    else if target < node.key then
      let (h, child) ← deleteRec fuel h node.left target
      some (h.setLeft curr_node child, some curr_node)
    else
      match node.left, node.right with
      | none, none => some (h, none)
      | some left, none => some (h, some left)
      | none, some right => some (h, some right)
      | some _, some right => do
        let swap ← findSwap h fuel right
        let h := h.setKey curr_node swap.key
        let (h, child) ← deleteRec fuel h (some right) swap.key
        some (h.setRight curr_node child, some curr_node)

/-- `rec_copy`; `copy` is the root of the tree that is built. -/
def recCopy : Nat → Heap α → Ref → Ref → Option (Heap α × Ref)
  | 0, _, _, _ => none
  | _ + 1, h, copy, none => some (h, copy)
  | fuel + 1, h, copy, some curr_node => do
    let node ← h[curr_node]?
    let (h, copy) ← h.put fuel node.key copy
    let node ← h[curr_node]?
    let (h, copy) ← recCopy fuel h copy node.left
    let node ← h[curr_node]?
    recCopy fuel h copy node.right

def copy (fuel : Nat) (h : Heap α) (root : Ref) : Option (Heap α × Ref) :=
  recCopy fuel h none root

omit [LinearOrder α] in
def recReverse : Nat → Heap α → Ref → Option (Heap α)
  | 0, _, _ => none
  | _ + 1, h, none => some h
  | fuel + 1, h, some curr_node => do
    let node ← h[curr_node]?
    let h ← recReverse fuel h node.left
    let node ← h[curr_node]?
    let h ← recReverse fuel h node.right
    let node ← h[curr_node]?
    let temp := node.left
    some ((h.setLeft curr_node node.right).setRight curr_node temp)

def reverse (fuel : Nat) (h : Heap α) (root : Ref) : Option (Heap α × Ref) := do
  let (h, reversed) ← h.copy fuel root
  let h ← recReverse fuel h reversed
  some (h, reversed)

/-- One call on the tree of a root. -/
def call (fuel : Nat) (h : Heap α) (root : Ref) : BstCall α → Option (Heap α × Ref)
  | .put key => h.put fuel key root
  | .delete key => deleteRec fuel h root key

/-- A sequence of calls. -/
def run (fuel : Nat) : Heap α → Ref → List (BstCall α) → Option (Heap α × Ref)
  | h, root, [] => some (h, root)
  | h, root, c :: calls => do
    let (h, root) ← h.call fuel root c
    run fuel h root calls

end Methods

end Heap

/-! ## Trees with addresses -/

namespace BTNode

/-- The tree of the keys. -/
def shape : BTNode (Nat × α) → BTNode α
  | null => null
  | node x left right => node x.2 left.shape right.shape

@[simp] theorem shape_node (x : Nat × α) (left right : BTNode (Nat × α)) :
    (node x left right).shape = node x.2 left.shape right.shape := rfl

/-- The addresses of the nodes. -/
def addrs (t : BTNode (Nat × α)) : List Nat := t.keys.map Prod.fst

@[simp] theorem addrs_null : (null : BTNode (Nat × α)).addrs = [] := rfl

@[simp] theorem addrs_node (x : Nat × α) (left right : BTNode (Nat × α)) :
    (node x left right).addrs = left.addrs ++ x.1 :: right.addrs := by
  simp [addrs]

theorem mem_addrs_of_left {x : Nat × α} {left right : BTNode (Nat × α)} {a : Nat}
    (h : a ∈ left.addrs) : a ∈ (node x left right).addrs := by
  rw [addrs_node]
  exact mem_append_left _ h

theorem mem_addrs_of_right {x : Nat × α} {left right : BTNode (Nat × α)} {a : Nat}
    (h : a ∈ right.addrs) : a ∈ (node x left right).addrs := by
  rw [addrs_node]
  exact mem_append_right _ (mem_cons_of_mem _ h)

theorem mem_addrs_root (x : Nat × α) (left right : BTNode (Nat × α)) :
    x.1 ∈ (node x left right).addrs := by
  simp

/-- The nodes of a tree are distinct: none is in both subtrees or is the root again. -/
theorem nodup_addrs_node {x : Nat × α} {left right : BTNode (Nat × α)} :
    (node x left right).addrs.Nodup ↔
      left.addrs.Nodup ∧ right.addrs.Nodup ∧ x.1 ∉ left.addrs ∧ x.1 ∉ right.addrs ∧
        ∀ a ∈ left.addrs, a ∉ right.addrs := by
  rw [addrs_node, nodup_append, nodup_cons]
  constructor
  · intro ⟨hleft, ⟨hroot, hright⟩, hdisjoint⟩
    exact ⟨hleft, hright, fun h => hdisjoint _ h _ mem_cons_self rfl, hroot,
      fun a h h' => hdisjoint a h a (mem_cons_of_mem _ h') rfl⟩
  · intro ⟨hleft, hright, hrootl, hroot, hdisjoint⟩
    refine ⟨hleft, ⟨hroot, hright⟩, ?_⟩
    intro a ha b hb hab
    rcases mem_cons.mp hb with heq | hb
    · exact hrootl (heq ▸ hab ▸ ha)
    · exact hdisjoint a ha (hab ▸ hb)

end BTNode

namespace Heap

open BTNode

variable {h h' : Heap α} {p root : Ref} {t c c' : BTNode (Nat × α)}

/-- The tree below a reference. -/
def Holds (h : Heap α) : Ref → BTNode (Nat × α) → Prop
  | p, null => p = none
  | p, node x left right =>
    p = some x.1 ∧ ∃ pl pr, h[x.1]? = some ⟨x.2, pl, pr⟩ ∧ h.Holds pl left ∧ h.Holds pr right

theorem Holds.lt (hh : h.Holds p t) {a : Nat} (ha : a ∈ t.addrs) : a < h.length := by
  induction t generalizing p with
  | null => cases ha
  | node x left right ihl ihr =>
    rcases hh with ⟨-, pl, pr, hcell, hl, hr⟩
    rw [addrs_node, mem_append, mem_cons] at ha
    rcases ha with ha | rfl | ha
    · exact ihl hl ha
    · exact (List.getElem?_eq_some_iff.mp hcell).1
    · exact ihr hr ha

/-- Only the nodes of the tree matter. -/
theorem Holds.congr (hh : h.Holds p t) (hsame : ∀ a ∈ t.addrs, h'[a]? = h[a]?) : h'.Holds p t := by
  induction t generalizing p with
  | null => exact hh
  | node x left right ihl ihr =>
    rcases hh with ⟨hp, pl, pr, hcell, hl, hr⟩
    refine ⟨hp, pl, pr, ?_, ihl hl fun a ha => hsame a ?_, ihr hr fun a ha => hsame a ?_⟩
    · rw [hsame x.1 (by simp), hcell]
    · simp [ha]
    · simp [ha]

/-- What a method on a tree leaves alone: the tree may lose nodes and gain new ones, and no
other node that exists is written. -/
structure Frame (h : Heap α) (c : BTNode (Nat × α)) (h' : Heap α) (c' : BTNode (Nat × α)) :
    Prop where
  nodup : c'.addrs.Nodup
  fresh : ∀ a ∈ c'.addrs, a ∈ c.addrs ∨ h.length ≤ a
  same : ∀ a < h.length, a ∉ c.addrs → h'[a]? = h[a]?
  length : h.length ≤ h'.length

theorem Frame.refl (hc : c.addrs.Nodup) : Frame h c h c :=
  ⟨hc, fun _ ha => .inl ha, fun _ _ _ => rfl, Nat.le_refl _⟩

theorem Frame.trans {h'' : Heap α} {c'' : BTNode (Nat × α)} (hf : Frame h c h' c')
    (hg : Frame h' c' h'' c'') : Frame h c h'' c'' where
  nodup := hg.nodup
  fresh a ha := by
    rcases hg.fresh a ha with ha' | hle
    · exact hf.fresh a ha'
    · exact .inr (Nat.le_trans hf.length hle)
  same a hlt ha := by
    rw [hg.same a (Nat.lt_of_lt_of_le hlt hf.length), hf.same a hlt ha]
    intro ha'
    rcases hf.fresh a ha' with hin | hle
    · exact ha hin
    · omega
  length := Nat.le_trans hf.length hg.length

/-- Another tree keeps its nodes. -/
theorem Holds.frame (hh : h.Holds p t) (hf : Frame h c h' c') (hother : ∀ a ∈ t.addrs, a ∉ c.addrs) :
    h'.Holds p t :=
  hh.congr fun a ha => hf.same a (hh.lt ha) (hother a ha)

/-- A node with two trees below it, when no other cell has changed. -/
theorem Holds.setCell {h' : Heap α} {y : Nat × α} {l r : BTNode (Nat × α)} {pl pr : Ref}
    (hcell : h'[y.1]? = some ⟨y.2, pl, pr⟩) (hsame : ∀ a, y.1 ≠ a → h'[a]? = h[a]?)
    (hl : h.Holds pl l) (hr : h.Holds pr r) (hyl : y.1 ∉ l.addrs) (hyr : y.1 ∉ r.addrs) :
    h'.Holds (some y.1) (node y l r) :=
  ⟨rfl, pl, pr, hcell, hl.congr fun a ha => hsame a fun heq => hyl (heq ▸ ha),
    hr.congr fun a ha => hsame a fun heq => hyr (heq ▸ ha)⟩

theorem Holds.setRight {y : Nat × α} {l r : BTNode (Nat × α)} {pl pr q : Ref}
    (hcell : h[y.1]? = some ⟨y.2, pl, pr⟩) (hl : h.Holds pl l) (hr : h.Holds q r)
    (hyl : y.1 ∉ l.addrs) (hyr : y.1 ∉ r.addrs) :
    (h.setRight y.1 q).Holds (some y.1) (node y l r) :=
  .setCell (getElem?_setRight hcell q) (fun _ hne => h.getElem?_setRight_ne hne q) hl hr hyl hyr

theorem Holds.setLeft {y : Nat × α} {l r : BTNode (Nat × α)} {pl pr q : Ref}
    (hcell : h[y.1]? = some ⟨y.2, pl, pr⟩) (hl : h.Holds q l) (hr : h.Holds pr r)
    (hyl : y.1 ∉ l.addrs) (hyr : y.1 ∉ r.addrs) :
    (h.setLeft y.1 q).Holds (some y.1) (node y l r) :=
  .setCell (getElem?_setLeft hcell q) (fun _ hne => h.getElem?_setLeft_ne hne q) hl hr hyl hyr

/-! ## Insertion -/

/-- The new node below its parent. -/
def hang (h : Heap α) (insert_right : Bool) (b new : Nat) : Heap α :=
  if insert_right then h.setRight b (some new) else h.setLeft b (some new)

theorem length_hang (h : Heap α) (insert_right : Bool) (b new : Nat) :
    (h.hang insert_right b new).length = h.length := by
  cases insert_right
  · exact h.length_setLeft b _
  · exact h.length_setRight b _

theorem getElem?_hang_ne (h : Heap α) (insert_right : Bool) {a b : Nat} (new : Nat) (hne : a ≠ b) :
    (h.hang insert_right b new)[a]? = h[a]? := by
  cases insert_right
  · exact h.getElem?_setLeft_ne hne.symm _
  · exact h.getElem?_setRight_ne hne.symm _

section Methods

variable [LinearOrder α]

omit [LinearOrder α] in
theorem perm_addrs_right {y : Nat × α} {l r r' : BTNode (Nat × α)} {new : Nat}
    (h : r'.addrs.Perm (new :: r.addrs)) :
    (node y l r').addrs.Perm (new :: (node y l r).addrs) := by
  rw [addrs_node, addrs_node]
  have hmove : ((l.addrs ++ [y.1]) ++ new :: r.addrs).Perm
      (new :: (l.addrs ++ [y.1] ++ r.addrs)) := perm_middle
  rw [append_assoc, append_assoc] at hmove
  exact ((h.cons y.1).append_left l.addrs).trans hmove

/-- What the walk of `put` finds, for a new node `new` that is in memory already. -/
theorem putLoop_spec {new fuel : Nat} {x : α} (prev : Ref) (hh : h.Holds p t)
    (hnodup : t.addrs.Nodup) (hnull : t ≠ null) (hnew : h[new]? = some ⟨x, none, none⟩)
    (hfresh : new ∉ t.addrs) (hfuel : t.addrs.length < fuel) :
    (h.putLoop x fuel p prev false = some none ∧ t.shape.insertRec x = t.shape) ∨
    ∃ b right t', h.putLoop x fuel p prev false = some (some (some b, right)) ∧ b ∈ t.addrs ∧
      (h.hang right b new).Holds p t' ∧ t'.shape = t.shape.insertRec x ∧
      t'.addrs.Perm (new :: t.addrs) := by
  induction t generalizing p prev fuel with
  | null => exact absurd rfl hnull
  | node y l r ihl ihr =>
    rcases hh with ⟨rfl, pl, pr, hcell, hl, hr⟩
    rcases nodup_addrs_node.mp hnodup with ⟨hndl, hndr, hyl, hyr, hlr⟩
    obtain ⟨fuel, rfl⟩ : ∃ n, fuel = n + 1 := ⟨fuel - 1, by omega⟩
    rw [addrs_node, mem_append, mem_cons, not_or, not_or] at hfresh
    rcases hfresh with ⟨hfl, hfy, hfr⟩
    rw [addrs_node, length_append, length_cons] at hfuel
    unfold putLoop
    rw [hcell, bind_some, shape_node, insertRec]
    dsimp only
    by_cases hlt : y.2 < x
    · rw [if_pos hlt, if_pos hlt]
      cases r with
      | null =>
        -- the walk ends here: the new node becomes the right child
        obtain ⟨fuel, rfl⟩ : ∃ n, fuel = n + 1 := ⟨fuel - 1, by omega⟩
        cases hr
        refine .inr ⟨y.1, true, node y l (node (new, x) null null), rfl, by simp, ?_, rfl, ?_⟩
        · refine ⟨rfl, pl, some new, getElem?_setRight hcell _, hl.congr ?_, rfl, none, none, ?_,
            rfl, rfl⟩
          · intro a ha
            exact h.getElem?_hang_ne true new fun heq => hyl (heq ▸ ha)
          · exact (h.getElem?_hang_ne true new hfy).trans hnew
        · exact perm_addrs_right (.refl _)
      | node z rl rr =>
        rcases hr with ⟨rfl, hr⟩
        have hless : (node z rl rr).addrs.length < fuel := by omega
        rcases ihr (some y.1) ⟨rfl, hr⟩ hndr (by simp) hfr hless with
          ⟨hrun, heq⟩ | ⟨b, right, r', hrun, hb, hr', hshape, hperm⟩
        · exact .inl ⟨hrun, by rw [heq]⟩
        · refine .inr ⟨b, right, node y l r', hrun, mem_addrs_of_right hb, ?_,
            by rw [shape_node, hshape], perm_addrs_right hperm⟩
          have hby : y.1 ≠ b := fun heq => hyr (heq ▸ hb)
          refine ⟨rfl, pl, some z.1, (h.getElem?_hang_ne right new hby).trans hcell, ?_, hr'⟩
          exact hl.congr fun a ha => h.getElem?_hang_ne right new fun heq => hlr a ha (heq ▸ hb)
    · rw [if_neg hlt, if_neg hlt]
      by_cases hgt : x < y.2
      · rw [if_pos hgt, if_pos hgt]
        cases l with
        | null =>
          obtain ⟨fuel, rfl⟩ : ∃ n, fuel = n + 1 := ⟨fuel - 1, by omega⟩
          cases hl
          refine .inr ⟨y.1, false, node y (node (new, x) null null) r, rfl, by simp, ?_, rfl, ?_⟩
          · refine ⟨rfl, some new, pr, getElem?_setLeft hcell _, ⟨rfl, none, none, ?_, rfl, rfl⟩,
              hr.congr ?_⟩
            · exact (h.getElem?_hang_ne false new hfy).trans hnew
            · intro a ha
              exact h.getElem?_hang_ne false new fun heq => hyr (heq ▸ ha)
          · exact .refl _
        | node z ll lr =>
          rcases hl with ⟨rfl, hl⟩
          have hless : (node z ll lr).addrs.length < fuel := by omega
          rcases ihl (some y.1) ⟨rfl, hl⟩ hndl (by simp) hfl hless with
            ⟨hrun, heq⟩ | ⟨b, right, l', hrun, hb, hl', hshape, hperm⟩
          · exact .inl ⟨hrun, by rw [heq]⟩
          · refine .inr ⟨b, right, node y l' r, hrun, mem_addrs_of_left hb, ?_,
              by rw [shape_node, hshape], ?_⟩
            · have hby : y.1 ≠ b := fun heq => hyl (heq ▸ hb)
              refine ⟨rfl, some z.1, pr, (h.getElem?_hang_ne right new hby).trans hcell, hl', ?_⟩
              exact hr.congr fun a ha =>
                h.getElem?_hang_ne right new fun heq => hlr b hb (heq ▸ ha)
            · rw [addrs_node, addrs_node y]
              exact hperm.append_right _
      · rw [if_neg hgt, if_neg hgt]
        exact .inl ⟨rfl, rfl⟩

/-- `put` is the recursive insertion, and writes into the tree only. -/
theorem put_spec {fuel : Nat} (x : α) (hh : h.Holds root c) (hnodup : c.addrs.Nodup)
    (hfuel : c.addrs.length < fuel) :
    ∃ h' root' c', h.put fuel x root = some (h', root') ∧ h'.Holds root' c' ∧
      c'.shape = c.shape.insertRec x ∧ Frame h c h' c' ∧
      c'.addrs.length ≤ c.addrs.length + 1 := by
  have hnew : (h ++ [(⟨x, none, none⟩ : Cell α)])[h.length]? = some ⟨x, none, none⟩ := by simp
  have hold : ∀ a < h.length, (h ++ [(⟨x, none, none⟩ : Cell α)])[a]? = h[a]? := fun a ha =>
    List.getElem?_append_left ha
  have hheap : (h ++ [(⟨x, none, none⟩ : Cell α)]).Holds root c :=
    hh.congr fun a ha => hold a (hh.lt ha)
  have hlength : (h ++ [(⟨x, none, none⟩ : Cell α)]).length = h.length + 1 := by simp
  have hfresh : h.length ∉ c.addrs := fun hin => Nat.lt_irrefl _ (hh.lt hin)
  unfold put
  generalize h ++ [(⟨x, none, none⟩ : Cell α)] = h₁ at hnew hold hheap hlength ⊢
  dsimp only
  cases c with
  | null =>
    cases hh
    refine ⟨h₁, some h.length, node (h.length, x) null null, rfl, ⟨rfl, none, none, hnew, rfl, rfl⟩,
      rfl, ?_, Nat.le_refl _⟩
    exact ⟨by simp, by simp, fun a ha _ => hold a ha, by omega⟩
  | node y l r =>
    rcases hh with ⟨rfl, -⟩
    dsimp only
    rcases putLoop_spec none hheap hnodup (by simp) hnew hfresh hfuel with
      ⟨hrun, heq⟩ | ⟨b, right, c', hrun, hb, hc', hshape, hperm⟩
    · rw [hrun]
      refine ⟨h₁, some y.1, node y l r, rfl, hheap, heq.symm, ?_, Nat.le_succ _⟩
      exact ⟨hnodup, fun a ha => .inl ha, fun a ha _ => hold a ha, by omega⟩
    · rw [hrun]
      refine ⟨h₁.hang right b h.length, some y.1, c', rfl, hc', hshape, ?_, ?_⟩
      · refine ⟨hperm.nodup_iff.mpr (nodup_cons.mpr ⟨hfresh, hnodup⟩), ?_, ?_, ?_⟩
        · intro a ha
          rcases mem_cons.mp (hperm.mem_iff.mp ha) with rfl | ha
          · exact .inr (Nat.le_refl _)
          · exact .inl ha
        · intro a hlt ha
          have hne : a ≠ b := fun heq => ha (heq ▸ hb)
          rw [getElem?_hang_ne _ _ _ hne, hold a hlt]
        · rw [length_hang]
          omega
      · exact Nat.le_of_eq hperm.length_eq


/-! ## Deletion -/

omit [LinearOrder α] in
theorem findSwap_spec {fuel : Nat} {y : Nat × α} {l r : BTNode (Nat × α)}
    (hh : h.Holds p (node y l r)) (hfuel : (node y l r).addrs.length ≤ fuel) :
    ∃ cell, h.findSwap fuel y.1 = some cell ∧ cell.key = leftmost y.2 l.shape := by
  induction l generalizing p y r fuel with
  | null =>
    rcases hh with ⟨-, pl, pr, hcell, hl, -⟩
    cases hl
    obtain ⟨fuel, rfl⟩ : ∃ n, fuel = n + 1 := ⟨fuel - 1, by simp at hfuel; omega⟩
    refine ⟨⟨y.2, none, pr⟩, ?_, rfl⟩
    unfold findSwap
    rw [hcell]
    rfl
  | node z ll lr ih _ =>
    rcases hh with ⟨-, pl, pr, hcell, ⟨rfl, hl⟩, -⟩
    rw [addrs_node, length_append, length_cons] at hfuel
    obtain ⟨fuel, rfl⟩ : ∃ n, fuel = n + 1 := ⟨fuel - 1, by omega⟩
    have hless : (node z ll lr).addrs.length ≤ fuel := by omega
    rcases ih ⟨rfl, hl⟩ hless with ⟨cell, hrun, hkey⟩
    refine ⟨cell, ?_, hkey⟩
    unfold findSwap
    rw [hcell]
    exact hrun

/-- `delete_rec` on nodes of its own: no other node is written, and none is made. -/
theorem deleteRec_spec {fuel : Nat} (x : α) (hh : h.Holds p t) (hnodup : t.addrs.Nodup)
    (hfuel : t.addrs.length < fuel) :
    ∃ h' p' t', deleteRec fuel h p x = some (h', p') ∧ h'.Holds p' t' ∧
      t'.shape = t.shape.deleteRec x ∧ t'.addrs.Sublist t.addrs ∧
      (∀ a ∉ t.addrs, h'[a]? = h[a]?) ∧ h'.length = h.length := by
  induction t generalizing h p x fuel with
  | null =>
    obtain ⟨fuel, rfl⟩ : ∃ n, fuel = n + 1 := ⟨fuel - 1, by omega⟩
    cases hh
    exact ⟨h, none, null, rfl, rfl, rfl, .refl _, fun _ _ => rfl, rfl⟩
  | node y l r ihl ihr =>
    rcases hh with ⟨rfl, pl, pr, hcell, hl, hr⟩
    rcases nodup_addrs_node.mp hnodup with ⟨hndl, hndr, hyl, hyr, hlr⟩
    obtain ⟨fuel, rfl⟩ : ∃ n, fuel = n + 1 := ⟨fuel - 1, by omega⟩
    have hsize : l.addrs.length < fuel ∧ r.addrs.length < fuel := by
      rw [addrs_node, length_append, length_cons] at hfuel
      omega
    rw [shape_node, addrs_node]
    unfold deleteRec BTNode.deleteRec
    rw [hcell]
    dsimp only [bind_eq_bind, bind_some]
    by_cases hlt : y.2 < x
    · rcases ihr x hr hndr hsize.2 with ⟨h', q, r', hrun, hr', hshape, hsub, hsame, hlength⟩
      rw [if_pos hlt, if_pos hlt, hrun]
      refine ⟨h'.setRight y.1 q, some y.1, node y l r', rfl, ?_, by rw [shape_node, hshape], ?_, ?_,
        by rw [length_setRight, hlength]⟩
      · refine .setRight ((hsame _ hyr).trans hcell) (hl.congr ?_) hr' hyl (mt hsub.mem hyr)
        exact fun a ha => hsame a (hlr a ha)
      · rw [addrs_node]
        exact .append (.refl _) (.cons_cons _ hsub)
      · intro a ha
        rw [mem_append, mem_cons, not_or, not_or] at ha
        rw [getElem?_setRight_ne _ (Ne.symm ha.2.1), hsame a ha.2.2]
    · rw [if_neg hlt, if_neg hlt]
      by_cases hgt : x < y.2
      · rcases ihl x hl hndl hsize.1 with ⟨h', q, l', hrun, hl', hshape, hsub, hsame, hlength⟩
        rw [if_pos hgt, if_pos hgt, hrun]
        refine ⟨h'.setLeft y.1 q, some y.1, node y l' r, rfl, ?_, by rw [shape_node, hshape], ?_, ?_,
          by rw [length_setLeft, hlength]⟩
        · refine .setLeft ((hsame _ hyl).trans hcell) hl' (hr.congr ?_) (mt hsub.mem hyl) hyr
          exact fun a ha => hsame a fun ha' => hlr a ha' ha
        · rw [addrs_node]
          exact .append hsub (.refl _)
        · intro a ha
          rw [mem_append, mem_cons, not_or, not_or] at ha
          rw [getElem?_setLeft_ne _ (Ne.symm ha.2.1), hsame a ha.1]
      · rw [if_neg hgt, if_neg hgt]
        cases l with
        | null =>
          cases hl
          cases r with
          | null =>
            cases hr
            exact ⟨h, none, null, rfl, rfl, rfl, nil_sublist _, fun _ _ => rfl, rfl⟩
          | node z rl rr =>
            rcases hr with ⟨rfl, hr⟩
            exact ⟨h, some z.1, node z rl rr, rfl, ⟨rfl, hr⟩, rfl,
              (sublist_cons_self _ _).trans (sublist_append_right _ _),
              fun _ _ => rfl, rfl⟩
        | node w ll lr =>
          rcases hl with ⟨rfl, hl⟩
          cases r with
          | null =>
            cases hr
            exact ⟨h, some w.1, node w ll lr, rfl, ⟨rfl, hl⟩, rfl, sublist_append_left _ _,
              fun _ _ => rfl, rfl⟩
          | node z rl rr =>
            -- the successor is copied up and then deleted below
            rcases hr with ⟨rfl, hr⟩
            have hright : h.Holds (some z.1) (node z rl rr) := ⟨rfl, hr⟩
            rcases findSwap_spec hright (Nat.le_of_lt hsize.2) with ⟨swap, hswap, hkey⟩
            have hset : ∀ a ≠ y.1, (h.setKey y.1 swap.key)[a]? = h[a]? := fun a ha =>
              h.getElem?_setKey_ne ha.symm _
            have hright' : (h.setKey y.1 swap.key).Holds (some z.1) (node z rl rr) :=
              hright.congr fun a ha => hset a fun heq => hyr (heq ▸ ha)
            rcases ihr swap.key hright' hndr hsize.2 with
              ⟨h', q, r', hrun, hr', hshape, hsub, hsame, hlength⟩
            dsimp only [shape_node]
            rw [hswap, bind_some, hrun]
            refine ⟨h'.setRight y.1 q, some y.1, node (y.1, swap.key) (node w ll lr) r', rfl, ?_, ?_,
              ?_, ?_, by rw [length_setRight, hlength, length_setKey]⟩
            · refine .setRight (y := (y.1, swap.key))
                ((hsame _ hyr).trans (getElem?_setKey hcell _)) ?_ hr' hyl (mt hsub.mem hyr)
              have hleft : h.Holds (some w.1) (node w ll lr) := ⟨rfl, hl⟩
              refine hleft.congr fun a ha => ?_
              rw [hsame a (hlr a ha), hset a fun heq => hyl (heq ▸ ha)]
            · rw [shape_node, hshape, hkey]
              rfl
            · rw [addrs_node]
              exact .append (.refl _) (.cons_cons _ hsub)
            · intro a ha
              rw [mem_append, mem_cons, not_or, not_or] at ha
              rw [getElem?_setRight_ne _ (Ne.symm ha.2.1), hsame a ha.2.2, hset a ha.2.1]

end Methods

end Heap

end PittCs.Cs1501
