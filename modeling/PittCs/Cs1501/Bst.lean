import Mathlib.Data.Finset.Sort

/-!
# Binary search tree

`BST.java`: an unbalanced search tree with an iterative `put`, an iterative
`contains` and a recursive `delete`.
-/

namespace PittCs.Cs1501

open List

variable {α : Type*}

/-- `BTNode`, with `null` for the missing node. -/
inductive BTNode (α : Type*) where
  | null
  | node (key : α) (left right : BTNode α)
deriving Repr, DecidableEq

namespace BTNode

/-- The keys in the order of `rec_in_order`. -/
def keys : BTNode α → List α
  | null => []
  | node key left right => left.keys ++ key :: right.keys

@[simp] theorem keys_null : (null : BTNode α).keys = [] := rfl

@[simp] theorem keys_node (key : α) (left right : BTNode α) :
    (node key left right).keys = left.keys ++ key :: right.keys := rfl

/-- The way from a node to one of its descendants. -/
inductive Turn where
  | left
  | right
deriving Repr, DecidableEq

/-- `setLeft` and `setRight` of the node that `path` leads to. -/
def setChild (side : Turn) (child : BTNode α) : List Turn → BTNode α → BTNode α
  | _, null => null
  | [], node key l r =>
    match side with
    | .left => node key child r
    | .right => node key l child
  | .left :: path, node key l r => node key (setChild side child path l) r
  | .right :: path, node key l r => node key l (setChild side child path r)

/-- The test `== null`. -/
def isNull : BTNode α → Bool
  | null => true
  | node _ _ _ => false

section Order

variable [LinearOrder α]

/-- Every key to the left is smaller and every key to the right is larger. -/
def IsSearch : BTNode α → Prop
  | null => True
  | node key left right =>
    (∀ k ∈ left.keys, k < key) ∧ (∀ k ∈ right.keys, key < k) ∧ left.IsSearch ∧ right.IsSearch

/-- A tree is a search tree iff its keys are strictly sorted in order. -/
theorem isSearch_iff_pairwise (t : BTNode α) : t.IsSearch ↔ t.keys.Pairwise (· < ·) := by
  induction t with
  | null => simp [IsSearch]
  | node key left right ihl ihr =>
    simp only [IsSearch, keys_node, pairwise_append, pairwise_cons, ihl, ihr,
      mem_cons]
    constructor
    · rintro ⟨hl, hr, hpl, hpr⟩
      refine ⟨hpl, ⟨hr, hpr⟩, ?_⟩
      rintro a ha b (rfl | hb)
      · exact hl a ha
      · exact (hl a ha).trans (hr b hb)
    · rintro ⟨hpl, ⟨hr, hpr⟩, hlr⟩
      exact ⟨fun k hk => hlr k hk key (Or.inl rfl), hr, hpl, hpr⟩

/-- The loop of `put`. `curr` is the subtree at `pos` and `prev` leads to
`prev_node`; without a result the loop has met the key. -/
def putLoop (new_val : α) : BTNode α → List Turn → List Turn → Bool → Option (List Turn × Bool)
  | null, _, prev, insert_right => some (prev, insert_right)
  | node key left right, pos, _, insert_right =>
    if key < new_val then
      putLoop new_val right (pos ++ [.right]) pos (if right.isNull then true else insert_right)
    else if new_val < key then putLoop new_val left (pos ++ [.left]) pos insert_right
    else none

/-- `put`. -/
def put (new_val : α) (root : BTNode α) : BTNode α :=
  if root.isNull then node new_val null null
  else
    match putLoop new_val root [] [] false with
    | none => root
    | some (prev, insert_right) =>
      setChild (if insert_right then .right else .left) (node new_val null null) prev root

/-- `contains`. -/
def contains (target : α) : BTNode α → Bool
  | null => false
  | node key left right =>
    if key < target then right.contains target
    else if target < key then left.contains target
    else true

/-- The loop of `find_swap`, from the node with `key` and `left`. -/
def leftmost : α → BTNode α → α
  | key, null => key
  | _, node key left _ => leftmost key left

/-- `delete_rec`. -/
def deleteRec (target : α) : BTNode α → BTNode α
  | null => null
  | node key left right =>
    if key < target then node key left (right.deleteRec target)
    else if target < key then node key (left.deleteRec target) right
    else
      match left, right with
      | null, null => null
      | node _ _ _, null => left
      | null, node _ _ _ => right
      | node _ _ _, node k l _ =>
        -- the successor of the deleted key takes its place
        let swap := leftmost k l
        node swap left (right.deleteRec swap)

/-- `delete`. -/
def delete (target : α) (root : BTNode α) : BTNode α := root.deleteRec target

/-- Recursive insertion. -/
def insertRec (new_val : α) : BTNode α → BTNode α
  | null => node new_val null null
  | node key left right =>
    if key < new_val then node key left (right.insertRec new_val)
    else if new_val < key then node key (left.insertRec new_val) right
    else node key left right

end Order

/-- `rec_in_order`, with `toStr` for the conversion of a key to a string. -/
def recInOrder (toStr : α → List Char) : BTNode α → List Char → List Char
  | null, path => path
  | node key left right, path =>
    recInOrder toStr right (recInOrder toStr left path ++ toStr key ++ [':'])

/-! ## Insertion -/

section Insertion

variable [LinearOrder α]

@[simp] theorem mem_keys_insertRec (x k : α) (t : BTNode α) :
    k ∈ (t.insertRec x).keys ↔ k = x ∨ k ∈ t.keys := by
  induction t with
  | null => simp [insertRec]
  | node key left right ihl ihr =>
    unfold insertRec
    split
    · simp only [keys_node, mem_append, mem_cons, ihr]
      tauto
    · split
      · simp only [keys_node, mem_append, mem_cons, ihl]
        tauto
      · have hx : x = key := le_antisymm (not_lt.mp ‹_›) (not_lt.mp ‹_›)
        simp only [keys_node, mem_append, mem_cons, hx]
        tauto

theorem IsSearch.insertRec (x : α) {t : BTNode α} (h : t.IsSearch) :
    (t.insertRec x).IsSearch := by
  induction t with
  | null => simp [BTNode.insertRec, IsSearch]
  | node key left right ihl ihr =>
    obtain ⟨hl, hr, hsl, hsr⟩ := h
    unfold BTNode.insertRec
    split
    case isTrue hlt =>
      refine ⟨hl, ?_, hsl, ihr hsr⟩
      intro k hk
      rcases (mem_keys_insertRec x k right).mp hk with rfl | hk
      · exact hlt
      · exact hr k hk
    case isFalse =>
      split
      case isTrue hgt =>
        refine ⟨?_, hr, ihl hsl, hsr⟩
        intro k hk
        rcases (mem_keys_insertRec x k left).mp hk with rfl | hk
        · exact hgt
        · exact hl k hk
      case isFalse => exact ⟨hl, hr, hsl, hsr⟩

/-- What the walk of `put` finds: either the key, or the node below which the
recursive insertion hangs the new one. The flag is set by the last turn only, so
it enters every turn cleared. -/
theorem putLoop_spec (x : α) (t : BTNode α) (pos prev : List Turn) (ht : t.isNull = false) :
    (putLoop x t pos prev false = none ∧ t.insertRec x = t) ∨
    ∃ path right, putLoop x t pos prev false = some (pos ++ path, right) ∧
      setChild (if right then .right else .left) (node x null null) path t = t.insertRec x := by
  induction t generalizing pos prev with
  | null => cases ht
  | node key left right ihl ihr =>
    unfold putLoop insertRec
    split
    · cases hr : right with
      | null =>
        -- the walk ends below this node, on its right side
        exact Or.inr ⟨[], true, by simp [putLoop, isNull], by simp [setChild, insertRec]⟩
      | node k l r =>
        rw [hr] at ihr
        rcases ihr (pos ++ [.right]) pos rfl with ⟨hnone, heq⟩ | ⟨path, side, hsome, heq⟩
        · exact Or.inl ⟨by simpa [isNull] using hnone, by rw [heq]⟩
        · refine Or.inr ⟨.right :: path, side, ?_, by rw [setChild, heq]⟩
          simpa [isNull, append_assoc] using hsome
    · split
      · cases hl : left with
        | null =>
          exact Or.inr ⟨[], false, by simp [putLoop], by simp [setChild, insertRec]⟩
        | node k l r =>
          rw [hl] at ihl
          rcases ihl (pos ++ [.left]) pos rfl with ⟨hnone, heq⟩ | ⟨path, side, hsome, heq⟩
          · exact Or.inl ⟨hnone, by rw [heq]⟩
          · refine Or.inr ⟨.left :: path, side, ?_, by rw [setChild, heq]⟩
            simpa [append_assoc] using hsome
      · exact Or.inl ⟨rfl, rfl⟩

/-- The iterative `put` is the recursive insertion. -/
theorem put_eq_insertRec (x : α) (t : BTNode α) : t.put x = t.insertRec x := by
  unfold put
  cases ht : t.isNull with
  | true =>
    cases t with
    | null => simp [insertRec]
    | node key left right => cases ht
  | false =>
    rcases putLoop_spec x t [] [] ht with ⟨hnone, heq⟩ | ⟨path, right, hsome, heq⟩
    · simp [hnone, heq]
    · simp [hsome, heq]

end Insertion

/-! ## Search and deletion -/

section Deletion

variable [LinearOrder α]

theorem contains_iff {t : BTNode α} (h : t.IsSearch) (x : α) :
    t.contains x = true ↔ x ∈ t.keys := by
  induction t with
  | null => simp [contains]
  | node key left right ihl ihr =>
    obtain ⟨hl, hr, hsl, hsr⟩ := h
    simp only [contains, keys_node, mem_append, mem_cons]
    split
    case isTrue hlt =>
      have hleft : x ∉ left.keys := fun hx => (hl x hx).not_gt hlt
      rw [ihr hsr]
      simp [hleft, hlt.ne']
    case isFalse hge =>
      split
      case isTrue hgt =>
        have hright : x ∉ right.keys := fun hx => (hr x hx).not_gt hgt
        rw [ihl hsl]
        simp [hright, hgt.ne]
      case isFalse hle =>
        have hx : x = key := le_antisymm (not_lt.mp hge) (not_lt.mp hle)
        simp [hx]

omit [LinearOrder α] in
/-- `find_swap` finds the first key of the right subtree. -/
theorem exists_keys_eq_leftmost_cons (k : α) (l r : BTNode α) :
    ∃ tail, (node k l r).keys = leftmost k l :: tail := by
  induction l generalizing k r with
  | null => exact ⟨r.keys, by simp [leftmost]⟩
  | node k' l' r' ihl _ =>
    obtain ⟨tail, htail⟩ := ihl k' r'
    refine ⟨tail ++ k :: r.keys, ?_⟩
    rw [keys_node, htail]
    rfl

/-- Deleting removes the key from the sorted keys and nothing else. -/
theorem keys_deleteRec {t : BTNode α} (h : t.IsSearch) (x : α) :
    (t.deleteRec x).keys = t.keys.filter (· ≠ x) := by
  induction t generalizing x with
  | null => simp [deleteRec]
  | node key left right ihl ihr =>
    obtain ⟨hl, hr, hsl, hsr⟩ := h
    have keep {l : List α} (hl : ∀ k ∈ l, k ≠ x) : l.filter (· ≠ x) = l :=
      filter_eq_self.mpr fun k hk => by simpa using hl k hk
    unfold deleteRec
    split
    case isTrue hlt =>
      have hleft := keep fun k hk => ((hl k hk).trans hlt).ne
      rw [keys_node, keys_node, filter_append, filter_cons_of_pos (by simpa using hlt.ne),
        hleft, ihr hsr]
    case isFalse hge =>
      split
      case isTrue hgt =>
        have hright := keep fun k hk => (hgt.trans (hr k hk)).ne'
        rw [keys_node, keys_node, filter_append,
          filter_cons_of_pos (by simpa using hgt.ne'), hright, ihl hsl]
      case isFalse hle =>
        have hx : x = key := le_antisymm (not_lt.mp hge) (not_lt.mp hle)
        subst hx
        have hleft := keep fun k hk => (hl k hk).ne
        have hright := keep fun k hk => (hr k hk).ne'
        rw [keys_node, filter_append, filter_cons_of_neg (by simp), hleft, hright]
        split
        · simp
        · simp
        · simp
        · next k l r =>
          -- two children: the successor heads the right keys and is deleted there
          obtain ⟨tail, htail⟩ := exists_keys_eq_leftmost_cons k l r
          have hpair := (isSearch_iff_pairwise _).mp hsr
          rw [htail, pairwise_cons] at hpair
          have hdel := ihr hsr (leftmost k l)
          rw [htail, filter_cons_of_neg (by simp), filter_eq_self.mpr] at hdel
          · rw [keys_node, hdel, htail]
          · intro a ha
            simpa using (hpair.1 a ha).ne'

theorem IsSearch.deleteRec (x : α) {t : BTNode α} (h : t.IsSearch) :
    (t.deleteRec x).IsSearch := by
  rw [isSearch_iff_pairwise, keys_deleteRec h x]
  exact ((isSearch_iff_pairwise t).mp h).filter _

end Deletion

/-- The traversal string lists the keys in order, each followed by a colon. -/
theorem recInOrder_eq (toStr : α → List Char) (t : BTNode α) (path : List Char) :
    recInOrder toStr t path = path ++ t.keys.flatMap fun k => toStr k ++ [':'] := by
  induction t generalizing path with
  | null => simp [recInOrder]
  | node key left right ihl ihr => simp [recInOrder, ihl, ihr]

end BTNode

/-! ## Runs -/

/-- The calls that change the tree. -/
inductive BstCall (α : Type*) where
  | put (key : α)
  | delete (key : α)
deriving Repr, DecidableEq

section Runs

variable [LinearOrder α]

/-- One call on the tree. -/
def BstCall.run (root : BTNode α) : BstCall α → BTNode α
  | .put key => root.put key
  | .delete key => root.delete key

/-- The tree after a sequence of calls on an empty one. -/
def bstAfter (calls : List (BstCall α)) : BTNode α := calls.foldl BstCall.run .null

/-- The key was put, and not deleted since. -/
def PutAndKept (calls : List (BstCall α)) (k : α) : Prop :=
  ∃ before after, calls = before ++ .put k :: after ∧ .delete k ∉ after

/-- The same calls on a finite set. -/
def BstCall.onSet (s : Finset α) : BstCall α → Finset α
  | .put key => insert key s
  | .delete key => s.erase key

/-- The set after a sequence of calls. -/
def setAfter (calls : List (BstCall α)) : Finset α := calls.foldl BstCall.onSet ∅

omit [LinearOrder α] in
theorem putAndKept_concat (calls : List (BstCall α)) (c : BstCall α) (k : α) :
    PutAndKept (calls ++ [c]) k ↔ c = .put k ∨ PutAndKept calls k ∧ c ≠ .delete k := by
  constructor
  · rintro ⟨before, after, heq, hno⟩
    rcases eq_nil_or_concat after with rfl | ⟨after', c', rfl⟩
    · exact Or.inl (append_inj_right' heq rfl |> singleton_inj.mp)
    · rw [concat_eq_append] at heq hno
      have hsplit : calls ++ [c] = (before ++ .put k :: after') ++ [c'] := by simpa using heq
      obtain ⟨hcalls, hc⟩ := append_inj' hsplit rfl
      rw [mem_append, not_or, mem_singleton] at hno
      refine Or.inr ⟨⟨before, after', hcalls, hno.1⟩, ?_⟩
      rw [singleton_inj.mp hc]
      exact fun he => hno.2 he.symm
  · rintro (rfl | ⟨⟨before, after, rfl, hno⟩, hc⟩)
    · exact ⟨calls, [], rfl, by simp⟩
    · refine ⟨before, after ++ [c], by simp, ?_⟩
      rw [mem_append, mem_singleton, not_or]
      exact ⟨hno, fun he => hc he.symm⟩

theorem mem_setAfter (calls : List (BstCall α)) (k : α) :
    k ∈ setAfter calls ↔ PutAndKept calls k := by
  induction calls using List.reverseRecOn with
  | nil => simp [setAfter, PutAndKept]
  | append_singleton calls c ih =>
    rw [putAndKept_concat, ← ih, setAfter, foldl_append]
    cases c with
    | put key => simp [BstCall.onSet, setAfter, eq_comm]
    | delete key => simp [BstCall.onSet, setAfter, and_comm, eq_comm]

/-- One call keeps the search tree and acts on its keys as on the set. -/
theorem run_step {t : BTNode α} {s : Finset α} (c : BstCall α) (h : t.IsSearch)
    (hs : ∀ k, k ∈ t.keys ↔ k ∈ s) :
    (c.run t).IsSearch ∧ ∀ k, k ∈ (c.run t).keys ↔ k ∈ c.onSet s := by
  cases c with
  | put key =>
    simp only [BstCall.run, BstCall.onSet, BTNode.put_eq_insertRec]
    exact ⟨h.insertRec key, fun k => by simp [hs]⟩
  | delete key =>
    simp only [BstCall.run, BstCall.onSet, BTNode.delete]
    refine ⟨h.deleteRec key, fun k => ?_⟩
    rw [BTNode.keys_deleteRec h key]
    simp [hs, and_comm]

theorem bstAfter_spec (calls : List (BstCall α)) :
    (bstAfter calls).IsSearch ∧ ∀ k, k ∈ (bstAfter calls).keys ↔ k ∈ setAfter calls := by
  induction calls using List.reverseRecOn with
  | nil => simp [bstAfter, setAfter, BTNode.IsSearch]
  | append_singleton calls c ih =>
    rw [bstAfter, setAfter, foldl_append, foldl_append]
    exact run_step c ih.1 ih.2

/-- The tree refines a finite set in every run. -/
theorem bst_refines_set (toStr : α → List Char) (calls : List (BstCall α)) :
    (bstAfter calls).IsSearch ∧ (bstAfter calls).keys.Nodup ∧
    (∀ k, (bstAfter calls).contains k = true ↔ PutAndKept calls k) ∧
    (∀ k, k ∈ setAfter calls ↔ PutAndKept calls k) ∧
    (bstAfter calls).keys = (setAfter calls).sort ∧
    BTNode.recInOrder toStr (bstAfter calls) [] =
      (setAfter calls).sort.flatMap fun k => toStr k ++ [':'] := by
  obtain ⟨hsearch, hmem⟩ := bstAfter_spec calls
  have hpair := (BTNode.isSearch_iff_pairwise _).mp hsearch
  have hnodup : (bstAfter calls).keys.Nodup := hpair.imp fun h => h.ne
  have hset : (bstAfter calls).keys.toFinset = setAfter calls := by
    ext k
    rw [List.mem_toFinset, hmem]
  have hsort : (bstAfter calls).keys = (setAfter calls).sort := by
    rw [← hset]
    exact ((toFinset_sort (· ≤ ·) hnodup).mpr (hpair.imp fun h => h.le)).symm
  refine ⟨hsearch, hnodup, fun k => ?_, mem_setAfter calls, hsort, ?_⟩
  · rw [BTNode.contains_iff hsearch, hmem, mem_setAfter]
  · rw [BTNode.recInOrder_eq, hsort, nil_append]

end Runs

end PittCs.Cs1501
