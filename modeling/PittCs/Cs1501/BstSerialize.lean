import PittCs.Cs1501.Bst

/-!
# The string of a search tree

`serialize` of `BST.java`: the keys in pre-order with a label each, and a mark for the
missing child of a node that has one child. The keys contain no closing parenthesis, so
each segment ends where its first one stands, and the labels tell how many children
follow.
-/

namespace PittCs.Cs1501

open List

variable {α : Type*}

namespace BTNode

/-- `is_leaf` -/
def isLeaf : BTNode α → Bool
  | null => false
  | node _ left right => left.isNull && right.isNull

/-- The segment of a node: its label and its key. -/
def segment (toStr : α → List Char) (label : Char) (key : α) : List Char :=
  label :: '(' :: (toStr key ++ [')', ','])

/-- `X(NULL),` -/
def missing : List Char := ['X', '(', 'N', 'U', 'L', 'L', ')', ',']

/-- `rec_preorder`; `atRoot` is the test `curr_node == root`, which the first call alone
passes. -/
def recPreorder (toStr : α → List Char) :
    Bool → BTNode α → BTNode α → List Char → List Char
  | _, null, prev_node, path => if prev_node.isLeaf then path else path ++ missing
  | atRoot, node key left right, _, path =>
    let curr_node := node key left right
    let label := if atRoot then 'R' else if curr_node.isLeaf then 'L' else 'I'
    let path := path ++ segment toStr label key
    let path := recPreorder toStr false left curr_node path
    recPreorder toStr false right curr_node path

/-- `serialize` -/
def serialize (toStr : α → List Char) (root : BTNode α) : List Char :=
  if root.isNull then []
  else
    let path := recPreorder toStr true root root []
    if path.length > 1 then path.dropLast else path

/-! ## What is written for a subtree -/

/-- The string of a child of a node that is no leaf. -/
def encode (toStr : α → List Char) : BTNode α → List Char
  | null => missing
  | node key left right =>
    segment toStr (if left.isNull && right.isNull then 'L' else 'I') key ++
      (if left.isNull && right.isNull then [] else left.encode toStr ++ right.encode toStr)

/-- The string of the children of a node. -/
def encodeChildren (toStr : α → List Char) (left right : BTNode α) : List Char :=
  if left.isNull && right.isNull then [] else left.encode toStr ++ right.encode toStr

variable {toStr : α → List Char}

theorem isNull_iff {t : BTNode α} : t.isNull = true ↔ t = null := by
  cases t with
  | null => exact ⟨fun _ => rfl, fun _ => rfl⟩
  | node key left right => exact ⟨fun h => absurd h Bool.false_ne_true, fun h => by cases h⟩

theorem leaf_iff {left right : BTNode α} :
    (left.isNull && right.isNull) = true ↔ left = null ∧ right = null := by
  rw [Bool.and_eq_true, isNull_iff, isNull_iff]

theorem encode_node (key : α) (left right : BTNode α) : (node key left right).encode toStr =
    segment toStr (if left.isNull && right.isNull then 'L' else 'I') key ++
      encodeChildren toStr left right := rfl

/-- The children of any node, the root included. -/
theorem recPreorder_children {key : α} {left right : BTNode α}
    (hleft : ∀ prev_node : BTNode α, prev_node.isLeaf = false → ∀ path,
      recPreorder toStr false left prev_node path = path ++ left.encode toStr)
    (hright : ∀ prev_node : BTNode α, prev_node.isLeaf = false → ∀ path,
      recPreorder toStr false right prev_node path = path ++ right.encode toStr)
    (path : List Char) :
    recPreorder toStr false right (node key left right)
      (recPreorder toStr false left (node key left right) path) =
        path ++ encodeChildren toStr left right := by
  unfold encodeChildren
  split
  case isTrue hleaf =>
    rw [(leaf_iff.mp hleaf).1, (leaf_iff.mp hleaf).2, append_nil]
    rfl
  case isFalse hleaf =>
    have hinner : (node key left right).isLeaf = false := Bool.eq_false_of_not_eq_true hleaf
    rw [hleft _ hinner, hright _ hinner, append_assoc]

theorem recPreorder_eq (t : BTNode α) (prev_node : BTNode α) (h : prev_node.isLeaf = false)
    (path : List Char) : recPreorder toStr false t prev_node path = path ++ t.encode toStr := by
  induction t generalizing prev_node path with
  | null =>
    unfold recPreorder
    rw [h]
    rfl
  | node key left right ihl ihr =>
    unfold recPreorder
    dsimp only
    rw [recPreorder_children ihl ihr, encode_node, append_assoc]
    rfl

/-- The string of a tree before the last comma is removed. -/
theorem recPreorder_root (key : α) (left right : BTNode α) (prev_node : BTNode α) :
    recPreorder toStr true (node key left right) prev_node [] =
      segment toStr 'R' key ++ encodeChildren toStr left right := by
  unfold recPreorder
  dsimp only
  rw [recPreorder_children (recPreorder_eq left) (recPreorder_eq right), nil_append]
  rfl

/-! ## Reading it back -/

/-- Two strings are the same up to the first place of a character that is in neither. -/
theorem append_cons_inj {x y s s' : List Char} {c : Char} (hx : c ∉ x) (hy : c ∉ y)
    (h : x ++ c :: s = y ++ c :: s') : x = y ∧ s = s' := by
  have htake : ∀ {z t : List Char}, c ∉ z → (z ++ c :: t).takeWhile (· ≠ c) = z := by
    intro z t hz
    rw [takeWhile_append_of_pos fun a ha => by simpa using ne_of_mem_of_not_mem ha hz]
    simp
  obtain rfl : x = y := by rw [← htake hx, h, htake hy]
  simpa using h

/-- A segment ends at its first closing parenthesis. -/
theorem segment_inj {label label' : Char} {key key' : α} {s s' : List Char}
    (hkey : ')' ∉ toStr key) (hkey' : ')' ∉ toStr key')
    (h : segment toStr label key ++ s = segment toStr label' key' ++ s') :
    label = label' ∧ toStr key = toStr key' ∧ s = s' := by
  unfold segment at h
  simp only [cons_append, append_assoc, nil_append, List.cons.injEq] at h
  rcases h with ⟨hlabel, -, hrest⟩
  rcases append_cons_inj hkey hkey' hrest with ⟨hstr, hrest⟩
  exact ⟨hlabel, hstr, tail_eq_of_cons_eq hrest⟩

/-- The keys of two trees convert to distinct strings without a closing parenthesis. -/
structure Printable (toStr : α → List Char) (t t' : BTNode α) : Prop where
  left : ∀ k ∈ t.keys, ')' ∉ toStr k
  right : ∀ k ∈ t'.keys, ')' ∉ toStr k
  inj : ∀ k ∈ t.keys, ∀ k' ∈ t'.keys, toStr k = toStr k' → k = k'

theorem Printable.mono {t t' u u' : BTNode α} (h : Printable toStr t t')
    (hu : ∀ k ∈ u.keys, k ∈ t.keys) (hu' : ∀ k ∈ u'.keys, k ∈ t'.keys) : Printable toStr u u' where
  left := fun k hk => h.left k (hu k hk)
  right := fun k hk => h.right k (hu' k hk)
  inj := fun k hk k' hk' => h.inj k (hu k hk) k' (hu' k' hk')

/-- The children, when it is known whether there are any. -/
theorem encodeChildren_inj {left right left' right' : BTNode α} {s s' : List Char}
    (hleft : ∀ {s s'}, left.encode toStr ++ s = left'.encode toStr ++ s' → left = left' ∧ s = s')
    (hright : ∀ {s s'}, right.encode toStr ++ s = right'.encode toStr ++ s' → right = right' ∧ s = s')
    (hleaf : (left.isNull && right.isNull) = (left'.isNull && right'.isNull))
    (h : encodeChildren toStr left right ++ s = encodeChildren toStr left' right' ++ s') :
    left = left' ∧ right = right' ∧ s = s' := by
  unfold encodeChildren at h
  rw [← hleaf] at h
  split at h
  case isTrue htrue =>
    rcases leaf_iff.mp htrue with ⟨rfl, rfl⟩
    rw [hleaf] at htrue
    rcases leaf_iff.mp htrue with ⟨rfl, rfl⟩
    exact ⟨rfl, rfl, h⟩
  case isFalse =>
    rw [append_assoc, append_assoc] at h
    rcases hleft h with ⟨heq, hrest⟩
    rcases hright hrest with ⟨heq', hrest'⟩
    exact ⟨heq, heq', hrest'⟩

/-- A subtree is read back from the front of a string. -/
theorem encode_inj {t t' : BTNode α} (hprint : Printable toStr t t') {s s' : List Char}
    (h : t.encode toStr ++ s = t'.encode toStr ++ s') : t = t' ∧ s = s' := by
  induction t generalizing t' s s' with
  | null =>
    cases t' with
    | null => exact ⟨rfl, append_cancel_left h⟩
    | node key left right =>
      rw [encode_node] at h
      have hlabel := head_eq_of_cons_eq h
      split at hlabel
      · exact absurd hlabel (by decide)
      · exact absurd hlabel (by decide)
  | node key left right ihl ihr =>
    cases t' with
    | null =>
      rw [encode_node] at h
      have hlabel := head_eq_of_cons_eq h
      split at hlabel
      · exact absurd hlabel (by decide)
      · exact absurd hlabel (by decide)
    | node key' left' right' =>
      have hmem : key ∈ (node key left right).keys := mem_append_right _ mem_cons_self
      have hmem' : key' ∈ (node key' left' right').keys :=
        mem_append_right _ mem_cons_self
      rw [encode_node, encode_node, append_assoc, append_assoc] at h
      rcases segment_inj (hprint.left key hmem) (hprint.right key' hmem') h with
        ⟨hlabel, hstr, hrest⟩
      have hleaf : (left.isNull && right.isNull) = (left'.isNull && right'.isNull) := by
        cases hl : left.isNull && right.isNull <;> cases hl' : left'.isNull && right'.isNull
        · rfl
        · rw [hl, hl'] at hlabel
          exact absurd hlabel (by decide)
        · rw [hl, hl'] at hlabel
          exact absurd hlabel (by decide)
        · rfl
      have hl : Printable toStr left left' := hprint.mono
        (fun _ hk => mem_append_left _ hk) (fun _ hk => mem_append_left _ hk)
      have hr : Printable toStr right right' := hprint.mono
        (fun _ hk => mem_append_right _ (mem_cons_of_mem _ hk))
        (fun _ hk => mem_append_right _ (mem_cons_of_mem _ hk))
      rcases encodeChildren_inj (ihl hl) (ihr hr) hleaf hrest with ⟨rfl, rfl, hs⟩
      rw [hprint.inj key hmem key' hmem' hstr]
      exact ⟨rfl, hs⟩

/-- Only a leaf has nothing written behind it. -/
theorem encodeChildren_eq_nil {left right : BTNode α} :
    encodeChildren toStr left right = [] ↔ (left.isNull && right.isNull) = true := by
  unfold encodeChildren
  split
  case isTrue hleaf => exact ⟨fun _ => hleaf, fun _ => rfl⟩
  case isFalse hleaf =>
    constructor
    · intro h
      cases left with
      | null => cases h
      | node key l r => cases h
    · exact fun h => absurd h hleaf

/-! ## The whole string -/

/-- A node and its children end in a comma if the right child does. -/
theorem node_comma {right : BTNode α} (hright : ∃ s, right.encode toStr = s ++ [','])
    (label : Char) (key : α) (left : BTNode α) :
    ∃ s, segment toStr label key ++ encodeChildren toStr left right = s ++ [','] := by
  unfold encodeChildren
  split
  · refine ⟨label :: '(' :: (toStr key ++ [')']), ?_⟩
    unfold segment
    rw [append_nil, cons_append, cons_append, append_assoc]
    rfl
  · rcases hright with ⟨s, hs⟩
    rw [hs, ← append_assoc, ← append_assoc]
    exact ⟨_, rfl⟩

theorem encode_comma (t : BTNode α) : ∃ s, t.encode toStr = s ++ [','] := by
  induction t with
  | null => exact ⟨['X', '(', 'N', 'U', 'L', 'L', ')'], rfl⟩
  | node key left right _ ihr => exact node_comma ihr _ key left

theorem serialize_node (toStr : α → List Char) (key : α) (left right : BTNode α) :
    (node key left right).serialize toStr ++ [','] =
      segment toStr 'R' key ++ encodeChildren toStr left right := by
  have hlong : 1 < (segment toStr 'R' key ++ encodeChildren toStr left right).length := by
    unfold segment
    rw [cons_append, cons_append, length_cons, length_cons]
    omega
  have hcomma : ∃ s, segment toStr 'R' key ++ encodeChildren toStr left right = s ++ [','] :=
    node_comma (encode_comma right) 'R' key left
  have hnull : ¬ (node key left right).isNull = true := Bool.false_ne_true
  rcases hcomma with ⟨s, hs⟩
  unfold serialize
  rw [if_neg hnull, recPreorder_root, if_pos hlong, hs, dropLast_concat]

/-- Trees with the same string are the same. -/
theorem serialize_injective {t t' : BTNode α} (hprint : Printable toStr t t')
    (h : t.serialize toStr = t'.serialize toStr) : t = t' := by
  cases t with
  | null =>
    cases t' with
    | null => rfl
    | node key left right =>
      have hnode := (serialize_node toStr key left right).symm
      rw [← h] at hnode
      cases hnode
  | node key left right =>
    cases t' with
    | null =>
      have hnode := (serialize_node toStr key left right).symm
      rw [h] at hnode
      cases hnode
    | node key' left' right' =>
      have hmem : key ∈ (node key left right).keys := mem_append_right _ mem_cons_self
      have hmem' : key' ∈ (node key' left' right').keys :=
        mem_append_right _ mem_cons_self
      have heq : (node key left right).serialize toStr ++ [','] =
          (node key' left' right').serialize toStr ++ [','] := by rw [h]
      rw [serialize_node, serialize_node] at heq
      rcases segment_inj (hprint.left key hmem) (hprint.right key' hmem') heq with
        ⟨-, hstr, hrest⟩
      have hleaf : (left.isNull && right.isNull) = (left'.isNull && right'.isNull) := by
        have hnil : encodeChildren toStr left right = [] ↔ encodeChildren toStr left' right' = [] := by
          rw [hrest]
        rwa [encodeChildren_eq_nil, encodeChildren_eq_nil, ← Bool.eq_iff_iff] at hnil
      have hl : Printable toStr left left' := hprint.mono
        (fun _ hk => mem_append_left _ hk) (fun _ hk => mem_append_left _ hk)
      have hr : Printable toStr right right' := hprint.mono
        (fun _ hk => mem_append_right _ (mem_cons_of_mem _ hk))
        (fun _ hk => mem_append_right _ (mem_cons_of_mem _ hk))
      have hrest' := congrArg (· ++ ([] : List Char)) hrest
      rcases encodeChildren_inj (encode_inj hl) (encode_inj hr) hleaf hrest' with ⟨rfl, rfl, -⟩
      rw [hprint.inj key hmem key' hmem' hstr]

/-- Two orders in which the same tree is built. -/
theorem serialize_injective_put :
    bstAfter [.put 2, .put 1, .put 3] = bstAfter [.put 2, .put 3, .put 1] := by
  have hprint : Printable (Nat.toDigits 10) (bstAfter [.put 2, .put 1, .put 3])
      (bstAfter [.put 2, .put 3, .put 1]) := ⟨by decide, by decide, by decide⟩
  exact serialize_injective hprint (by decide)

end BTNode

end PittCs.Cs1501
