import Mathlib.Data.List.Sort
import PittCs.Cs1699.Basic

/-!
# Huffman coding

`BTree.hs` and `HuffmanCoding.hs`. A call of `error` is a missing result. The derived
`show` and `read` of trees and bits are parameters. Frequencies are natural numbers:
the length of a word that fits into memory does not exceed an `Int`.
-/

namespace PittCs.Cs1699

/-- `'\NUL'`. -/
def NUL : HChar := 0

/-- `BTree`. -/
inductive BTree (α : Type*) where
  | emptyBTree
  | bTree (x : α) (l r : BTree α)
deriving Repr, DecidableEq

namespace BTree

variable {α : Type*}

/-- `getRootData`. -/
def getRootData : BTree α → Option α
  | emptyBTree => none
  | bTree x _ _ => some x

/-- `getHeight`. -/
def getHeight : BTree α → Nat
  | emptyBTree => 0
  | bTree _ l r => 1 + max l.getHeight r.getHeight

end BTree

open BTree

/-- A letter, or the marker of an inner node, with its frequency. -/
abbrev HTree := BTree (HChar × Nat)

/-- `HBit`. -/
inductive HBit where
  | L
  | R
deriving Repr, DecidableEq

/-- `snd $ getRootData x`; the lists of trees hold no empty one. -/
def freq (t : HTree) : Nat := (t.getRootData.map Prod.snd).getD 0

/-- `sortTrees`: `sortBy` is a stable sort. -/
def sortTrees (xs : List HTree) : List HTree := xs.insertionSort fun x y => freq x ≤ freq y

/-- `charCount`. -/
def charCount (c : HChar) (str : HString) : Nat := (str.filter (· == c)).length

/-- `charCounts`. -/
def charCounts (xs : HString) : List (HChar × Nat) :=
  xs.foldl (fun acc x => if x ∈ acc.map Prod.fst then acc else (x, charCount x xs) :: acc) []

/-- `initTrees`. -/
def initTrees (xs : HString) : List HTree :=
  sortTrees ((charCounts xs).map fun x => bTree x emptyBTree emptyBTree)

/-- `combine`. -/
def combine (x y : HTree) : HTree := bTree (NUL, freq x + freq y) x y

@[simp] theorem length_sortTrees (xs : List HTree) : (sortTrees xs).length = xs.length :=
  List.length_insertionSort _ _

/-- `collapseTrees`. -/
def collapseTrees : List HTree → Option HTree
  | [] => none
  | [x] => if x.getHeight > 1 then some x else some (bTree (NUL, 0) x emptyBTree)
  | [x, y] => some (combine x y)
  | x :: y :: z :: xs => collapseTrees (sortTrees (combine x y :: z :: xs))
termination_by xs => xs.length
decreasing_by simp

/-- `containsLetter`. -/
def containsLetter (c : HChar) : HTree → Bool
  | emptyBTree => false
  | bTree x l r => if x.1 = c then true else containsLetter c l || containsLetter c r

/-- `encodeLetter`. -/
def encodeLetter (c : HChar) : HTree → Option (List HBit)
  | emptyBTree => none
  | bTree x l r =>
    if x.1 = c then some []
    else if containsLetter c l then (encodeLetter c l).map (.L :: ·)
    else if containsLetter c r then (encodeLetter c r).map (.R :: ·)
    else none

/-- `encodeWord`. -/
def encodeWord (tree : HTree) (x : HString) : Option (List HBit) :=
  (x.mapM fun c => encodeLetter c tree).map fun codes => codes.foldl (· ++ ·) []

/-- `decodeWord`, with a bound on the number of calls: a tree of one node would
produce its letter for ever. -/
def decodeWord (root : HTree) : Nat → HTree → List HBit → Option HString
  | 0, _, _ => none
  | _ + 1, bTree x emptyBTree emptyBTree, [] => some [x.1]
  | _ + 1, _, [] => none
  | _ + 1, emptyBTree, _ :: _ => none
  | fuel + 1, bTree x emptyBTree emptyBTree, xs => (decodeWord root fuel root xs).map (x.1 :: ·)
  | fuel + 1, bTree _ l r, x :: xs =>
    if x = .L then decodeWord root fuel l xs else decodeWord root fuel r xs

section Strings

variable (showTree : HTree → HString) (readTree : HString → Option HTree)
  (showCode : List HBit → HString) (readCode : HString → Option (List HBit))

/-- `toHuffmanCode`. -/
def toHuffmanCode (x : HString) : Option (HString × HString) :=
  (collapseTrees (initTrees x)).bind fun tree =>
    (encodeWord tree x).map fun code => (showTree tree, showCode code)

/-- `fromHuffmanCode`. Every bit is consumed by one call, and every leaf takes one more. -/
def fromHuffmanCode (x y : HString) : Option HString :=
  (readTree x).bind fun tree =>
    (readCode y).bind fun code => decodeWord tree (2 * code.length + 1) tree code

end Strings

/-!
## Huffman trees

What `collapseTrees (initTrees w)` returns: a tree whose leaves are the letters of the
word with their frequencies, or, for a word of one letter, an artificial root above its
leaf. `encodeLetter` searches from the top and stops at the first node with the letter,
so the marker of the inner nodes is the one letter it does not find in a leaf.
-/

open List

/-- The trees of the list: leaves, and pairs of trees under a marker. -/
inductive IsHuffman : HTree → Prop
  | leaf (x : HChar × Nat) : IsHuffman (bTree x emptyBTree emptyBTree)
  | inner {l r : HTree} : IsHuffman l → IsHuffman r → IsHuffman (combine l r)

/-- The letters of a tree with their frequencies. -/
def leaves : HTree → List (HChar × Nat)
  | emptyBTree => []
  | bTree x emptyBTree emptyBTree => [x]
  | bTree _ l r => leaves l ++ leaves r

/-- The letters of a tree. -/
def letters (t : HTree) : List HChar := (leaves t).map Prod.fst

@[simp] theorem leaves_leaf (x : HChar × Nat) :
    leaves (bTree x emptyBTree emptyBTree) = [x] := by simp [leaves]

theorem IsHuffman.ne_empty {t : HTree} (h : IsHuffman t) : t ≠ emptyBTree := by
  cases h with
  | leaf x | inner _ _ => nofun

theorem leaves_combine {l : HTree} (hl : IsHuffman l) (r : HTree) :
    leaves (combine l r) = leaves l ++ leaves r := by
  cases l with
  | emptyBTree => exact absurd rfl hl.ne_empty
  | bTree x l' r' => simp [combine, leaves]

theorem letters_combine {l : HTree} (hl : IsHuffman l) (r : HTree) :
    letters (combine l r) = letters l ++ letters r := by
  rw [letters, leaves_combine hl, map_append]
  rfl

@[simp] theorem freq_leaf (x : HChar × Nat) : freq (bTree x emptyBTree emptyBTree) = x.2 := rfl

@[simp] theorem freq_combine (l r : HTree) : freq (combine l r) = freq l + freq r := rfl

/-- The frequency of a tree is that of its letters. -/
theorem freq_eq_sum {t : HTree} (h : IsHuffman t) : freq t = ((leaves t).map Prod.snd).sum := by
  induction h with
  | leaf x => simp
  | inner hl hr ihl ihr => simp [leaves_combine hl, ihl, ihr]

/-! ## Code words -/

/-- The subtree that the bits lead to. -/
def follow : HTree → List HBit → Option HTree
  | t, [] => some t
  | emptyBTree, _ :: _ => none
  | bTree _ l r, x :: xs => if x = .L then follow l xs else follow r xs

/-- The bits lead to the leaf of the letter. -/
def Leads (t : HTree) (bits : List HBit) (c : HChar) : Prop :=
  ∃ n, follow t bits = some (bTree (c, n) emptyBTree emptyBTree)

theorem containsLetter_iff {t : HTree} (h : IsHuffman t) {c : HChar} (hc : c ≠ NUL) :
    containsLetter c t = true ↔ c ∈ letters t := by
  induction h with
  | leaf x => simp [containsLetter, letters, eq_comm]
  | inner hl hr ihl ihr =>
    rw [letters_combine hl, mem_append, ← ihl, ← ihr]
    simp [combine, containsLetter, Ne.symm hc]

/-- The letters of the left subtree get an `L`, those of the right subtree an `R`. -/
theorem encodeLetter_combine {l r : HTree} (hl : IsHuffman l) (hr : IsHuffman r) {c : HChar}
    (hc : c ≠ NUL) :
    encodeLetter c (combine l r) =
      if c ∈ letters l then (encodeLetter c l).map (.L :: ·)
      else if c ∈ letters r then (encodeLetter c r).map (.R :: ·)
      else none := by
  simp only [combine, encodeLetter, Ne.symm hc, if_false, containsLetter_iff hl hc,
    containsLetter_iff hr hc]

theorem exists_encodeLetter {t : HTree} (h : IsHuffman t) {c : HChar} (hc : c ≠ NUL)
    (hmem : c ∈ letters t) : ∃ bits, encodeLetter c t = some bits ∧ Leads t bits c := by
  induction h with
  | leaf x =>
    have hx : c = x.1 := by simpa [letters] using hmem
    exact ⟨[], by simp [encodeLetter, hx], x.2, by simp [follow, hx]⟩
  | @inner l r hl hr ihl ihr =>
    rw [encodeLetter_combine hl hr hc]
    rw [letters_combine hl, mem_append] at hmem
    by_cases hcl : c ∈ letters l
    · obtain ⟨bits, henc, n, hfollow⟩ := ihl hcl
      refine ⟨.L :: bits, by simp [hcl, henc], n, ?_⟩
      simpa [combine, follow] using hfollow
    · have hcr := hmem.resolve_left hcl
      obtain ⟨bits, henc, n, hfollow⟩ := ihr hcr
      refine ⟨.R :: bits, by simp [hcl, hcr, henc], n, ?_⟩
      simpa [combine, follow] using hfollow

/-! ## The list of trees -/

theorem perm_sortTrees (ts : List HTree) : (sortTrees ts).Perm ts := perm_insertionSort _ ts

theorem isHuffman_of_mem_sortTrees {ts : List HTree} (h : ∀ t ∈ ts, IsHuffman t) :
    ∀ t ∈ sortTrees ts, IsHuffman t :=
  fun t ht => h t ((perm_sortTrees ts).mem_iff.mp ht)

theorem isHuffman_combine_cons {x y : HTree} {ts : List HTree}
    (h : ∀ t ∈ x :: y :: ts, IsHuffman t) : ∀ t ∈ combine x y :: ts, IsHuffman t := by
  intro t ht
  rcases mem_cons.mp ht with rfl | ht
  · exact .inner (h x (by simp)) (h y (by simp))
  · exact h t (by simp [ht])

/-- Two or more trees collapse to an inner tree with all their letters. -/
theorem exists_collapseTrees {ts : List HTree} (h : ∀ t ∈ ts, IsHuffman t)
    (hlen : 2 ≤ ts.length) :
    ∃ l r, collapseTrees ts = some (combine l r) ∧ IsHuffman l ∧ IsHuffman r ∧
      (leaves (combine l r)).Perm (ts.flatMap leaves) := by
  induction ts using collapseTrees.induct with
  | case1 | case2 x _ | case3 x _ => simp at hlen
  | case4 x y =>
    have hx := h x (by simp)
    exact ⟨x, y, by simp [collapseTrees], hx, h y (by simp), by simp [leaves_combine hx]⟩
  | case5 x y z xs ih =>
    have hx := h x (by simp)
    obtain ⟨l, r, heq, hl, hr, hperm⟩ :=
      ih (isHuffman_of_mem_sortTrees (isHuffman_combine_cons h)) (by simp)
    refine ⟨l, r, by rw [collapseTrees, heq], hl, hr, hperm.trans ?_⟩
    refine ((perm_sortTrees _).flatMap_right leaves).trans ?_
    simp [leaves_combine hx]

/-! ## Frequencies -/

/-- What the fold of `charCounts` keeps. -/
structure CountsOf (xs seen : HString) (acc : List (HChar × Nat)) : Prop where
  nodup : (acc.map Prod.fst).Nodup
  mem : ∀ c, c ∈ acc.map Prod.fst ↔ c ∈ seen
  count : ∀ p ∈ acc, p.2 = charCount p.1 xs

theorem CountsOf.step {xs seen : HString} {acc : List (HChar × Nat)} (h : CountsOf xs seen acc)
    (x : HChar) : CountsOf xs (seen ++ [x])
      (if x ∈ acc.map Prod.fst then acc else (x, charCount x xs) :: acc) := by
  split
  case isTrue hx =>
    refine ⟨h.nodup, fun c => ?_, h.count⟩
    rw [h.mem, mem_append, mem_singleton]
    exact ⟨Or.inl, fun hc => hc.elim id fun he => he ▸ (h.mem x).mp hx⟩
  case isFalse hx =>
    refine ⟨nodup_cons.mpr ⟨hx, h.nodup⟩, fun c => ?_, ?_⟩
    · rw [map_cons, mem_cons, h.mem, mem_append, mem_singleton]
      exact or_comm
    · intro p hp
      rcases mem_cons.mp hp with rfl | hp
      · rfl
      · exact h.count p hp

theorem countsOf_charCounts (xs : HString) : CountsOf xs xs (charCounts xs) := by
  have hfold : ∀ ys seen acc, CountsOf xs seen acc → CountsOf xs (seen ++ ys) (ys.foldl
      (fun acc x => if x ∈ acc.map Prod.fst then acc else (x, charCount x xs) :: acc) acc) := by
    intro ys
    induction ys with
    | nil =>
      intro seen acc h
      rwa [append_nil]
    | cons y ys ih =>
      intro seen acc h
      have hnext := ih (seen ++ [y]) _ (h.step y)
      rwa [append_assoc] at hnext
  exact hfold xs [] [] ⟨nodup_nil, fun c => by simp, nofun⟩

theorem isHuffman_of_mem_initTrees (w : HString) : ∀ t ∈ initTrees w, IsHuffman t := by
  refine isHuffman_of_mem_sortTrees fun t ht => ?_
  obtain ⟨x, _, rfl⟩ := mem_map.mp ht
  exact .leaf x

theorem flatMap_leaves_initTrees (w : HString) :
    ((initTrees w).flatMap leaves).Perm (charCounts w) := by
  refine ((perm_sortTrees _).flatMap_right leaves).trans ?_
  rw [flatMap_map]
  simp

/-- The tree of a word with at least two letters. -/
theorem exists_collapseTrees_initTrees {w : HString} (hlen : 2 ≤ (charCounts w).length) :
    ∃ l r, collapseTrees (initTrees w) = some (combine l r) ∧ IsHuffman l ∧ IsHuffman r ∧
      (leaves (combine l r)).Perm (charCounts w) := by
  obtain ⟨l, r, heq, hl, hr, hperm⟩ := exists_collapseTrees (isHuffman_of_mem_initTrees w)
    (by simpa [initTrees] using hlen)
  exact ⟨l, r, heq, hl, hr, hperm.trans (flatMap_leaves_initTrees w)⟩

/-- The tree of a word with one letter has an artificial root. -/
theorem collapseTrees_initTrees_single {w : HString} {x : HChar × Nat} (h : charCounts w = [x]) :
    collapseTrees (initTrees w) =
      some (bTree (NUL, 0) (bTree x emptyBTree emptyBTree) emptyBTree) := by
  simp [initTrees, h, sortTrees, collapseTrees, getHeight]

end PittCs.Cs1699
