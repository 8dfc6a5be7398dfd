import Mathlib.Data.List.Perm.Basic
import Mathlib.Data.List.Infix
import PittCs.Cs1501.Basic
import Mathlib.Data.List.Nodup

/-!
# De la Briandais trie

`DLB.java`: a trie whose nodes hold a letter, a link to the next alternative for
the letter (`right`) and a link to the letters behind it (`down`). A word ends in
the terminating character `^`, which stands anywhere among its siblings; the first
node of the top level is the `^` of the empty word.

A position in the trie is a path of links from the root, and `setRight` at such a
position is how `add` hangs in a new branch. `Character.isLetter` is a parameter.
-/

namespace PittCs.Cs1501

/-- `DLBNode`, with `null` for the missing node. -/
inductive DLBNode where
  | null
  | node (letter : JChar) (right down : DLBNode)
deriving Repr, DecidableEq

namespace DLBNode

/-- The test `== null`. -/
def isNull : DLBNode → Bool
  | null => true
  | node _ _ _ => false

/-- A link of a node. -/
inductive Link where
  | right
  | down
deriving Repr, DecidableEq

/-- `setRight` of the node that `path` leads to. -/
def setRight (child : DLBNode) : List Link → DLBNode → DLBNode
  | _, null => null
  | [], node c _ d => node c child d
  | .right :: path, node c r d => node c (setRight child path r) d
  | .down :: path, node c r d => node c r (setRight child path d)

/-- The new nodes of `add`: the first letter, and the others below it. -/
def chain : JString → DLBNode
  | [] => null
  | c :: cs => node c null (chain cs)

/-- The inner loop of `add`: whether the letter is on the level of `curr_node`, and
where the cursor stops. -/
def seek (c : JChar) : DLBNode → List Link → Bool × DLBNode × List Link
  | null, pos => (false, null, pos)
  | node l r d, pos =>
    if c = l then (true, node l r d, pos)
    else if r.isNull then (false, node l r d, pos)
    else seek c r (pos ++ [.right])

/-- The outer loop of `add`. Without a result the whole key was found; otherwise it
gives the position of the last sibling and the rest of the key. -/
def addLoop : JString → DLBNode → List Link → Option (List Link × JString)
  | [], _, _ => none
  | c :: cs, curr, pos =>
    match seek c curr pos with
    | (true, node l r d, pos') =>
      -- a node without a child keeps the cursor
      if d.isNull then addLoop cs (node l r d) pos' else addLoop cs d (pos' ++ [.down])
    | (_, _, pos') => some (pos', c :: cs)

/-- The inner loop of `contains`, `containsPrefix` and `suggest`: the sibling with
the letter. -/
def find (c : JChar) : DLBNode → DLBNode
  | null => null
  | node l r d => if l = c then node l r d else find c r

/-- The outer loop of `contains` and `containsPrefix`: the cursor, if all letters
are found. -/
def walk : JString → DLBNode → Option DLBNode
  | [], curr => some curr
  | c :: cs, curr =>
    match find c curr with
    | null => none
    | node l r d => walk cs (if d.isNull then node l r d else d)

/-- The outer loop of `suggest`. -/
def walkDown : JString → DLBNode → DLBNode
  | [], curr => curr
  | c :: cs, curr =>
    match find c curr with
    | null => walkDown cs null
    | node _ _ d => walkDown cs d

/-- `rec_traversal`. The source makes the calls on links that are not null only. -/
def recTraversal : JString → DLBNode → List JString → List JString
  | _, null, traversal => traversal
  | curr_word, node l r d, traversal =>
    let traversal :=
      if l = caret ∧ curr_word ≠ [] then traversal ++ [curr_word] else traversal
    let curr_word := curr_word ++ [l]
    let traversal := recTraversal curr_word d traversal
    -- the letter is taken off again before going to the right
    recTraversal curr_word.dropLast r traversal

/-- `SUGGESTIONS`. -/
def SUGGESTIONS : Nat := 5

/-- `rec_suggest`. -/
def recSuggest : JString → DLBNode → List JString → List JString
  | _, null, suggestions => suggestions
  | curr_word, node l r d, suggestions =>
    if suggestions.length ≥ SUGGESTIONS then suggestions
    else
      let suggestions :=
        if l = caret ∧ curr_word ≠ [] then suggestions ++ [curr_word] else suggestions
      let curr_word := curr_word ++ [l]
      let suggestions := recSuggest curr_word d suggestions
      recSuggest curr_word.dropLast r suggestions

end DLBNode

/-- The fields of `DLB`. -/
structure DLB where
  root : DLBNode
  search : JString
  word_count : Nat
deriving Repr, DecidableEq

namespace DLB

open DLBNode

/-- The constructor. -/
def new : DLB := ⟨.node caret .null .null, [], 0⟩

section Calls

variable (isLetter : JChar → Bool)

/-- `valid_word`. -/
def validWord (key : JString) : Bool := key.all fun c => isLetter c || c == apostrophe

/-- `add`. -/
def add (key : JString) (D : DLB) : DLB :=
  if validWord isLetter key = false ∨ key.length < 1 then D
  else
    match addLoop (key ++ [caret]) D.root [] with
    | none => D
    | some (pos, rest) =>
      { D with root := setRight (chain rest) pos D.root, word_count := D.word_count + 1 }

/-- `contains`. -/
def contains (key : JString) (D : DLB) : Bool :=
  if validWord isLetter key = false ∨ key.length < 1 then false
  else (walk (key ++ [caret]) D.root).isSome

/-- `containsPrefix`. -/
def containsPrefix (pre : JString) (D : DLB) : Bool :=
  if validWord isLetter pre = false then false
  else
    match walk pre D.root with
    | none => false
    | some .null => false
    | some (.node l r _) => if l = caret ∧ r.isNull then false else true

/-- `searchByChar`, with the value it returns. -/
def searchByChar (next : JChar) (D : DLB) : Int × DLB :=
  let D := { D with search := D.search ++ [next] }
  if validWord isLetter D.search = false then (-1, D)
  else
    match containsPrefix isLetter D.search D, contains isLetter D.search D with
    | false, false => (-1, D)
    | true, false => (0, D)
    | false, true => (1, D)
    | true, true => (2, D)

/-- `suggest`; no result stands for the null pointer that `rec_suggest` would follow. -/
def suggest (D : DLB) : Option (List JString) :=
  if containsPrefix isLetter D.search D = false ∧ contains isLetter D.search D = false then
    some []
  else
    match walkDown D.search D.root with
    | .null => none
    | curr => some (recSuggest D.search curr [])

end Calls

/-- `resetByChar`. -/
def resetByChar (D : DLB) : DLB := { D with search := [] }

/-- `traverse`. -/
def traverse (D : DLB) : List JString := recTraversal [] D.root []

/-- `count`. -/
def count (D : DLB) : Nat := D.word_count

end DLB

/-!
## The words of a trie

`entries` reads the words off a trie in the order of the traversal and `WF` is its
shape: siblings hold different letters, and exactly the nodes of the terminating
character have nothing below them.
-/

namespace DLBNode

open Function List

/-- The words below a level, without their terminating character. -/
def entries : DLBNode → List JString
  | null => []
  | node l r d =>
    (if l = caret then [[]] else []) ++ d.entries.map (l :: ·) ++ r.entries

/-- The letters of a level. -/
def letters : DLBNode → List JChar
  | null => []
  | node l r _ => l :: r.letters

/-- Siblings differ, and the words end at the terminating characters. -/
def WF : DLBNode → Prop
  | null => True
  | node l r d => l ∉ r.letters ∧ (d = null ↔ l = caret) ∧ r.WF ∧ d.WF

@[simp] theorem isNull_eq_false (t : DLBNode) : t.isNull = false ↔ t ≠ null := by
  cases t <;> simp [isNull]

@[simp] theorem entries_null : null.entries = [] := rfl

/-- The entries of the terminating character: the empty word. -/
theorem entries_caret (r : DLBNode) : (node caret r null).entries = [] :: r.entries := by
  simp [entries]

/-- The entries of a letter: the words behind it. -/
theorem entries_letter {l : JChar} (r d : DLBNode) (hl : l ≠ caret) :
    (node l r d).entries = d.entries.map (l :: ·) ++ r.entries := by
  simp [entries, hl]

/-- The first character of a word with its terminating character. -/
def first : JString → JChar
  | [] => caret
  | c :: _ => c

variable {t : DLBNode} {w : JString}

/-- A word of a level starts with one of its letters. -/
theorem first_mem_letters (h : w ∈ t.entries) : first w ∈ t.letters := by
  induction t with
  | null => simp at h
  | node l r d ihr _ =>
    simp only [entries, mem_append, mem_map, letters, mem_cons] at h ⊢
    rcases h with (h | ⟨w', _, rfl⟩) | h
    · split at h
      case isTrue hl =>
        rw [mem_singleton.mp h]
        exact Or.inl hl.symm
      case isFalse => simp at h
    · exact Or.inl rfl
    · exact Or.inr (ihr h)

/-- Every level of a trie holds a word. -/
theorem entries_ne_nil (h : t.WF) (hne : t ≠ null) : t.entries ≠ [] := by
  induction t with
  | null => exact absurd rfl hne
  | node l r d _ ihd =>
    by_cases hl : l = caret
    · subst hl
      obtain rfl : d = null := h.2.1.mpr rfl
      simp [entries_caret]
    · have hd := ihd h.2.2.2 fun hd => hl (h.2.1.mp hd)
      simp [entries_letter r d hl, hd]

theorem nodup_entries (h : t.WF) : t.entries.Nodup := by
  induction t with
  | null => simp
  | node l r d ihr ihd =>
    by_cases hl : l = caret
    · subst hl
      obtain rfl : d = null := h.2.1.mpr rfl
      rw [entries_caret, nodup_cons]
      exact ⟨fun hmem => h.1 (first_mem_letters hmem), ihr h.2.2.1⟩
    · rw [entries_letter r d hl, nodup_append]
      refine ⟨(nodup_map_iff cons_injective).mpr (ihd h.2.2.2), ihr h.2.2.1, ?_⟩
      intro a ha b hb heq
      obtain ⟨w, _, rfl⟩ := mem_map.mp ha
      rw [← heq] at hb
      exact h.1 (first_mem_letters hb)

/-! ## Walking down -/

/-- The words that start with a letter are those below its node. -/
theorem filter_entries_find (h : t.WF) (c : JChar) (p : JString) :
    t.entries.filter (fun w => c :: p <+: w) =
      match find c t with
      | null => []
      | node _ _ d => (d.entries.filter fun w => p <+: w).map (c :: ·) := by
  induction t with
  | null => simp [find]
  | node l r d ihr _ =>
    have hempty : (if l = caret then [([] : JString)] else []).filter
        (fun w => c :: p <+: w) = [] := by
      split <;> simp
    have hmap : (d.entries.map (l :: ·)).filter (fun w => c :: p <+: w) =
        if l = c then (d.entries.filter fun w => p <+: w).map (c :: ·) else [] := by
      rw [filter_map]
      split
      case isTrue hl => simp [comp_def, hl]
      case isFalse hl => simp [comp_def, cons_prefix_cons, Ne.symm hl]
    rw [entries, filter_append, filter_append, hempty, hmap, nil_append, find]
    split
    case isTrue hl =>
      -- the siblings to the right hold other letters
      have hright : r.entries.filter (fun w => c :: p <+: w) = [] := by
        rw [filter_eq_nil_iff]
        intro w hw hpre
        obtain ⟨s, rfl⟩ := of_decide_eq_true hpre
        exact h.1 (hl ▸ first_mem_letters hw)
      simp [hright]
    case isFalse hl => simpa using ihr h.2.2.1

theorem find_wf (h : t.WF) (c : JChar) : (find c t).WF := by
  induction t with
  | null => exact h
  | node l r d ihr _ =>
    unfold find
    split
    · exact h
    · exact ihr h.2.2.1

theorem letter_of_find {c l : JChar} {r d : DLBNode} (h : find c t = node l r d) : l = c := by
  induction t with
  | null => cases h
  | node l' r' d' ihr _ =>
    unfold find at h
    split at h
    case isTrue hl =>
      cases h
      exact hl
    case isFalse => exact ihr h

theorem walkDown_null (p : JString) : walkDown p null = null := by
  induction p with
  | nil => rfl
  | cons c p ih => simpa [walkDown, find] using ih

theorem walkDown_wf (h : t.WF) (p : JString) : (walkDown p t).WF := by
  induction p generalizing t with
  | nil => exact h
  | cons c p ih =>
    unfold walkDown
    have hf := find_wf h c
    split
    · exact ih trivial
    · next l r d heq =>
      rw [heq] at hf
      exact ih hf.2.2.2

/-- The level below a prefix holds the words with that prefix, in the same order. -/
theorem entries_walkDown (h : t.WF) {p : JString} (hp : caret ∉ p) :
    (walkDown p t).entries.map (p ++ ·) = t.entries.filter fun w => p <+: w := by
  induction p generalizing t with
  | nil =>
    simp [walkDown]
  | cons c p ih =>
    rw [mem_cons, not_or] at hp
    have hf := find_wf h c
    rw [filter_entries_find h c p, walkDown]
    cases heq : find c t with
    | null => simp [walkDown_null]
    | node l r d =>
      rw [heq] at hf
      simp only [← ih hf.2.2.2 hp.2, map_map]
      rfl

/-- On a prefix without the terminating character the walks of `contains` and of
`suggest` agree, because every letter has something below it. -/
theorem walk_eq (h : t.WF) (hne : t ≠ null) {p : JString} (hp : caret ∉ p) :
    walk p t = if (walkDown p t).isNull then none else some (walkDown p t) := by
  induction p generalizing t with
  | nil =>
    have hnull : t.isNull = false := (isNull_eq_false t).mpr hne
    simp [walk, walkDown, hnull]
  | cons c p ih =>
    rw [mem_cons, not_or] at hp
    have hf := find_wf h c
    unfold walk walkDown
    split
    · simp [walkDown_null, isNull]
    · next l r d heq =>
      rw [heq] at hf
      have hd : d ≠ null := fun hd => hp.1 (letter_of_find heq ▸ (hf.2.1.mp hd).symm)
      rw [if_neg (by simpa using hd)]
      exact ih hf.2.2.2 hd hp.2

theorem walk_append (p q : JString) (t : DLBNode) :
    walk (p ++ q) t = (walk p t).bind (walk q) := by
  induction p generalizing t with
  | nil => simp [walk]
  | cons c p ih =>
    rw [cons_append, walk, walk]
    cases find c t with
    | null => rfl
    | node l r d => exact ih _

/-- The terminating character is found exactly where a word ends. -/
theorem walk_caret_isSome (h : t.WF) : (walk [caret] t).isSome = true ↔ [] ∈ t.entries := by
  induction t with
  | null => simp [walk, find]
  | node l r d ihr _ =>
    unfold walk find
    by_cases hl : l = caret
    · subst hl
      obtain rfl : d = null := h.2.1.mpr rfl
      simp [walk, entries_caret]
    · have hr := ihr h.2.2.1
      unfold walk at hr
      rw [if_neg hl, entries_letter r d hl, mem_append, hr]
      simp

/-! ## The recursive listings -/

theorem recTraversal_eq (w : JString) (t : DLBNode) (acc : List JString) (h : t.WF) :
    recTraversal w t acc = acc ++ (t.entries.map (w ++ ·)).filter (· ≠ []) := by
  induction t generalizing w acc with
  | null => simp [recTraversal]
  | node l r d ihr ihd =>
    rw [recTraversal, dropLast_concat, ihr _ _ h.2.2.1, ihd _ _ h.2.2.2]
    by_cases hl : l = caret
    · subst hl
      obtain rfl : d = null := h.2.1.mpr rfl
      by_cases hw : w = []
      · simp [entries_caret, hw]
      · simp [entries_caret, hw]
    · simp [entries_letter r d hl, hl, comp_def]

theorem take_take_append {β : Type*} (n : Nat) (xs ys : List β) :
    (xs.take n ++ ys).take n = (xs ++ ys).take n := by
  rcases le_total n xs.length with h | h
  · rw [take_append_of_le_length (by simp [h]), take_take, Nat.min_self,
      take_append_of_le_length h]
  · rw [take_of_length_le h]

theorem recSuggest_eq (w : JString) (t : DLBNode) (acc : List JString) (h : t.WF)
    (hacc : acc.length ≤ SUGGESTIONS) :
    recSuggest w t acc =
      (acc ++ (t.entries.map (w ++ ·)).filter (· ≠ [])).take SUGGESTIONS := by
  induction t generalizing w acc with
  | null => simp [recSuggest, take_of_length_le hacc]
  | node l r d ihr ihd =>
    unfold recSuggest
    split
    case isTrue hfull =>
      have hlen : acc.length = SUGGESTIONS := le_antisymm hacc hfull
      rw [← hlen, take_left]
    case isFalse hfull =>
      simp only [dropLast_concat]
      by_cases hl : l = caret
      · subst hl
        obtain rfl : d = null := h.2.1.mpr rfl
        have hlt : acc.length < SUGGESTIONS := not_le.mp hfull
        by_cases hw : w = []
        · simp only [hw, recSuggest, ne_eq, not_true_eq_false, and_false, if_false]
          rw [ihr _ _ h.2.2.1 hacc, entries_caret]
          simp
        · simp only [hw, recSuggest, ne_eq, not_false_eq_true, and_true, if_true]
          rw [ihr _ _ h.2.2.1 (by simpa [Nat.succ_le_iff] using hlt), entries_caret]
          simp [hw]
      · simp only [hl, false_and, if_false]
        have hstep := ihd (w ++ [l]) acc h.2.2.2 hacc
        rw [hstep, ihr _ _ h.2.2.1 (length_take_le _ _), take_take_append,
          entries_letter r d hl]
        simp [comp_def]

/-! ## Adding a word -/

theorem entries_chain (hw : caret ∉ w) : (chain (w ++ [caret])).entries = [w] := by
  induction w with
  | nil => simp [chain, entries]
  | cons c w ih =>
    rw [mem_cons, not_or] at hw
    simp [chain, entries, ih hw.2, Ne.symm hw.1]

theorem chain_wf (hw : caret ∉ w) : (chain (w ++ [caret])).WF := by
  induction w with
  | nil => simp [chain, WF, letters]
  | cons c w ih =>
    rw [mem_cons, not_or] at hw
    have hne : chain (w ++ [caret]) ≠ null := by cases w <;> simp [chain]
    simp [chain, WF, letters, ih hw.2, Ne.symm hw.1, hne]

/-- One turn of the outer loop of `add` at a node, with the inner loop unrolled. -/
theorem addLoop_cons (c : JChar) (cs : JString) (l : JChar) (r d : DLBNode) (pos : List Link) :
    addLoop (c :: cs) (node l r d) pos =
      if c = l then
        if d.isNull then addLoop cs (node l r d) pos else addLoop cs d (pos ++ [.down])
      else if r.isNull then some (pos, c :: cs)
      else addLoop (c :: cs) r (pos ++ [.right]) := by
  rw [addLoop, seek]
  by_cases hc : c = l
  · simp [hc]
  · by_cases hr : r.isNull = true
    · simp [hc, hr]
    · simp [hc, hr, addLoop]

/-- The loop goes to the right past another letter. -/
theorem addLoop_of_first_ne {l : JChar} (r d : DLBNode) (hl : first w ≠ l) (pos : List Link) :
    addLoop (w ++ [caret]) (node l r d) pos =
      if r.isNull then some (pos, w ++ [caret])
      else addLoop (w ++ [caret]) r (pos ++ [.right]) := by
  cases w with
  | nil => exact (addLoop_cons caret [] l r d pos).trans (if_neg hl)
  | cons c w => exact (addLoop_cons c (w ++ [caret]) l r d pos).trans (if_neg hl)

theorem letters_chain (w : JString) : (chain (w ++ [caret])).letters = [first w] := by
  cases w <;> simp [chain, letters, first]

/-- `t'` is the trie `t` with the word hung in. -/
structure HungIn (w : JString) (t t' : DLBNode) : Prop where
  wf : t'.WF
  ne_null : t' ≠ null
  perm : t'.entries.Perm (w :: t.entries)
  letters : ∀ c ∈ t'.letters, c ∈ t.letters ∨ c = first w

/-- `add` meets the word among the entries, or hangs it in as a new entry. -/
theorem addLoop_spec (h : t.WF) (hne : t ≠ null) (hw : caret ∉ w) (pos : List Link) :
    (addLoop (w ++ [caret]) t pos = none ∧ w ∈ t.entries) ∨
    ∃ path rest, addLoop (w ++ [caret]) t pos = some (pos ++ path, rest) ∧
      HungIn w t (setRight (chain rest) path t) := by
  induction t generalizing w pos with
  | null => exact absurd rfl hne
  | node l r d ihr ihd =>
    obtain ⟨hfresh, hend, hrwf, hdwf⟩ := h
    by_cases hl : first w = l
    · subst hl
      cases w with
      | nil =>
        -- the word ends here
        obtain rfl : d = null := hend.mpr rfl
        refine Or.inl ⟨?_, by simp [first, entries_caret]⟩
        exact (addLoop_cons caret [] caret r null pos).trans (by simp [isNull, addLoop])
      | cons c w =>
        rw [mem_cons, not_or] at hw
        have hc : c ≠ caret := Ne.symm hw.1
        have hd : d ≠ null := fun hd => hc (hend.mp hd)
        have hloop : addLoop (c :: w ++ [caret]) (node c r d) pos =
            addLoop (w ++ [caret]) d (pos ++ [.down]) := by
          rw [cons_append, addLoop_cons, if_pos rfl, if_neg (by simpa using hd)]
        simp only [first]
        rw [hloop, entries_letter r d hc]
        rcases ihd hdwf hd hw.2 (pos ++ [.down]) with ⟨hnone, hmem⟩ | ⟨path, rest, hsome, hin⟩
        · exact Or.inl ⟨hnone, mem_append_left _ (mem_map_of_mem hmem)⟩
        · refine Or.inr ⟨.down :: path, rest, by simpa using hsome, ?_⟩
          refine ⟨⟨hfresh, ?_, hrwf, hin.wf⟩, by simp [setRight], ?_, fun c hc => Or.inl hc⟩
          · exact ⟨fun he => absurd he hin.ne_null, fun he => absurd he hc⟩
          · rw [setRight, entries_letter r _ hc, entries_letter r d hc]
            exact (hin.perm.map (c :: ·)).append_right r.entries
    · rw [addLoop_of_first_ne r d hl]
      by_cases hr : r = null
      · -- a new branch behind the last sibling
        subst hr
        refine Or.inr ⟨[], w ++ [caret], by simp [isNull], ?_⟩
        refine ⟨⟨?_, hend, chain_wf hw, hdwf⟩, by simp [setRight], ?_, ?_⟩
        · rw [letters_chain]
          simpa using Ne.symm hl
        · simp only [setRight, entries, entries_chain hw, append_nil]
          exact (perm_append_singleton w _)
        · intro c hc
          simpa [setRight, letters, letters_chain] using hc
      · rw [if_neg (by simpa using hr)]
        rcases ihr hrwf hr hw (pos ++ [.right]) with ⟨hnone, hmem⟩ | ⟨path, rest, hsome, hin⟩
        · exact Or.inl ⟨hnone, mem_append_right _ hmem⟩
        · refine Or.inr ⟨.right :: path, rest, by simpa using hsome, ?_⟩
          refine ⟨⟨?_, hend, hin.wf, hdwf⟩, by simp [setRight], ?_, ?_⟩
          · intro hmem
            rcases hin.letters l hmem with hmem | heq
            · exact hfresh hmem
            · exact hl heq.symm
          · simp only [setRight, entries]
            exact (hin.perm.append_left _).trans perm_middle
          · intro c hc
            rcases mem_cons.mp hc with rfl | hc
            · exact Or.inl mem_cons_self
            · exact (hin.letters c hc).imp_left (mem_cons_of_mem l)

end DLBNode

end PittCs.Cs1501
