import PittCs.Cs1501.DlbRefines
import PittCs.Lib.Ranking

/-!
# The history of a user

`UserHistory.java`: a trie of the words that were used, and a table with the number of
their uses. `suggest` goes through the words with the search string as a prefix, keeps
five that are used most, and sorts them by bubble sort. A count is a Java `Integer`, so it
wraps around.
-/

namespace PittCs.Cs1501

open PittCs.Lib List

/-- `UserHistory`: the fields of `DLB`, and `word_count`. -/
structure UserHistory where
  dlb : DLB
  word_count : JString → Option (BitVec 32)

namespace UserHistory

open DLBNode

/-- The constructor. -/
def new : UserHistory := ⟨.new, fun _ => none⟩

/-- `word_count.get`, for a word in the table. -/
def count (U : UserHistory) (w : JString) : Int := ((U.word_count w).getD 0).toInt

section Loops

variable (count : JString → Int)

/-- The loop for the least used of the suggestions, from position `i`. -/
def smallest : List JString → Nat → Nat × Int → Nat × Int
  | [], _, small => small
  | check :: rest, i, small =>
    smallest rest (i + 1) (if small.2 > count check then (i, count check) else small)

/-- What `rec_suggest` does at the end of a word. -/
def offer (suggestions : List JString) (curr_word : JString) : List JString :=
  if suggestions.length < SUGGESTIONS then suggestions ++ [curr_word]
  else
    let small := smallest count suggestions.tail 1 (0, count (suggestions.headD []))
    if count curr_word > small.2 then suggestions.set small.1 curr_word else suggestions

/-- `rec_suggest`. The source makes the calls on links that are not null only. -/
def recSuggest : JString → DLBNode → List JString → List JString
  | _, null, suggestions => suggestions
  | curr_word, node l r d, suggestions =>
    let suggestions :=
      if l = caret ∧ curr_word ≠ [] then offer count suggestions curr_word else suggestions
    let curr_word := curr_word ++ [l]
    let suggestions := recSuggest curr_word d suggestions
    recSuggest curr_word.dropLast r suggestions

/-- `sort_suggestions`. The number of passes is bounded by that of the pairs. -/
def sortSuggestions (suggestions : List JString) : Option (List JString) :=
  bubbleSort count (suggestions.length * suggestions.length + 1) suggestions

end Loops

section Calls

variable (isLetter : JChar → Bool)

/-- `add`. -/
def add (key : JString) (U : UserHistory) : UserHistory :=
  if DLB.validWord isLetter key = false ∨ key.length < 1 then U
  else
    match U.word_count key with
    | some n => { U with word_count := Function.update U.word_count key (some (n + 1)) }
    | none => ⟨U.dlb.add isLetter key, Function.update U.word_count key (some 1)⟩

/-- `searchByChar`. -/
def searchByChar (next : JChar) (U : UserHistory) : UserHistory :=
  { U with dlb := (U.dlb.searchByChar isLetter next).2 }

/-- `resetByChar`. -/
def resetByChar (U : UserHistory) : UserHistory := { U with dlb := U.dlb.resetByChar }

/-- `suggest`; no result stands for a null pointer. -/
def suggest (U : UserHistory) : Option (List JString) :=
  if U.dlb.containsPrefix isLetter U.dlb.search = false ∧
      U.dlb.contains isLetter U.dlb.search = false then
    some []
  else
    match walkDown U.dlb.search U.dlb.root with
    | .null => none
    | curr => sortSuggestions U.count (recSuggest U.count U.dlb.search curr [])

end Calls

end UserHistory

/-! ## The loops -/

section Loops

variable (count : JString → Int)

/-- The traversal offers the words of the trie in their order. -/
theorem UserHistory.recSuggest_eq (w : JString) (t : DLBNode) (acc : List JString) (h : t.WF) :
    UserHistory.recSuggest count w t acc =
      ((t.entries.map (w ++ ·)).filter (· ≠ [])).foldl (UserHistory.offer count) acc := by
  induction t generalizing w acc with
  | null => rfl
  | node l r d ihr ihd =>
    rw [recSuggest, dropLast_concat, ihr _ _ h.2.2.1, ihd _ _ h.2.2.2]
    by_cases hl : l = caret
    · subst hl
      have hd : d = .null := h.2.1.mpr rfl
      subst hd
      by_cases hw : w = []
      · simp [DLBNode.entries_caret, hw]
      · simp [DLBNode.entries_caret, hw]
    · simp [DLBNode.entries_letter r d hl, hl, Function.comp_def]

variable {count}

/-- A least used element among those that were looked at. -/
structure IsSmallest (count : JString → Int) (seen : List JString) (small : Nat × Int) : Prop where
  get : ∃ h : small.1 < seen.length, count seen[small.1] = small.2
  least : ∀ w ∈ seen, small.2 ≤ count w

theorem isSmallest_smallest (rest : List JString) {seen : List JString} {small : Nat × Int}
    (h : IsSmallest count seen small) :
    IsSmallest count (seen ++ rest) (UserHistory.smallest count rest seen.length small) := by
  induction rest generalizing seen small with
  | nil =>
    rw [append_nil]
    exact h
  | cons check rest ih =>
    rcases h.get with ⟨hlt, hget⟩
    have hstep : IsSmallest count (seen ++ [check])
        (if small.2 > count check then (seen.length, count check) else small) := by
      split
      case isTrue hgt =>
        constructor
        case get =>
          refine ⟨?_, ?_⟩
          · rw [length_append, length_singleton]
            exact Nat.lt_succ_self _
          · rw [List.getElem_append_right (Nat.le_refl _)]
            simp
        case least =>
          intro w hw
          rcases mem_append.mp hw with hw | hw
          · exact hgt.le.trans (h.least w hw)
          · rw [mem_singleton.mp hw]
      case isFalse hle =>
        constructor
        case get =>
          refine ⟨?_, ?_⟩
          · rw [length_append]
            omega
          · rw [List.getElem_append_left hlt, hget]
        case least =>
          intro w hw
          rcases mem_append.mp hw with hw | hw
          · exact h.least w hw
          · rw [mem_singleton.mp hw]
            exact not_lt.mp hle
    have hrest := ih hstep
    rw [append_assoc, length_append, length_singleton] at hrest
    exact hrest

/-- An offered word is added, dropped, or takes the place of a least used one. -/
theorem kept_offer {seen kept dropped : List JString}
    (h : Kept count DLBNode.SUGGESTIONS seen kept dropped) (w : JString) :
    ∃ dropped', Kept count DLBNode.SUGGESTIONS (seen ++ [w]) (UserHistory.offer count kept w)
      dropped' := by
  unfold UserHistory.offer
  split
  case isTrue hroom => exact ⟨dropped, h.append hroom w⟩
  case isFalse hfull =>
    have hlen : kept.length = DLBNode.SUGGESTIONS := le_antisymm h.le_limit (not_lt.mp hfull)
    cases kept with
    | nil => exact absurd hlen (by decide)
    | cons s rest =>
      have hfirst : IsSmallest count [s] (0, count s) := by
        refine ⟨⟨Nat.zero_lt_one, rfl⟩, ?_⟩
        intro y hy
        rw [mem_singleton.mp hy]
      have hsmall := isSmallest_smallest rest hfirst
      rw [singleton_append, length_singleton] at hsmall
      dsimp only [tail_cons, headD_cons]
      generalize UserHistory.smallest count rest 1 (0, count s) = small at hsmall
      rcases hsmall.get with ⟨hlt, hget⟩
      split
      case isTrue hgt =>
        rw [← hget] at hgt
        refine ⟨_, h.replace hlen hlt ?_ hgt.le⟩
        intro y hy
        rw [hget]
        exact hsmall.least y hy
      case isFalse hle =>
        refine ⟨_, h.skip hlen ?_⟩
        intro y hy
        exact (not_lt.mp hle).trans (hsmall.least y hy)

variable (count)

theorem kept_foldl_offer (words : List JString) :
    ∃ dropped, Kept count DLBNode.SUGGESTIONS words (words.foldl (UserHistory.offer count) [])
      dropped := by
  induction words using List.reverseRecOn with
  | nil => exact ⟨[], .nil⟩
  | append_singleton words w ih =>
    rcases ih with ⟨dropped, h⟩
    rw [foldl_concat]
    exact kept_offer h w

/-- The sorted suggestions are greatest elements of the words. -/
theorem sortSuggestions_spec (words : List JString) :
    ∃ r dropped, UserHistory.sortSuggestions count (words.foldl (UserHistory.offer count) []) =
        some r ∧ Kept count DLBNode.SUGGESTIONS words r dropped ∧
      r.Pairwise fun x y => count y ≤ count x := by
  rcases kept_foldl_offer count words with ⟨dropped, hkept⟩
  generalize words.foldl (UserHistory.offer count) [] = kept at hkept
  rcases bubbleSort_isSome count kept (Nat.lt_succ_of_le (inversions_le count kept)) with ⟨r, hr⟩
  rcases bubbleSort_spec count hr with ⟨hperm, hsorted⟩
  exact ⟨r, dropped, hr, hkept.of_perm hperm, hsorted⟩

end Loops

end PittCs.Cs1501
