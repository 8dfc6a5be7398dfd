import PittCs.Cs1501.Dlb

/-!
# The trie refines a set of words

Runs of `add`, `searchByChar` and `resetByChar` on a new `DLB`. The invariant of a
run ties the entries of the trie to the words added, with the empty word that the
constructor puts in; `dlb_refines_words` reads every query off it.
-/

namespace PittCs.Cs1501

open List

/-- The calls that change a `DLB`. -/
inductive DlbCall where
  | add (key : JString)
  | searchByChar (next : JChar)
  | resetByChar
deriving Repr, DecidableEq

section Runs

variable (isLetter : JChar → Bool)

/-- One call. -/
def DlbCall.run (D : DLB) : DlbCall → DLB
  | .add key => D.add isLetter key
  | .searchByChar next => (D.searchByChar isLetter next).2
  | .resetByChar => D.resetByChar

/-- The trie after a sequence of calls on a new one. -/
def dlbAfter (calls : List DlbCall) : DLB := calls.foldl (DlbCall.run isLetter) .new

/-- A non-empty valid word that was added. -/
def Added (calls : List DlbCall) (w : JString) : Prop :=
  .add w ∈ calls ∧ w ≠ [] ∧ DLB.validWord isLetter w = true

/-- The characters of `searchByChar` since the last `resetByChar`. -/
def searched (calls : List DlbCall) : JString :=
  calls.foldl (fun search call =>
    match call with
    | .add _ => search
    | .searchByChar next => search ++ [next]
    | .resetByChar => []) []

/-- The state after the calls. -/
structure DlbInv (calls : List DlbCall) (D : DLB) : Prop where
  wf : D.root.WF
  ne_null : D.root ≠ .null
  mem_entries : ∀ w, w ∈ D.root.entries ↔ w = [] ∨ Added isLetter calls w
  count : D.root.entries.length = D.word_count + 1
  search : D.search = searched calls

variable {isLetter}

theorem caret_not_mem_of_valid (hcaret : isLetter caret = false) {w : JString}
    (hw : DLB.validWord isLetter w = true) : caret ∉ w := by
  intro hmem
  have h := all_eq_true.mp hw caret hmem
  simp only [hcaret, Bool.false_or] at h
  exact absurd h (by decide)

theorem added_concat_of_ne {calls : List DlbCall} {c : DlbCall} (w : JString)
    (hc : .add w ≠ c) : Added isLetter (calls ++ [c]) w ↔ Added isLetter calls w := by
  simp [Added, hc]

namespace DlbInv

theorem init : DlbInv isLetter [] .new where
  wf := by simp [DLB.new, DLBNode.WF, DLBNode.letters]
  ne_null := by simp [DLB.new]
  mem_entries w := by simp [DLB.new, DLBNode.entries, Added]
  count := by simp [DLB.new, DLBNode.entries]
  search := rfl

/-- A call that leaves the trie alone. -/
theorem of_root_eq {calls : List DlbCall} {D D' : DLB} {c : DlbCall} (h : DlbInv isLetter calls D)
    (hroot : D'.root = D.root) (hcount : D'.word_count = D.word_count)
    (hadd : ∀ w, Added isLetter (calls ++ [c]) w ↔ Added isLetter calls w)
    (hsearch : D'.search = searched (calls ++ [c])) : DlbInv isLetter (calls ++ [c]) D' where
  wf := hroot ▸ h.wf
  ne_null := hroot ▸ h.ne_null
  mem_entries w := by rw [hroot, hadd, h.mem_entries]
  count := by rw [hroot, hcount, h.count]
  search := hsearch

theorem add (hcaret : isLetter caret = false) {calls : List DlbCall} {D : DLB}
    (h : DlbInv isLetter calls D) (key : JString) :
    DlbInv isLetter (calls ++ [.add key]) (D.add isLetter key) := by
  have hsearch : D.search = searched (calls ++ [.add key]) := by
    simp [searched, h.search]
  have hsame : ∀ w, w ≠ key →
      (Added isLetter (calls ++ [.add key]) w ↔ Added isLetter calls w) :=
    fun w hw => added_concat_of_ne w (by simpa using hw)
  unfold DLB.add
  split
  case isTrue hbad =>
    refine h.of_root_eq rfl rfl (fun w => ?_) hsearch
    by_cases hw : w = key
    · -- a word that is refused is not added
      subst hw
      rcases hbad with hbad | hbad
      · simp [Added, hbad]
      · simp [Added, length_eq_zero_iff.mp (Nat.lt_one_iff.mp hbad)]
    · exact hsame w hw
  case isFalse hgood =>
    simp only [not_or, Bool.not_eq_false, not_lt] at hgood
    obtain ⟨hvalid, hlen⟩ := hgood
    have hne : key ≠ [] := ne_nil_of_length_pos hlen
    have hkey : Added isLetter (calls ++ [.add key]) key := ⟨by simp, hne, hvalid⟩
    rcases DLBNode.addLoop_spec h.wf h.ne_null (caret_not_mem_of_valid hcaret hvalid) [] with
      ⟨hnone, hmem⟩ | ⟨path, rest, hsome, hin⟩
    · rw [hnone]
      refine h.of_root_eq rfl rfl (fun w => ?_) hsearch
      by_cases hw : w = key
      · subst hw
        exact iff_of_true hkey (((h.mem_entries w).mp hmem).resolve_left hne)
      · exact hsame w hw
    · rw [hsome]
      refine ⟨hin.wf, hin.ne_null, fun w => ?_, ?_, hsearch⟩
      · rw [nil_append, hin.perm.mem_iff, mem_cons, h.mem_entries]
        by_cases hw : w = key
        · subst hw
          simp [hkey]
        · simp [hw, hsame w hw]
      · rw [nil_append, hin.perm.length_eq, length_cons, h.count]

theorem step (hcaret : isLetter caret = false) {calls : List DlbCall} {D : DLB}
    (h : DlbInv isLetter calls D) (c : DlbCall) :
    DlbInv isLetter (calls ++ [c]) (c.run isLetter D) := by
  cases c with
  | add key => exact h.add hcaret key
  | searchByChar next =>
    have hD : (D.searchByChar isLetter next).2 = { D with search := D.search ++ [next] } := by
      unfold DLB.searchByChar
      dsimp only
      split
      · rfl
      · split <;> rfl
    simp only [DlbCall.run, hD]
    exact h.of_root_eq rfl rfl (fun w => added_concat_of_ne w (by simp))
      (by simp [searched, h.search])
  | resetByChar =>
    exact h.of_root_eq rfl rfl (fun w => added_concat_of_ne w (by simp))
      (by simp [DlbCall.run, DLB.resetByChar, searched])

/-! ### Queries -/

variable {calls : List DlbCall} {D : DLB}

/-- The words below a prefix. -/
theorem mem_walkDown (h : DlbInv isLetter calls D) {p : JString} (hp : caret ∉ p) (x : JString) :
    x ∈ (DLBNode.walkDown p D.root).entries ↔ p ++ x ∈ D.root.entries := by
  have hentries := DLBNode.entries_walkDown h.wf hp
  constructor
  · intro hx
    have hmem := mem_map_of_mem (f := (p ++ ·)) hx
    rw [hentries] at hmem
    exact (mem_filter.mp hmem).1
  · intro hx
    have hmem : p ++ x ∈ D.root.entries.filter fun w => p <+: w :=
      mem_filter.mpr ⟨hx, by simp⟩
    rw [← hentries] at hmem
    obtain ⟨y, hy, heq⟩ := mem_map.mp hmem
    rwa [← append_cancel_left heq]

theorem contains_iff (hcaret : isLetter caret = false) (h : DlbInv isLetter calls D)
    (w : JString) : D.contains isLetter w = true ↔ Added isLetter calls w := by
  unfold DLB.contains
  split
  case isTrue hbad =>
    rcases hbad with hbad | hbad
    · simp [Added, hbad]
    · simp [Added, length_eq_zero_iff.mp (Nat.lt_one_iff.mp hbad)]
  case isFalse hgood =>
    simp only [not_or, Bool.not_eq_false, not_lt] at hgood
    have hw := caret_not_mem_of_valid hcaret hgood.1
    have hne : w ≠ [] := ne_nil_of_length_pos hgood.2
    have hadd : [] ∈ (DLBNode.walkDown w D.root).entries ↔ Added isLetter calls w := by
      rw [h.mem_walkDown hw, append_nil, h.mem_entries]
      simp [hne]
    rw [← hadd, DLBNode.walk_append, DLBNode.walk_eq h.wf h.ne_null hw]
    by_cases hnull : DLBNode.walkDown w D.root = .null
    · simp [hnull, DLBNode.isNull]
    · rw [if_neg (by simpa using hnull), Option.bind_some,
        DLBNode.walk_caret_isSome (DLBNode.walkDown_wf h.wf w)]

/-- The end of `containsPrefix`: a level holds a non-empty word unless the
terminating character is alone on it. -/
theorem exists_ne_nil_iff {l : JChar} {r d : DLBNode} (h : (DLBNode.node l r d).WF) :
    (∃ x ∈ (DLBNode.node l r d).entries, x ≠ []) ↔ ¬ (l = caret ∧ r = .null) := by
  by_cases hl : l = caret
  · subst hl
    obtain rfl : d = .null := h.2.1.mpr rfl
    rw [DLBNode.entries_caret]
    by_cases hr : r = .null
    · simp [hr]
    · -- the end of the word is not repeated to the right
      obtain ⟨x, hx⟩ := exists_mem_of_ne_nil _ (DLBNode.entries_ne_nil h.2.2.1 hr)
      have hne : x ≠ [] := by
        rintro rfl
        exact h.1 (DLBNode.first_mem_letters hx)
      simp only [hr, and_false, not_false_eq_true, iff_true]
      exact ⟨x, mem_cons_of_mem _ hx, hne⟩
  · have hd : d ≠ .null := fun hd => hl (h.2.1.mp hd)
    obtain ⟨x, hx⟩ := exists_mem_of_ne_nil _ (DLBNode.entries_ne_nil h.2.2.2 hd)
    simp only [hl, false_and, not_false_eq_true, iff_true]
    refine ⟨l :: x, ?_, by simp⟩
    rw [DLBNode.entries_letter r d hl]
    exact mem_append_left _ (mem_map_of_mem hx)

theorem containsPrefix_iff_exists_append (hcaret : isLetter caret = false)
    (h : DlbInv isLetter calls D) {p : JString} (hp : DLB.validWord isLetter p = true) :
    D.containsPrefix isLetter p = true ↔ ∃ x, p ++ x ∈ D.root.entries ∧ x ≠ [] := by
  have hpc := caret_not_mem_of_valid hcaret hp
  have hwf := DLBNode.walkDown_wf h.wf p
  simp only [← h.mem_walkDown hpc]
  unfold DLB.containsPrefix
  rw [if_neg (by simp [hp]), DLBNode.walk_eq h.wf h.ne_null hpc]
  cases hlevel : DLBNode.walkDown p D.root with
  | null => simp [DLBNode.isNull]
  | node l r d =>
    rw [hlevel] at hwf
    rw [exists_ne_nil_iff hwf]
    show (if l = caret ∧ r.isNull = true then false else true) = true ↔ _
    by_cases hl : l = caret
    · simp [hl]
    · simp [hl]

theorem containsPrefix_iff (hcaret : isLetter caret = false) (h : DlbInv isLetter calls D)
    (p : JString) : D.containsPrefix isLetter p = true ↔
      DLB.validWord isLetter p = true ∧ ∃ w, Added isLetter calls w ∧ p <+: w ∧ p ≠ w := by
  by_cases hp : DLB.validWord isLetter p = true
  · rw [h.containsPrefix_iff_exists_append hcaret hp]
    simp only [hp, true_and]
    constructor
    · rintro ⟨x, hmem, hx⟩
      have hne : p ++ x ≠ [] := by simp [hx]
      refine ⟨p ++ x, ((h.mem_entries _).mp hmem).resolve_left hne, prefix_append p x, ?_⟩
      simpa using hx
    · rintro ⟨w, hw, ⟨x, rfl⟩, hpw⟩
      exact ⟨x, (h.mem_entries _).mpr (Or.inr hw), by simpa using hpw⟩
  · simp [hp, DLB.containsPrefix]

theorem traverse_eq (h : DlbInv isLetter calls D) :
    D.traverse = D.root.entries.filter (· ≠ []) := by
  rw [DLB.traverse, DLBNode.recTraversal_eq [] D.root [] h.wf]
  simp

theorem mem_traverse (h : DlbInv isLetter calls D) (w : JString) :
    w ∈ D.traverse ↔ Added isLetter calls w := by
  rw [h.traverse_eq, mem_filter, h.mem_entries]
  constructor
  · rintro ⟨hw, hne⟩
    exact hw.resolve_left (of_decide_eq_true hne)
  · intro hw
    exact ⟨Or.inr hw, decide_eq_true hw.2.1⟩

theorem nodup_traverse (h : DlbInv isLetter calls D) : D.traverse.Nodup := by
  rw [h.traverse_eq]
  exact (DLBNode.nodup_entries h.wf).filter _

theorem count_eq (h : DlbInv isLetter calls D) : D.count = D.traverse.length := by
  have hperm : D.root.entries.Perm ([] :: D.root.entries.filter (· ≠ [])) := by
    rw [perm_ext_iff_of_nodup (DLBNode.nodup_entries h.wf)]
    · intro w
      have hnil : ([] : JString) ∈ D.root.entries := (h.mem_entries []).mpr (Or.inl rfl)
      by_cases hw : w = []
      · simp [hw, hnil]
      · simp [hw]
    · rw [nodup_cons]
      exact ⟨by simp, (DLBNode.nodup_entries h.wf).filter _⟩
  have hlen := hperm.length_eq
  rw [h.count, length_cons] at hlen
  rw [h.traverse_eq]
  exact Nat.succ_injective hlen

/-- `suggest` gives up when no word starts with the search string, and otherwise finds the
level with the words that do. -/
theorem suggest_cases (hcaret : isLetter caret = false) (h : DlbInv isLetter calls D) :
    (D.containsPrefix isLetter D.search = false ∧ D.contains isLetter D.search = false) ∧
        D.traverse.filter (fun w => D.search <+: w) = [] ∨
      ¬ (D.containsPrefix isLetter D.search = false ∧ D.contains isLetter D.search = false) ∧
        DLBNode.walkDown D.search D.root ≠ .null ∧
        ((DLBNode.walkDown D.search D.root).entries.map (D.search ++ ·)).filter (· ≠ []) =
          D.traverse.filter fun w => D.search <+: w := by
  by_cases hnot : D.containsPrefix isLetter D.search = false ∧ D.contains isLetter D.search = false
  · -- no word starts with the search string
    refine Or.inl ⟨hnot, ?_⟩
    rw [filter_eq_nil_iff]
    intro w hw hpre
    have hpre : D.search <+: w := of_decide_eq_true hpre
    have hadd := (h.mem_traverse w).mp hw
    have hvalid : DLB.validWord isLetter D.search = true := by
      rw [DLB.validWord, all_eq_true]
      exact fun c hc => all_eq_true.mp hadd.2.2 c (hpre.subset hc)
    by_cases heq : D.search = w
    · have hcont := (h.contains_iff hcaret D.search).mpr (heq ▸ hadd)
      rw [hnot.2] at hcont
      cases hcont
    · have hcont := (h.containsPrefix_iff hcaret D.search).mpr ⟨hvalid, w, hadd, hpre, heq⟩
      rw [hnot.1] at hcont
      cases hcont
  · have hmem : DLB.validWord isLetter D.search = true ∧ ∃ x, D.search ++ x ∈ D.root.entries := by
      by_cases hpre : D.containsPrefix isLetter D.search = true
      · have hvalid := ((h.containsPrefix_iff hcaret D.search).mp hpre).1
        obtain ⟨x, hx, _⟩ := (h.containsPrefix_iff_exists_append hcaret hvalid).mp hpre
        exact ⟨hvalid, x, hx⟩
      · have hcont : D.contains isLetter D.search = true := by
          by_contra hc
          exact hnot ⟨by simpa using hpre, by simpa using hc⟩
        have hadd := (h.contains_iff hcaret D.search).mp hcont
        exact ⟨hadd.2.2, [], by simpa using (h.mem_entries _).mpr (Or.inr hadd)⟩
    obtain ⟨hvalid, x, hx⟩ := hmem
    have hsc := caret_not_mem_of_valid hcaret hvalid
    have hlevel := (h.mem_walkDown hsc x).mpr hx
    refine Or.inr ⟨hnot, ?_, ?_⟩
    · intro hnull
      rw [hnull] at hlevel
      exact absurd hlevel not_mem_nil
    · rw [DLBNode.entries_walkDown h.wf hsc, filter_comm, ← h.traverse_eq]

theorem suggest_eq (hcaret : isLetter caret = false) (h : DlbInv isLetter calls D) :
    D.suggest isLetter =
      some ((D.traverse.filter fun w => D.search <+: w).take DLBNode.SUGGESTIONS) := by
  unfold DLB.suggest
  rcases h.suggest_cases hcaret with ⟨hnot, hnone⟩ | ⟨hsome, hlevel, hwords⟩
  · rw [if_pos hnot, hnone, take_nil]
  · have hsug := DLBNode.recSuggest_eq D.search (DLBNode.walkDown D.search D.root) []
      (DLBNode.walkDown_wf h.wf _) (Nat.zero_le _)
    rw [hwords, nil_append] at hsug
    rw [if_neg hsome, ← hsug]
    split
    case h_1 hnull => exact absurd hnull hlevel
    case h_2 => rfl

/-- A word that is in the trie is not added again. -/
theorem add_of_added (hcaret : isLetter caret = false) (h : DlbInv isLetter calls D) {key : JString}
    (hkey : Added isLetter calls key) : D.add isLetter key = D := by
  have hmem : key ∈ D.root.entries := (h.mem_entries key).mpr (Or.inr hkey)
  have hgood : ¬ (DLB.validWord isLetter key = false ∨ key.length < 1) := by
    rintro (hbad | hbad)
    · rw [hkey.2.2] at hbad
      cases hbad
    · exact hkey.2.1 (length_eq_zero_iff.mp (Nat.lt_one_iff.mp hbad))
  unfold DLB.add
  rw [if_neg hgood]
  rcases DLBNode.addLoop_spec h.wf h.ne_null (caret_not_mem_of_valid hcaret hkey.2.2) [] with
    ⟨hnone, -⟩ | ⟨path, rest, -, hin⟩
  · rw [hnone]
  · have hnodup := hin.perm.nodup_iff.mp (DLBNode.nodup_entries hin.wf)
    exact absurd hmem (nodup_cons.mp hnodup).1

end DlbInv

theorem dlbInv_dlbAfter (hcaret : isLetter caret = false) (calls : List DlbCall) :
    DlbInv isLetter calls (dlbAfter isLetter calls) := by
  induction calls using List.reverseRecOn with
  | nil => exact .init
  | append_singleton calls c ih =>
    rw [dlbAfter, foldl_append]
    exact ih.step hcaret c

end Runs

/-- The trie refines the set of the words added, in every run. -/
theorem dlb_refines_words (isLetter : JChar → Bool) (hcaret : isLetter caret = false)
    (calls : List DlbCall) :
    (∀ w, (dlbAfter isLetter calls).contains isLetter w = true ↔ Added isLetter calls w) ∧
    (∀ p, (dlbAfter isLetter calls).containsPrefix isLetter p = true ↔
      DLB.validWord isLetter p = true ∧ ∃ w, Added isLetter calls w ∧ p <+: w ∧ p ≠ w) ∧
    (dlbAfter isLetter calls).traverse.Nodup ∧
    (∀ w, w ∈ (dlbAfter isLetter calls).traverse ↔ Added isLetter calls w) ∧
    (dlbAfter isLetter calls).count = (dlbAfter isLetter calls).traverse.length ∧
    (dlbAfter isLetter calls).suggest isLetter =
      some (((dlbAfter isLetter calls).traverse.filter fun w => searched calls <+: w).take 5) := by
  have h := dlbInv_dlbAfter hcaret calls
  refine ⟨h.contains_iff hcaret, h.containsPrefix_iff hcaret, h.nodup_traverse, h.mem_traverse,
    h.count_eq, ?_⟩
  rw [h.suggest_eq hcaret, h.search]
  rfl

/-- The letters of ASCII. -/
def asciiLetter (c : JChar) : Bool := (65 ≤ c && c ≤ 90) || (97 ≤ c && c ≤ 122)

/-- The words `ab`, `a` and `b`, and a search for `a`. -/
theorem dlb_refines_words_ab :
    (dlbAfter asciiLetter [.add [97, 98], .add [97], .add [98], .searchByChar 97]).suggest
      asciiLetter = some [[97, 98], [97]] := by
  have h := (dlb_refines_words asciiLetter (by decide)
    [.add [97, 98], .add [97], .add [98], .searchByChar 97]).2.2.2.2.2
  rw [h]
  decide

end PittCs.Cs1501
