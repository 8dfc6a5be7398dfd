import Mathlib.Algebra.Group.Nat.Defs
import Mathlib.Data.Finset.Card
import PittCs.Cs1501.UserHistory

/-!
# Suggestions for the next character

Runs of a `UserHistory`, with the number of the uses of each word, and `AutoCompleter.java`
on top of a history and a dictionary. The stored counts are the numbers of uses as long
as no word is used 2^31 times.
-/

namespace PittCs.Cs1501

open PittCs.Lib Function List Option

/-! ## Runs of a history -/

section Runs

variable (isLetter : JChar → Bool)

/-- One call of a `UserHistory`. -/
def DlbCall.runHist (U : UserHistory) : DlbCall → UserHistory
  | .add key => U.add isLetter key
  | .searchByChar next => U.searchByChar isLetter next
  | .resetByChar => U.resetByChar

/-- The history after a sequence of calls on a new one. -/
def histAfter (calls : List DlbCall) : UserHistory := calls.foldl (DlbCall.runHist isLetter) .new

/-- How often a word was used. -/
def uses (calls : List DlbCall) (w : JString) : Nat := calls.count (.add w)

/-- The key of a call of `add`. -/
def DlbCall.key? : DlbCall → Option JString
  | .add key => some key
  | _ => none

/-- The words that were added and start with the search string. -/
def wordsFound (calls : List DlbCall) : Finset JString :=
  (calls.filterMap DlbCall.key?).toFinset.filter fun w =>
    w ≠ [] ∧ DLB.validWord isLetter w = true ∧ searched calls <+: w

/-- The trie is that of the calls, and the table has the uses of its words. -/
structure HistInv (calls : List DlbCall) (U : UserHistory) : Prop where
  dlb : U.dlb = dlbAfter isLetter calls
  counted : ∀ w, Added isLetter calls w →
    U.word_count w = some (BitVec.ofNat 32 (uses calls w))
  absent : ∀ w, ¬ Added isLetter calls w → U.word_count w = none

variable {isLetter}

theorem mem_wordsFound {calls : List DlbCall} {w : JString} :
    w ∈ wordsFound isLetter calls ↔ Added isLetter calls w ∧ searched calls <+: w := by
  have hkey : w ∈ calls.filterMap DlbCall.key? ↔ .add w ∈ calls := by
    rw [mem_filterMap]
    constructor
    · rintro ⟨c, hc, hw⟩
      cases c with
      | add key =>
        rw [← some.inj hw]
        exact hc
      | searchByChar next | resetByChar => exact absurd hw nofun
    · intro hw
      exact ⟨_, hw, rfl⟩
  unfold wordsFound Added
  rw [Finset.mem_filter, List.mem_toFinset, hkey]
  exact ⟨fun ⟨h, hne, hvalid, hpre⟩ => ⟨⟨h, hne, hvalid⟩, hpre⟩,
    fun ⟨⟨h, hne, hvalid⟩, hpre⟩ => ⟨h, hne, hvalid, hpre⟩⟩

theorem dlbAfter_concat (calls : List DlbCall) (c : DlbCall) :
    dlbAfter isLetter (calls ++ [c]) = c.run isLetter (dlbAfter isLetter calls) :=
  foldl_concat ..

theorem uses_concat_of_ne {calls : List DlbCall} {c : DlbCall} {w : JString} (hc : .add w ≠ c) :
    uses (calls ++ [c]) w = uses calls w := by
  unfold uses
  rw [count_append, count_singleton, if_neg (by simpa using Ne.symm hc), Nat.add_zero]

theorem uses_concat_self (calls : List DlbCall) (w : JString) :
    uses (calls ++ [.add w]) w = uses calls w + 1 := by
  unfold uses
  rw [count_append, count_singleton_self]

namespace HistInv

theorem init : HistInv isLetter [] .new where
  dlb := rfl
  counted _ hw := absurd hw.1 not_mem_nil
  absent _ _ := rfl

/-- A call that adds no word. -/
theorem of_no_add {calls : List DlbCall} {U U' : UserHistory} {c : DlbCall}
    (h : HistInv isLetter calls U) (hdlb : U'.dlb = c.run isLetter U.dlb)
    (htable : U'.word_count = U.word_count)
    (hadd : ∀ w, Added isLetter (calls ++ [c]) w → .add w ≠ c) : HistInv isLetter (calls ++ [c]) U' := by
  have hnot : ∀ w, Added isLetter calls w → Added isLetter (calls ++ [c]) w := by
    intro w hw
    exact ⟨mem_append_left _ hw.1, hw.2⟩
  constructor
  case dlb => rw [hdlb, h.dlb, dlbAfter_concat]
  case counted =>
    intro w hw
    have hne := hadd w hw
    rw [htable, uses_concat_of_ne hne]
    exact h.counted w ((added_concat_of_ne w hne).mp hw)
  case absent =>
    intro w hw
    rw [htable]
    exact h.absent w fun hold => hw (hnot w hold)

/-- A call that counts a use of a word. -/
theorem of_use {calls : List DlbCall} {U U' : UserHistory} (h : HistInv isLetter calls U)
    {key : JString} (hgood : key ≠ [] ∧ DLB.validWord isLetter key = true)
    (hdlb : U'.dlb = U.dlb.add isLetter key)
    (htable : U'.word_count =
      Function.update U.word_count key (some (BitVec.ofNat 32 (uses calls key + 1)))) :
    HistInv isLetter (calls ++ [.add key]) U' := by
  have hkey : Added isLetter (calls ++ [.add key]) key :=
    ⟨mem_append_right _ mem_cons_self, hgood⟩
  have hne : ∀ w, w ≠ key → DlbCall.add w ≠ .add key := fun w hw heq => hw (DlbCall.add.inj heq)
  constructor
  case dlb =>
    rw [hdlb, h.dlb, dlbAfter_concat]
    rfl
  case counted =>
    intro w hw
    rw [htable]
    by_cases hwk : w = key
    · rw [hwk, update_self, uses_concat_self]
    · rw [update_of_ne hwk, uses_concat_of_ne (hne w hwk)]
      exact h.counted w ((added_concat_of_ne w (hne w hwk)).mp hw)
  case absent =>
    intro w hw
    have hwk : w ≠ key := fun heq => hw (heq ▸ hkey)
    rw [htable, update_of_ne hwk]
    exact h.absent w fun hin => hw ((added_concat_of_ne w (hne w hwk)).mpr hin)

theorem add (hcaret : isLetter caret = false) {calls : List DlbCall} {U : UserHistory}
    (h : HistInv isLetter calls U) (key : JString) :
    HistInv isLetter (calls ++ [.add key]) (U.add isLetter key) := by
  unfold UserHistory.add
  split
  case isTrue hbad =>
    have hdlb : U.dlb.add isLetter key = U.dlb := if_pos hbad
    refine h.of_no_add hdlb.symm rfl ?_
    intro w hw heq
    have hkey : w = key := DlbCall.add.inj heq
    rw [hkey] at hw
    rcases hbad with hbad | hbad
    · rw [hw.2.2] at hbad
      cases hbad
    · exact hw.2.1 (length_eq_zero_iff.mp (Nat.lt_one_iff.mp hbad))
  case isFalse hbad =>
    have hgood : key ≠ [] ∧ DLB.validWord isLetter key = true := by
      rw [not_or, not_lt] at hbad
      exact ⟨ne_nil_of_length_pos hbad.2, by simpa using hbad.1⟩
    by_cases hold : Added isLetter calls key
    · rw [h.counted key hold]
      refine h.of_use hgood ?_ ?_
      · rw [h.dlb]
        exact ((dlbInv_dlbAfter hcaret calls).add_of_added hcaret hold).symm
      · rw [BitVec.ofNat_add]
        rfl
    · have hzero : uses calls key = 0 :=
        count_eq_zero.mpr fun hmem => hold ⟨hmem, hgood⟩
      rw [h.absent key hold]
      refine h.of_use hgood rfl ?_
      rw [hzero]
      rfl

theorem step (hcaret : isLetter caret = false) {calls : List DlbCall} {U : UserHistory}
    (h : HistInv isLetter calls U) (c : DlbCall) :
    HistInv isLetter (calls ++ [c]) (c.runHist isLetter U) := by
  cases c with
  | add key => exact h.add hcaret key
  | searchByChar next | resetByChar => exact h.of_no_add rfl rfl fun _ _ => nofun

end HistInv

theorem histInv_histAfter (hcaret : isLetter caret = false) (calls : List DlbCall) :
    HistInv isLetter calls (histAfter isLetter calls) := by
  induction calls using List.reverseRecOn with
  | nil => exact .init
  | append_singleton calls c ih =>
    rw [histAfter, foldl_append]
    exact ih.step hcaret c

/-! ## The suggestions of a history -/

/-- The words in the order of the traversal. -/
theorem wordsFound_eq (hcaret : isLetter caret = false) (calls : List DlbCall) :
    wordsFound isLetter calls =
      ((dlbAfter isLetter calls).traverse.filter fun w => searched calls <+: w).toFinset := by
  ext w
  rw [mem_wordsFound, List.mem_toFinset, mem_filter,
    (dlbInv_dlbAfter hcaret calls).mem_traverse, decide_eq_true_iff]

theorem card_wordsFound (hcaret : isLetter caret = false) (calls : List DlbCall) :
    (wordsFound isLetter calls).card =
      ((dlbAfter isLetter calls).traverse.filter fun w => searched calls <+: w).length := by
  rw [wordsFound_eq hcaret]
  exact toFinset_card_of_nodup ((dlbInv_dlbAfter hcaret calls).nodup_traverse.filter _)

/-- What `suggest` returns, by the stored counts. -/
structure Suggests (count : JString → Int) (words : Finset JString) (r : List JString) : Prop where
  nodup : r.Nodup
  mem : ∀ w ∈ r, w ∈ words
  length : r.length = min 5 words.card
  sorted : r.Pairwise fun x y => count y ≤ count x
  omitted : ∀ x ∈ words, x ∉ r → ∀ y ∈ r, count x ≤ count y

theorem suggests_histAfter (hcaret : isLetter caret = false) (calls : List DlbCall) :
    ∃ r, (histAfter isLetter calls).suggest isLetter = some r ∧
      Suggests (histAfter isLetter calls).count (wordsFound isLetter calls) r := by
  have hinv := histInv_histAfter hcaret calls
  have htrie := dlbInv_dlbAfter hcaret calls
  have hcard := card_wordsFound hcaret calls
  have hmem : ∀ w, w ∈ wordsFound isLetter calls ↔
      w ∈ (dlbAfter isLetter calls).traverse.filter fun w => searched calls <+: w := by
    intro w
    rw [wordsFound_eq hcaret, List.mem_toFinset]
  rw [← htrie.search] at hcard hmem
  have hnodup := htrie.nodup_traverse.filter
    fun w => decide ((dlbAfter isLetter calls).search <+: w)
  unfold UserHistory.suggest
  rw [hinv.dlb]
  rcases htrie.suggest_cases hcaret with ⟨hnot, hnone⟩ | ⟨hsome, hlevel, hwords⟩
  · rw [if_pos hnot]
    rw [hnone] at hcard hmem
    refine ⟨[], rfl, .nil, fun w hw => absurd hw not_mem_nil, ?_, .nil, ?_⟩
    · rw [hcard]
      rfl
    · intro x hx
      exact absurd ((hmem x).mp hx) not_mem_nil
  · rw [if_neg hsome]
    have hrec := UserHistory.recSuggest_eq (histAfter isLetter calls).count
      (dlbAfter isLetter calls).search _ []
      (DLBNode.walkDown_wf htrie.wf (dlbAfter isLetter calls).search)
    rw [hwords] at hrec
    rcases sortSuggestions_spec (histAfter isLetter calls).count
      ((dlbAfter isLetter calls).traverse.filter
        fun w => (dlbAfter isLetter calls).search <+: w) with ⟨r, dropped, hr, hkept, hsorted⟩
    rw [← hrec] at hr
    refine ⟨r, ?_, hkept.nodup hnodup, fun w hw => (hmem w).mpr (hkept.mem_seen hw), ?_, hsorted, ?_⟩
    · split
      case h_1 hnull => exact absurd hnull hlevel
      case h_2 => exact hr
    · rw [hcard]
      exact hkept.length_eq
    · intro x hx hnot y hy
      exact hkept.le_of_not_mem ((hmem x).mp hx) hnot hy

/-- Below 2^31 the stored count is the number of uses. -/
theorem count_histAfter (hcaret : isLetter caret = false) {calls : List DlbCall} {w : JString}
    (hw : Added isLetter calls w) (hfew : uses calls w < 2 ^ 31) :
    (histAfter isLetter calls).count w = uses calls w := by
  unfold UserHistory.count
  have hmod : uses calls w % 2 ^ 32 = uses calls w := Nat.mod_eq_of_lt (by omega)
  have hnat : (BitVec.ofNat 32 (uses calls w)).toNat = uses calls w := by
    rw [BitVec.toNat_ofNat, hmod]
  rw [(histInv_histAfter hcaret calls).counted w hw, getD_some,
    BitVec.toInt_eq_toNat_of_lt (by omega), hnat]

theorem Suggests.congr {count count' : JString → Int} {words : Finset JString} {r : List JString}
    (h : Suggests count words r) (heq : ∀ w ∈ words, count w = count' w) :
    Suggests count' words r where
  nodup := h.nodup
  mem := h.mem
  length := h.length
  sorted := by
    refine h.sorted.imp_of_mem ?_
    intro x y hx hy hle
    rw [← heq x (h.mem x hx), ← heq y (h.mem y hy)]
    exact hle
  omitted := by
    intro x hx hnot y hy
    rw [← heq x hx, ← heq y (h.mem y hy)]
    exact h.omitted x hx hnot y hy

end Runs

/-! ## The completer -/

/-- `AutoCompleter`. -/
structure AutoCompleter where
  user_hist : UserHistory
  dictionary : DLB

/-- The loop of `nextChar` over the suggestions of the dictionary. -/
def fill (suggestions : List JString) : List JString → List JString
  | [] => suggestions
  | w :: dict_sugg =>
    if suggestions.length < DLBNode.SUGGESTIONS then
      fill (if suggestions.contains w then suggestions else suggestions ++ [w]) dict_sugg
    else suggestions

/-- The calls that the completer answers. -/
inductive AcCall where
  | nextChar (next : JChar)
  | finishWord (cur : JString)

section Completer

variable (isLetter : JChar → Bool)

namespace AutoCompleter

/-- The constructor, with the words of the dictionary file and the lines of the history
file. -/
def new (dict : List JString) (hist : List (JString × Nat)) : AutoCompleter where
  user_hist := hist.foldl (fun U line => (UserHistory.add isLetter line.1)^[line.2] U) .new
  dictionary := dict.foldl (fun D w => D.add isLetter w) .new

/-- `nextChar`, with the suggestions it returns. -/
def nextChar (next : JChar) (A : AutoCompleter) : Option (List JString) × AutoCompleter :=
  let A' : AutoCompleter :=
    ⟨A.user_hist.searchByChar isLetter next, (A.dictionary.searchByChar isLetter next).2⟩
  ((A'.user_hist.suggest isLetter).bind fun hist_sugg =>
    (A'.dictionary.suggest isLetter).map fun dict_sugg => fill hist_sugg dict_sugg, A')

/-- `finishWord`. -/
def finishWord (cur : JString) (A : AutoCompleter) : AutoCompleter :=
  if DLB.validWord isLetter cur = false ∨ cur.length < 1 then A
  else ⟨(A.user_hist.resetByChar).add isLetter cur, A.dictionary.resetByChar⟩

/-- One call. -/
def run (A : AutoCompleter) : AcCall → AutoCompleter
  | .nextChar next => (A.nextChar isLetter next).2
  | .finishWord cur => A.finishWord isLetter cur

end AutoCompleter

/-- The completer after some calls. -/
def acAfter (dict : List JString) (hist : List (JString × Nat)) (calls : List AcCall) :
    AutoCompleter :=
  calls.foldl (AutoCompleter.run isLetter) (.new isLetter dict hist)

/-- What a call does to the history. -/
def AcCall.onHist : AcCall → List DlbCall
  | .nextChar next => [.searchByChar next]
  | .finishWord cur =>
    if DLB.validWord isLetter cur = false ∨ cur.length < 1 then [] else [.resetByChar, .add cur]

/-- What a call does to the dictionary. -/
def AcCall.onDict : AcCall → List DlbCall
  | .nextChar next => [.searchByChar next]
  | .finishWord cur =>
    if DLB.validWord isLetter cur = false ∨ cur.length < 1 then [] else [.resetByChar]

/-- All calls of the history. -/
def histCalls (hist : List (JString × Nat)) (calls : List AcCall) : List DlbCall :=
  hist.flatMap (fun line => List.replicate line.2 (.add line.1)) ++
    calls.flatMap (AcCall.onHist isLetter)

/-- All calls of the dictionary. -/
def dictCalls (dict : List JString) (calls : List AcCall) : List DlbCall :=
  dict.map .add ++ calls.flatMap (AcCall.onDict isLetter)

variable {isLetter}

theorem histAfter_append (calls calls' : List DlbCall) :
    histAfter isLetter (calls ++ calls') =
      calls'.foldl (DlbCall.runHist isLetter) (histAfter isLetter calls) :=
  foldl_append ..

theorem dlbAfter_append (calls calls' : List DlbCall) :
    dlbAfter isLetter (calls ++ calls') =
      calls'.foldl (DlbCall.run isLetter) (dlbAfter isLetter calls) :=
  foldl_append ..

theorem foldl_replicate_add (w : JString) (n : Nat) (U : UserHistory) :
    (List.replicate n (.add w)).foldl (DlbCall.runHist isLetter) U =
      (UserHistory.add isLetter w)^[n] U := by
  induction n generalizing U with
  | zero => rfl
  | succ n ih => exact ih (U.add isLetter w)

theorem new_eq (dict : List JString) (hist : List (JString × Nat)) :
    AutoCompleter.new isLetter dict hist =
      ⟨histAfter isLetter (histCalls isLetter hist []), dlbAfter isLetter (dictCalls isLetter dict [])⟩ := by
  have hhist : (AutoCompleter.new isLetter dict hist).user_hist =
      histAfter isLetter (histCalls isLetter hist []) := by
    unfold histCalls
    rw [flatMap_nil, append_nil]
    induction hist using List.reverseRecOn with
    | nil => rfl
    | append_singleton hist line ih =>
      rw [flatMap_append, flatMap_singleton, histAfter_append, foldl_replicate_add, ← ih]
      exact foldl_concat ..
  have hdict : (AutoCompleter.new isLetter dict hist).dictionary =
      dlbAfter isLetter (dictCalls isLetter dict []) := by
    unfold dictCalls dlbAfter
    rw [flatMap_nil, append_nil, foldl_map]
    rfl
  rw [← hhist, ← hdict]

theorem histCalls_concat (hist : List (JString × Nat)) (calls : List AcCall) (c : AcCall) :
    histCalls isLetter hist (calls ++ [c]) =
      histCalls isLetter hist calls ++ c.onHist isLetter := by
  unfold histCalls
  rw [flatMap_append, flatMap_singleton, append_assoc]

theorem dictCalls_concat (dict : List JString) (calls : List AcCall) (c : AcCall) :
    dictCalls isLetter dict (calls ++ [c]) =
      dictCalls isLetter dict calls ++ c.onDict isLetter := by
  unfold dictCalls
  rw [flatMap_append, flatMap_singleton, append_assoc]

/-- The completer is a history and a dictionary with their own calls. -/
theorem acAfter_eq (dict : List JString) (hist : List (JString × Nat)) (calls : List AcCall) :
    acAfter isLetter dict hist calls =
      ⟨histAfter isLetter (histCalls isLetter hist calls),
        dlbAfter isLetter (dictCalls isLetter dict calls)⟩ := by
  induction calls using List.reverseRecOn with
  | nil => exact new_eq dict hist
  | append_singleton calls c ih =>
    have hstep : acAfter isLetter dict hist (calls ++ [c]) =
        (acAfter isLetter dict hist calls).run isLetter c := foldl_concat ..
    rw [hstep, ih, histCalls_concat, dictCalls_concat, histAfter_append, dlbAfter_append]
    cases c with
    | nextChar next => rfl
    | finishWord cur =>
      unfold AutoCompleter.run AutoCompleter.finishWord AcCall.onHist AcCall.onDict
      dsimp only
      split
      case isTrue | isFalse => rfl

theorem searched_concat (calls : List DlbCall) (c : DlbCall) :
    searched (calls ++ [c]) = match c with
      | .add _ => searched calls
      | .searchByChar next => searched calls ++ [next]
      | .resetByChar => [] := foldl_concat ..

theorem searched_of_adds {calls : List DlbCall} (h : ∀ c ∈ calls, ∃ w, c = .add w) :
    searched calls = [] := by
  induction calls using List.reverseRecOn with
  | nil => rfl
  | append_singleton calls c ih =>
    rcases h c (mem_append_right _ mem_cons_self) with ⟨w, hw⟩
    rw [searched_concat, hw]
    exact ih fun c hc => h c (mem_append_left _ hc)

/-- Both parts have seen the same characters. -/
theorem searched_eq (dict : List JString) (hist : List (JString × Nat)) (calls : List AcCall) :
    searched (histCalls isLetter hist calls) = searched (dictCalls isLetter dict calls) := by
  induction calls using List.reverseRecOn with
  | nil =>
    unfold histCalls dictCalls
    rw [flatMap_nil, flatMap_nil, append_nil, append_nil]
    rw [searched_of_adds, searched_of_adds]
    · intro c hc
      rcases mem_map.mp hc with ⟨w, -, hw⟩
      exact ⟨w, hw.symm⟩
    · intro c hc
      rcases mem_flatMap.mp hc with ⟨line, -, hline⟩
      exact ⟨line.1, eq_of_mem_replicate hline⟩
  | append_singleton calls c ih =>
    rw [histCalls_concat, dictCalls_concat]
    generalize histCalls isLetter hist calls = onHist at ih
    generalize dictCalls isLetter dict calls = onDict at ih
    cases c with
    | nextChar next =>
      unfold AcCall.onHist AcCall.onDict
      dsimp only
      rw [searched_concat, searched_concat, ih]
    | finishWord cur =>
      unfold AcCall.onHist AcCall.onDict
      dsimp only
      split
      case isTrue =>
        rw [append_nil, append_nil]
        exact ih
      case isFalse =>
        have htwo : [DlbCall.resetByChar, .add cur] = [.resetByChar] ++ [.add cur] := rfl
        rw [htwo, ← append_assoc, searched_concat, searched_concat, searched_concat]

/-! ## The filled suggestions -/

theorem fill_eq {hs ds : List JString} (hds : ds.Nodup) :
    fill hs ds = hs ++ (ds.filter fun w => !hs.contains w).take (DLBNode.SUGGESTIONS - hs.length) := by
  induction ds generalizing hs with
  | nil => simp [fill]
  | cons w ds ih =>
    have hcons := nodup_cons.mp hds
    unfold fill
    split
    case isTrue hroom =>
      cases hw : hs.contains w with
      | true =>
        rw [if_pos rfl, ih hcons.2, filter_cons, hw]
        rfl
      | false =>
        have hrest : (ds.filter fun x => !(hs ++ [w]).contains x) =
            ds.filter fun x => !hs.contains x := by
          refine filter_congr ?_
          intro x hx
          have hne : x ≠ w := fun heq => hcons.1 (heq ▸ hx)
          simp [hne]
        have hsucc : DLBNode.SUGGESTIONS - hs.length =
            (DLBNode.SUGGESTIONS - (hs ++ [w]).length) + 1 := by
          rw [length_append, length_singleton]
          omega
        rw [if_neg Bool.false_ne_true, ih hcons.2, hrest, filter_cons, hw, hsucc]
        simp
    case isFalse hfull =>
      have hzero : DLBNode.SUGGESTIONS - hs.length = 0 := by omega
      rw [hzero, take_zero, append_nil]

/-- The words of the dictionary that are left are enough to fill up the suggestions. -/
theorem fill_spec {hs ds all : List JString} {H : Finset JString} (hnodup : hs.Nodup)
    (hmem : ∀ w ∈ hs, w ∈ H) (hlen : hs.length = min 5 H.card) (hall : all.Nodup)
    (hds : ds = all.take 5) :
    (fill hs ds).Nodup ∧ (fill hs ds).length = min 5 (H ∪ all.toFinset).card ∧
      ∃ extra, fill hs ds = hs ++ extra ∧ ∀ w ∈ extra, w ∈ all ∧ w ∉ H := by
  have hdsn : ds.Nodup := by
    rw [hds]
    exact hall.sublist (take_sublist 5 all)
  have hsub : ∀ w ∈ ds, w ∈ all := by
    rw [hds]
    exact fun w hw => mem_of_mem_take hw
  have hcard : hs.toFinset.card = hs.length := toFinset_card_of_nodup hnodup
  rw [fill_eq hdsn]
  by_cases hbig : 5 ≤ H.card
  · have hfive : hs.length = 5 := by omega
    have hzero : DLBNode.SUGGESTIONS - hs.length = 0 := by
      rw [hfive]
      rfl
    have hle : H.card ≤ (H ∪ all.toFinset).card := Finset.card_le_card Finset.subset_union_left
    rw [hzero, take_zero, append_nil]
    refine ⟨hnodup, by omega, [], (append_nil hs).symm, ?_⟩
    intro w hw
    exact absurd hw not_mem_nil
  · -- the history gives all of its words
    have hset : hs.toFinset = H := by
      refine Finset.eq_of_subset_of_card_le ?_ (by omega)
      intro w hw
      exact hmem w (List.mem_toFinset.mp hw)
    have hnot : ∀ w, hs.contains w = true ↔ w ∈ H := by
      intro w
      rw [← hset, List.mem_toFinset, contains_iff_mem]
    have hfilter : (ds.filter fun w => !hs.contains w).toFinset = ds.toFinset \ H := by
      ext w
      rw [List.mem_toFinset, mem_filter, Finset.mem_sdiff, List.mem_toFinset, ← hnot w]
      simp
    have hfn : (ds.filter fun w => !hs.contains w).Nodup := hdsn.filter _
    have hflen := toFinset_card_of_nodup hfn
    rw [hfilter] at hflen
    have hdcard := toFinset_card_of_nodup hdsn
    have hacard := toFinset_card_of_nodup hall
    have hdlen : ds.length = min 5 all.length := by
      rw [hds, length_take]
    have hunion : (all.toFinset \ H).card + H.card = (H ∪ all.toFinset).card := by
      rw [Finset.card_sdiff_add_card, Finset.union_comm]
    have hleft : ds.toFinset.card ≤ (ds.toFinset \ H).card + H.card :=
      Finset.card_le_card_sdiff_add_card
    have hfew : (ds.toFinset \ H).card ≤ (all.toFinset \ H).card := by
      refine Finset.card_le_card (Finset.sdiff_subset_sdiff ?_ (Finset.Subset.refl H))
      intro w hw
      exact List.mem_toFinset.mpr (hsub w (List.mem_toFinset.mp hw))
    have hsmall : all.length ≤ 5 → ds = all := by
      intro hle
      rw [hds, take_of_length_le hle]
    refine ⟨?_, ?_, _, rfl, ?_⟩
    · refine nodup_append.mpr ⟨hnodup, hfn.sublist (take_sublist ..), ?_⟩
      intro x hx y hy heq
      have hy' := (mem_filter.mp (mem_of_mem_take hy)).2
      rw [← heq, (hnot x).mpr (hmem x hx)] at hy'
      exact absurd hy' Bool.false_ne_true
    · rw [length_append, length_take, ← hunion]
      have hlimit : DLBNode.SUGGESTIONS = 5 := rfl
      by_cases hle : all.length ≤ 5
      · rw [hsmall hle] at hflen
        rw [hsmall hle]
        omega
      · omega
    · intro w hw
      have hw' := mem_filter.mp (mem_of_mem_take hw)
      refine ⟨hsub w hw'.1, ?_⟩
      intro hwH
      have hfalse := hw'.2
      rw [(hnot w).mpr hwH] at hfalse
      exact absurd hfalse Bool.false_ne_true

/-! ## The suggestions -/

/-- In every run in which no word is added 2^31 times `suggest` returns five words of the
history with the search string as a prefix that are used most, or all of them, in the order
of their uses; and in every run `nextChar` returns five different words with that prefix, or
all of them, first those that the history suggests and then words of the dictionary that
are not in the history. -/
theorem suggestions_right (hcaret : isLetter caret = false) :
    (∀ calls, (∀ w, Added isLetter calls w → uses calls w < 2 ^ 31) →
      ∃ r, (histAfter isLetter calls).suggest isLetter = some r ∧
        Suggests (fun w => uses calls w) (wordsFound isLetter calls) r) ∧
    ∀ dict hist calls next, ∃ r hs extra,
      ((acAfter isLetter dict hist calls).nextChar isLetter next).1 = some r ∧
      r.Nodup ∧
      r.length = min 5 (wordsFound isLetter (histCalls isLetter hist (calls ++ [.nextChar next])) ∪
        wordsFound isLetter (dictCalls isLetter dict (calls ++ [.nextChar next]))).card ∧
      r = hs ++ extra ∧
      (acAfter isLetter dict hist (calls ++ [.nextChar next])).user_hist.suggest isLetter =
        some hs ∧
      (∀ w ∈ hs,
        w ∈ wordsFound isLetter (histCalls isLetter hist (calls ++ [.nextChar next]))) ∧
      ∀ w ∈ extra,
        w ∈ wordsFound isLetter (dictCalls isLetter dict (calls ++ [.nextChar next])) ∧
        w ∉ wordsFound isLetter (histCalls isLetter hist (calls ++ [.nextChar next])) := by
  constructor
  · intro calls hfew
    rcases suggests_histAfter hcaret calls with ⟨r, hr, hsug⟩
    refine ⟨r, hr, hsug.congr ?_⟩
    intro w hw
    have hadded := (mem_wordsFound.mp hw).1
    exact count_histAfter hcaret hadded (hfew w hadded)
  · intro dict hist calls next
    have hstep : ((acAfter isLetter dict hist calls).nextChar isLetter next).2 =
        acAfter isLetter dict hist (calls ++ [.nextChar next]) := by
      unfold acAfter
      rw [foldl_concat]
      rfl
    have hafter : acAfter isLetter dict hist (calls ++ [.nextChar next]) = _ :=
      acAfter_eq dict hist (calls ++ [.nextChar next])
    generalize hhc : histCalls isLetter hist (calls ++ [.nextChar next]) = hcalls at hafter
    generalize hdc : dictCalls isLetter dict (calls ++ [.nextChar next]) = dcalls at hafter
    have hsearch : searched hcalls = searched dcalls := by
      rw [← hhc, ← hdc]
      exact searched_eq dict hist _
    rcases suggests_histAfter hcaret hcalls with ⟨hs, hhs, hsug⟩
    have hdict := dlbInv_dlbAfter hcaret dcalls
    have hds := hdict.suggest_eq hcaret
    have hall := hdict.nodup_traverse.filter fun w => decide (searched dcalls <+: w)
    rw [hdict.search] at hds
    rcases fill_spec hsug.nodup hsug.mem hsug.length hall rfl with ⟨hnodup, hlen, extra, heq, hextra⟩
    rw [← wordsFound_eq hcaret] at hlen
    refine ⟨_, hs, extra, ?_, hnodup, hlen, heq, ?_, hsug.mem, ?_⟩
    · have hres : ((acAfter isLetter dict hist calls).nextChar isLetter next).1 =
          ((acAfter isLetter dict hist (calls ++ [.nextChar next])).user_hist.suggest isLetter).bind
            fun hist_sugg =>
              ((acAfter isLetter dict hist (calls ++ [.nextChar next])).dictionary.suggest
                isLetter).map fun dict_sugg => fill hist_sugg dict_sugg := by
        rw [← hstep]
        rfl
      rw [hres, hafter, hhs, hds]
      rfl
    · rw [hafter]
      exact hhs
    · intro w hw
      refine ⟨?_, (hextra w hw).2⟩
      rw [wordsFound_eq hcaret, List.mem_toFinset]
      exact (hextra w hw).1

end Completer

/-- The word `ab` used twice, the word `a` used once, and a search for `a`. -/
theorem suggestions_right_ab :
    ∃ r, (histAfter asciiLetter
        [.add [97], .add [97, 98], .add [97, 98], .searchByChar 97]).suggest asciiLetter = some r ∧
      Suggests (fun w => uses [.add [97], .add [97, 98], .add [97, 98], .searchByChar 97] w)
        (wordsFound asciiLetter [.add [97], .add [97, 98], .add [97, 98], .searchByChar 97]) r := by
  refine (suggestions_right (by decide)).1 _ ?_
  intro w _
  have hle := count_le_length (a := DlbCall.add w)
    (l := [.add [97], .add [97, 98], .add [97, 98], .searchByChar 97])
  exact Nat.lt_of_le_of_lt hle (by decide)

/-! ## A count that wraps around -/

/-- The word `a` used 2^31 times, the word `ab` used once, and a search for `a`. -/
def usedOften : List DlbCall :=
  List.replicate (2 ^ 31) (.add [97]) ++ [.add [97, 98], .searchByChar 97]

theorem usedOften_added (w : JString) :
    Added asciiLetter usedOften w ↔ w = [97] ∨ w = [97, 98] := by
  have hmem : DlbCall.add w ∈ usedOften ↔ w = [97] ∨ w = [97, 98] := by
    unfold usedOften
    rw [mem_append, mem_replicate]
    simp
  constructor
  · intro h
    exact hmem.mp h.1
  · intro h
    refine ⟨hmem.mpr h, ?_⟩
    rcases h with h | h
    · rw [h]
      exact ⟨cons_ne_nil _ _, by decide⟩
    · rw [h]
      exact ⟨cons_ne_nil _ _, by decide⟩

theorem uses_usedOften : uses usedOften [97] = 2 ^ 31 ∧ uses usedOften [97, 98] = 1 := by
  unfold uses usedOften
  rw [count_append, count_append, count_replicate_self, count_replicate]
  exact ⟨rfl, rfl⟩

/-- The stored count of `a` is negative, so `ab` comes first. -/
theorem not_suggests_usedOften :
    ¬ ∃ r, (histAfter asciiLetter usedOften).suggest asciiLetter = some r ∧
      Suggests (fun w => uses usedOften w) (wordsFound asciiLetter usedOften) r := by
  rintro ⟨r, hr, hright⟩
  have hcaret : asciiLetter caret = false := by decide
  rcases suggests_histAfter hcaret usedOften with ⟨r', hr', hstored⟩
  rw [← some.inj (hr.symm.trans hr')] at hstored
  have hinv := histInv_histAfter hcaret usedOften
  have ha := hinv.counted [97] ((usedOften_added _).mpr (Or.inl rfl))
  have hab := hinv.counted [97, 98] ((usedOften_added _).mpr (Or.inr rfl))
  rw [uses_usedOften.1] at ha
  rw [uses_usedOften.2] at hab
  have hca : (histAfter asciiLetter usedOften).count [97] = -2 ^ 31 := by
    unfold UserHistory.count
    rw [ha]
    decide
  have hcab : (histAfter asciiLetter usedOften).count [97, 98] = 1 := by
    unfold UserHistory.count
    rw [hab]
    decide
  -- both words are found and returned
  have hsearched : searched usedOften = [97] := by
    have hsplit : usedOften = (List.replicate (2 ^ 31) (.add [97]) ++ [.add [97, 98]]) ++
        [.searchByChar 97] := by
      unfold usedOften
      rw [append_assoc]
      rfl
    rw [hsplit, searched_concat, searched_of_adds]
    · rfl
    · intro c hc
      rcases mem_append.mp hc with hc | hc
      · exact ⟨_, eq_of_mem_replicate hc⟩
      · exact ⟨_, mem_singleton.mp hc⟩
  have hwords : wordsFound asciiLetter usedOften = {[97], [97, 98]} := by
    ext w
    rw [mem_wordsFound, usedOften_added, hsearched, Finset.mem_insert, Finset.mem_singleton]
    constructor
    · exact fun h => h.1
    · intro h
      refine ⟨h, ?_⟩
      rcases h with h | h
      · rw [h]
      · rw [h]
        exact prefix_append [97] [98]
  have hcard : (wordsFound asciiLetter usedOften).card = 2 := by
    rw [hwords]
    exact Finset.card_pair (by decide)
  have hset : r.toFinset = wordsFound asciiLetter usedOften := by
    refine Finset.eq_of_subset_of_card_le ?_ ?_
    · intro w hw
      exact hright.mem w (List.mem_toFinset.mp hw)
    · rw [toFinset_card_of_nodup hright.nodup, hright.length, hcard]
      exact Nat.le_refl 2
  have hmem : ∀ w, w ∈ r ↔ w = [97] ∨ w = [97, 98] := by
    intro w
    rw [← List.mem_toFinset, hset, hwords, Finset.mem_insert, Finset.mem_singleton]
  have hboth := hright.sorted.and hstored.sorted
  have hne : ∀ x ∈ r, ∀ y ∈ r, x ≠ y →
      ¬ ((uses usedOften y : Int) ≤ uses usedOften x ∧
        (histAfter asciiLetter usedOften).count y ≤ (histAfter asciiLetter usedOften).count x) := by
    intro x hx y hy hxy
    rcases (hmem x).mp hx with hx | hx
    · rcases (hmem y).mp hy with hy | hy
      · exact absurd (hx.trans hy.symm) hxy
      · rw [hx, hy, hca, hcab]
        omega
    · rcases (hmem y).mp hy with hy | hy
      · rw [hx, hy, uses_usedOften.1, uses_usedOften.2]
        omega
      · exact absurd (hx.trans hy.symm) hxy
  have hlen : r.length = 2 := by
    rw [hright.length, hcard]
    rfl
  have hpair := pairwise_iff_getElem.mp hboth 0 1 (by omega) (by omega) (by decide)
  refine hne _ (List.getElem_mem (by omega)) _ (List.getElem_mem (by omega)) ?_ hpair
  intro heq
  have hidx := hright.nodup.getElem_inj_iff.mp heq
  exact absurd hidx (by decide)

end PittCs.Cs1501
