import Mathlib.Data.List.Perm.Subperm
import PittCs.Lib.LinkedLists
import PittCs.QueueLab.Queue

/-!
# The queue is a list of strings

`Represents` says which elements the pointers lead through. Every call with a string and
a length that an `int` can count takes the list to what the call makes of it.
-/

namespace PittCs.QueueLab

open PittCs.Lib Function List Option

/-! ## Strings -/

theorem int_eq {x : Int} (hlow : -2 ^ 31 ≤ x) (hhigh : x < 2 ^ 31) : int x = some x :=
  if_pos ⟨hlow, hhigh⟩

theorem int_eq_none {x : Int} (h : 2 ^ 31 ≤ x) : int x = none := if_neg (by omega)

theorem strLengthLoop_eq {s : List UInt8} (hs : 0 ∉ s) (rest : List UInt8) {n : Int} (hn : 0 ≤ n) :
    strLengthLoop (s ++ 0 :: rest) n = int (n + s.length + 1) := by
  induction s generalizing n with
  | nil =>
    rw [nil_append, strLengthLoop, length_nil]
    have hzero : n + ((0 : Nat) : Int) + 1 = n + 1 := by omega
    rw [hzero]
    cases int (n + 1) <;> rfl
  | cons c s ih =>
    rw [mem_cons, not_or] at hs
    rw [cons_append, strLengthLoop, length_cons]
    have hsum : n + ((s.length + 1 : Nat) : Int) + 1 = n + 1 + s.length + 1 := by omega
    rw [hsum]
    by_cases hbig : n + 1 < 2 ^ 31
    · rw [int_eq (by omega) hbig]
      dsimp only [bind_eq_bind, bind_some]
      rw [if_neg (Ne.symm hs.1), ih hs.2 (by omega)]
    · rw [int_eq_none (by omega), int_eq_none (by omega)]
      rfl

/-- The length with the terminator, if an `int` can hold it. -/
theorem getStrLength_eq (s : CString) : getStrLength s.bytes = int (s.chars.length + 1) := by
  have hloop := strLengthLoop_eq s.nonzero [] (Int.le_refl 0)
  rw [Int.zero_add] at hloop
  exact hloop

theorem copyLoop_eq {n : Nat} {src dst : List UInt8} (hsrc : n ≤ src.length) (hdst : n < dst.length) :
    copyLoop n src dst = some (src.take n ++ 0 :: dst.drop (n + 1)) := by
  induction n generalizing src dst with
  | zero =>
    cases dst with
    | nil => cases hdst
    | cons d dst => rfl
  | succ n ih =>
    cases src with
    | nil => cases hsrc
    | cons c src =>
      cases dst with
      | nil => cases hdst
      | cons d dst =>
        rw [copyLoop, ih (Nat.le_of_succ_le_succ hsrc) (Nat.lt_of_succ_lt_succ hdst)]
        rfl

theorem copyNChars_eq {n : Nat} {src dst : List UInt8} (hsrc : n ≤ src.length)
    (hdst : n < dst.length) :
    copyNChars ((n : Int) + 1) src dst = some (src.take n ++ 0 :: dst.drop (n + 1)) := by
  have hn : ((n : Int) + 1 - 1).toNat = n := by omega
  rw [copyNChars, if_pos (by omega), hn, copyLoop_eq hsrc hdst]

theorem copyString_eq (garbage : Nat → UInt8) (s : CString) (hs : s.chars.length + 1 < 2 ^ 31) :
    Queue.copyString garbage s.bytes = some s.bytes := by
  have hlength : ((List.range ((s.chars.length : Int) + 1).toNat).map garbage).length =
      s.chars.length + 1 := by
    rw [length_map, length_range]
    omega
  have hcopy : copyNChars ((s.chars.length : Int) + 1) s.bytes
      ((List.range ((s.chars.length : Int) + 1).toNat).map garbage) = some s.bytes := by
    rw [copyNChars_eq (by simp [CString.bytes]) (by omega), drop_of_length_le (by omega)]
    simp [CString.bytes]
  unfold Queue.copyString
  rw [getStrLength_eq, int_eq (by omega) (by omega)]
  exact hcopy

theorem copyString_eq_none (garbage : Nat → UInt8) (s : CString)
    (hs : 2 ^ 31 ≤ s.chars.length + 1) : Queue.copyString garbage s.bytes = none := by
  unfold Queue.copyString
  rw [getStrLength_eq, int_eq_none (by omega)]
  rfl

theorem stringAt_append {s : List UInt8} (hs : 0 ∉ s) (rest : List UInt8) :
    stringAt (s ++ 0 :: rest) = s := by
  unfold stringAt
  rw [takeWhile_append_of_pos]
  · simp
  · intro c hc
    exact decide_eq_true fun heq => hs (heq ▸ hc)

/-! ## The elements -/

/-- The link of an element. -/
def linkOf (mem : Nat → Option Ele) (a : Nat) : Option (Option Nat) := (mem a).map Ele.next

/-- The element at an address holds a string. -/
structure Stores (q : Queue) (x : Nat × CString) : Prop where
  value : (q.mem x.1).map Ele.value = some x.2.bytes
  below : x.1 < q.fresh
  short : x.2.chars.length + 1 < 2 ^ 31

/-- The elements that the pointers of the queue lead through, with their strings. -/
structure Represents (q : Queue) (l : List (Nat × CString)) : Prop where
  seg : Seg (linkOf q.mem) q.head (l.map Prod.fst) none
  stores : ∀ x ∈ l, Stores q x
  tail : q.tail = (l.map Prod.fst).getLast?
  size : q.size = l.length
  nodup : (l.map Prod.fst).Nodup
  few : l.length < 2 ^ 31

section Memory

variable {mem : Nat → Option Ele} {a b : Nat} {p : Option Nat}

theorem setNext_ne (h : b ≠ a) : setNext mem a p b = mem b := update_of_ne h _ _

theorem linkOf_setNext (h : mem a ≠ none) : linkOf (setNext mem a p) a = some p := by
  unfold linkOf setNext
  rw [update_self]
  cases hmem : mem a with
  | none => exact absurd hmem h
  | some e => rfl

theorem linkOf_setNext_ne (h : b ≠ a) : linkOf (setNext mem a p) b = linkOf mem b :=
  congrArg (Option.map Ele.next) (setNext_ne h)

/-- The strings stay where they are. -/
theorem value_setNext (b : Nat) : (setNext mem a p b).map Ele.value = (mem b).map Ele.value := by
  by_cases h : b = a
  · subst h
    unfold setNext
    rw [update_self, Option.map_map]
    rfl
  · rw [setNext_ne h]

end Memory

theorem Stores.congr {q q' : Queue} {x : Nat × CString} (h : Stores q x)
    (hmem : (q'.mem x.1).map Ele.value = (q.mem x.1).map Ele.value) (hfresh : q.fresh ≤ q'.fresh) :
    Stores q' x :=
  ⟨hmem.trans h.value, Nat.lt_of_lt_of_le h.below hfresh, h.short⟩

/-- An element that stores a string is in memory. -/
theorem Stores.exists_ele {q : Queue} {x : Nat × CString} (h : Stores q x) :
    ∃ next, q.mem x.1 = some ⟨x.2.bytes, next⟩ := by
  have hvalue := h.value
  cases hmem : q.mem x.1 with
  | none =>
    rw [hmem] at hvalue
    cases hvalue
  | some e =>
    rw [hmem, map_some, some_inj] at hvalue
    exact ⟨e.next, by rw [← hvalue]⟩

namespace Represents

variable {q : Queue} {l : List (Nat × CString)} {x : Nat × CString}

theorem fresh_notMem (h : Represents q l) : q.fresh ∉ l.map Prod.fst := by
  intro hmem
  rcases mem_map.mp hmem with ⟨x, hx, heq⟩
  have hlt := (h.stores x hx).below
  omega

theorem length_le (h : Represents q l) : l.length ≤ q.fresh := by
  have hsub : l.map Prod.fst ⊆ List.range q.fresh := by
    intro a ha
    rcases mem_map.mp ha with ⟨x, hx, heq⟩
    exact mem_range.mpr (heq ▸ (h.stores x hx).below)
  have hle := (subperm_of_subset h.nodup hsub).length_le
  rwa [length_map, length_range] at hle

theorem qNew : Represents qNew [] where
  seg := rfl
  stores := by
    intro x hx
    cases hx
  tail := rfl
  size := rfl
  nodup := nodup_nil
  few := by decide

/-! ## Insertion -/

/-- A new element does not change those that exist. -/
theorem mem_update (h : Represents q l) (e : Ele) (hx : x ∈ l) :
    Function.update q.mem q.fresh (some e) x.1 = q.mem x.1 := by
  have hne : x.1 ≠ q.fresh := Nat.ne_of_lt (h.stores x hx).below
  exact update_of_ne hne _ _

theorem seg_update (h : Represents q l) (e : Ele) :
    Seg (linkOf (Function.update q.mem q.fresh (some e))) q.head (l.map Prod.fst) none := by
  refine h.seg.congr fun a ha => ?_
  rcases mem_map.mp ha with ⟨x, hx, heq⟩
  rw [← heq]
  exact congrArg (Option.map Ele.next) (h.mem_update e hx)

theorem size_succ (h : Represents q l) (hl : l.length + 1 < 2 ^ 31) :
    int (q.size + 1) = some (q.size + 1) := by
  rw [h.size]
  exact int_eq (by omega) (by omega)

theorem insertHead (h : Represents q l) (garbage : Nat → UInt8) (s : CString)
    (hs : s.chars.length + 1 < 2 ^ 31) (hl : l.length + 1 < 2 ^ 31) :
    ∃ q', q.qInsertHead garbage s.bytes = some q' ∧ Represents q' ((q.fresh, s) :: l) := by
  have hnew : Function.update q.mem q.fresh (some ⟨s.bytes, q.head⟩) q.fresh =
      some ⟨s.bytes, q.head⟩ := update_self _ _ _
  refine ⟨⟨q.size + 1, some q.fresh, if q.tail = none then some q.fresh else q.tail,
    Function.update q.mem q.fresh (some ⟨s.bytes, q.head⟩), q.fresh + 1⟩, ?_, ?_⟩
  · unfold Queue.qInsertHead
    rw [copyString_eq garbage s hs, h.size_succ hl]
    rfl
  · refine ⟨⟨rfl, q.head, ?_, h.seg_update _⟩, ?_, ?_, ?_, ?_, hl⟩
    · exact congrArg (Option.map Ele.next) hnew
    · refine forall_mem_cons.mpr ⟨⟨?_, Nat.lt_succ_self _, hs⟩, fun x hx => ?_⟩
      · exact congrArg (Option.map Ele.value) hnew
      · exact (h.stores x hx).congr (congrArg _ (h.mem_update _ hx)) (Nat.le_succ _)
    · -- the tail changes only when the list was empty
      dsimp only
      rw [h.tail, map_cons]
      cases l with
      | nil => rfl
      | cons y l =>
        rw [map_cons, getLast?_cons_cons, if_neg]
        rw [getLast?_eq_none_iff]
        exact cons_ne_nil _ _
    · dsimp only
      rw [h.size, length_cons]
      rfl
    · rw [map_cons, nodup_cons]
      exact ⟨h.fresh_notMem, h.nodup⟩

theorem insertTail (h : Represents q l) (garbage : Nat → UInt8) (s : CString)
    (hs : s.chars.length + 1 < 2 ^ 31) (hl : l.length + 1 < 2 ^ 31) :
    ∃ q', q.qInsertTail garbage s.bytes = some q' ∧ Represents q' (l ++ [(q.fresh, s)]) := by
  have hnew : Function.update q.mem q.fresh (some ⟨s.bytes, none⟩) q.fresh =
      some ⟨s.bytes, none⟩ := update_self _ _ _
  have hmap : (l ++ [(q.fresh, s)]).map Prod.fst = l.map Prod.fst ++ [q.fresh] := by simp
  have hnodup : ((l ++ [(q.fresh, s)]).map Prod.fst).Nodup := by
    rw [hmap, nodup_append]
    refine ⟨h.nodup, pairwise_singleton _ _, ?_⟩
    intro a ha b hb heq
    rw [heq, mem_singleton.mp hb] at ha
    exact h.fresh_notMem ha
  have hlength : (l ++ [(q.fresh, s)]).length = l.length + 1 := length_append
  have hlast : (l.map Prod.fst ++ [q.fresh]).getLast? = some q.fresh := getLast?_concat
  unfold Queue.qInsertTail
  rw [copyString_eq garbage s hs, h.size_succ hl]
  dsimp only [bind_eq_bind, bind_some]
  rcases eq_nil_or_concat l with hnil | ⟨init, z, hconcat⟩
  · subst hnil
    have hhead : q.head = none := h.seg
    rw [if_pos ⟨hhead, h.tail⟩]
    refine ⟨_, rfl, ?_, ?_, rfl, ?_, hnodup, by omega⟩
    · exact ⟨rfl, none, congrArg (Option.map Ele.next) hnew, rfl⟩
    · exact forall_mem_singleton.mpr
        ⟨congrArg (Option.map Ele.value) hnew, Nat.lt_succ_self _, hs⟩
    · dsimp only
      rw [h.size]
      rfl
  · -- the last element gets the new one as its next
    rw [concat_eq_append] at hconcat
    have hz : z ∈ l := by simp [hconcat]
    have hzne : z.1 ≠ q.fresh := Nat.ne_of_lt (h.stores z hz).below
    have htail : q.tail = some z.1 := by
      rw [h.tail, hconcat, map_append, map_singleton, getLast?_concat]
    have hold := h.mem_update ⟨s.bytes, none⟩ hz
    rcases (h.stores z hz).exists_ele with ⟨next, hele⟩
    rw [if_neg (by simp [htail]), htail, bind_some, hold, hele, bind_some]
    refine ⟨_, rfl, ?_, ?_, ?_, ?_, hnodup, by omega⟩
    · have hseg := h.seg_update ⟨s.bytes, none⟩
      have hnotin : z.1 ∉ init.map Prod.fst := by
        have hnd := h.nodup
        rw [hconcat, map_append, map_singleton, nodup_append] at hnd
        exact fun hin => hnd.2.2 z.1 hin z.1 (mem_singleton_self _) rfl
      rw [hconcat, map_append, map_singleton, Seg.append] at hseg
      rcases hseg with ⟨r, hinit, hlast⟩
      dsimp only
      rw [hmap, hconcat, map_append, map_singleton, Seg.append]
      refine ⟨some q.fresh, ?_, ?_⟩
      · rw [Seg.append]
        refine ⟨r, hinit.congr fun a ha => linkOf_setNext_ne fun heq => hnotin (heq ▸ ha), ?_⟩
        rw [Seg.singleton] at hlast ⊢
        refine ⟨hlast.1, linkOf_setNext ?_⟩
        rw [hold, hele]
        exact some_ne_none _
      · rw [Seg.singleton]
        refine ⟨rfl, (linkOf_setNext_ne hzne.symm).trans ?_⟩
        exact congrArg (Option.map Ele.next) hnew
    · intro x hx
      rcases mem_append.mp hx with hx | hx
      · refine (h.stores x hx).congr ?_ (Nat.le_succ _)
        exact (value_setNext x.1).trans (congrArg _ (h.mem_update _ hx))
      · rw [mem_singleton.mp hx]
        exact ⟨(value_setNext q.fresh).trans (congrArg (Option.map Ele.value) hnew),
          Nat.lt_succ_self _, hs⟩
    · rw [hmap, hlast]
    · dsimp only
      rw [h.size, hlength]
      rfl

/-- A string or a list that is too long. -/
theorem insert_none (h : Represents q l) (garbage : Nat → UInt8) (s : CString)
    (hlong : ¬ (s.chars.length + 1 < 2 ^ 31 ∧ l.length + 1 < 2 ^ 31)) :
    q.qInsertHead garbage s.bytes = none ∧ q.qInsertTail garbage s.bytes = none := by
  unfold Queue.qInsertHead Queue.qInsertTail
  by_cases hs : s.chars.length + 1 < 2 ^ 31
  · have hsize : int (q.size + 1) = none := by
      rw [h.size]
      exact int_eq_none (by omega)
    rw [copyString_eq garbage s hs, hsize]
    exact ⟨rfl, rfl⟩
  · rw [copyString_eq_none garbage s (by omega)]
    exact ⟨rfl, rfl⟩

/-! ## Removal -/

theorem removeHead_nil (h : Represents q []) (sp : Buffer) :
    q.qRemoveHead sp.bytes sp.bytes.length = some (q, sp.bytes, false) := by
  have hhead : q.head = none := h.seg
  unfold Queue.qRemoveHead
  rw [hhead]

/-- What a removal leaves in the buffer starts with the string that fits. -/
theorem copy_removed (s : CString) (hs : s.chars.length + 1 < 2 ^ 31) (sp : Buffer) :
    ∃ strLen bytes, getStrLength s.bytes = some strLen ∧
      Queue.copyRemoved strLen s.bytes sp.bytes sp.bytes.length = some bytes ∧
      stringAt bytes = s.chars.take (sp.bytes.length - 1) := by
  have hpos : 0 < sp.bytes.length := length_pos_iff.mpr sp.nonempty
  have hlength : s.bytes.length = s.chars.length + 1 := length_append
  have htake (n : Nat) (hn : n ≤ s.chars.length) : s.bytes.take n = s.chars.take n :=
    take_append_of_le_length hn
  have hnonzero (n : Nat) : 0 ∉ s.chars.take n := fun h => s.nonzero (mem_of_mem_take h)
  refine ⟨(s.chars.length : Int) + 1, ?_⟩
  have htoNat : ((s.chars.length : Int) + 1).toNat = s.chars.length + 1 := by omega
  unfold Queue.copyRemoved
  rw [getStrLength_eq, int_eq (by omega) (by omega), htoNat]
  by_cases hfit : sp.bytes.length < s.chars.length + 1
  · have hmod : (sp.bytes.length : Int).bmod (2 ^ 32) = ((sp.bytes.length - 1 : Nat) : Int) + 1 := by
      rw [Int.bmod_def]
      omega
    rw [if_pos hfit, hmod, copyNChars_eq (by omega) (by omega), htake _ (by omega)]
    exact ⟨_, rfl, rfl, stringAt_append (hnonzero _) _⟩
  · rw [if_neg hfit, copyNChars_eq (by omega) (by omega), htake _ (Nat.le_refl _)]
    refine ⟨_, rfl, rfl, ?_⟩
    rw [stringAt_append (hnonzero _), take_of_length_le (Nat.le_refl _),
      take_of_length_le (by omega)]

theorem removeHead_cons (h : Represents q (x :: l)) (sp : Buffer) :
    ∃ q' bytes, q.qRemoveHead sp.bytes sp.bytes.length = some (q', bytes, true) ∧
      Represents q' l ∧ stringAt bytes = x.2.chars.take (sp.bytes.length - 1) := by
  have hx := h.stores x mem_cons_self
  rcases h.seg with ⟨hhead, next, hnext, hseg⟩
  rcases hx.exists_ele with ⟨next', hele⟩
  have hlink : next' = next := by
    rw [linkOf, hele] at hnext
    exact some.inj hnext
  subst hlink
  rcases copy_removed x.2 hx.short sp with ⟨strLen, bytes, hlen, hcopy, hstring⟩
  have hnodup := h.nodup
  rw [map_cons, nodup_cons] at hnodup
  have hfew := h.few
  rw [length_cons] at hfew
  have hcount : q.size = l.length + 1 := h.size
  have hsize : int (q.size - 1) = some (q.size - 1) := int_eq (by omega) (by omega)
  -- the element that is freed is not among those that remain
  have hrest : ∀ y ∈ l, Function.update q.mem x.1 none y.1 = q.mem y.1 := by
    intro y hy
    have hne : y.1 ≠ x.1 := fun heq => hnodup.1 (heq ▸ mem_map_of_mem hy)
    exact update_of_ne hne _ _
  refine ⟨⟨q.size - 1, next', if next' = none then none else q.tail,
    Function.update q.mem x.1 none, q.fresh⟩, bytes, ?_, ?_, hstring⟩
  · unfold Queue.qRemoveHead
    rw [hhead]
    dsimp only
    rw [hele]
    dsimp only [bind_eq_bind, bind_some]
    rw [hlen]
    dsimp only [bind_some]
    rw [hcopy]
    dsimp only [bind_some]
    rw [hsize]
    rfl
  · refine ⟨?_, ?_, ?_, ?_, hnodup.2, by omega⟩
    · refine hseg.congr fun a ha => ?_
      rcases mem_map.mp ha with ⟨y, hy, heq⟩
      rw [← heq]
      exact congrArg (Option.map Ele.next) (hrest y hy)
    · intro y hy
      exact (h.stores y (mem_cons_of_mem _ hy)).congr (congrArg _ (hrest y hy)) (Nat.le_refl _)
    · dsimp only
      rw [h.tail, map_cons]
      cases l with
      | nil =>
        have hnull : next' = none := hseg
        rw [if_pos hnull]
        rfl
      | cons y l =>
        have hsome : next' = some y.1 := hseg.1
        rw [if_neg (by simp [hsome]), map_cons, getLast?_cons_cons]
    · dsimp only
      omega

/-! ## Reversal -/

/-- The loop turns the links of the elements from `nextNode` on, and the last of them is
turned after it. -/
theorem reverseLoop_spec (currNode : Nat) {fuel : Nat} {mem : Nat → Option Ele} {nextNode : Nat}
    {addrs : List Nat} (hseg : Seg (linkOf mem) (some nextNode) (nextNode :: addrs) none)
    (hnodup : (nextNode :: addrs).Nodup) (hfuel : addrs.length < fuel) :
    ∃ mem' currNode' last, Queue.reverseLoop fuel mem currNode nextNode =
        some (mem', currNode', last) ∧ (nextNode :: addrs).getLast? = some last ∧
      Seg (linkOf (setNext mem' last (some currNode'))) (some last) (nextNode :: addrs).reverse
        (some currNode) ∧
      (∀ a ∉ nextNode :: addrs, setNext mem' last (some currNode') a = mem a) ∧
      ∀ a, (setNext mem' last (some currNode') a).map Ele.value = (mem a).map Ele.value := by
  induction addrs generalizing fuel mem currNode nextNode with
  | nil =>
    obtain ⟨fuel, rfl⟩ : ∃ n, fuel = n + 1 := ⟨fuel - 1, by omega⟩
    rw [Seg.singleton] at hseg
    rcases map_eq_some_iff.mp hseg.2 with ⟨ele, hele, hnull⟩
    have hne : mem nextNode ≠ none := by
      rw [hele]
      exact some_ne_none _
    refine ⟨mem, currNode, nextNode, ?_, rfl, ?_, ?_, value_setNext⟩
    · unfold Queue.reverseLoop
      rw [hele]
      dsimp only [bind_eq_bind, bind_some]
      rw [hnull]
    · rw [reverse_singleton, Seg.singleton]
      exact ⟨rfl, linkOf_setNext hne⟩
    · intro a ha
      exact setNext_ne (ne_of_not_mem_cons ha)
  | cons tempNode addrs ih =>
    obtain ⟨fuel, rfl⟩ : ∃ n, fuel = n + 1 := ⟨fuel - 1, by omega⟩
    rw [nodup_cons] at hnodup
    rcases hseg with ⟨-, next, hnext, hrest⟩
    cases hrest.1
    rcases map_eq_some_iff.mp hnext with ⟨ele, hele, hlink⟩
    have hne : mem nextNode ≠ none := by
      rw [hele]
      exact some_ne_none _
    have hrest' : Seg (linkOf (setNext mem nextNode (some currNode))) (some tempNode)
        (tempNode :: addrs) none :=
      hrest.congr fun a ha => linkOf_setNext_ne fun heq => hnodup.1 (heq ▸ ha)
    rcases ih nextNode hrest' hnodup.2 (Nat.lt_of_succ_lt_succ hfuel) with
      ⟨mem', currNode', last, hrun, hlast, hseg', hsame, hvalue⟩
    refine ⟨mem', currNode', last, ?_, ?_, ?_, ?_, ?_⟩
    · unfold Queue.reverseLoop
      rw [hele]
      dsimp only [bind_eq_bind, bind_some]
      rw [hlink]
      exact hrun
    · rw [getLast?_cons_cons]
      exact hlast
    · rw [reverse_cons, Seg.append]
      refine ⟨some nextNode, hseg', Seg.singleton.mpr ⟨rfl, ?_⟩⟩
      have hkept := congrArg (Option.map Ele.next) (hsame nextNode hnodup.1)
      exact hkept.trans (linkOf_setNext hne)
    · intro a ha
      rw [mem_cons, not_or] at ha
      rw [hsame a ha.2, setNext_ne ha.1]
    · intro a
      rw [hvalue a, value_setNext]

theorem reverse (h : Represents q l) : ∃ q', q.qReverse = some q' ∧ Represents q' l.reverse := by
  rcases l with _ | ⟨x, _ | ⟨y, l⟩⟩
  · have hhead : q.head = none := h.seg
    refine ⟨q, ?_, h⟩
    unfold Queue.qReverse
    rw [hhead]
  · rcases h.seg with ⟨hhead, next, hnext, hnull⟩
    cases hnull
    rcases map_eq_some_iff.mp hnext with ⟨ele, hele, hlink⟩
    refine ⟨q, ?_, h⟩
    unfold Queue.qReverse
    rw [hhead]
    dsimp only
    rw [hele]
    dsimp only [bind_eq_bind, bind_some]
    rw [hlink]
  · have hnodup := h.nodup
    rcases h.seg with ⟨hhead, next, hnext, hseg⟩
    rw [map_cons, nodup_cons] at hnodup
    have hstart := hseg.1
    subst hstart
    rcases map_eq_some_iff.mp hnext with ⟨ele, hele, hlink⟩
    have hfuel : (l.map Prod.fst).length < q.fresh := by
      have hle := h.length_le
      rw [length_cons, length_cons] at hle
      rw [length_map]
      omega
    rcases reverseLoop_spec x.1 hseg hnodup.2 hfuel with
      ⟨mem', currNode', last, hrun, hlast, hseg', hsame, hvalue⟩
    have hmap : ((x :: y :: l).reverse).map Prod.fst =
        (y.1 :: l.map Prod.fst).reverse ++ [x.1] := by
      rw [map_reverse, map_cons, map_cons, reverse_cons]
    have htail : q.tail = some last := by
      rw [h.tail, map_cons, map_cons, getLast?_cons_cons]
      exact hlast
    have hne : setNext mem' last (some currNode') x.1 ≠ none := by
      rw [hsame x.1 hnodup.1, hele]
      exact some_ne_none _
    refine ⟨{ q with
      head := q.tail
      tail := q.head
      mem := setNext (setNext mem' last (some currNode')) x.1 none }, ?_, ?_⟩
    · unfold Queue.qReverse
      rw [hhead]
      dsimp only
      rw [hele]
      dsimp only [bind_eq_bind, bind_some]
      rw [hlink]
      dsimp only
      rw [hrun]
      rfl
    · refine ⟨?_, ?_, ?_, ?_, ?_, ?_⟩
      · -- the old head ends the list
        dsimp only
        rw [htail, hmap, Seg.append]
        refine ⟨some x.1, hseg'.congr fun a ha => ?_, Seg.singleton.mpr ⟨rfl, linkOf_setNext hne⟩⟩
        rw [mem_reverse] at ha
        exact linkOf_setNext_ne fun heq => hnodup.1 (heq ▸ ha)
      · intro z hz
        refine (h.stores z (mem_reverse.mp hz)).congr ?_ (Nat.le_refl _)
        exact (value_setNext z.1).trans (hvalue z.1)
      · dsimp only
        rw [hmap, getLast?_concat, hhead]
      · dsimp only
        rw [h.size, length_reverse]
      · rw [map_reverse]
        exact nodup_reverse.mpr h.nodup
      · rw [length_reverse]
        exact h.few

end Represents

/-! ## Runs -/

/-- An `int` can count the string with its terminator, and the list with one string more. -/
def Call.Fits (l : List CString) : Call → Prop
  | insertHead _ s => s.chars.length + 1 < 2 ^ 31 ∧ l.length + 1 < 2 ^ 31
  | insertTail _ s => s.chars.length + 1 < 2 ^ 31 ∧ l.length + 1 < 2 ^ 31
  | removeHead _ => True
  | reverse => True

/-- Every call of a sequence fits. -/
def AllFit : List CString → List Call → Prop
  | _, [] => True
  | l, c :: calls => c.Fits l ∧ AllFit (c.spec l).1 calls

section Calls

variable {q : Queue} {l : List (Nat × CString)}

theorem Represents.call (h : Represents q l) {c : Call} (hfits : c.Fits (l.map Prod.snd)) :
    ∃ q' l', c.run q = some (q', (c.spec (l.map Prod.snd)).2) ∧ Represents q' l' ∧
      l'.map Prod.snd = (c.spec (l.map Prod.snd)).1 := by
  cases c with
  | insertHead garbage s =>
    rcases hfits with ⟨hs, hl⟩
    rw [length_map] at hl
    rcases h.insertHead garbage s hs hl with ⟨q', hrun, h'⟩
    exact ⟨q', _, congrArg (Option.map _) hrun, h', rfl⟩
  | insertTail garbage s =>
    rcases hfits with ⟨hs, hl⟩
    rw [length_map] at hl
    rcases h.insertTail garbage s hs hl with ⟨q', hrun, h'⟩
    exact ⟨q', _, congrArg (Option.map _) hrun, h', map_append⟩
  | removeHead sp =>
    cases l with
    | nil => exact ⟨q, [], congrArg (Option.map _) (h.removeHead_nil sp), h, rfl⟩
    | cons x l =>
      rcases h.removeHead_cons sp with ⟨q', bytes, hrun, h', hstring⟩
      refine ⟨q', l, ?_, h', rfl⟩
      have hanswer : (Call.removeHead sp).run q = some (q', some (stringAt bytes)) :=
        congrArg (Option.map _) hrun
      rw [hanswer, hstring]
      rfl
  | reverse =>
    rcases h.reverse with ⟨q', hrun, h'⟩
    exact ⟨q', _, congrArg (Option.map _) hrun, h', map_reverse⟩

theorem Represents.call_none (h : Represents q l) {c : Call} (hlong : ¬ c.Fits (l.map Prod.snd)) :
    c.run q = none := by
  cases c with
  | insertHead garbage s =>
    unfold Call.Fits at hlong
    rw [length_map] at hlong
    exact congrArg (Option.map _) (h.insert_none garbage s hlong).1
  | insertTail garbage s =>
    unfold Call.Fits at hlong
    rw [length_map] at hlong
    exact congrArg (Option.map _) (h.insert_none garbage s hlong).2
  | removeHead sp | reverse => exact absurd trivial hlong

/-- A sequence of calls that fit, and one that does not. -/
theorem Represents.calls (h : Represents q l) (calls : List Call) :
    (AllFit (l.map Prod.snd) calls → ∃ q' l',
      runCalls q calls = some (q', (specCalls (l.map Prod.snd) calls).2) ∧ Represents q' l' ∧
      l'.map Prod.snd = (specCalls (l.map Prod.snd) calls).1) ∧
    (¬ AllFit (l.map Prod.snd) calls → runCalls q calls = none) := by
  induction calls generalizing q l with
  | nil => exact ⟨fun _ => ⟨q, l, rfl, h, rfl⟩, fun hnot => absurd trivial hnot⟩
  | cons c calls ih =>
    unfold AllFit runCalls specCalls
    by_cases hfits : c.Fits (l.map Prod.snd)
    · rcases h.call hfits with ⟨q₁, l₁, hrun, h₁, hlist⟩
      rw [hrun]
      dsimp only [bind_eq_bind, bind_some]
      rcases ih h₁ with ⟨hsome, hnone⟩
      rw [hlist] at hsome hnone
      constructor
      · intro ⟨_, hall⟩
        rcases hsome hall with ⟨q', l', hlater, h', hlist'⟩
        rw [hlater]
        exact ⟨q', l', rfl, h', hlist'⟩
      · intro hnot
        rw [hnone fun hall => hnot ⟨hfits, hall⟩]
        rfl
    · rw [h.call_none hfits]
      exact ⟨fun hall => absurd hall.1 hfits, fun _ => rfl⟩

end Calls

/-- The calls on a new queue give the answers of the list, and in the end the elements hold
the list from the head to the tail and the size is its length. -/
def RefinesList (calls : List Call) : Prop :=
  ∃ q l, runCalls qNew calls = some (q, (specCalls [] calls).2) ∧ Represents q l ∧
    l.map Prod.snd = (specCalls [] calls).1 ∧ q.qSize = (specCalls [] calls).1.length

/-- The queue is a list of strings as long as an `int` can count the strings and their
characters. -/
theorem queue_refines_list_iff (calls : List Call) : RefinesList calls ↔ AllFit [] calls := by
  rcases Represents.qNew.calls calls with ⟨hsome, hnone⟩
  constructor
  · intro ⟨q, l, hrun, _⟩
    by_contra hnot
    rw [hnone hnot] at hrun
    cases hrun
  · intro hall
    rcases hsome hall with ⟨q, l, hrun, h, hlist⟩
    refine ⟨q, l, hrun, h, hlist, ?_⟩
    have hlength := congrArg List.length hlist
    rw [length_map] at hlength
    exact h.size.trans (congrArg Nat.cast hlength)

theorem zero_notMem_letters (n : Nat) : (0 : UInt8) ∉ List.replicate n 97 := by
  intro h
  exact absurd (eq_of_mem_replicate h) (by decide)

/-- The string of `n` letters. -/
def letters (n : Nat) : CString := ⟨List.replicate n 97, zero_notMem_letters n⟩

/-- A string of `2 ^ 31 - 1` characters has a length that no `int` holds. -/
theorem not_queue_refines_list : ¬ ∀ calls, RefinesList calls := by
  intro hall
  rcases hall [.insertHead (fun _ => 0) (letters (2 ^ 31 - 1))] with ⟨q, l, hrun, -⟩
  have hlong : ¬ (Call.insertHead (fun _ => 0) (letters (2 ^ 31 - 1))).Fits [] := by
    intro hfits
    have hlength : (letters (2 ^ 31 - 1)).chars.length = 2 ^ 31 - 1 := length_replicate
    have hlt := hfits.1
    omega
  have hnone := Represents.qNew.call_none hlong
  unfold runCalls at hrun
  rw [hnone] at hrun
  cases hrun

end PittCs.QueueLab
