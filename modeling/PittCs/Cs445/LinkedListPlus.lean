import PittCs.Cs445.ListSpecs

/-!
# LinkedListPlus refines a list

What rotations, reversal, the copy constructor and changes at a position do to the ring of
an object, and then programs of such calls on several objects.
-/

namespace PittCs.Cs445

open Lib Function List Option

variable {T : Type} {h h' : Heap T} {this : Ref} {ps qs : List Ptr} {xs : List T} {x : T}

theorem IsList.firstNode (hl : IsList h this ps xs) : getFirstNode this h = .ok ps.head? h := by
  rw [getFirstNode_run, hl.list]

/-! ## Rotations -/

theorem walk_next_ring {l : List Ptr} (hl : l ≠ []) (hring : Ring h.next h.prev l) (k : Nat) :
    walk getNextNode k l.head? h = .ok (l.rotate k).head? h := by
  induction k generalizing l with
  | zero =>
    rw [rotate_zero]
    rfl
  | succ k ih =>
    cases l with
    | nil => exact absurd rfl hl
    | cons a l =>
      have hrest := ih (append_ne_nil_of_right_ne_nil l (cons_ne_nil a [])) hring.rotate_one
      unfold walk
      rw [head?_cons, bind_ok (getNextNode_run a), hring.next_head, hrest,
        rotate_cons_succ]

theorem prev_rotate_one {l : List Ptr} (hl : l ≠ []) (hring : Ring h.next h.prev l) :
    getPrevNode (l.rotate 1).head? h = .ok l.head? h := by
  cases l with
  | nil => exact absurd rfl hl
  | cons a l =>
    have hprev := hring.rotate_one.prev_head
    rw [rotate_cons_succ, rotate_zero]
    cases hhead : (l ++ [a]).head? with
    | none => cases l <;> cases hhead
    | some b =>
      rw [hhead] at hprev
      rw [getPrevNode_run, head?_cons]
      exact congrArg (fun p => EStateM.Result.ok p h) hprev

theorem walk_prev_ring {l : List Ptr} (hl : l ≠ []) (hring : Ring h.next h.prev l) (k : Nat) :
    walk getPrevNode k (l.rotate k).head? h = .ok l.head? h := by
  induction k with
  | zero =>
    rw [rotate_zero]
    rfl
  | succ k ih =>
    have hne : l.rotate k ≠ [] := fun heq => hl (rotate_eq_nil_iff.mp heq)
    unfold walk
    rw [← rotate_rotate, bind_ok (prev_rotate_one hne (hring.rotate k))]
    exact ih

/-- The memory after only the fields of an object have changed. -/
def Heap.setFields (h : Heap T) (this : Ref) (l : A2LList) : Heap T :=
  { h with list := Function.update h.list this l }

theorem frame_setFields {l : A2LList} (hsub : ∀ q ∈ qs, q ∈ ps) :
    Frame this h ps (h.setFields this l) qs where
  data _ _ _ := rfl
  next _ _ _ := rfl
  prev _ _ _ := rfl
  list _ hr := update_of_ne hr _ _
  nodes := Nat.le_refl _
  lists := Nat.le_refl _
  owned q hq := Or.inl (hsub q hq)

theorem IsList.rotate (hl : IsList h this ps xs) (n : Nat) :
    IsList (h.setFields this ⟨(ps.rotate n).head?, ps.length⟩) this (ps.rotate n) (xs.rotate n) ∧
      Frame this h ps (h.setFields this ⟨(ps.rotate n).head?, ps.length⟩) (ps.rotate n) := by
  constructor
  · constructor
    case list =>
      rw [length_rotate]
      exact update_self _ _ _
    case ring => exact hl.ring.rotate n
    case data =>
      show (ps.rotate n).map h.data = _
      rw [map_rotate, map_rotate, hl.data]
    case nodes => exact fun p hp => hl.nodes p (mem_rotate.mp hp)
    case lists => exact hl.lists
  · exact frame_setFields fun p hp => mem_rotate.mp hp

theorem floorMod_run {n : Nat} (hn : n ≠ 0) (num : Int) :
    floorMod num n h = .ok (num % n) h := if_neg hn

/-- How far a rotation by `num` goes to the left. -/
def turn (num : Int) (n : Nat) : Nat := (num % n).toNat

/-- Turning back after a turn is turning around. -/
theorem rotate_turn_neg (l : List Ptr) (num : Int) (hl : l ≠ []) :
    (l.rotate (turn (-num) l.length)).rotate (turn num l.length) = l := by
  have hpos : (l.length : Int) ≠ 0 := by
    have hlen := length_pos_iff.mpr hl
    omega
  have hmod : (turn (-num) l.length + turn num l.length) % l.length = 0 := by
    have hsum : (((turn (-num) l.length + turn num l.length) % l.length : Nat) : Int) = 0 := by
      unfold turn
      rw [Int.natCast_emod, Int.natCast_add, Int.toNat_of_nonneg (Int.emod_nonneg _ hpos),
        Int.toNat_of_nonneg (Int.emod_nonneg _ hpos), ← Int.add_emod, Int.add_left_neg,
        Int.zero_emod]
    exact_mod_cast hsum
  rw [rotate_rotate, ← rotate_mod, hmod, rotate_zero]

theorem leftRotate_spec (hl : IsList h this ps xs) (hne : xs ≠ []) (num : Int) :
    ∃ h', leftRotate this num h = .ok () h' ∧
      IsList h' this (ps.rotate (turn num xs.length)) (xs.rotate (turn num xs.length)) ∧
      Frame this h ps h' (ps.rotate (turn num xs.length)) := by
  have hpos : xs.length ≠ 0 := fun hlen => hne (length_eq_zero_iff.mp hlen)
  have hps : ps ≠ [] := fun heq => hpos (by rw [← hl.length_eq, heq]; rfl)
  have hwalk : walk getNextNode (num % xs.length).toNat ps.head? h =
      .ok (ps.rotate (turn num xs.length)).head? h := walk_next_ring hps hl.ring _
  refine ⟨_, ?_, hl.rotate (turn num xs.length)⟩
  unfold leftRotate
  rw [bind_ok getNumberOfEntries_run, hl.numberOfEntries, bind_ok (floorMod_run hpos num),
    bind_ok hl.firstNode, bind_ok hwalk, setFirstNode_run, hl.list]
  rfl

theorem rightRotate_spec (hl : IsList h this ps xs) (hne : xs ≠ []) (num : Int) :
    ∃ h', rightRotate this num h = .ok () h' ∧
      IsList h' this (ps.rotate (turn (-num) xs.length)) (xs.rotate (turn (-num) xs.length)) ∧
      Frame this h ps h' (ps.rotate (turn (-num) xs.length)) := by
  have hpos : xs.length ≠ 0 := fun hlen => hne (length_eq_zero_iff.mp hlen)
  have hps : ps ≠ [] := fun heq => hpos (by rw [← hl.length_eq, heq]; rfl)
  have hturn : (ps.rotate (turn (-num) xs.length)).rotate (turn num xs.length) = ps := by
    rw [← hl.length_eq]
    exact rotate_turn_neg ps num hps
  have hne' : ps.rotate (turn (-num) xs.length) ≠ [] := fun heq => hps (rotate_eq_nil_iff.mp heq)
  have hwalk : walk getPrevNode (num % xs.length).toNat ps.head? h =
      .ok (ps.rotate (turn (-num) xs.length)).head? h := by
    have hback := walk_prev_ring hne' (hl.ring.rotate _) (turn num xs.length)
    rw [hturn] at hback
    exact hback
  refine ⟨_, ?_, hl.rotate (turn (-num) xs.length)⟩
  unfold rightRotate
  rw [bind_ok getNumberOfEntries_run, hl.numberOfEntries, bind_ok (floorMod_run hpos num),
    bind_ok hl.firstNode, bind_ok hwalk, setFirstNode_run, hl.list]
  rfl

/-! ## Reversal -/

/-- The memory after the links of some nodes were switched. -/
def Heap.switched (h : Heap T) (qs : List Ptr) : Heap T :=
  { h with
    next := fun p => if p ∈ qs then h.prev p else h.next p
    prev := fun p => if p ∈ qs then h.next p else h.prev p }

theorem switched_cons {p : Ptr} (hp : p ∉ qs) : h.switched (p :: qs) =
    { h.switched qs with
      next := Function.update (h.switched qs).next p (h.prev p)
      prev := Function.update (h.switched qs).prev p (h.next p) } := by
  have hif : ∀ f g : Ptr → Option Ptr, (fun q => if q ∈ p :: qs then f q else g q) =
      Function.update (fun q => if q ∈ qs then f q else g q) p (f p) := by
    intro f g
    funext q
    by_cases hqp : q = p
    · subst hqp
      rw [update_self, if_pos mem_cons_self]
    · rw [update_of_ne hqp]
      simp only [mem_cons, hqp, false_or]
  unfold Heap.switched
  rw [hif, hif]

/-- One node is switched, and the loop goes on to the one before it. -/
theorem reverseLoop_succ {p : Ptr} (hp : p ∉ qs) (n : Nat) :
    reverseLoop (n + 1) (some p) (h.switched qs) = reverseLoop n (h.prev p) (h.switched (p :: qs)) := by
  have hnext : (h.switched qs).next p = h.next p := if_neg hp
  have hprev : (h.switched qs).prev p = h.prev p := if_neg hp
  have hgo : (h.switched (p :: qs)).next p = h.prev p := if_pos mem_cons_self
  rw [switched_cons hp] at hgo ⊢
  simp [reverseLoop, hnext, hprev]

theorem reverseLoop_run (rs : List Ptr) {e : Ptr} (hnodup : (rs ++ qs).Nodup)
    (hchain : (rs ++ [e]).IsChain fun p q => h.prev p = some q) :
    reverseLoop rs.length (rs ++ [e]).head? (h.switched qs) =
      .ok (some e) (h.switched (rs.reverse ++ qs)) := by
  induction rs generalizing qs with
  | nil => rfl
  | cons r rs ih =>
    have hr : r ∉ qs := fun hin =>
      (nodup_cons.mp hnodup).1 (mem_append_right rs hin)
    have hnext : h.prev r = (rs ++ [e]).head? := by
      cases rs with
      | nil | cons s rs => exact (isChain_cons_cons.mp hchain).1
    have hnodup' : (rs ++ r :: qs).Nodup :=
      nodup_middle.mpr hnodup
    have hrest := ih hnodup' (isChain_cons.mp hchain).2
    rw [reverse_cons, append_assoc, singleton_append, ← hrest, ← hnext]
    exact reverseLoop_succ hr rs.length

theorem IsList.switch (hl : IsList h this ps xs) :
    IsList ((h.switched ps).setFields this ⟨ps.getLast?, ps.length⟩) this ps.reverse xs.reverse ∧
      Frame this h ps ((h.switched ps).setFields this ⟨ps.getLast?, ps.length⟩) ps.reverse := by
  constructor
  · constructor
    case list =>
      rw [head?_reverse, length_reverse]
      exact update_self _ _ _
    case ring =>
      refine hl.ring.reverse.congr (fun p hp => ?_) fun p hp => ?_
      · exact if_pos (mem_reverse.mp hp)
      · exact if_pos (mem_reverse.mp hp)
    case data =>
      show ps.reverse.map h.data = _
      rw [map_reverse, map_reverse, hl.data]
    case nodes => exact fun p hp => hl.nodes p (mem_reverse.mp hp)
    case lists => exact hl.lists
  · constructor
    case data => exact fun _ _ _ => rfl
    case next | prev => exact fun _ _ hnot => if_neg hnot
    case list => exact fun _ hr => update_of_ne hr _ _
    case nodes | lists => exact Nat.le_refl _
    case owned => exact fun p hp => Or.inl (mem_reverse.mp hp)

theorem switched_congr {rs : List Ptr} (hmem : ∀ p, p ∈ qs ↔ p ∈ rs) :
    h.switched qs = h.switched rs := by
  unfold Heap.switched
  simp only [hmem]

theorem reverse_spec (hl : IsList h this ps xs) (hne : xs ≠ []) :
    ∃ h', reverse this h = .ok () h' ∧ IsList h' this ps.reverse xs.reverse ∧
      Frame this h ps h' ps.reverse := by
  cases ps with
  | nil => exact absurd (length_eq_zero_iff.mp hl.length_eq.symm) hne
  | cons a ps =>
    -- the loop visits the first node and then the others from the last to the second
    have hback : (a :: ps.reverse ++ [a]).IsChain fun p q => h.prev p = some q := by
      have hchain := hl.chain_prev
      rw [reverse_cons] at hchain
      refine isChain_cons.mpr ⟨fun z hz => ?_, hchain⟩
      rcases hl.exists_ends with ⟨w, hw, hprev, -, -⟩
      have hz' : z ∈ (a :: ps).getLast? := by
        rw [← head?_reverse, reverse_cons]
        exact hz
      rw [hprev, mem_unique hw hz']
    have hmem : ∀ p, p ∈ (a :: ps.reverse).reverse ++ [] ↔ p ∈ a :: ps := fun p => by
      simp [or_comm]
    have hnodup : (a :: ps.reverse ++ []).Nodup := by
      have hps := hl.ring.nodup
      simp only [append_nil, nodup_cons, mem_reverse, nodup_reverse] at hps ⊢
      exact hps
    have hloop := reverseLoop_run (a :: ps.reverse) hnodup hback
    have hswitched : h.switched [] = h := rfl
    rw [switched_congr hmem, hswitched, length_cons, length_reverse] at hloop
    have hlast : (h.switched (a :: ps)).next a = (a :: ps).getLast? := by
      rcases hl.exists_ends with ⟨w, hw, hprev, -, -⟩
      rw [mem_def.mp hw, ← hprev]
      exact if_pos mem_cons_self
    refine ⟨_, ?_, hl.switch⟩
    have hcount : getNumberOfEntries this h = .ok (ps.length + 1) h := by
      rw [getNumberOfEntries_run, hl.list]
      rfl
    unfold reverse
    rw [bind_ok hcount, bind_ok hl.firstNode]
    have hloop' : reverseLoop (ps.length + 1) (a :: ps).head? h =
      .ok (some a) (h.switched (a :: ps)) := hloop
    rw [bind_ok hloop', bind_ok (getNextNode_run a), hlast, setFirstNode_run]
    have hfields : (h.switched (a :: ps)).list this = ⟨some a, ps.length + 1⟩ := hl.list
    rw [hfields]
    rfl

/-! ## Changes at a position -/

theorem getNodeAt_run (hl : IsList h this ps xs) {i : Nat} (hi : i < ps.length) :
    getNodeAt this (i + 1) h = .ok ps[i]? h := by
  cases ps with
  | nil => cases hi
  | cons a ps =>
    unfold getNodeAt
    rw [bind_ok hl.firstNode, Nat.add_sub_cancel]
    exact walk_run (fun _ => getNextNode_run _) hl.chain_next hi

/-- The memory after a node was made that nothing leads to yet. -/
def Heap.allocated (h : Heap T) (x : T) : Heap T where
  data := Function.update h.data h.nodes (some x)
  next := Function.update h.next h.nodes none
  prev := Function.update h.prev h.nodes none
  list := h.list
  nodes := h.nodes + 1
  lists := h.lists

theorem IsList.allocated (hl : IsList h this ps xs) (x : T) : IsList (h.allocated x) this ps xs := by
  have hne : ∀ p ∈ ps, p ≠ h.nodes := fun p hp => Nat.ne_of_lt (hl.nodes p hp)
  constructor
  case list => exact hl.list
  case ring =>
    exact hl.ring.congr (fun p hp => update_of_ne (hne p hp) _ _)
      fun p hp => update_of_ne (hne p hp) _ _
  case data =>
    rw [← hl.data]
    exact map_congr_left fun p hp => update_of_ne (hne p hp) _ _
  case nodes => exact fun p hp => Nat.lt_succ_of_lt (hl.nodes p hp)
  case lists => exact hl.lists

theorem addAt_run_between {i n : Nat} {f z a : Ptr} (hlist : h.list this = ⟨some f, n + 1⟩)
    (hi : i ≤ n) (hwalk : getNodeAt this (i + 1) (h.allocated x) = .ok (some z) (h.allocated x))
    (hza : h.next z = some a) (hz : z ≠ h.nodes) (ha : a ≠ h.nodes) :
    addAt this (i + 2) x h = .ok true (h.linkIn this x z a ⟨some f, n + 2⟩) := by
  unfold Heap.allocated at hwalk
  simp [addAt, isEmpty, hlist, hi, hwalk, hza, hz, Heap.linkIn, update_comm ha]

/-- A cut of the ring behind its first `i` nodes. -/
theorem IsList.cut (hl : IsList h this ps xs) (i : Nat) :
    Ring h.next h.prev (ps.drop i ++ ps.take i) := by
  have hring := hl.ring
  rw [← take_append_drop i ps] at hring
  exact hring.swap

theorem addAt_between_spec (hl : IsList h this ps xs) {i : Nat} (hi : i < ps.length) (x : T) :
    ∃ h', addAt this (i + 2) x h = .ok true h' ∧
      IsList h' this (ps.take (i + 1) ++ h.nodes :: ps.drop (i + 1))
        (xs.take (i + 1) ++ x :: xs.drop (i + 1)) ∧
      Frame this h ps h' (ps.take (i + 1) ++ h.nodes :: ps.drop (i + 1)) := by
  -- cut here, the ring ends at the new place
  have hring := hl.cut (i + 1)
  obtain ⟨z, hz⟩ : ∃ z, ps[i]? = some z := ⟨_, List.getElem?_eq_getElem hi⟩
  have hlast : z ∈ (ps.drop (i + 1) ++ ps.take (i + 1)).getLast? := by
    rw [getLast?_append, getLast?_take, if_neg (Nat.succ_ne_zero i), Nat.add_sub_cancel, hz]
    rfl
  obtain ⟨a, ha⟩ : ∃ a, a ∈ (ps.drop (i + 1) ++ ps.take (i + 1)).head? := by
    cases hhead : (ps.drop (i + 1) ++ ps.take (i + 1)).head? with
    | some a => exact ⟨a, rfl⟩
    | none =>
      rw [head?_eq_none_iff.mp hhead] at hlast
      cases hlast
  have hmem : ∀ p, p ∈ ps.drop (i + 1) ++ ps.take (i + 1) → p ∈ ps := fun p hp =>
    (mem_append.mp hp).elim mem_of_mem_drop mem_of_mem_take
  have hzps := hmem z (mem_of_getLast? hlast)
  have haps := hmem a (mem_of_head? ha)
  have hclose := hring.close z hlast a ha
  have hnew : h.nodes ∉ ps := fun hp => Nat.lt_irrefl _ (hl.nodes _ hp)
  have hzne : z ≠ h.nodes := fun heq => hnew (heq ▸ hzps)
  have hane : a ≠ h.nodes := fun heq => hnew (heq ▸ haps)
  obtain ⟨f, hf⟩ : ∃ f, ps.head? = some f := by
    cases ps with
    | nil => cases hi
    | cons f ps => exact ⟨f, rfl⟩
  obtain ⟨n, hn⟩ : ∃ n, ps.length = n + 1 := ⟨ps.length - 1, by omega⟩
  have hlist := hl.list
  rw [hf, hn] at hlist
  have hwalk := getNodeAt_run (hl.allocated x) hi
  rw [hz] at hwalk
  refine ⟨_, addAt_run_between hlist (by omega) hwalk hclose.1 hzne hane, ?_, ?_⟩
  · constructor
    case list =>
      have hlen : (ps.take (i + 1) ++ h.nodes :: ps.drop (i + 1)).length = n + 2 := by
        rw [length_append, length_cons, length_take, length_drop]
        omega
      have hhead : (ps.take (i + 1) ++ h.nodes :: ps.drop (i + 1)).head? = some f := by
        rw [head?_append, head?_take, if_neg (Nat.succ_ne_zero i), hf]
        rfl
      rw [hlen, hhead]
      exact update_self _ _ _
    case ring =>
      have hin : Ring.LinkedIn h.next h.prev (h.linkIn this x z a ⟨some f, n + 2⟩).next
          (h.linkIn this x z a ⟨some f, n + 2⟩).prev (ps.drop (i + 1) ++ ps.take (i + 1)) z a
          h.nodes := by
        have hcut : IsList (h.setFields this ⟨(ps.drop (i + 1) ++ ps.take (i + 1)).head?,
            (ps.drop (i + 1) ++ ps.take (i + 1)).length⟩) this
            (ps.drop (i + 1) ++ ps.take (i + 1)) (xs.drop (i + 1) ++ xs.take (i + 1)) := by
          constructor
          case list => exact update_self _ _ _
          case ring => exact hring
          case data =>
            show (ps.drop (i + 1) ++ ps.take (i + 1)).map h.data = _
            rw [map_append, map_append, map_drop, map_take, hl.data,
              map_drop, map_take]
          case nodes => exact fun p hp => hl.nodes p (hmem p hp)
          case lists => exact hl.lists
        exact hcut.linkedIn (x := x) (l := ⟨some f, n + 2⟩) hlast ha
      have hinserted := hring.append_singleton hin
      rw [append_assoc] at hinserted
      have hswapped := hinserted.swap
      rw [append_assoc, singleton_append] at hswapped
      exact hswapped
    case data =>
      have hdata := hl.map_data_linkIn (x := x) (z := z) (a := a) (l := ⟨some f, n + 2⟩)
      rw [map_append, map_cons, map_take, map_drop, hdata, data_linkIn,
        map_append, map_cons, map_take, map_drop]
    case nodes =>
      intro p hp
      rcases mem_append.mp hp with hp | hp
      · exact Nat.lt_succ_of_lt (hl.nodes p (mem_of_mem_take hp))
      · rcases mem_cons.mp hp with rfl | hp
        · exact Nat.lt_succ_self _
        · exact Nat.lt_succ_of_lt (hl.nodes p (mem_of_mem_drop hp))
    case lists => exact hl.lists
  · refine frame_linkIn hzps haps fun p hp => ?_
    rcases mem_append.mp hp with hp | hp
    · exact Or.inl (mem_of_mem_take hp)
    · exact (mem_cons.mp hp).symm.imp_left mem_of_mem_drop

/-- The memory after `z` and `b` were linked past the node between them. -/
def Heap.unlinked (h : Heap T) (this : Ref) (z b : Ptr) (l : A2LList) : Heap T :=
  { h with
    next := Function.update h.next z (some b)
    prev := Function.update h.prev b (some z)
    list := Function.update h.list this l }

section

variable {z b a p : Ptr} {i n : Nat}

theorem remove_run_only (hlist : h.list this = ⟨some a, 1⟩) (hdata : h.data a = some x) :
    remove this 1 h = .ok (some x) (h.setFields this ⟨none, 0⟩) := by
  simp [remove, hlist, getData_run hdata, Heap.setFields]

theorem remove_run_first (hlist : h.list this = ⟨some a, n + 2⟩) (hdata : h.data a = some x)
    (hprev : h.prev a = some z) (hnext : h.next a = some b) :
    remove this 1 h = .ok (some x) (h.unlinked this z b ⟨some b, n + 1⟩) := by
  simp [remove, hlist, getData_run hdata, hprev, hnext, Heap.unlinked]

theorem remove_run_later (hlist : h.list this = ⟨some a, n + 2⟩) (hi : i ≤ n)
    (hwalk : getNodeAt this (i + 1) h = .ok (some z) h) (hz : h.next z = some p)
    (hp : h.next p = some b) (hdata : h.data p = some x) :
    remove this (i + 2) h = .ok (some x) (h.unlinked this z b ⟨some a, n + 1⟩) := by
  simp [remove, hlist, hi, hwalk, hz, hp, getData, hdata, Heap.unlinked]

theorem IsList.unlinked (hl : IsList h this ps xs) (hi : i < ps.length)
    (hz : z ∈ (ps.drop (i + 1) ++ ps.take i).getLast?)
    (hb : b ∈ (ps.drop (i + 1) ++ ps.take i).head?) :
    IsList (h.unlinked this z b ⟨(ps.eraseIdx i).head?, (ps.eraseIdx i).length⟩) this
        (ps.eraseIdx i) (xs.eraseIdx i) ∧
      Frame this h ps (h.unlinked this z b ⟨(ps.eraseIdx i).head?, (ps.eraseIdx i).length⟩)
        (ps.eraseIdx i) := by
  have hsub : ∀ q ∈ ps.eraseIdx i, q ∈ ps := fun q hq => mem_of_mem_eraseIdx hq
  have hmem : ∀ q, q ∈ ps.drop (i + 1) ++ ps.take i → q ∈ ps := fun q hq =>
    (mem_append.mp hq).elim mem_of_mem_drop mem_of_mem_take
  have hzps := hmem z (mem_of_getLast? hz)
  have hbps := hmem b (mem_of_head? hb)
  constructor
  · constructor
    case list => exact update_self _ _ _
    case ring =>
      have hcut := hl.cut i
      rw [drop_eq_getElem_cons hi, cons_append] at hcut
      have hrest : Ring (h.unlinked this z b ⟨none, 0⟩).next (h.unlinked this z b ⟨none, 0⟩).prev
          (ps.drop (i + 1) ++ ps.take i) :=
        hcut.tail hz hb (update_self _ _ _) (update_self _ _ _)
          (fun _ _ hc => update_of_ne hc _ _) fun _ _ hc => update_of_ne hc _ _
      rw [eraseIdx_eq_take_drop_succ]
      exact hrest.swap
    case data =>
      show (ps.eraseIdx i).map h.data = _
      rw [eraseIdx_eq_take_drop_succ, eraseIdx_eq_take_drop_succ, map_append,
        map_append, map_take, map_take, map_drop, map_drop, hl.data]
    case nodes => exact fun q hq => hl.nodes q (hsub q hq)
    case lists => exact hl.lists
  · constructor
    case data => exact fun _ _ _ => rfl
    case next =>
      exact fun q _ hnot => update_of_ne (fun heq : q = z => hnot (heq ▸ hzps)) _ _
    case prev =>
      exact fun q _ hnot => update_of_ne (fun heq : q = b => hnot (heq ▸ hbps)) _ _
    case list => exact fun _ hr => update_of_ne hr _ _
    case nodes | lists => exact Nat.le_refl _
    case owned => exact fun q hq => Or.inl (hsub q hq)

end

theorem remove_spec (hl : IsList h this ps xs) {i : Nat} (hi : i < ps.length) :
    ∃ h', remove this (i + 1) h = .ok xs[i]? h' ∧ IsList h' this (ps.eraseIdx i) (xs.eraseIdx i) ∧
      Frame this h ps h' (ps.eraseIdx i) := by
  obtain ⟨p, hp⟩ : ∃ p, ps[i]? = some p := ⟨_, List.getElem?_eq_getElem hi⟩
  obtain ⟨x, hx⟩ : ∃ x, xs[i]? = some x :=
    ⟨_, List.getElem?_eq_getElem (by rw [← hl.length_eq]; exact hi)⟩
  have hdata : h.data p = some x := by
    have hget := congrArg (fun l => l[i]?) hl.data
    simp only [List.getElem?_map, hp, hx, map_some] at hget
    exact some.inj hget
  have hpi : ps[i] = p := some.inj ((List.getElem?_eq_getElem hi).symm.trans hp)
  have hcut := hl.cut i
  rw [drop_eq_getElem_cons hi, cons_append, hpi] at hcut
  rw [hx]
  cases hrest : ps.drop (i + 1) ++ ps.take i with
  | nil =>
    -- the only node
    have hlen := congrArg List.length hrest
    simp only [length_append, length_drop, length_take, length_nil] at hlen
    obtain rfl : i = 0 := by omega
    have hone : ps.length = 1 := by omega
    obtain ⟨a, rfl⟩ := length_eq_one_iff.mp hone
    obtain ⟨y, rfl⟩ := length_eq_one_iff.mp (hl.length_eq.symm.trans hone)
    obtain rfl : a = p := some.inj hp
    refine ⟨_, remove_run_only hl.list hdata, ?_, frame_setFields fun q hq => absurd hq not_mem_nil⟩
    constructor
    case list => exact update_self _ _ _
    case ring => exact .nil
    case data => rfl
    case nodes => exact fun q hq => absurd hq not_mem_nil
    case lists => exact hl.lists
  | cons b rest =>
    obtain ⟨z, hz⟩ : ∃ z, z ∈ (b :: rest).getLast? :=
      ⟨_, getLast?_eq_getLast_of_ne_nil (cons_ne_nil b rest)⟩
    rw [hrest] at hcut
    have hpz : h.prev p = some z := by
      refine (hcut.close z ?_ p rfl).2
      rw [getLast?_cons_cons]
      exact hz
    have hpb : h.next p = some b := hcut.next_head
    have hzp : h.next z = some p := by
      refine (hcut.close z ?_ p rfl).1
      rw [getLast?_cons_cons]
      exact hz
    have hlen := congrArg List.length hrest
    simp only [length_append, length_drop, length_take, length_cons] at hlen
    obtain ⟨n, hn⟩ : ∃ n, ps.length = n + 2 := ⟨ps.length - 2, by omega⟩
    have herase : (ps.eraseIdx i).length = n + 1 := by
      rw [length_eraseIdx_of_lt hi]
      omega
    obtain ⟨f, hf⟩ : ∃ f, ps.head? = some f := by
      cases ps with
      | nil => cases hi
      | cons f ps => exact ⟨f, rfl⟩
    have hlist := hl.list
    rw [hf, hn] at hlist
    have hunlinked := hl.unlinked hi (hrest ▸ hz) (by rw [hrest]; rfl)
    refine ⟨_, ?_, hunlinked⟩
    rw [herase]
    cases i with
    | zero =>
      obtain rfl : f = p := by
        rw [← head?_eq_getElem?, hf] at hp
        exact some.inj hp
      have hhead : (ps.eraseIdx 0).head? = some b := by
        rw [eraseIdx_zero, ← drop_one, ← append_nil (ps.drop 1)]
        rw [take_zero] at hrest
        rw [hrest]
        rfl
      rw [hhead]
      exact remove_run_first hlist hdata hpz hpb
    | succ i =>
      have hhead : (ps.eraseIdx (i + 1)).head? = some f := by
        cases ps with
        | nil => cases hi
        | cons g ps => exact hf
      have hwalk := getNodeAt_run hl (Nat.lt_of_succ_lt hi)
      have hzi : ps[i]? = some z := by
        rw [← hrest, getLast?_append, getLast?_take, if_neg (Nat.succ_ne_zero i),
          Nat.add_sub_cancel, List.getElem?_eq_getElem (Nat.lt_of_succ_lt hi)] at hz
        rw [List.getElem?_eq_getElem (Nat.lt_of_succ_lt hi)]
        exact hz
      rw [hzi] at hwalk
      rw [hhead]
      exact remove_run_later hlist (by omega) hwalk hzp hpb hdata

theorem replace_spec (hl : IsList h this ps xs) {i : Nat} (hi : i < ps.length) (x : T) :
    ∃ h', replace this (i + 1) x h = .ok true h' ∧ IsList h' this ps (xs.set i x) ∧
      Frame this h ps h' ps := by
  obtain ⟨p, hp⟩ : ∃ p, ps[i]? = some p := ⟨_, List.getElem?_eq_getElem hi⟩
  have hwalk := getNodeAt_run hl hi
  rw [hp] at hwalk
  have hpps : p ∈ ps := mem_of_getElem? hp
  have hcount : (h.list this).numberOfEntries = ps.length := by rw [hl.list]
  refine ⟨{ h with data := Function.update h.data p (some x) }, ?_, ?_, ?_⟩
  · simp only [replace, Nat.le_add_left, true_and, bind_pure_comp, bind_run,
      getNumberOfEntries_run, hcount, Nat.succ_le_of_lt hi, ↓reduceIte, hwalk, map_run, setData]
  · constructor
    case list => exact hl.list
    case ring => exact hl.ring
    case data =>
      show ps.map (Function.update h.data p (some x)) = _
      rw [map_set, ← hl.data]
      refine ext_getElem? fun j => ?_
      rw [List.getElem?_set, List.getElem?_map, length_map]
      by_cases hij : i = j
      · subst hij
        rw [hp, if_pos rfl, if_pos hi, map_some, update_self]
      · rw [if_neg hij, List.getElem?_map]
        cases hq : ps[j]? with
        | none => rfl
        | some q =>
          have hqp : q ≠ p := by
            rintro rfl
            exact hij ((List.getElem?_inj hi hl.ring.nodup).mp (hp.trans hq.symm))
          rw [map_some, map_some, update_of_ne hqp]
    case nodes => exact hl.nodes
    case lists => exact hl.lists
  · constructor
    case data =>
      exact fun q _ hnot => update_of_ne (fun heq : q = p => hnot (heq ▸ hpps)) _ _
    case next | prev => exact fun _ _ _ => rfl
    case list => exact fun _ _ => rfl
    case nodes | lists => exact Nat.le_refl _
    case owned => exact fun q hq => Or.inl hq

/-! ## The copy constructor -/

/-- Nodes from `k` on that are linked in a row, not yet in a ring. -/
structure Row (k : Nat) (h : Heap T) (qs : List Ptr) (xs : List T) : Prop where
  nodup : qs.Nodup
  linked : Linked h.next h.prev qs
  data : qs.map h.data = xs.map some
  ge : ∀ q ∈ qs, k ≤ q
  lt : ∀ q ∈ qs, q < h.nodes

/-- Only nodes from `k` on have changed. -/
structure Above (k : Nat) (h h' : Heap T) : Prop where
  data : ∀ p < k, h'.data p = h.data p
  next : ∀ p < k, h'.next p = h.next p
  prev : ∀ p < k, h'.prev p = h.prev p
  list : h'.list = h.list
  lists : h'.lists = h.lists
  nodes : h.nodes ≤ h'.nodes

theorem Above.trans {k : Nat} {h₁ h₂ h₃ : Heap T} (h : Above k h₁ h₂) (h' : Above k h₂ h₃) :
    Above k h₁ h₃ where
  data p hp := (h'.data p hp).trans (h.data p hp)
  next p hp := (h'.next p hp).trans (h.next p hp)
  prev p hp := (h'.prev p hp).trans (h.prev p hp)
  list := h'.list.trans h.list
  lists := h'.lists.trans h.lists
  nodes := Nat.le_trans h.nodes h'.nodes

/-- The memory after a new node was hung behind `c`. -/
def Heap.extended (h : Heap T) (x : T) (c : Ptr) : Heap T where
  data := Function.update h.data h.nodes (some x)
  next := Function.update (Function.update h.next h.nodes none) c (some h.nodes)
  prev := Function.update h.prev h.nodes (some c)
  list := h.list
  nodes := h.nodes + 1
  lists := h.lists

section

variable {k n : Nat} {c : Ptr} {ys : List T}

theorem Above.extended (hk : k ≤ h.nodes) (hc : k ≤ c) (x : T) : Above k h (h.extended x c) := by
  have hnew : ∀ p < k, p ≠ h.nodes := fun p hp => Nat.ne_of_lt (Nat.lt_of_lt_of_le hp hk)
  have hold : ∀ p < k, p ≠ c := fun p hp => Nat.ne_of_lt (Nat.lt_of_lt_of_le hp hc)
  constructor
  case data | prev => exact fun p hp => update_of_ne (hnew p hp) _ _
  case next =>
    exact fun p hp => (update_of_ne (hold p hp) _ _).trans
      (update_of_ne (hnew p hp) _ _)
  case list | lists => rfl
  case nodes => exact Nat.le_succ _

theorem Row.extended (hrow : Row k h qs xs) (hk : k ≤ h.nodes) (hc : c ∈ qs.getLast?) (x : T) :
    Row k (h.extended x c) (qs ++ [h.nodes]) (xs ++ [x]) := by
  have hne : ∀ q ∈ qs, q ≠ h.nodes := fun q hq => Nat.ne_of_lt (hrow.lt q hq)
  constructor
  case nodup =>
    refine nodup_append.mpr ⟨hrow.nodup, nodup_singleton _, fun q hq d hd heq => ?_⟩
    exact hne q hq (heq.trans (mem_singleton.mp hd))
  case linked =>
    refine isChain_append.mpr ⟨?_, .singleton _, fun z hz d hd => ?_⟩
    · refine hrow.linked.congr_ends hrow.nodup (fun q hq hlast => ?_) fun q hq _ => ?_
      · have hqc : q ≠ c := fun heq => hlast (heq ▸ hc)
        exact (update_of_ne hqc _ _).trans (update_of_ne (hne q hq) _ _)
      · exact update_of_ne (hne q hq) _ _
    · have hzc : z = c := mem_unique hz hc
      have hd' : h.nodes = d := some.inj hd
      rw [hzc, ← hd']
      exact ⟨update_self _ _ _, update_self _ _ _⟩
  case data =>
    rw [map_append, map_append, ← hrow.data]
    congr 1
    · exact map_congr_left fun q hq => update_of_ne (hne q hq) _ _
    · exact congrArg (fun y => [y]) (update_self _ _ _)
  case ge =>
    intro q hq
    rcases mem_append.mp hq with hq | hq
    · exact hrow.ge q hq
    · exact mem_singleton.mp hq ▸ hk
  case lt =>
    intro q hq
    rcases mem_append.mp hq with hq | hq
    · exact Nat.lt_succ_of_lt (hrow.lt q hq)
    · exact mem_singleton.mp hq ▸ Nat.lt_succ_self _

theorem copyLoop_succ {p : Ptr} (hdata : h.data p = some x) (hp : p ≠ h.nodes) (hpc : p ≠ c) : copyLoop (n + 1) (some p) (some c) h =
      copyLoop n (h.next p) (some h.nodes) (h.extended x c) := by
  simp [copyLoop, getData_run hdata, Heap.extended, hp, hpc]

theorem copyLoop_run (hrow : Row k h qs xs) (hk : k ≤ h.nodes) (hc : c ∈ qs.getLast?)
    {p : Option Ptr} (hreads : Reads h h.next k p ys) :
    ∃ h' qs' c', copyLoop ys.length p (some c) h = .ok (some c') h' ∧ Row k h' (qs ++ qs') (xs ++ ys) ∧
      Above k h h' ∧ c' ∈ (qs ++ qs').getLast? := by
  induction ys generalizing h qs xs c p with
  | nil =>
    refine ⟨h, [], c, rfl, ?_, ⟨?_, ?_, ?_, rfl, rfl, Nat.le_refl _⟩, ?_⟩
    · rw [append_nil, append_nil]
      exact hrow
    · exact fun _ _ => rfl
    · exact fun _ _ => rfl
    · exact fun _ _ => rfl
    · rw [append_nil]
      exact hc
  | cons y ys ih =>
    obtain ⟨q, rfl, hqk, hdata, hrest⟩ := hreads
    have hcmem := mem_of_getLast? hc
    have hck := hrow.ge c hcmem
    have habove := Above.extended hk hck y
    have hqne : q ≠ h.nodes := Nat.ne_of_lt (Nat.lt_of_lt_of_le hqk hk)
    have hqc : q ≠ c := Nat.ne_of_lt (Nat.lt_of_lt_of_le hqk hck)
    have hlast : h.nodes ∈ (qs ++ [h.nodes]).getLast? := by
      rw [getLast?_append, getLast?_singleton, some_or]
      rfl
    obtain ⟨h', qs', c', hrun, hrow', habove', hc'⟩ := ih (hrow.extended hk hc y)
      (Nat.le_succ_of_le hk) hlast (hrest.congr habove.data habove.next)
    refine ⟨h', h.nodes :: qs', c', ?_, ?_, habove.trans habove', ?_⟩
    · rw [length_cons, copyLoop_succ hdata hqne hqc]
      exact hrun
    · rw [append_assoc, append_assoc, singleton_append, singleton_append] at hrow'
      exact hrow'
    · rw [append_assoc, singleton_append] at hc'
      exact hc'

end

/-- Everything below `k` and all objects but the new one are as before. -/
theorem frame_of_above {h₁ : Heap T} (hframe : Frame this h [] h₁ []) {l : A2LList} {qs : List Ptr}
    (habove : Above h₁.nodes (h₁.setFields this l) h') (hge : ∀ q ∈ qs, h₁.nodes ≤ q) :
    Frame this h [] h' qs where
  data p hp hnot := (habove.data p (Nat.lt_of_lt_of_le hp hframe.nodes)).trans (hframe.data p hp hnot)
  next p hp hnot := (habove.next p (Nat.lt_of_lt_of_le hp hframe.nodes)).trans (hframe.next p hp hnot)
  prev p hp hnot := (habove.prev p (Nat.lt_of_lt_of_le hp hframe.nodes)).trans (hframe.prev p hp hnot)
  list r hr := by
    rw [habove.list]
    exact (update_of_ne hr _ _).trans (hframe.list r hr)
  nodes := Nat.le_trans hframe.nodes habove.nodes
  lists := Nat.le_trans hframe.lists (Nat.le_of_eq habove.lists.symm)
  owned q hq := Or.inr (Nat.le_trans hframe.nodes (hge q hq))

section

variable {k : Nat} {x : T} {l : A2LList}

/-- The first node of the copy. -/
theorem Above.first (h : Heap T) (this : Ref) (l : A2LList) (x : T) :
    Above h.nodes (h.setFields this l) ((h.allocated x).setFields this l) where
  data _ hp := update_of_ne (Nat.ne_of_lt hp) _ _
  next _ hp := update_of_ne (Nat.ne_of_lt hp) _ _
  prev _ hp := update_of_ne (Nat.ne_of_lt hp) _ _
  list := rfl
  lists := rfl
  nodes := Nat.le_succ _

theorem Row.first (h : Heap T) (this : Ref) (l : A2LList) (x : T) :
    Row h.nodes ((h.allocated x).setFields this l) [h.nodes] [x] where
  nodup := nodup_singleton _
  linked := .singleton _
  data := congrArg (fun y => [y]) (update_self _ _ _)
  ge _ hq := Nat.le_of_eq (mem_singleton.mp hq).symm
  lt _ hq := by
    rw [mem_singleton.mp hq]
    exact Nat.lt_succ_self _

/-- A row is closed to a ring, and belongs to the new object. -/
theorem Row.closed {f c : Ptr} {n : Nat} (hrow : Row k h qs xs) (hf : f ∈ qs.head?)
    (hc : c ∈ qs.getLast?) (hn : qs.length = n) (hthis : this < h.lists) :
    IsList (h.relink this c f n) this qs xs := by
  constructor
  case list =>
    rw [hn, mem_def.mp hf]
    exact update_self _ _ _
  case ring =>
    exact Ring.of_linked hrow.linked hrow.nodup hc hf (update_self _ _ _)
      (update_self _ _ _) (fun _ _ hp => update_of_ne hp _ _)
      fun _ _ hp => update_of_ne hp _ _
  case data => exact hrow.data
  case nodes => exact hrow.lt
  case lists => exact hthis

theorem Frame.relink {h₁ : Heap T} {f c : Ptr} {n : Nat} (hframe : Frame this h₁ [] h qs)
    (hf : h₁.nodes ≤ f) (hc : h₁.nodes ≤ c) : Frame this h₁ [] (h.relink this c f n) qs := by
  have hne : ∀ p < h₁.nodes, ∀ q, h₁.nodes ≤ q → p ≠ q := fun p hp q hq =>
    Nat.ne_of_lt (Nat.lt_of_lt_of_le hp hq)
  exact { hframe with
    next := fun p hp hnot =>
      (update_of_ne (hne p hp c hc) _ _).trans (hframe.next p hp hnot)
    prev := fun p hp hnot =>
      (update_of_ne (hne p hp f hf) _ _).trans (hframe.prev p hp hnot)
    list := fun r hr => (update_of_ne hr _ _).trans (hframe.list r hr) }

end

theorem copy_spec {old : Ref} (hl : IsList h old ps xs) :
    ∃ h' qs, copy old h = .ok h.lists h' ∧ IsList h' h.lists qs xs ∧ Frame h.lists h [] h' qs := by
  obtain ⟨h₁, hnew, hempty, hframe⟩ := newList_spec h
  have hold : old ≠ h.lists := Nat.ne_of_lt hl.lists
  have hl₁ := hframe.isList hl hold fun _ _ => not_mem_nil
  have hcount := hl₁.list
  cases ps with
  | nil =>
    obtain rfl : xs = [] := length_eq_zero_iff.mp hl.length_eq.symm
    refine ⟨h₁, [], ?_, hempty, hframe⟩
    unfold copy
    rw [bind_ok hnew]
    simp [hcount]
  | cons a ps =>
    cases xs with
    | nil => cases hl.data
    | cons x xs =>
      have hdata : h₁.data a = some x := (List.cons.inj hl₁.data).1
      have hlen : ps.length = xs.length := Nat.succ.inj hl.length_eq
      have hlast : h₁.nodes ∈ [h₁.nodes].getLast? := rfl
      -- the memory when the first node is made
      have habove₂ := Above.first h₁ h.lists ⟨some h₁.nodes, 0⟩ x
      have hreads : Reads ((h₁.allocated x).setFields h.lists ⟨some h₁.nodes, 0⟩)
          ((h₁.allocated x).setFields h.lists ⟨some h₁.nodes, 0⟩).next h₁.nodes (h₁.next a) xs := by
        have hall := hl₁.reads_next
        rw [hl₁.list] at hall
        obtain ⟨b, hb, -, -, hrest⟩ := hall
        obtain rfl : a = b := some.inj hb
        exact hrest.congr habove₂.data habove₂.next
      obtain ⟨h₃, qs, c, hrun, hrow, habove₃, hc⟩ :=
        copyLoop_run (Row.first h₁ h.lists _ x) habove₂.nodes hlast hreads
      have habove := habove₂.trans habove₃
      have hne : a ≠ h₁.nodes := Nat.ne_of_lt (hl₁.nodes a mem_cons_self)
      have hlist₃ : h₃.list h.lists = ⟨some h₁.nodes, 0⟩ := by
        rw [habove.list]
        exact update_self _ _ _
      have hold₃ : h₃.list old = ⟨some a, ps.length + 1⟩ := by
        rw [habove.list]
        exact (update_of_ne hold _ _).trans hcount
      have hqs : ([h₁.nodes] ++ qs).length = ps.length + 1 := by
        have hlength := congrArg List.length hrow.data
        simp only [length_map, length_append, length_cons, length_nil] at hlength ⊢
        omega
      have hthis : h.lists < h₃.lists := by
        rw [habove.lists]
        exact hempty.lists
      refine ⟨h₃.relink h.lists c h₁.nodes (ps.length + 1), [h₁.nodes] ++ qs, ?_,
        hrow.closed rfl hc hqs hthis, ?_⟩
      · rw [← hlen] at hrun
        unfold Heap.allocated Heap.setFields at hrun
        dsimp only at hrun
        have hnone : h₁.list h.lists = ⟨none, 0⟩ := hempty.list
        unfold copy
        rw [bind_ok hnew]
        simp [hcount, getData_run hdata, hne, hold, hnone, hrun, hlist₃, hold₃, Heap.relink]
      · have hcge : h₁.nodes ≤ c := hrow.ge c (mem_of_getLast? hc)
        exact (frame_of_above hframe habove hrow.ge).relink hframe.nodes
          (Nat.le_trans hframe.nodes hcge)

end PittCs.Cs445
