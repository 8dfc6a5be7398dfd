import PittCs.Cs445.LinkedList
import PittCs.Lib.Sentinels

/-!
# What the list methods do

`IsList` says that an object is a list with given entries in nodes of its own. Each method
leads from such an object to another one, and `Frame` says what it leaves alone: the other
objects, and the nodes that were there and are not the object's.
-/

namespace PittCs.Cs445

open Lib Function List

variable {T α β : Type} {h h' h₁ h₂ : Heap T} {this : Ref} {ps ps' : List Ptr} {xs : List T} {x : T}

/-! ## Running methods -/

theorem bind_ok {m : Java T α} {f : α → Java T β} {a : α} (hm : m h = .ok a h₁) :
    (m >>= f) h = f a h₁ := by
  show EStateM.bind m f h = f a h₁
  unfold EStateM.bind
  rw [hm]

theorem discard_ok {m : Java T α} {a : α} (hm : m h = .ok a h₁) : discard m h = .ok () h₁ := by
  show EStateM.map (fun _ => ()) m h = .ok () h₁
  unfold EStateM.map
  rw [hm]

@[simp] theorem pure_run (a : α) : (pure a : Java T α) h = .ok a h := rfl

@[simp] theorem newNode_run : newNode x h = .ok h.nodes { h with
    data := Function.update h.data h.nodes (some x)
    next := Function.update h.next h.nodes none
    prev := Function.update h.prev h.nodes none
    nodes := h.nodes + 1 } := rfl

@[simp] theorem getData_run {p : Ptr} (hx : h.data p = some x) :
    getData (some p) h = .ok x h := by
  unfold getData
  rw [Option.bind_some, hx]

@[simp] theorem getNextNode_run (p : Ptr) : getNextNode (some p) h = .ok (h.next p) h := rfl

@[simp] theorem getPrevNode_run (p : Ptr) : getPrevNode (some p) h = .ok (h.prev p) h := rfl

@[simp] theorem setNextNode_run (p : Ptr) (q : Option Ptr) : setNextNode (some p) q h =
    .ok () { h with next := Function.update h.next p q } := rfl

@[simp] theorem setPrevNode_run (p : Ptr) (q : Option Ptr) : setPrevNode (some p) q h =
    .ok () { h with prev := Function.update h.prev p q } := rfl

@[simp] theorem newObject_run : newObject h = .ok h.lists { h with lists := h.lists + 1 } := rfl

@[simp] theorem getFirstNode_run : getFirstNode this h = .ok (h.list this).firstNode h := rfl

@[simp] theorem getNumberOfEntries_run :
    getNumberOfEntries this h = .ok (h.list this).numberOfEntries h := rfl

@[simp] theorem setFirstNode_run (p : Option Ptr) : setFirstNode this p h =
    .ok () { h with list := Function.update h.list this ⟨p, (h.list this).numberOfEntries⟩ } := rfl

@[simp] theorem setNumberOfEntries_run (n : Nat) : setNumberOfEntries this n h =
    .ok () { h with list := Function.update h.list this ⟨(h.list this).firstNode, n⟩ } := rfl

@[simp] theorem bind_run (m : Java T α) (f : α → Java T β) : (m >>= f) h =
    match m h with
    | .ok a h₁ => f a h₁
    | .error e h₁ => .error e h₁ := by
  show EStateM.bind m f h = _
  unfold EStateM.bind
  cases m h <;> rfl

@[simp] theorem map_run (m : Java T α) (f : α → β) : (f <$> m) h =
    match m h with
    | .ok a h₁ => .ok (f a) h₁
    | .error e h₁ => .error e h₁ := by
  show EStateM.map f m h = _
  unfold EStateM.map
  cases m h <;> rfl

/-- An object is a list of the entries `xs`, in the nodes `ps`. -/
structure IsList (h : Heap T) (this : Ref) (ps : List Ptr) (xs : List T) : Prop where
  list : h.list this = ⟨ps.head?, ps.length⟩
  ring : Ring h.next h.prev ps
  data : ps.map h.data = xs.map some
  nodes : ∀ p ∈ ps, p < h.nodes
  lists : this < h.lists

/-- A method of `this` changed nodes of `ps` and new ones only; the nodes of the object are
`ps'` now. -/
structure Frame (this : Ref) (h : Heap T) (ps : List Ptr) (h' : Heap T) (ps' : List Ptr) : Prop where
  data : ∀ p < h.nodes, p ∉ ps → h'.data p = h.data p
  next : ∀ p < h.nodes, p ∉ ps → h'.next p = h.next p
  prev : ∀ p < h.nodes, p ∉ ps → h'.prev p = h.prev p
  list : ∀ r, r ≠ this → h'.list r = h.list r
  nodes : h.nodes ≤ h'.nodes
  lists : h.lists ≤ h'.lists
  owned : ∀ p ∈ ps', p ∈ ps ∨ h.nodes ≤ p

namespace Frame

theorem refl (this : Ref) (h : Heap T) (ps : List Ptr) : Frame this h ps h ps where
  data _ _ _ := rfl
  next _ _ _ := rfl
  prev _ _ _ := rfl
  list _ _ := rfl
  nodes := Nat.le_refl _
  lists := Nat.le_refl _
  owned _ hp := Or.inl hp

theorem trans {ps₁ ps₂ : List Ptr} (hfirst : Frame this h ps h₁ ps₁)
    (hsecond : Frame this h₁ ps₁ h₂ ps₂) : Frame this h ps h₂ ps₂ := by
  -- a node that was there and was not the object's is not the object's later on
  have hout : ∀ p < h.nodes, p ∉ ps → p < h₁.nodes ∧ p ∉ ps₁ := by
    intro p hp hnot
    refine ⟨Nat.lt_of_lt_of_le hp hfirst.nodes, fun hin => ?_⟩
    rcases hfirst.owned p hin with hold | hnew
    · exact hnot hold
    · exact absurd hp (Nat.not_lt.mpr hnew)
  constructor
  · intro p hp hnot
    obtain ⟨hp₁, hnot₁⟩ := hout p hp hnot
    exact (hsecond.data p hp₁ hnot₁).trans (hfirst.data p hp hnot)
  · intro p hp hnot
    obtain ⟨hp₁, hnot₁⟩ := hout p hp hnot
    exact (hsecond.next p hp₁ hnot₁).trans (hfirst.next p hp hnot)
  · intro p hp hnot
    obtain ⟨hp₁, hnot₁⟩ := hout p hp hnot
    exact (hsecond.prev p hp₁ hnot₁).trans (hfirst.prev p hp hnot)
  · exact fun r hr => (hsecond.list r hr).trans (hfirst.list r hr)
  · exact Nat.le_trans hfirst.nodes hsecond.nodes
  · exact Nat.le_trans hfirst.lists hsecond.lists
  · intro p hp
    rcases hsecond.owned p hp with hold | hnew
    · exact hfirst.owned p hold
    · exact Or.inr (Nat.le_trans hfirst.nodes hnew)

/-- Another list with nodes of its own stays as it is. -/
theorem isList {other : Ref} {qs : List Ptr} {ys : List T} (hframe : Frame this h ps h' ps')
    (hother : IsList h other qs ys) (hne : other ≠ this) (hdisjoint : ∀ q ∈ qs, q ∉ ps) :
    IsList h' other qs ys := by
  have hkeep : ∀ q ∈ qs, q < h.nodes ∧ q ∉ ps := fun q hq => ⟨hother.nodes q hq, hdisjoint q hq⟩
  constructor
  · exact (hframe.list other hne).trans hother.list
  · exact hother.ring.congr (fun q hq => hframe.next q (hkeep q hq).1 (hkeep q hq).2)
      fun q hq => hframe.prev q (hkeep q hq).1 (hkeep q hq).2
  · rw [← hother.data]
    exact map_congr_left fun q hq => hframe.data q (hkeep q hq).1 (hkeep q hq).2
  · exact fun q hq => Nat.lt_of_lt_of_le (hkeep q hq).1 hframe.nodes
  · exact Nat.lt_of_lt_of_le hother.lists hframe.lists

end Frame

theorem IsList.length_eq (hl : IsList h this ps xs) : ps.length = xs.length := by
  have hlen := congrArg List.length hl.data
  rwa [length_map, length_map] at hlen

/-! ## Adding -/

/-- The memory after a node was linked in between the last node `z` and the first one `a`. -/
def Heap.linkIn (h : Heap T) (this : Ref) (x : T) (z a : Ptr) (l : A2LList) : Heap T where
  data := Function.update h.data h.nodes (some x)
  next := Function.update (Function.update h.next h.nodes (some a)) z (some h.nodes)
  prev := Function.update (Function.update h.prev h.nodes (some z)) a (some h.nodes)
  list := Function.update h.list this l
  nodes := h.nodes + 1
  lists := h.lists

/-- The memory after a first node. -/
def Heap.linkFirst (h : Heap T) (this : Ref) (x : T) : Heap T where
  data := Function.update h.data h.nodes (some x)
  next := Function.update h.next h.nodes (some h.nodes)
  prev := Function.update h.prev h.nodes (some h.nodes)
  list := Function.update h.list this ⟨some h.nodes, 1⟩
  nodes := h.nodes + 1
  lists := h.lists

section

variable {a z : Ptr} {n : Nat}

theorem add_run_empty (hl : h.list this = ⟨none, 0⟩) :
    add this x h = .ok () (h.linkFirst this x) := by
  simp [add, isEmpty, addFirstEntry, hl, Heap.linkFirst]

theorem addAt_run_empty (hl : h.list this = ⟨none, 0⟩) :
    addAt this 1 x h = .ok true (h.linkFirst this x) := by
  simp [addAt, isEmpty, addFirstEntry, hl, Heap.linkFirst]

theorem add_run (hl : h.list this = ⟨some a, n + 1⟩) (hz : h.prev a = some z)
    (ha : a ≠ h.nodes) (hne : z ≠ h.nodes) :
    add this x h = .ok () (h.linkIn this x z a ⟨some a, n + 2⟩) := by
  simp [add, isEmpty, hl, hz, ha, Heap.linkIn, update_comm hne]

theorem addAt_run (hl : h.list this = ⟨some a, n + 1⟩) (hz : h.prev a = some z)
    (ha : a ≠ h.nodes) :
    addAt this 1 x h = .ok true (h.linkIn this x z a ⟨some h.nodes, n + 2⟩) := by
  simp [addAt, isEmpty, hl, hz, ha, Heap.linkIn, update_comm ha]

end

theorem Heap.linkFirst_frame (h : Heap T) (this : Ref) (x : T) :
    Frame this h [] (h.linkFirst this x) [h.nodes] where
  data _ hp _ := update_of_ne (Nat.ne_of_lt hp) _ _
  next _ hp _ := update_of_ne (Nat.ne_of_lt hp) _ _
  prev _ hp _ := update_of_ne (Nat.ne_of_lt hp) _ _
  list _ hr := update_of_ne hr _ _
  nodes := Nat.le_succ _
  lists := Nat.le_refl _
  owned _ hp := Or.inr (Nat.le_of_eq (mem_singleton.mp hp).symm)

theorem IsList.linkFirst (hl : IsList h this [] []) (x : T) :
    IsList (h.linkFirst this x) this [h.nodes] [x] where
  list := update_self _ _ _
  ring := .singleton (update_self _ _ _) (update_self _ _ _)
  data := congrArg (fun y => [y]) (update_self _ _ _)
  nodes _ hp := mem_singleton.mp hp ▸ Nat.lt_succ_self _
  lists := hl.lists

section

variable {a z : Ptr} {l : A2LList}

/-- What the new links are. -/
theorem IsList.linkedIn (hl : IsList h this ps xs) (hz : z ∈ ps.getLast?) (ha : a ∈ ps.head?) :
    Ring.LinkedIn h.next h.prev (h.linkIn this x z a l).next (h.linkIn this x z a l).prev ps z a
      h.nodes := by
  have hnew : h.nodes ∉ ps := fun hp => Nat.lt_irrefl _ (hl.nodes _ hp)
  have hzne : z ≠ h.nodes := fun heq => hnew (heq ▸ mem_of_getLast? hz)
  have hane : a ≠ h.nodes := fun heq => hnew (heq ▸ mem_of_head? ha)
  constructor
  · exact hz
  · exact ha
  · exact hnew
  · exact update_self _ _ _
  · exact (update_of_ne hane.symm _ _).trans (update_self _ _ _)
  · exact (update_of_ne hzne.symm _ _).trans (update_self _ _ _)
  · exact update_self _ _ _
  · intro c hc hcz
    have hcnew : c ≠ h.nodes := fun heq => hnew (heq ▸ hc)
    exact (update_of_ne hcz _ _).trans (update_of_ne hcnew _ _)
  · intro c hc hca
    have hcnew : c ≠ h.nodes := fun heq => hnew (heq ▸ hc)
    exact (update_of_ne hca _ _).trans (update_of_ne hcnew _ _)

theorem IsList.map_data_linkIn (hl : IsList h this ps xs) :
    ps.map (h.linkIn this x z a l).data = xs.map some := by
  rw [← hl.data]
  refine map_congr_left fun p hp => ?_
  exact update_of_ne (Nat.ne_of_lt (hl.nodes p hp)) _ _

theorem data_linkIn : (h.linkIn this x z a l).data h.nodes = some x := update_self _ _ _

theorem frame_linkIn (hz : z ∈ ps) (ha : a ∈ ps)
    (howned : ∀ p ∈ ps', p ∈ ps ∨ p = h.nodes) : Frame this h ps (h.linkIn this x z a l) ps' where
  data _ hp _ := update_of_ne (Nat.ne_of_lt hp) _ _
  next p hp hnot := (update_of_ne (fun heq : p = z => hnot (heq ▸ hz)) _ _).trans
    (update_of_ne (Nat.ne_of_lt hp) _ _)
  prev p hp hnot := (update_of_ne (fun heq : p = a => hnot (heq ▸ ha)) _ _).trans
    (update_of_ne (Nat.ne_of_lt hp) _ _)
  list _ hr := update_of_ne hr _ _
  nodes := Nat.le_succ _
  lists := Nat.le_refl _
  owned p hp := (howned p hp).imp_right fun heq => Nat.le_of_eq heq.symm

end

/-- The two ends of a list that is not empty. -/
theorem IsList.exists_ends {a : Ptr} (hl : IsList h this (a :: ps) xs) : ∃ z,
    z ∈ (a :: ps).getLast? ∧ h.prev a = some z ∧ h.next z = some a ∧
      h.list this = ⟨some a, ps.length + 1⟩ := by
  refine ⟨(a :: ps).getLast (cons_ne_nil a ps), getLast?_eq_getLast_of_ne_nil _, ?_, ?_, ?_⟩
  · exact (hl.ring.close _ (getLast?_eq_getLast_of_ne_nil _) a rfl).2
  · exact (hl.ring.close _ (getLast?_eq_getLast_of_ne_nil _) a rfl).1
  · exact hl.list

/-- `add` puts an entry at the end. -/
theorem add_spec (hl : IsList h this ps xs) (x : T) : ∃ h' p, add this x h = .ok () h' ∧
    IsList h' this (ps ++ [p]) (xs ++ [x]) ∧ Frame this h ps h' (ps ++ [p]) := by
  cases ps with
  | nil =>
    obtain rfl : xs = [] := length_eq_zero_iff.mp hl.length_eq.symm
    exact ⟨_, h.nodes, add_run_empty hl.list, hl.linkFirst x, h.linkFirst_frame this x⟩
  | cons a ps =>
    obtain ⟨z, hz, hprev, -, hfields⟩ := hl.exists_ends
    have hin := hl.linkedIn (x := x) (l := ⟨some a, ps.length + 2⟩) hz rfl
    have hane : a ≠ h.nodes := fun heq => hin.new (heq ▸ mem_cons_self)
    have hzne : z ≠ h.nodes := fun heq => hin.new (heq ▸ mem_of_getLast? hz)
    refine ⟨_, h.nodes, add_run hfields hprev hane hzne, ?_, ?_⟩
    · constructor
      · rw [length_append, length_singleton]
        exact update_self _ _ _
      · exact hl.ring.append_singleton hin
      · rw [map_append, map_append, hl.map_data_linkIn]
        exact congrArg (fun y => xs.map some ++ [y]) data_linkIn
      · intro p hp
        rcases mem_append.mp hp with hp | hp
        · exact Nat.lt_succ_of_lt (hl.nodes p hp)
        · exact mem_singleton.mp hp ▸ Nat.lt_succ_self _
      · exact hl.lists
    · refine frame_linkIn (mem_of_getLast? hz) mem_cons_self fun p hp => ?_
      exact (mem_append.mp hp).imp_right mem_singleton.mp

/-- `add(1, x)` puts an entry at the front. -/
theorem addAt_spec (hl : IsList h this ps xs) (x : T) : ∃ h' p, addAt this 1 x h = .ok true h' ∧
    IsList h' this (p :: ps) (x :: xs) ∧ Frame this h ps h' (p :: ps) := by
  cases ps with
  | nil =>
    obtain rfl : xs = [] := length_eq_zero_iff.mp hl.length_eq.symm
    exact ⟨_, h.nodes, addAt_run_empty hl.list, hl.linkFirst x, h.linkFirst_frame this x⟩
  | cons a ps =>
    obtain ⟨z, hz, hprev, -, hfields⟩ := hl.exists_ends
    have hin := hl.linkedIn (x := x) (l := ⟨some h.nodes, ps.length + 2⟩) hz rfl
    have hane : a ≠ h.nodes := fun heq => hin.new (heq ▸ mem_cons_self)
    refine ⟨_, h.nodes, addAt_run hfields hprev hane, ?_, ?_⟩
    · constructor
      · exact update_self _ _ _
      · exact hl.ring.cons hin
      · rw [map_cons, hl.map_data_linkIn]
        exact congrArg (fun y => y :: xs.map some) data_linkIn
      · intro p hp
        rcases mem_cons.mp hp with rfl | hp
        · exact Nat.lt_succ_self _
        · exact Nat.lt_succ_of_lt (hl.nodes p hp)
      · exact hl.lists
    · refine frame_linkIn (mem_of_getLast? hz) mem_cons_self fun p hp => ?_
      exact (mem_cons.mp hp).symm

/-! ## New and cleared lists -/

theorem newList_spec (h : Heap T) : ∃ h', newList h = .ok h.lists h' ∧
    IsList h' h.lists [] [] ∧ Frame h.lists h [] h' [] := by
  refine ⟨{ h with lists := h.lists + 1, list := Function.update h.list h.lists ⟨none, 0⟩ },
    by simp [newList, clear], ?_, ?_⟩
  · constructor
    · exact update_self _ _ _
    · exact .nil
    · rfl
    · exact fun _ hp => absurd hp not_mem_nil
    · exact Nat.lt_succ_self _
  · constructor
    · exact fun _ _ _ => rfl
    · exact fun _ _ _ => rfl
    · exact fun _ _ _ => rfl
    · exact fun _ hr => update_of_ne hr _ _
    · exact Nat.le_refl _
    · exact Nat.le_succ _
    · exact fun _ hp => Or.inl hp

theorem clear_spec (hl : IsList h this ps xs) : ∃ h', clear this h = .ok () h' ∧
    IsList h' this [] [] ∧ Frame this h ps h' [] := by
  refine ⟨{ h with list := Function.update h.list this ⟨none, 0⟩ }, by simp [clear], ?_, ?_⟩
  · constructor
    · exact update_self _ _ _
    · exact .nil
    · rfl
    · exact fun _ hp => absurd hp not_mem_nil
    · exact hl.lists
  · constructor
    · exact fun _ _ _ => rfl
    · exact fun _ _ _ => rfl
    · exact fun _ _ _ => rfl
    · exact fun _ hr => update_of_ne hr _ _
    · exact Nat.le_refl _
    · exact Nat.le_refl _
    · exact fun _ hp => absurd hp not_mem_nil

/-! ## Walking -/

/-- The links lead along the list. -/
theorem walk_run {link : Option Ptr → Java T (Option Ptr)} {step : Ptr → Option Ptr}
    (hlink : ∀ p, link (some p) h = .ok (step p) h) {a : Ptr} {qs : List Ptr} {n : Nat}
    (hchain : (a :: qs).IsChain fun p q => step p = some q) (hn : n < (a :: qs).length) :
    walk link n (some a) h = .ok (a :: qs)[n]? h := by
  induction n generalizing a qs with
  | zero => rfl
  | succ n ih =>
    cases qs with
    | nil => exact absurd hn (Nat.not_lt.mpr (Nat.le_add_left 1 n))
    | cons b qs =>
      obtain ⟨hab, hrest⟩ := isChain_cons_cons.mp hchain
      have hwalk := ih hrest (Nat.lt_of_succ_lt_succ hn)
      unfold walk
      rw [bind_ok (hlink a), hab, hwalk, List.getElem?_cons_succ]

theorem IsList.chain_next (hl : IsList h this ps xs) :
    ps.IsChain fun p q => h.next p = some q :=
  List.IsChain.imp (fun _ _ hpq => hpq.1) hl.ring.linked

theorem IsList.chain_prev (hl : IsList h this ps xs) :
    ps.reverse.IsChain fun p q => h.prev p = some q :=
  isChain_reverse.mpr (List.IsChain.imp (fun _ _ hpq => hpq.2) hl.ring.linked)

/-- From `p` on, the links lead through the entries `xs`, in nodes below `k`. -/
def Reads (h : Heap T) (step : Ptr → Option Ptr) (k : Nat) : Option Ptr → List T → Prop
  | _, [] => True
  | p, x :: xs => ∃ a, p = some a ∧ a < k ∧ h.data a = some x ∧ Reads h step k (step a) xs

theorem reads_of_chain {step : Ptr → Option Ptr} {k : Nat} {qs : List Ptr}
    (hchain : qs.IsChain fun p q => step p = some q) (hdata : qs.map h.data = xs.map some)
    (hk : ∀ q ∈ qs, q < k) : Reads h step k qs.head? xs := by
  induction qs generalizing xs with
  | nil =>
    obtain rfl : xs = [] := map_eq_nil_iff.mp hdata.symm
    trivial
  | cons a qs ih =>
    cases xs with
    | nil => cases hdata
    | cons x xs =>
      obtain ⟨hax, hrest⟩ := List.cons.inj hdata
      refine ⟨a, rfl, hk a mem_cons_self, hax, ?_⟩
      cases qs with
      | nil =>
        obtain rfl : xs = [] := map_eq_nil_iff.mp hrest.symm
        trivial
      | cons b qs =>
        obtain ⟨hab, hqs⟩ := isChain_cons_cons.mp hchain
        rw [hab]
        exact ih hqs hrest fun q hq => hk q (mem_cons_of_mem a hq)

/-- Reading does not notice changes from `k` on. -/
theorem Reads.congr {k : Nat} {p : Option Ptr} (hr : Reads h h.next k p xs)
    (hdata : ∀ a < k, h'.data a = h.data a) (hnext : ∀ a < k, h'.next a = h.next a) :
    Reads h' h'.next k p xs := by
  induction xs generalizing p with
  | nil => trivial
  | cons x xs ih =>
    obtain ⟨a, hp, hak, hax, hrest⟩ := hr
    refine ⟨a, hp, hak, (hdata a hak).trans hax, ?_⟩
    rw [hnext a hak]
    exact ih hrest

theorem IsList.reads_next (hl : IsList h this ps xs) :
    Reads h h.next h.nodes (h.list this).firstNode xs := by
  rw [hl.list]
  exact reads_of_chain hl.chain_next hl.data hl.nodes

/-- From the last node the entries are read in the other order. -/
theorem IsList.exists_reads_prev (hl : IsList h this ps xs) (hne : xs ≠ []) :
    ∃ a z, (h.list this).firstNode = some a ∧ h.prev a = some z ∧
      Reads h h.prev h.nodes (some z) xs.reverse := by
  cases ps with
  | nil => exact absurd (length_eq_zero_iff.mp hl.length_eq.symm) hne
  | cons a ps =>
    obtain ⟨z, hz, hprev, -, hfields⟩ := hl.exists_ends
    have hreads : Reads h h.prev h.nodes (a :: ps).reverse.head? xs.reverse := by
      refine reads_of_chain hl.chain_prev ?_ fun q hq => hl.nodes q (mem_reverse.mp hq)
      rw [map_reverse, map_reverse, hl.data]
    rw [head?_reverse, show (a :: ps).getLast? = some z from hz] at hreads
    exact ⟨a, z, by rw [hfields], hprev, hreads⟩

theorem IsList.numberOfEntries (hl : IsList h this ps xs) :
    (h.list this).numberOfEntries = xs.length := by
  rw [hl.list, ← hl.length_eq]

/-! ## Shifts -/

/-- The memory after the two ends of the part that stays, `z` and `a`, were linked. -/
def Heap.relink (h : Heap T) (this : Ref) (z a : Ptr) (n : Nat) : Heap T where
  data := h.data
  next := Function.update h.next z (some a)
  prev := Function.update h.prev a (some z)
  list := Function.update h.list this ⟨some a, n⟩
  nodes := h.nodes
  lists := h.lists

/-- A part of the list is a list when its ends are linked. -/
theorem IsList.relink {qs : List Ptr} {ys : List T} {z a : Ptr} (hl : IsList h this ps xs)
    (hlinked : Linked h.next h.prev qs) (hsub : qs.Sublist ps) (hdata : qs.map h.data = ys.map some)
    (hz : z ∈ qs.getLast?) (ha : a ∈ qs.head?) :
    IsList (h.relink this z a qs.length) this qs ys ∧
      Frame this h ps (h.relink this z a qs.length) qs := by
  have hzin := hsub.subset (mem_of_getLast? hz)
  have hain := hsub.subset (mem_of_head? ha)
  constructor
  · constructor
    · rw [show qs.head? = some a from ha]
      exact update_self _ _ _
    · refine Ring.of_linked hlinked (hl.ring.nodup.sublist hsub) hz ha ?_ ?_ ?_ ?_
      · exact update_self _ _ _
      · exact update_self _ _ _
      · exact fun _ _ hc => update_of_ne hc _ _
      · exact fun _ _ hc => update_of_ne hc _ _
    · exact hdata
    · exact fun q hq => hl.nodes q (hsub.subset hq)
    · exact hl.lists
  · constructor
    · exact fun _ _ _ => rfl
    · exact fun p _ hnot => update_of_ne (fun heq : p = z => hnot (heq ▸ hzin)) _ _
    · exact fun p _ hnot => update_of_ne (fun heq : p = a => hnot (heq ▸ hain)) _ _
    · exact fun _ hr => update_of_ne hr _ _
    · exact Nat.le_refl _
    · exact Nat.le_refl _
    · exact fun q hq => Or.inl (hsub.subset hq)

theorem leftShift_spec (hl : IsList h this ps xs) (n : Nat) : ∃ h', leftShift this n h = .ok () h' ∧
    IsList h' this (ps.drop n) (xs.drop n) ∧ Frame this h ps h' (ps.drop n) := by
  have hcount : (h.list this).numberOfEntries = ps.length := by rw [hl.list]
  unfold leftShift
  rw [bind_ok getNumberOfEntries_run, hcount]
  rcases Nat.lt_or_ge n ps.length with hlt | hge
  · rw [if_neg (by omega)]
    rcases Nat.eq_zero_or_pos n with rfl | hpos
    · exact ⟨h, rfl, hl, .refl this h ps⟩
    · rw [if_neg (by omega)]
      cases ps with
      | nil => cases hlt
      | cons a ps =>
        obtain ⟨z, hz, hprev, -, hfields⟩ := hl.exists_ends
        obtain ⟨b, hb⟩ : ∃ b, (a :: ps)[n]? = some b := ⟨_, List.getElem?_eq_getElem hlt⟩
        have hwalk := walk_run (fun _ => getNextNode_run _) hl.chain_next hlt
        have hlast : z ∈ ((a :: ps).drop n).getLast? := by
          rw [getLast?_drop, if_neg (Nat.not_le.mpr hlt)]
          exact hz
        have hfirst : b ∈ ((a :: ps).drop n).head? := by
          rw [head?_drop]
          exact hb
        have hdata : ((a :: ps).drop n).map h.data = (xs.drop n).map some := by
          rw [map_drop, map_drop, hl.data]
        obtain ⟨hlist, hframe⟩ :=
          hl.relink (hl.ring.linked.drop n) (drop_sublist n _) hdata hlast hfirst
        refine ⟨_, ?_, hlist, hframe⟩
        simp [hfields, hprev, hwalk, hb, Heap.relink]
  · obtain ⟨h', hclear, hempty, hframe⟩ := clear_spec hl
    have hxs : xs.length ≤ n := hl.length_eq ▸ hge
    rw [if_pos (by omega), drop_eq_nil_of_le hge, drop_eq_nil_of_le hxs]
    exact ⟨h', hclear, hempty, hframe⟩

theorem rightShift_spec (hl : IsList h this ps xs) (n : Nat) :
    ∃ h', rightShift this n h = .ok () h' ∧
      IsList h' this (ps.take (ps.length - n)) (xs.take (ps.length - n)) ∧
      Frame this h ps h' (ps.take (ps.length - n)) := by
  have hcount : (h.list this).numberOfEntries = ps.length := by rw [hl.list]
  unfold rightShift
  rw [bind_ok getNumberOfEntries_run, hcount]
  rcases Nat.lt_or_ge n ps.length with hlt | hge
  · rw [if_neg (by omega)]
    rcases Nat.eq_zero_or_pos n with rfl | hpos
    · have hxs : xs.take (ps.length - 0) = xs := by
        rw [Nat.sub_zero, hl.length_eq, take_length]
      rw [hxs, Nat.sub_zero, take_length]
      exact ⟨h, rfl, hl, .refl this h ps⟩
    · rw [if_neg (by omega)]
      cases ps with
      | nil => cases hlt
      | cons a ps =>
        obtain ⟨z, hz, hprev, -, hfields⟩ := hl.exists_ends
        obtain ⟨w, hw⟩ : ∃ w, (a :: ps).reverse[n]? = some w :=
          ⟨_, List.getElem?_eq_getElem (by rwa [length_reverse])⟩
        obtain ⟨qs, hqs⟩ : ∃ qs, (a :: ps).reverse = z :: qs := by
          rw [← head?_eq_some_iff, head?_reverse]
          exact hz
        have hwalk : walk getPrevNode n (some z) h = .ok (some w) h := by
          have hchain := hl.chain_prev
          have hn : n < (z :: qs).length := by
            rw [← hqs, length_reverse]
            exact hlt
          rw [hqs] at hchain
          rw [← hw, hqs]
          exact walk_run (fun _ => getPrevNode_run _) hchain hn
        have hpos' : (a :: ps).length - n ≠ 0 := by omega
        have hlast : w ∈ ((a :: ps).take ((a :: ps).length - n)).getLast? := by
          rw [List.getElem?_reverse hlt] at hw
          rw [getLast?_take, if_neg hpos', Nat.sub_right_comm, hw]
          rfl
        have hfirst : a ∈ ((a :: ps).take ((a :: ps).length - n)).head? := by
          rw [head?_take, if_neg hpos']
          rfl
        have hdata : ((a :: ps).take ((a :: ps).length - n)).map h.data =
            (xs.take ((a :: ps).length - n)).map some := by
          rw [map_take, map_take, hl.data]
        obtain ⟨hlist, hframe⟩ :=
          hl.relink (hl.ring.linked.take _) (take_sublist _ _) hdata hlast hfirst
        refine ⟨_, ?_, hlist, hframe⟩
        simp [hfields, hprev, hwalk, Heap.relink]
  · obtain ⟨h', hclear, hempty, hframe⟩ := clear_spec hl
    rw [if_pos (by omega), Nat.sub_eq_zero_of_le hge]
    exact ⟨h', hclear, hempty, hframe⟩

end PittCs.Cs445
