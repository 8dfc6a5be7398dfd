import Mathlib.Algebra.BigOperators.Group.Finset.Piecewise
import Mathlib.Algebra.Order.BigOperators.Group.Finset
import Mathlib.Algebra.Order.Group.Multiset
import Mathlib.Algebra.Order.Ring.Defs
import PittCs.Cs445.SimBank

/-!
# Runs of the bank simulation

`Sound` is kept by everything that changes a state. Between two events moreover no free
teller has a customer in its queue.
-/

namespace PittCs.Cs445.SimBank

open Function List Option

variable {K : Type}

/-! ## Sums over queues and tellers -/

theorem sum_update {β M : Type} [AddCommMonoid M] (g : β → M) (f : Nat → β) {n i : Nat} (hi : i < n)
    (x : β) : (∑ j ∈ Finset.range n, g (Function.update f i x j)) + g (f i) =
      (∑ j ∈ Finset.range n, g (f j)) + g x := by
  have hmem := Finset.mem_range.mpr hi
  rw [← Finset.add_sum_erase _ _ hmem, ← Finset.add_sum_erase _ (fun j => g (f j)) hmem,
    update_self]
  have hrest : ∑ j ∈ (Finset.range n).erase i, g (Function.update f i x j) =
      ∑ j ∈ (Finset.range n).erase i, g (f j) := by
    refine Finset.sum_congr rfl fun j hj => ?_
    rw [update_of_ne (Finset.ne_of_mem_erase hj)]
  rw [hrest, add_comm (g x), add_comm (g (f i)), add_assoc, add_assoc, add_comm (g x)]

namespace Bank

variable (b : Bank K)

/-- The customers in all queues. -/
def inQueues (queues : Nat → List (Customer K)) : Multiset (Customer K) :=
  ∑ q ∈ Finset.range b.queues, (queues q : Multiset (Customer K))

/-- The customers at all tellers. -/
def atTellers (tellers : Nat → Teller K) : Multiset (Customer K) :=
  ∑ i ∈ Finset.range b.num_tells, ((tellers i).currentCust.toList : Multiset (Customer K))

/-- The tellers that are busy. -/
def busyTellers (tellers : Nat → Teller K) : Finset Nat :=
  (Finset.range b.num_tells).filter fun i => (tellers i).busy

variable {b} {queues : Nat → List (Customer K)} {tellers : Nat → Teller K} {q i : Nat}
  {c : Customer K} {rest : List (Customer K)}

theorem inQueues_push (hq : q < b.queues) :
    b.inQueues (Function.update queues q (queues q ++ [c])) = c ::ₘ b.inQueues queues := by
  have hsum := sum_update (fun l : List (Customer K) => (l : Multiset (Customer K))) queues hq
    (queues q ++ [c])
  have hlast : ((queues q ++ [c] : List (Customer K)) : Multiset (Customer K)) =
      {c} + (queues q : Multiset (Customer K)) := by
    rw [← Multiset.coe_add, add_comm]
    rfl
  rw [hlast, ← add_assoc] at hsum
  rw [← Multiset.singleton_add, add_comm]
  exact add_right_cancel hsum

theorem inQueues_pop (hq : q < b.queues) (h : queues q = c :: rest) :
    b.inQueues queues = c ::ₘ b.inQueues (Function.update queues q rest) := by
  have hsum := sum_update (fun l : List (Customer K) => (l : Multiset (Customer K))) queues hq rest
  rw [h, ← Multiset.cons_coe, ← Multiset.singleton_add, ← add_assoc] at hsum
  rw [← Multiset.singleton_add, add_comm]
  exact (add_right_cancel hsum).symm

theorem atTellers_addCust (hi : i < b.num_tells) (h : (tellers i).currentCust = none) :
    b.atTellers (Function.update tellers i ((tellers i).addCust c)) =
      c ::ₘ b.atTellers tellers := by
  have hsum := sum_update (fun t : Teller K => (t.currentCust.toList : Multiset (Customer K)))
    tellers hi ((tellers i).addCust c)
  dsimp only [Teller.addCust] at hsum
  rw [h] at hsum
  rw [← Multiset.singleton_add, add_comm]
  exact (add_zero _).symm.trans hsum

theorem atTellers_removeCust (hi : i < b.num_tells) (h : (tellers i).currentCust = some c) :
    b.atTellers tellers =
      c ::ₘ b.atTellers (Function.update tellers i (tellers i).removeCust) := by
  have hsum := sum_update (fun t : Teller K => (t.currentCust.toList : Multiset (Customer K)))
    tellers hi (tellers i).removeCust
  dsimp only [Teller.removeCust] at hsum
  rw [h] at hsum
  rw [← Multiset.singleton_add, add_comm]
  exact (hsum.trans (add_zero _)).symm

theorem mem_busyTellers : i ∈ b.busyTellers tellers ↔ i < b.num_tells ∧ (tellers i).busy = true := by
  unfold busyTellers
  rw [Finset.mem_filter, Finset.mem_range]

theorem busyTellers_update (hi : i < b.num_tells) (h : (tellers i).busy = false) {t : Teller K}
    (ht : t.busy = true) :
    (b.busyTellers (Function.update tellers i t)).val = i ::ₘ (b.busyTellers tellers).val := by
  have hnot : i ∉ b.busyTellers tellers := by
    rw [mem_busyTellers, h]
    exact fun hmem => Bool.false_ne_true hmem.2
  rw [← Finset.insert_val_of_notMem hnot]
  refine congrArg Finset.val (Finset.ext fun j => ?_)
  rw [Finset.mem_insert, mem_busyTellers, mem_busyTellers]
  by_cases hj : j = i
  · rw [hj, update_self]
    exact iff_of_true ⟨hi, ht⟩ (Or.inl rfl)
  · rw [update_of_ne hj]
    exact (or_iff_right hj).symm

theorem busyTellers_removeCust (hi : i < b.num_tells) (h : (tellers i).busy = true) :
    (b.busyTellers tellers).val =
      i ::ₘ (b.busyTellers (Function.update tellers i (tellers i).removeCust)).val := by
  have hfree : (Function.update tellers i (tellers i).removeCust i).busy = false := by
    rw [update_self]
    rfl
  have hadd := busyTellers_update hi hfree h
  rw [update_idem, update_eq_self] at hadd
  exact hadd

/-- Who is at a teller is at one of the busy tellers. -/
theorem card_atTellers (h : ∀ i, (tellers i).busy = (tellers i).currentCust.isSome) :
    (b.atTellers tellers).card = (b.busyTellers tellers).card := by
  unfold atTellers busyTellers
  rw [Multiset.card_sum, Finset.card_filter]
  refine Finset.sum_congr rfl fun i _ => ?_
  rw [h i]
  cases (tellers i).currentCust with
  | none => rfl
  | some c => rfl

theorem card_inQueues : (b.inQueues queues).card = ∑ q ∈ Finset.range b.queues, (queues q).length := by
  unfold inQueues
  rw [Multiset.card_sum]
  rfl

theorem queueOf_lt (hi : i < b.num_tells) : b.queueOf i < b.queues := by
  unfold queueOf queues
  split
  case isTrue => exact Nat.zero_lt_one
  case isFalse => exact hi

end Bank

/-! ## What every step keeps -/

/-- What tells customers apart. -/
def Customer.key (c : Customer K) : Nat × K := (c.id, c.arrivalT)

/-- The entries of a history for one queue. -/
def ofQueue (q : Nat) (l : List (Nat × Customer K)) : List (Nat × K) :=
  (l.filter fun e => e.1 = q).map fun e => e.2.key

theorem ofQueue_append (q : Nat) (l l' : List (Nat × Customer K)) :
    ofQueue q (l ++ l') = ofQueue q l ++ ofQueue q l' := by
  unfold ofQueue
  rw [filter_append, map_append]

theorem ofQueue_singleton_self (q : Nat) (c : Customer K) : ofQueue q [(q, c)] = [c.key] := by
  unfold ofQueue
  rw [filter_cons_of_pos (by simp)]
  rfl

theorem ofQueue_singleton_ne {q q' : Nat} (h : q ≠ q') (c : Customer K) :
    ofQueue q' [(q, c)] = [] := by
  unfold ofQueue
  rw [filter_cons_of_neg (by simpa using h)]
  rfl

section

variable [Field K] [LinearOrder K]

/-- Before it leaves the bank. -/
def Customer.noEnd (c : Customer K) : Customer K := { c with endServiceT := 0 }

def SimEvent.location : SimEvent K → Option Nat
  | arrival _ => none
  | completionLoc _ location => some location

def SimEvent.arrivalTime : SimEvent K → Option K
  | arrival e_time => some e_time
  | completionLoc _ _ => none

/-- The places of the customers, and the histories. -/
structure Sound (b : Bank K) (s : State K) : Prop where
  capacity : s.curr_capacity =
    (b.inQueues s.bank_queues).card + (b.atTellers s.tell_list).card
  capacity_le : s.curr_capacity ≤ b.tot_capacity
  teller_id : ∀ i, (s.tell_list i).id = i
  teller_busy : ∀ i, (s.tell_list i).busy = (s.tell_list i).currentCust.isSome
  outside : ∀ q, b.queues ≤ q → s.bank_queues q = []
  ids : s.arrived.map (·.id) = List.range s.cust_id
  ordered : s.arrived.Pairwise fun c c' => c.arrivalT < c'.arrivalT
  in_hours : ∀ c ∈ s.arrived, c.arrivalT < b.sim_time
  entered : (s.entered.map fun e => e.2.key).Sublist (s.arrived.map (·.key))
  fifo : ∀ q, ofQueue q s.entered = ofQueue q s.started ++ (s.bank_queues q).map (·.key)
  places : (s.cust_list : Multiset (Customer K)).map (·.key) +
    (b.atTellers s.tell_list).map (·.key) + (b.inQueues s.bank_queues).map (·.key) =
    (s.arrived.map (·.key) : List (Nat × K))
  parts : (s.cust_list : Multiset (Customer K)).map (·.noEnd) +
    (b.atTellers s.tell_list).map (·.noEnd) =
    ((s.refused ++ s.started.map (·.2)).map (·.noEnd) : List (Customer K))
  fresh : ∀ q, ∀ c ∈ s.bank_queues q, c.queue = -1 → c.arrivalT = s.curr_time
  turned_away : ∀ c ∈ s.refused, c.startServiceT = 0 ∧ 0 < c.arrivalT
  immediate : ∀ e ∈ s.started, e.2.queue = -1 → e.2.startServiceT = e.2.arrivalT

/-- The events that are to come. -/
structure Scheduled (b : Bank K) (s : State K) : Prop where
  completions : (s.event_list.filterMap SimEvent.location : Multiset Nat) =
    (b.busyTellers s.tell_list).val
  arrivals : (s.event_list.filterMap SimEvent.arrivalTime).length ≤ 1
  later : ∀ t ∈ s.event_list.filterMap SimEvent.arrivalTime, 0 < t ∧ ∀ c ∈ s.arrived, c.arrivalT < t

variable {b : Bank K} {s : State K} {i : Nat}

/-! ## One teller -/

/-- The customer as the teller takes it. -/
def State.begin (s : State K) (i : Nat) (c : Customer K) : Customer K :=
  { c with startServiceT := s.curr_time, teller := (s.tell_list i).id }

/-- The state when a teller has taken a customer. -/
def Bank.taken (b : Bank K) (s : State K) (i : Nat) (c : Customer K) (rest : List (Customer K)) :
    State K :=
  { s with
    bank_queues := Function.update s.bank_queues (b.queueOf i) rest
    event_list := Lib.PriorityQueue.offer SimEvent.compareTo
      (.completionLoc (s.curr_time + c.serviceT) (s.tell_list i).id) s.event_list
    tell_list := Function.update s.tell_list i ((s.tell_list i).addCust (s.begin i c))
    started := s.started ++ [(b.queueOf i, s.begin i c)] }

/-- A teller takes the next customer when it is free and there is one. -/
theorem serve_cases (b : Bank K) (s : State K) (i : Nat) :
    (b.serve s i = s ∧ ((s.tell_list i).busy = true ∨ s.bank_queues (b.queueOf i) = [])) ∨
      ∃ c rest, (s.tell_list i).busy = false ∧ s.bank_queues (b.queueOf i) = c :: rest ∧
        b.serve s i = b.taken s i c rest := by
  unfold Bank.serve
  dsimp only
  by_cases hbusy : (s.tell_list i).busy = true
  · rw [if_pos hbusy]
    exact Or.inl ⟨rfl, Or.inl hbusy⟩
  rw [if_neg hbusy]
  cases hqueue : s.bank_queues (b.queueOf i) with
  | nil => exact Or.inl ⟨rfl, Or.inr rfl⟩
  | cons c rest => exact Or.inr ⟨c, rest, Bool.eq_false_of_not_eq_true hbusy, rfl, rfl⟩

theorem Sound.taken (hs : Sound b s) (hi : i < b.num_tells) (hbusy : (s.tell_list i).busy = false)
    {c : Customer K} {rest : List (Customer K)} (hqueue : s.bank_queues (b.queueOf i) = c :: rest) :
    Sound b (b.taken s i c rest) := by
  have hnone : (s.tell_list i).currentCust = none := by
    have h := hs.teller_busy i
    rw [hbusy] at h
    exact isNone_iff_eq_none.mp (by rw [← not_isSome, ← h]; rfl)
  have hpop := Bank.inQueues_pop (Bank.queueOf_lt hi) hqueue
  have hadd : b.atTellers (Function.update s.tell_list i ((s.tell_list i).addCust (s.begin i c))) =
      s.begin i c ::ₘ b.atTellers s.tell_list := Bank.atTellers_addCust hi hnone
  have hkey : (s.begin i c).key = c.key := rfl
  refine { hs with
    capacity := ?capacity, teller_id := ?teller_id, teller_busy := ?teller_busy
    outside := ?outside, fifo := ?fifo, places := ?places, parts := ?parts, fresh := ?fresh
    immediate := ?immediate }
  case capacity =>
    have hcap := hs.capacity
    rw [hpop, Multiset.card_cons] at hcap
    dsimp only [Bank.taken]
    rw [hadd, Multiset.card_cons]
    omega
  case teller_id =>
    exact (forall_update_iff _ fun j (t : Teller K) => t.id = j).mpr
      ⟨hs.teller_id i, fun j _ => hs.teller_id j⟩
  case teller_busy =>
    exact (forall_update_iff _ fun _ (t : Teller K) => t.busy = t.currentCust.isSome).mpr
      ⟨rfl, fun j _ => hs.teller_busy j⟩
  case outside =>
    intro q hq
    have hne : q ≠ b.queueOf i := Nat.ne_of_gt (Nat.lt_of_lt_of_le (Bank.queueOf_lt hi) hq)
    exact (update_of_ne hne _ _).trans (hs.outside q hq)
  case fifo =>
    intro q
    have hq := hs.fifo q
    dsimp only [Bank.taken]
    rw [ofQueue_append]
    by_cases heq : b.queueOf i = q
    · rw [← heq, hqueue] at hq
      rw [← heq, update_self, ofQueue_singleton_self, hq, hkey, append_assoc]
      rfl
    · rw [ofQueue_singleton_ne heq, update_of_ne (Ne.symm heq), append_nil]
      exact hq
  case places =>
    have hplaces := hs.places
    rw [hpop, Multiset.map_cons] at hplaces
    dsimp only [Bank.taken]
    rw [hadd, Multiset.map_cons, hkey, ← hplaces, Multiset.add_cons, Multiset.add_cons,
      Multiset.cons_add]
  case parts =>
    dsimp only [Bank.taken]
    rw [hadd, Multiset.map_cons, Multiset.add_cons, hs.parts, map_append, map_append,
      map_append, map_append, ← append_assoc]
    exact Multiset.coe_eq_coe.mpr (perm_append_singleton _ _).symm
  case fresh =>
    refine (forall_update_iff _ fun _ (l : List (Customer K)) =>
      ∀ c ∈ l, c.queue = -1 → c.arrivalT = s.curr_time).mpr ⟨fun c' hc' => ?_, fun q _ => hs.fresh q⟩
    refine hs.fresh (b.queueOf i) c' ?_
    rw [hqueue]
    exact mem_cons_of_mem c hc'
  case immediate =>
    refine forall_mem_append.mpr ⟨hs.immediate, forall_mem_singleton.mpr fun hminus => ?_⟩
    have hmem : c ∈ s.bank_queues (b.queueOf i) := by
      rw [hqueue]
      exact mem_cons_self
    exact (hs.fresh (b.queueOf i) c hmem hminus).symm

/-- What an offer does to what is read off the events. -/
theorem filterMap_offer {β : Type} (f : SimEvent K → Option β) (e : SimEvent K)
    (es : List (SimEvent K)) :
    ((Lib.PriorityQueue.offer SimEvent.compareTo e es).filterMap f).Perm ((e :: es).filterMap f) :=
  (Lib.PriorityQueue.offer_perm e es).filterMap f

theorem Scheduled.taken (hs : Scheduled b s) (hid : (s.tell_list i).id = i) (hi : i < b.num_tells)
    (hbusy : (s.tell_list i).busy = false) (c : Customer K) (rest : List (Customer K)) :
    Scheduled b (b.taken s i c rest) := by
  have harrivals : ((b.taken s i c rest).event_list.filterMap SimEvent.arrivalTime).Perm
      (s.event_list.filterMap SimEvent.arrivalTime) := filterMap_offer _ _ _
  constructor
  case completions =>
    have hloc : (((b.taken s i c rest).event_list.filterMap SimEvent.location : List Nat) :
        Multiset Nat) = (s.tell_list i).id ::ₘ (s.event_list.filterMap SimEvent.location) :=
      Multiset.coe_eq_coe.mpr (filterMap_offer _ _ _)
    rw [hs.completions, hid] at hloc
    rw [hloc]
    exact (Bank.busyTellers_update hi hbusy rfl).symm
  case arrivals =>
    rw [harrivals.length_eq]
    exact hs.arrivals
  case later => exact fun t ht => hs.later t (harrivals.mem_iff.mp ht)

/-! ## A completion -/

/-- The state when a teller has finished with a customer. -/
def State.freed (s : State K) (i : Nat) (c : Customer K) : State K :=
  { s with
    tell_list := Function.update s.tell_list i (s.tell_list i).removeCust
    cust_list := s.cust_list ++ [{ c with endServiceT := s.curr_time }]
    curr_capacity := s.curr_capacity - 1 }

omit [Field K] [LinearOrder K] in
theorem complete_eq {c : Customer K} (h : (s.tell_list i).currentCust = some c) :
    Bank.complete i s = .ok (s.freed i c) := by
  unfold Bank.complete
  rw [h]
  rfl

theorem map_append_singleton {α β : Type} (f : α → β) (l : List α) (x : α) :
    ((l ++ [x] : List α) : Multiset α).map f = f x ::ₘ (l : Multiset α).map f := by
  rw [← Multiset.map_cons]
  exact congrArg (Multiset.map f) (Multiset.coe_eq_coe.mpr (perm_append_singleton x l))

theorem Sound.freed (hs : Sound b s) (hi : i < b.num_tells) {c : Customer K}
    (hc : (s.tell_list i).currentCust = some c) : Sound b (s.freed i c) := by
  have hremove : b.atTellers s.tell_list = c ::ₘ b.atTellers (s.freed i c).tell_list :=
    Bank.atTellers_removeCust hi hc
  refine { hs with
    capacity := ?capacity, teller_id := ?teller_id, teller_busy := ?teller_busy
    capacity_le := Int.le_trans (Int.sub_le_self _ Int.one_nonneg) hs.capacity_le
    places := ?places, parts := ?parts }
  case capacity =>
    have hcap := hs.capacity
    rw [hremove, Multiset.card_cons] at hcap
    show s.curr_capacity - 1 = _
    rw [hcap]
    show _ = (((b.inQueues s.bank_queues).card : Nat) : Int) + _
    omega
  case teller_id =>
    exact (forall_update_iff _ fun j (t : Teller K) => t.id = j).mpr
      ⟨hs.teller_id i, fun j _ => hs.teller_id j⟩
  case teller_busy =>
    exact (forall_update_iff _ fun _ (t : Teller K) => t.busy = t.currentCust.isSome).mpr
      ⟨rfl, fun j _ => hs.teller_busy j⟩
  case places =>
    have hplaces := hs.places
    rw [hremove, Multiset.map_cons, Multiset.add_cons] at hplaces
    have hlist : ((s.freed i c).cust_list : Multiset (Customer K)).map (·.key) =
        c.key ::ₘ (s.cust_list : Multiset (Customer K)).map (·.key) := map_append_singleton _ _ _
    rw [hlist, Multiset.cons_add]
    exact hplaces
  case parts =>
    have hparts := hs.parts
    rw [hremove, Multiset.map_cons, Multiset.add_cons] at hparts
    have hlist : ((s.freed i c).cust_list : Multiset (Customer K)).map (·.noEnd) =
        c.noEnd ::ₘ (s.cust_list : Multiset (Customer K)).map (·.noEnd) :=
      map_append_singleton _ _ _
    rw [hlist, Multiset.cons_add]
    exact hparts

/-! ## An arrival -/

section

variable (ns na : K)

/-- The new customer, before a queue is chosen. -/
def State.newCust (s : State K) (ns : K) : Customer K :=
  { Customer.new s.cust_id s.curr_time with serviceT := ns }

/-- The next arrival is scheduled. -/
def State.noted (s : State K) (ns na : K) : State K :=
  { s with
    cust_id := s.cust_id + 1
    event_list := Lib.PriorityQueue.offer SimEvent.compareTo
      (.arrival (s.curr_time + na)) s.event_list
    arrived := s.arrived ++ [s.newCust ns] }

def Bank.queued (b : Bank K) (s : State K) (ns : K) : Customer K :=
  { s.newCust ns with queue := b.chooseQueue s (b.shortQueue s) }

/-- The customer stays. -/
def Bank.admitted (b : Bank K) (s : State K) : State K :=
  { s.noted ns na with
    bank_queues := Function.update s.bank_queues (b.shortQueue s)
      (s.bank_queues (b.shortQueue s) ++ [b.queued s ns])
    curr_capacity := s.curr_capacity + 1
    entered := s.entered ++ [(b.shortQueue s, b.queued s ns)] }

/-- The customer leaves. -/
def State.left (s : State K) : State K :=
  { s.noted ns na with
    cust_list := s.cust_list ++ [s.newCust ns]
    refused := s.refused ++ [s.newCust ns] }

theorem arrive_eq (b : Bank K) (s : State K) : b.arrive ns na s =
    if s.curr_capacity < b.tot_capacity then b.admitted ns na s else s.left ns na := rfl

end

omit [Field K] [LinearOrder K] in
/-- An index that is found by the search for the shortest queue is one of a queue. -/
theorem shortQueue_lt (b : Bank K) (s : State K) : b.shortQueue s < b.queues := by
  have hpos : 0 < b.queues := by
    unfold Bank.queues
    split
    case isTrue => exact Nat.zero_lt_one
    case isFalse => exact b.num_tells_pos
  have hloop : ∀ (is : List Nat) (short : Nat × Nat), (∀ i ∈ is, i < b.queues) →
      short.1 < b.queues → (is.foldl (fun short i =>
        if (s.bank_queues i).length < short.2 then (i, (s.bank_queues i).length) else short)
        short).1 < b.queues := by
    intro is
    induction is with
    | nil => exact fun _ _ hshort => hshort
    | cons i is ih =>
      intro short his hshort
      rw [foldl_cons]
      refine ih _ (fun j hj => his j (mem_cons_of_mem i hj)) ?_
      split
      case isTrue => exact his i mem_cons_self
      case isFalse => exact hshort
  refine hloop _ _ (fun i hi => ?_) hpos
  have hi' := mem_range'_1.mp hi
  omega

omit [Field K] [LinearOrder K] in
/-- A customer gets number -1 only if a free teller can take it at once. -/
theorem chooseQueue_eq {q : Nat} (hq : q < b.queues) (h : b.chooseQueue s q = -1) :
    s.bank_queues q = [] ∧
      ∃ i, i < b.num_tells ∧ b.queueOf i = q ∧ (s.tell_list i).busy = false := by
  have hnat : ((q : Nat) : Int) ≠ -1 := by omega
  unfold Bank.chooseQueue at h
  by_cases hempty : (s.bank_queues q).length = 0
  · rw [if_pos hempty] at h
    refine ⟨eq_nil_of_length_eq_zero hempty, ?_⟩
    cases hsingle : b.single_queue with
    | true =>
      rw [if_pos hsingle] at h
      have hq0 : q = 0 := by
        unfold Bank.queues at hq
        rw [if_pos hsingle] at hq
        omega
      -- one of the tellers has changed the number
      have hloop : ∀ (is : List Nat) (queue : Int), queue ≠ -1 →
          is.foldl (fun queue i => if (s.tell_list i).busy then queue else -1) queue = -1 →
          ∃ i ∈ is, (s.tell_list i).busy = false := by
        intro is
        induction is with
        | nil => exact fun queue hne heq => absurd heq hne
        | cons i is ih =>
          intro queue hne heq
          rw [foldl_cons] at heq
          by_cases hbusy : (s.tell_list i).busy = true
          · rw [if_pos hbusy] at heq
            rcases ih queue hne heq with ⟨j, hj, hidle⟩
            exact ⟨j, mem_cons_of_mem i hj, hidle⟩
          · exact ⟨i, mem_cons_self, Bool.eq_false_of_not_eq_true hbusy⟩
      rcases hloop _ _ hnat h with ⟨i, hi, hidle⟩
      refine ⟨i, mem_range.mp hi, ?_, hidle⟩
      unfold Bank.queueOf
      rw [if_pos hsingle, hq0]
    | false =>
      rw [hsingle, if_neg Bool.false_ne_true] at h
      have hlt : q < b.num_tells := by
        unfold Bank.queues at hq
        rw [hsingle, if_neg Bool.false_ne_true] at hq
        exact hq
      refine ⟨q, hlt, ?_, ?_⟩
      · unfold Bank.queueOf
        rw [hsingle, if_neg Bool.false_ne_true]
      · by_contra hbusy
        rw [if_pos (Bool.eq_true_of_not_eq_false hbusy)] at h
        exact hnat h
  · rw [if_neg hempty] at h
    exact absurd h hnat

section

variable {ns na : K}

variable (ns na) in
theorem ids_noted (hs : Sound b s) :
    (s.noted ns na).arrived.map (·.id) = List.range (s.noted ns na).cust_id := by
  show (s.arrived ++ [s.newCust ns]).map (·.id) = List.range (s.cust_id + 1)
  rw [map_append, hs.ids, range_succ]
  rfl

variable (ns na) in
theorem ordered_noted (hs : Sound b s) (hlater : ∀ c ∈ s.arrived, c.arrivalT < s.curr_time) :
    (s.noted ns na).arrived.Pairwise fun c c' => c.arrivalT < c'.arrivalT := by
  refine pairwise_append.mpr ⟨hs.ordered, pairwise_singleton _ _, fun c hc c' hc' => ?_⟩
  rw [mem_singleton.mp hc']
  exact hlater c hc

variable (ns na) in
theorem in_hours_noted (hs : Sound b s) (hopen : s.curr_time < b.sim_time) :
    ∀ c ∈ (s.noted ns na).arrived, c.arrivalT < b.sim_time :=
  forall_mem_append.mpr ⟨hs.in_hours, forall_mem_singleton.mpr hopen⟩

theorem keys_noted (s : State K) (ns na : K) : (s.noted ns na).arrived.map (·.key) =
    s.arrived.map (·.key) ++ [(s.newCust ns).key] := map_append

theorem Sound.admitted (hs : Sound b s) (hlater : ∀ c ∈ s.arrived, c.arrivalT < s.curr_time)
    (hopen : s.curr_time < b.sim_time) (hroom : s.curr_capacity < b.tot_capacity) : Sound b (b.admitted ns na s) := by
  have hshort := shortQueue_lt b s
  have hpush : b.inQueues (b.admitted ns na s).bank_queues =
      b.queued s ns ::ₘ b.inQueues s.bank_queues := Bank.inQueues_push hshort
  have hkey : (b.queued s ns).key = (s.newCust ns).key := rfl
  refine { hs with
    capacity := ?capacity, capacity_le := hroom, outside := ?outside, ids := ids_noted ns na hs
    ordered := ordered_noted ns na hs hlater, in_hours := in_hours_noted ns na hs hopen
    entered := ?entered, fifo := ?fifo
    places := ?places, fresh := ?fresh }
  case capacity =>
    have hcap := hs.capacity
    show s.curr_capacity + 1 = _
    rw [hpush, Multiset.card_cons, hcap]
    show _ = _ + (((b.atTellers s.tell_list).card : Nat) : Int)
    omega
  case outside =>
    intro q hq
    have hne : q ≠ b.shortQueue s := Nat.ne_of_gt (Nat.lt_of_lt_of_le hshort hq)
    exact (update_of_ne hne _ _).trans (hs.outside q hq)
  case entered =>
    show List.Sublist (List.map _ (s.entered ++ [_])) (List.map _ (s.noted ns na).arrived)
    rw [keys_noted, map_append]
    exact hs.entered.append (List.Sublist.refl _)
  case fifo =>
    intro q
    have hq := hs.fifo q
    show ofQueue q (s.entered ++ [_]) = ofQueue q s.started ++ _
    rw [ofQueue_append, hq]
    dsimp only [Bank.admitted]
    by_cases heq : b.shortQueue s = q
    · rw [heq, update_self, ofQueue_singleton_self, map_append, append_assoc]
      rfl
    · rw [ofQueue_singleton_ne heq, update_of_ne (Ne.symm heq), append_nil]
  case places =>
    have hplaces := hs.places
    show _ = (((s.noted ns na).arrived.map (·.key) : List (Nat × K)) : Multiset (Nat × K))
    rw [hpush, Multiset.map_cons, hkey, keys_noted, Multiset.add_cons]
    refine (congrArg ((s.newCust ns).key ::ₘ ·) hplaces).trans ?_
    exact (Multiset.coe_eq_coe.mpr (perm_append_singleton _ _)).symm
  case fresh =>
    refine (forall_update_iff _ fun _ (l : List (Customer K)) =>
      ∀ c ∈ l, c.queue = -1 → c.arrivalT = s.curr_time).mpr ⟨?_, fun q _ => hs.fresh q⟩
    exact forall_mem_append.mpr ⟨hs.fresh _, forall_mem_singleton.mpr fun _ => rfl⟩

theorem Sound.left (hs : Sound b s) (hlater : ∀ c ∈ s.arrived, c.arrivalT < s.curr_time)
    (hopen : s.curr_time < b.sim_time) (hpos : 0 < s.curr_time) : Sound b (s.left ns na) := by
  refine { hs with
    ids := ids_noted ns na hs, ordered := ordered_noted ns na hs hlater
    in_hours := in_hours_noted ns na hs hopen, entered := ?entered
    places := ?places, parts := ?parts, turned_away := ?turned_away }
  case entered =>
    show List.Sublist (List.map _ s.entered) (List.map _ (s.noted ns na).arrived)
    rw [keys_noted]
    exact hs.entered.trans (sublist_append_left _ _)
  case places =>
    have hplaces := hs.places
    have hlist : ((s.left ns na).cust_list : Multiset (Customer K)).map (·.key) =
        (s.newCust ns).key ::ₘ (s.cust_list : Multiset (Customer K)).map (·.key) :=
      map_append_singleton _ _ _
    show _ = (((s.noted ns na).arrived.map (·.key) : List (Nat × K)) : Multiset (Nat × K))
    rw [hlist, keys_noted, Multiset.cons_add, Multiset.cons_add]
    refine (congrArg ((s.newCust ns).key ::ₘ ·) hplaces).trans ?_
    exact (Multiset.coe_eq_coe.mpr (perm_append_singleton _ _)).symm
  case parts =>
    have hparts := hs.parts
    have hlist : ((s.left ns na).cust_list : Multiset (Customer K)).map (·.noEnd) =
        (s.newCust ns).noEnd ::ₘ (s.cust_list : Multiset (Customer K)).map (·.noEnd) :=
      map_append_singleton _ _ _
    rw [hlist, Multiset.cons_add]
    refine (congrArg ((s.newCust ns).noEnd ::ₘ ·) hparts).trans (Multiset.coe_eq_coe.mpr ?_)
    show List.Perm _ (List.map _ (s.refused ++ [s.newCust ns] ++ _))
    rw [append_assoc, map_append, map_append, singleton_append, map_cons]
    exact perm_middle.symm
  case turned_away =>
    exact forall_mem_append.mpr
      ⟨hs.turned_away, forall_mem_singleton.mpr ⟨rfl, hpos⟩⟩

theorem Sound.arrive (hs : Sound b s) (hlater : ∀ c ∈ s.arrived, c.arrivalT < s.curr_time)
    (hopen : s.curr_time < b.sim_time) (hpos : 0 < s.curr_time) : Sound b (b.arrive ns na s) := by
  rw [arrive_eq]
  split
  case isTrue hroom => exact hs.admitted hlater hopen hroom
  case isFalse => exact hs.left hlater hopen hpos

end

/-! ## An event -/

/-- Between two turns. -/
structure Settled (b : Bank K) (s : State K) : Prop where
  sound : Sound b s
  scheduled : Scheduled b s
  free : ∀ i < b.num_tells, (s.tell_list i).busy = false → s.bank_queues (b.queueOf i) = []
  waiting : ∀ q, ∀ c ∈ s.bank_queues q, c.queue ≠ -1

/-- A customer with number -1 is alone in the queue of a free teller. -/
def Ready (b : Bank K) (s : State K) : Prop :=
  ∀ q, ∀ c ∈ s.bank_queues q, c.queue = -1 → (s.bank_queues q).length ≤ 1 ∧
    ∃ i, i < b.num_tells ∧ b.queueOf i = q ∧ (s.tell_list i).busy = false

/-- The event is taken off the list. -/
def State.advance (s : State K) (e : SimEvent K) (es : List (SimEvent K)) : State K :=
  { s with event_list := es, curr_time := e.get_e_time }

theorem Settled.advance (hs : Settled b s) (e : SimEvent K) (es : List (SimEvent K)) :
    Sound b (s.advance e es) :=
  { hs.sound with fresh := fun q c hc hminus => absurd hminus (hs.waiting q c hc) }

variable {ns na : K} {es : List (SimEvent K)}

/-- What is read off the list of events before one is taken. -/
theorem filterMap_poll {β : Type} {e : SimEvent K} (f : SimEvent K → Option β)
    (h : Lib.PriorityQueue.poll SimEvent.compareTo s.event_list = some (e, es)) :
    ((e :: es).filterMap f).Perm (s.event_list.filterMap f) :=
  (Lib.PriorityQueue.poll_perm h).filterMap f

/-- At an arrival no other arrival is scheduled. -/
theorem no_arrival {t : K} (hs : Scheduled b s)
    (h : Lib.PriorityQueue.poll SimEvent.compareTo s.event_list = some (.arrival t, es)) :
    es.filterMap SimEvent.arrivalTime = [] := by
  have hlen : (es.filterMap SimEvent.arrivalTime).length + 1 =
      (s.event_list.filterMap SimEvent.arrivalTime).length :=
    (filterMap_poll SimEvent.arrivalTime h).length_eq
  have hone := hs.arrivals
  exact eq_nil_of_length_eq_zero (by omega)

theorem completions_arrival {t : K} (hs : Scheduled b s)
    (h : Lib.PriorityQueue.poll SimEvent.compareTo s.event_list = some (.arrival t, es)) :
    (es.filterMap SimEvent.location : Multiset Nat) = (b.busyTellers s.tell_list).val := by
  rw [← hs.completions]
  exact Multiset.coe_eq_coe.mpr (filterMap_poll SimEvent.location h)

theorem later_arrival {t : K} (hs : Scheduled b s)
    (h : Lib.PriorityQueue.poll SimEvent.compareTo s.event_list = some (.arrival t, es)) :
    0 < t ∧ ∀ c ∈ s.arrived, c.arrivalT < t := by
  refine hs.later t ((filterMap_poll SimEvent.arrivalTime h).mem_iff.mp ?_)
  show t ∈ t :: es.filterMap SimEvent.arrivalTime
  exact mem_cons_self

/-- An arrival at closing time or later. -/
theorem Scheduled.closed {t : K} (hs : Scheduled b s)
    (h : Lib.PriorityQueue.poll SimEvent.compareTo s.event_list = some (.arrival t, es)) :
    Scheduled b (s.advance (.arrival t) es) := by
  have hloc := completions_arrival hs h
  constructor
  case completions => exact hloc
  case arrivals =>
    show (es.filterMap SimEvent.arrivalTime).length ≤ 1
    rw [no_arrival hs h]
    exact Nat.zero_le 1
  case later =>
    intro t' ht'
    change t' ∈ es.filterMap SimEvent.arrivalTime at ht'
    rw [no_arrival hs h] at ht'
    exact absurd ht' not_mem_nil

theorem Scheduled.arrive [IsStrictOrderedRing K] {t : K} (hs : Scheduled b s) (hna : 0 < na)
    (h : Lib.PriorityQueue.poll SimEvent.compareTo s.event_list = some (.arrival t, es)) :
    Scheduled b (b.arrive ns na (s.advance (.arrival t) es)) := by
  have hlater := later_arrival hs h
  have hevents : (b.arrive ns na (s.advance (.arrival t) es)).event_list =
      Lib.PriorityQueue.offer SimEvent.compareTo (.arrival (t + na)) es := by
    rw [arrive_eq]
    split <;> rfl
  have htellers : (b.arrive ns na (s.advance (.arrival t) es)).tell_list = s.tell_list := by
    rw [arrive_eq]
    split <;> rfl
  have harrived : (b.arrive ns na (s.advance (.arrival t) es)).arrived =
      s.arrived ++ [(s.advance (.arrival t) es).newCust ns] := by
    rw [arrive_eq]
    split <;> rfl
  have harrivals : ((b.arrive ns na (s.advance (.arrival t) es)).event_list.filterMap
      SimEvent.arrivalTime).Perm [t + na] := by
    have hoffer : ((Lib.PriorityQueue.offer SimEvent.compareTo (.arrival (t + na)) es).filterMap
        SimEvent.arrivalTime).Perm ((t + na) :: es.filterMap SimEvent.arrivalTime) :=
      filterMap_offer _ _ _
    rw [no_arrival hs h] at hoffer
    rw [hevents]
    exact hoffer
  constructor
  case completions =>
    rw [hevents, htellers, ← completions_arrival hs h]
    exact Multiset.coe_eq_coe.mpr (filterMap_offer SimEvent.location (.arrival (t + na)) es)
  case arrivals => exact harrivals.length_eq.le
  case later =>
    intro t' ht'
    rw [mem_singleton.mp (harrivals.mem_iff.mp ht')]
    have hlt : t < t + na := lt_add_of_pos_right t hna
    refine ⟨hlater.1.trans hlt, fun c hc => ?_⟩
    rw [harrived] at hc
    rcases mem_append.mp hc with hc | hc
    · exact (hlater.2 c hc).trans hlt
    · rw [mem_singleton.mp hc]
      exact hlt

theorem Settled.ready_arrive (hs : Settled b s) (e : SimEvent K) (es : List (SimEvent K)) :
    Ready b (b.arrive ns na (s.advance e es)) := by
  rw [arrive_eq]
  split
  case isFalse => exact fun q c hc hminus => absurd hminus (hs.waiting q c hc)
  case isTrue =>
    intro q c hc hminus
    dsimp only [Bank.admitted] at hc ⊢
    by_cases heq : q = b.shortQueue (s.advance e es)
    · rw [heq, update_self] at hc ⊢
      rcases mem_append.mp hc with hc | hc
      · exact absurd hminus (hs.waiting _ c hc)
      · rw [mem_singleton.mp hc] at hminus
        rcases chooseQueue_eq (shortQueue_lt b _) hminus with ⟨hnil, hidle⟩
        rw [hnil]
        exact ⟨Nat.le_refl 1, hidle⟩
    · rw [update_of_ne heq] at hc
      exact absurd hminus (hs.waiting q c hc)

/-- At a completion the teller has a customer. -/
theorem Settled.completion (hs : Settled b s) {t : K}
    (h : Lib.PriorityQueue.poll SimEvent.compareTo s.event_list = some (.completionLoc t i, es)) :
    i < b.num_tells ∧ ∃ c, (s.tell_list i).currentCust = some c ∧
      Scheduled b ((s.advance (.completionLoc t i) es).freed i c) := by
  have hlocs : (b.busyTellers s.tell_list).val = i ::ₘ (es.filterMap SimEvent.location) := by
    rw [← hs.scheduled.completions]
    exact (Multiset.coe_eq_coe.mpr (filterMap_poll SimEvent.location h)).symm
  have hmem : i ∈ b.busyTellers s.tell_list := by
    rw [← Finset.mem_val, hlocs]
    exact Multiset.mem_cons_self i _
  rcases Bank.mem_busyTellers.mp hmem with ⟨hi, hbusy⟩
  have hsome := hs.sound.teller_busy i
  rw [hbusy] at hsome
  rcases isSome_iff_exists.mp hsome.symm with ⟨c, hc⟩
  have harrivals := filterMap_poll SimEvent.arrivalTime h
  refine ⟨hi, c, hc, ?_⟩
  constructor
  case completions =>
    rw [Bank.busyTellers_removeCust hi hbusy] at hlocs
    exact ((Multiset.cons_inj_right i).mp hlocs).symm
  case arrivals => exact harrivals.length_eq.le.trans hs.scheduled.arrivals
  case later => exact fun t' ht' => hs.scheduled.later t' (harrivals.mem_iff.mp ht')

/-- What an event does before the tellers are served. -/
theorem Settled.handle [IsStrictOrderedRing K] (hs : Settled b s) (ns : K) (hna : 0 < na)
    {e : SimEvent K}
    (h : Lib.PriorityQueue.poll SimEvent.compareTo s.event_list = some (e, es)) :
    ∃ s₁, b.handle ns na e (s.advance e es) = .ok s₁ ∧ Sound b s₁ ∧ Scheduled b s₁ ∧ Ready b s₁ := by
  have hadvance := hs.advance e es
  have hwaiting : Ready b (s.advance e es) := fun q c hc hminus => absurd hminus (hs.waiting q c hc)
  cases e with
  | arrival t =>
    have hlater := later_arrival hs.scheduled h
    refine ⟨_, rfl, ?_⟩
    split
    case isTrue hopen =>
      exact ⟨hadvance.arrive hlater.2 hopen hlater.1, hs.scheduled.arrive hna h, hs.ready_arrive _ es⟩
    case isFalse => exact ⟨hadvance, hs.scheduled.closed h, hwaiting⟩
  | completionLoc t i =>
    rcases hs.completion h with ⟨hi, c, hc, hscheduled⟩
    exact ⟨_, complete_eq (s := s.advance (.completionLoc t i) es) hc, hadvance.freed hi hc, hscheduled,
      fun q c hc hminus => absurd hminus (hs.waiting q c hc)⟩

end

end PittCs.Cs445.SimBank
