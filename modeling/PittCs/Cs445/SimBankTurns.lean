import Mathlib.Algebra.Field.Rat
import Mathlib.Algebra.Order.Ring.Rat
import PittCs.Cs445.SimBankRun

/-!
# Turns of the bank simulation

After the customers were pulled to the tellers every state is settled again. In an ended run
the queues and the tellers are empty, so that the list has all customers.
-/

namespace PittCs.Cs445.SimBank

open Function List Option

section

variable {K : Type} [Field K] [LinearOrder K] {b : Bank K} {s : State K} {q i j : Nat}

/-! ## The loop over the tellers -/

/-- A property that a teller keeps when it takes a customer is kept by the loop. -/
theorem serve_loop (P : State K → Prop)
    (htaken : ∀ s i c rest, i < b.num_tells → P s → (s.tell_list i).busy = false →
      s.bank_queues (b.queueOf i) = c :: rest → P (b.taken s i c rest))
    (is : List Nat) : ∀ s, (∀ i ∈ is, i < b.num_tells) → P s → P (is.foldl b.serve s) := by
  induction is with
  | nil => exact fun _ _ hs => hs
  | cons i is ih =>
    intro s his hs
    rw [foldl_cons]
    refine ih _ (fun j hj => his j (mem_cons_of_mem i hj)) ?_
    rcases serve_cases b s i with ⟨heq, -⟩ | ⟨c, rest, hbusy, hqueue, heq⟩
    · rw [heq]
      exact hs
    · rw [heq]
      exact htaken s i c rest (his i mem_cons_self) hs hbusy hqueue

theorem taken_busy {c : Customer K} {rest : List (Customer K)}
    (h : (s.tell_list j).busy = true) : ((b.taken s i c rest).tell_list j).busy = true := by
  dsimp only [Bank.taken]
  by_cases hj : j = i
  · rw [hj, update_self]
    rfl
  · rw [update_of_ne hj]
    exact h

/-- The queues only lose customers. -/
theorem taken_queue {c : Customer K} {rest : List (Customer K)}
    (hqueue : s.bank_queues (b.queueOf i) = c :: rest) (q : Nat) :
    (b.taken s i c rest).bank_queues q = s.bank_queues q ∨
      q = b.queueOf i ∧ (b.taken s i c rest).bank_queues q = (s.bank_queues q).tail := by
  dsimp only [Bank.taken]
  by_cases hq : q = b.queueOf i
  · right
    rw [hq, update_self, hqueue]
    exact ⟨rfl, rfl⟩
  · left
    rw [update_of_ne hq]

/-- A teller is busy or has an empty queue. -/
def Occupied (b : Bank K) (i : Nat) (s : State K) : Prop :=
  (s.tell_list i).busy = true ∨ s.bank_queues (b.queueOf i) = []

theorem Occupied.taken {c : Customer K} {rest : List (Customer K)} (h : Occupied b j s)
    (hqueue : s.bank_queues (b.queueOf i) = c :: rest) : Occupied b j (b.taken s i c rest) := by
  rcases h with hbusy | hnil
  · exact Or.inl (taken_busy hbusy)
  · right
    rcases taken_queue (b := b) hqueue (b.queueOf j) with heq | ⟨-, heq⟩
    · rw [heq, hnil]
    · rw [heq, hnil]
      rfl

theorem occupied_serve (s : State K) (i : Nat) : Occupied b i (b.serve s i) := by
  rcases serve_cases b s i with ⟨heq, h⟩ | ⟨c, rest, hbusy, hqueue, heq⟩
  · rw [heq]
    exact h
  · rw [heq]
    left
    dsimp only [Bank.taken]
    rw [update_self]
    rfl

theorem occupied_loop (is : List Nat) : ∀ s, (∀ i ∈ is, i < b.num_tells) → ∀ i ∈ is,
    Occupied b i (is.foldl b.serve s) := by
  induction is with
  | nil => exact fun _ _ i hi => absurd hi not_mem_nil
  | cons j is ih =>
    intro s his i hi
    have his' : ∀ i ∈ is, i < b.num_tells := fun i hi => his i (mem_cons_of_mem j hi)
    rw [foldl_cons]
    rcases mem_cons.mp hi with rfl | hi
    · exact serve_loop (Occupied b i) (fun _ _ _ _ _ h _ hqueue => h.taken hqueue) is _ his'
        (occupied_serve s i)
    · exact ih _ his' i hi

/-- The only customer of a queue with a free teller is taken. -/
theorem alone_loop (is : List Nat) (hlen : (s.bank_queues q).length ≤ 1) (hi : i ∈ is)
    (his : ∀ i ∈ is, i < b.num_tells) (hq : b.queueOf i = q) (hidle : (s.tell_list i).busy = false) :
    (is.foldl b.serve s).bank_queues q = [] := by
  have hkept := serve_loop (b := b)
    (fun s => (s.bank_queues q).length ≤ 1 ∧
      ((s.tell_list i).busy = false ∨ s.bank_queues q = []))
    (by
      rintro s j c rest - ⟨hlen, hor⟩ hbusy hqueue
      rcases taken_queue (b := b) hqueue q with heq | ⟨-, heq⟩
      · rw [heq]
        refine ⟨hlen, ?_⟩
        by_cases hj : i = j
        · -- the teller itself would take from this queue
          right
          rw [← hj, hq] at hqueue
          have hself : (b.taken s j c rest).bank_queues q = rest := by
            dsimp only [Bank.taken]
            rw [← hj, hq, update_self]
          rw [hqueue, length_cons] at hlen
          rw [heq, hqueue] at hself
          have hlen' := congrArg List.length hself
          rw [length_cons] at hlen'
          omega
        · dsimp only [Bank.taken]
          rw [update_of_ne hj]
          exact hor
      · have htail : (s.bank_queues q).tail = [] := by
          refine eq_nil_of_length_eq_zero ?_
          rw [length_tail]
          omega
        rw [heq, htail]
        exact ⟨Nat.zero_le 1, Or.inr rfl⟩)
    is s his ⟨hlen, Or.inl hidle⟩
  rcases hkept.2 with hfree | hnil
  · rcases occupied_loop is s his i hi with hbusy | hnil
    · rw [hfree] at hbusy
      exact absurd hbusy Bool.false_ne_true
    · rw [← hq]
      exact hnil
  · exact hnil

theorem mem_of_loop (is : List Nat) (his : ∀ i ∈ is, i < b.num_tells) {c : Customer K}
    (hc : c ∈ (is.foldl b.serve s).bank_queues q) : c ∈ s.bank_queues q := by
  refine serve_loop (b := b) (fun s' => ∀ c ∈ s'.bank_queues q, c ∈ s.bank_queues q) ?_ is s his
    (fun _ hc => hc) c hc
  intro s' i c rest _ h _ hqueue c' hc'
  rcases taken_queue (b := b) hqueue q with heq | ⟨-, heq⟩
  · rw [heq] at hc'
    exact h c' hc'
  · rw [heq] at hc'
    exact h c' (mem_of_mem_tail hc')

/-- The loop settles a state. -/
theorem settled_loop (hs : Sound b s) (hscheduled : Scheduled b s) (hready : Ready b s) :
    Settled b ((List.range b.num_tells).foldl b.serve s) := by
  have his : ∀ i ∈ List.range b.num_tells, i < b.num_tells := fun i hi => mem_range.mp hi
  have hkept := serve_loop (b := b) (fun s => Sound b s ∧ Scheduled b s)
    (fun s i c rest hi h hbusy hqueue =>
      ⟨h.1.taken hi hbusy hqueue, h.2.taken (h.1.teller_id i) hi hbusy c rest⟩)
    _ s his ⟨hs, hscheduled⟩
  constructor
  case sound => exact hkept.1
  case scheduled => exact hkept.2
  case free =>
    intro i hi hidle
    rcases occupied_loop _ s his i (mem_range.mpr hi) with hbusy | hnil
    · rw [hidle] at hbusy
      exact absurd hbusy Bool.false_ne_true
    · exact hnil
  case waiting =>
    intro q c hc hminus
    rcases hready q c (mem_of_loop _ his hc) hminus with ⟨hlen, i, hi, hq, hidle⟩
    rw [alone_loop _ hlen (mem_range.mpr hi) his hq hidle] at hc
    exact absurd hc not_mem_nil

/-! ## Customers that are taken after they have arrived -/

/-- When a teller is to be finished next, who is next in its queue has arrived. -/
def Bank.Timely (b : Bank K) (s : State K) : Prop :=
  ∀ t i es, Lib.PriorityQueue.poll SimEvent.compareTo s.event_list =
    some (.completionLoc t i, es) → ∀ c ∈ (s.bank_queues (b.queueOf i)).head?, c.arrivalT ≤ t

/-- Nobody has been taken before the arrival. -/
def State.InTime (s : State K) : Prop := ∀ e ∈ s.started, e.2.arrivalT ≤ e.2.startServiceT

/-- Who is next at a free teller has arrived. Another one follows only if this teller is the
only free one. -/
structure Punctual (b : Bank K) (s : State K) : Prop where
  started : s.InTime
  next : ∀ j < b.num_tells, (s.tell_list j).busy = false →
    ∀ c rest, s.bank_queues (b.queueOf j) = c :: rest → c.arrivalT ≤ s.curr_time ∧
      (rest = [] ∨ ∀ k < b.num_tells, (s.tell_list k).busy = false →
        b.queueOf k = b.queueOf j → k = j)

theorem Punctual.taken {c : Customer K} {rest : List (Customer K)} (hs : Punctual b s)
    (hi : i < b.num_tells) (hbusy : (s.tell_list i).busy = false)
    (hqueue : s.bank_queues (b.queueOf i) = c :: rest) : Punctual b (b.taken s i c rest) := by
  rcases hs.next i hi hbusy c rest hqueue with ⟨htime, hrest⟩
  have hidle : ∀ j, ((b.taken s i c rest).tell_list j).busy = false →
      j ≠ i ∧ (s.tell_list j).busy = false := by
    refine (forall_update_iff _ fun j (t : Teller K) => t.busy = false →
      j ≠ i ∧ (s.tell_list j).busy = false).mpr ⟨fun h => ?_, fun j hj h => ⟨hj, h⟩⟩
    exact absurd h.symm Bool.false_ne_true
  constructor
  case started =>
    exact forall_mem_append.mpr ⟨hs.started, forall_mem_singleton.mpr htime⟩
  case next =>
    intro j hj hfree c' rest' hqueue'
    rcases hidle j hfree with ⟨hne, hfree⟩
    dsimp only [Bank.taken] at hqueue'
    by_cases hq : b.queueOf j = b.queueOf i
    · rw [hq, update_self] at hqueue'
      rcases hrest with hnil | hone
      · rw [hnil] at hqueue'
        exact absurd hqueue' (cons_ne_nil c' rest').symm
      · exact absurd (hone j hj hfree hq) hne
    · rw [update_of_ne hq] at hqueue'
      rcases hs.next j hj hfree c' rest' hqueue' with ⟨htime', hrest'⟩
      exact ⟨htime', hrest'.imp_right fun hone k hk hk' => hone k hk (hidle k hk').2⟩

section

variable {ns na : K} {e : SimEvent K} {es : List (SimEvent K)}

theorem Settled.punctual_arrive (hs : Settled b s) (htime : s.InTime) :
    Punctual b (b.arrive ns na (s.advance e es)) := by
  rw [arrive_eq]
  split
  case isFalse =>
    refine ⟨htime, fun j hj hfree c rest hqueue => ?_⟩
    exact absurd ((hs.free j hj hfree).symm.trans hqueue) (cons_ne_nil c rest).symm
  case isTrue =>
    refine ⟨htime, fun j hj hfree c rest hqueue => ?_⟩
    have hnil := hs.free j hj hfree
    dsimp only [Bank.admitted] at hqueue
    by_cases hq : b.queueOf j = b.shortQueue (s.advance e es)
    · have hold : (s.advance e es).bank_queues (b.shortQueue (s.advance e es)) = [] := by
        rw [← hq]
        exact hnil
      rw [hq, update_self, hold] at hqueue
      rcases List.cons.inj hqueue with ⟨hc, hrest⟩
      rw [← hc]
      exact ⟨le_refl _, Or.inl hrest.symm⟩
    · rw [update_of_ne hq] at hqueue
      exact absurd (hnil.symm.trans hqueue) (cons_ne_nil c rest).symm

theorem Settled.punctual_freed (hs : Settled b s) (htime : s.InTime)
    (hhead : ∀ c ∈ (s.bank_queues (b.queueOf i)).head?, c.arrivalT ≤ e.get_e_time)
    (c : Customer K) : Punctual b ((s.advance e es).freed i c) := by
  -- only the teller that has finished is free with a queue that is not empty
  have honly : ∀ k < b.num_tells, (((s.advance e es).freed i c).tell_list k).busy = false →
      s.bank_queues (b.queueOf k) ≠ [] → k = i := by
    intro k hk hfree hne
    by_contra hki
    dsimp only [State.freed] at hfree
    rw [update_of_ne hki] at hfree
    exact hne (hs.free k hk hfree)
  refine ⟨htime, fun j hj hfree c' rest hqueue => ?_⟩
  change s.bank_queues (b.queueOf j) = c' :: rest at hqueue
  have hne : s.bank_queues (b.queueOf j) ≠ [] := by
    rw [hqueue]
    exact cons_ne_nil c' rest
  have hji := honly j hj hfree hne
  constructor
  · refine hhead c' ?_
    rw [← hji, hqueue]
    exact rfl
  · right
    intro k hk hkfree hq
    rw [hji]
    refine honly k hk hkfree ?_
    rw [hq]
    exact hne

theorem Settled.punctual_handle {s₁ : State K} (hs : Settled b s) (htime : s.InTime)
    (htimely : b.Timely s)
    (h : Lib.PriorityQueue.poll SimEvent.compareTo s.event_list = some (e, es))
    (hrun : b.handle ns na e (s.advance e es) = .ok s₁) : Punctual b s₁ := by
  cases e with
  | arrival t =>
    rw [← Except.ok.inj hrun]
    split
    case isTrue => exact hs.punctual_arrive htime
    case isFalse =>
      refine ⟨htime, fun j hj hfree c rest hqueue => ?_⟩
      exact absurd ((hs.free j hj hfree).symm.trans hqueue) (cons_ne_nil c rest).symm
  | completionLoc t i =>
    rcases hs.completion h with ⟨-, c, hc, -⟩
    have heq := complete_eq (s := s.advance (.completionLoc t i) es) hc
    rw [← Except.ok.inj (heq.symm.trans hrun)]
    exact hs.punctual_freed htime (htimely t i es h) c

/-! ## Turns -/

/-- A turn goes through: there is nothing to do, or an event is handled and the tellers are
served. -/
theorem Settled.turn [IsStrictOrderedRing K] (hs : Settled b s) (ns : K) {na : K} (hna : 0 < na) :
    ∃ s', b.turn ns na s = .ok s' ∧ Settled b s' ∧ (s.InTime → b.Timely s → s'.InTime) := by
  unfold Bank.turn
  split
  case h_1 => exact ⟨s, rfl, hs, fun htime _ => htime⟩
  case h_2 e es hpoll =>
    rcases hs.handle ns hna hpoll with ⟨s₁, hrun, hsound, hscheduled, hready⟩
    refine ⟨_, ?_, settled_loop hsound hscheduled hready, fun htime htimely => ?_⟩
    · change (b.handle ns na e (s.advance e es) >>= fun s => _) = _
      rw [hrun]
      rfl
    · have hpunctual := hs.punctual_handle htime htimely hpoll hrun
      exact (serve_loop (Punctual b)
        (fun _ _ _ _ hi h hbusy hqueue => h.taken hi hbusy hqueue) _ s₁
        (fun i hi => mem_range.mp hi) hpunctual).started

end

theorem settled_init (b : Bank K) (d : Draws K) : Settled b (Bank.init d) := by
  have hevents : (Bank.init d).event_list = [.arrival d.first_arr] := by
    refine perm_singleton.mp ?_
    exact Lib.PriorityQueue.offer_perm _ _
  have hqueues : b.inQueues (Bank.init d).bank_queues = 0 := by
    unfold Bank.inQueues
    exact Finset.sum_eq_zero fun _ _ => rfl
  have htellers : b.atTellers (Bank.init d).tell_list = 0 := by
    unfold Bank.atTellers
    exact Finset.sum_eq_zero fun _ _ => rfl
  have hbusy : b.busyTellers (Bank.init d).tell_list = ∅ := by
    refine Finset.eq_empty_of_forall_notMem fun i hi => ?_
    exact absurd (Bank.mem_busyTellers.mp hi).2 Bool.false_ne_true
  constructor
  case sound =>
    constructor
    case capacity => rw [hqueues, htellers]; rfl
    case capacity_le => exact b.capacity_nonneg
    case teller_id => exact fun _ => rfl
    case teller_busy => exact fun _ => rfl
    case outside => exact fun _ _ => rfl
    case ids => rfl
    case ordered => exact List.Pairwise.nil
    case in_hours => exact fun _ hc => absurd hc not_mem_nil
    case entered => exact List.Sublist.refl []
    case fifo => exact fun _ => rfl
    case places => rw [hqueues, htellers]; rfl
    case parts => rw [htellers]; rfl
    case fresh => exact fun _ _ hc => absurd hc not_mem_nil
    case turned_away => exact fun _ hc => absurd hc not_mem_nil
    case immediate => exact fun _ he => absurd he not_mem_nil
  case scheduled =>
    constructor
    case completions => rw [hevents, hbusy]; rfl
    case arrivals => rw [hevents]; exact Nat.le_refl 1
    case later =>
      intro t ht
      rw [hevents] at ht
      rw [mem_singleton.mp ht]
      exact ⟨d.first_arr_pos, fun _ hc => absurd hc not_mem_nil⟩
  case free => exact fun _ _ _ => rfl
  case waiting => exact fun _ _ hc => absurd hc not_mem_nil

/-- Every run goes through. -/
theorem settled_after [IsStrictOrderedRing K] (b : Bank K) (d : Draws K) (n : Nat) :
    ∃ s, b.after d n = .ok s ∧ Settled b s ∧
      ((∀ k < n, ∀ s', b.after d k = .ok s' → b.Timely s') → s.InTime) := by
  induction n with
  | zero => exact ⟨_, rfl, settled_init b d, fun _ _ he => absurd he not_mem_nil⟩
  | succ n ih =>
    rcases ih with ⟨s, hrun, hs, htime⟩
    rcases hs.turn (d.next_serve n) (d.next_arr_pos n) with ⟨s', hturn, hs', hstep⟩
    refine ⟨s', ?_, hs', fun htimely => ?_⟩
    · rw [Bank.after, hrun]
      exact hturn
    · exact hstep (htime fun k hk => htimely k (Nat.lt_succ_of_lt hk))
        (htimely n (Nat.lt_succ_self n) s hrun)

/-! ## The end -/

omit [Field K] [LinearOrder K] in
theorem exists_queueOf (b : Bank K) (hq : q < b.queues) : ∃ i < b.num_tells, b.queueOf i = q := by
  unfold Bank.queues at hq
  cases hsingle : b.single_queue with
  | true =>
    rw [if_pos hsingle] at hq
    refine ⟨0, b.num_tells_pos, ?_⟩
    unfold Bank.queueOf
    rw [if_pos hsingle]
    omega
  | false =>
    rw [hsingle, if_neg Bool.false_ne_true] at hq
    refine ⟨q, hq, ?_⟩
    unfold Bank.queueOf
    rw [hsingle, if_neg Bool.false_ne_true]

/-- Without events nobody is left in the bank. -/
theorem Settled.ended (hs : Settled b s) (h : s.event_list = []) :
    b.atTellers s.tell_list = 0 ∧ b.inQueues s.bank_queues = 0 := by
  have hnone : (b.busyTellers s.tell_list).val = 0 := by
    rw [← hs.scheduled.completions, h]
    rfl
  constructor
  · rw [← Multiset.card_eq_zero, Bank.card_atTellers hs.sound.teller_busy, Finset.card_def, hnone]
    rfl
  · refine Finset.sum_eq_zero fun q hq => ?_
    rcases exists_queueOf b (Finset.mem_range.mp hq) with ⟨i, hi, hiq⟩
    rw [← hiq, hs.free i hi]
    · rfl
    · by_contra hbusy
      have hmem := Bank.mem_busyTellers.mpr ⟨hi, Bool.eq_true_of_not_eq_false hbusy⟩
      rw [← Finset.mem_val, hnone] at hmem
      exact absurd hmem (Multiset.notMem_zero i)

/-- What holds after each event: who is in the bank, that no teller waits for nothing, and that
the customers of a queue start in the order of their arrival. -/
structure InOrder (b : Bank K) (s : State K) : Prop where
  capacity : s.curr_capacity = ((∑ q ∈ Finset.range b.queues, (s.bank_queues q).length : Nat) : Int)
    + (b.busyTellers s.tell_list).card
  capacity_le : s.curr_capacity ≤ b.tot_capacity
  free : ∀ i < b.num_tells, (s.tell_list i).busy = false → s.bank_queues (b.queueOf i) = []
  started : ∀ q, ofQueue q s.started <+: ofQueue q s.entered
  entered : ∀ q, (ofQueue q s.entered).Pairwise fun c c' => c.2 < c'.2

/-- What holds at the end: every customer that arrived in time is in the list exactly once, and
who has number -1 and was not turned away started at once. -/
structure Accounted (b : Bank K) (s : State K) : Prop where
  listed : (s.cust_list.map (·.key)).Perm (s.arrived.map (·.key))
  ids : s.arrived.map (·.id) = List.range s.cust_id
  in_hours : ∀ c ∈ s.arrived, c.arrivalT < b.sim_time
  at_once : ∀ c ∈ s.cust_list, c.queue = -1 → c.id ∉ s.refused.map (·.id) →
    c.startServiceT = c.arrivalT

theorem Settled.inOrder (hs : Settled b s) : InOrder b s where
  capacity := by
    rw [hs.sound.capacity, Bank.card_inQueues, Bank.card_atTellers hs.sound.teller_busy]
  capacity_le := hs.sound.capacity_le
  free := hs.free
  started q := by
    rw [hs.sound.fifo q]
    exact prefix_append _ _
  entered q := by
    have hkeys : (s.arrived.map (·.key)).Pairwise fun c c' => c.2 < c'.2 :=
      pairwise_map.mpr hs.sound.ordered
    unfold ofQueue
    refine (hkeys.sublist hs.sound.entered).sublist ?_
    exact filter_sublist.map fun e : Nat × Customer K => e.2.key

/-- At the end the list has who was turned away and who started. -/
theorem Settled.listed (hs : Settled b s) (h : s.event_list = []) :
    (s.cust_list.map (·.noEnd)).Perm ((s.refused ++ s.started.map (·.2)).map (·.noEnd)) := by
  have hparts := hs.sound.parts
  rw [(hs.ended h).1, Multiset.map_zero, add_zero] at hparts
  exact Multiset.coe_eq_coe.mp hparts

theorem Settled.accounted (hs : Settled b s) (h : s.event_list = []) : Accounted b s where
  listed := by
    have hplaces := hs.sound.places
    rw [(hs.ended h).1, (hs.ended h).2, Multiset.map_zero, add_zero, add_zero] at hplaces
    exact Multiset.coe_eq_coe.mp hplaces
  ids := hs.sound.ids
  in_hours := hs.sound.in_hours
  at_once c hc hminus hnot := by
    have hmem := (hs.listed h).mem_iff.mp (mem_map_of_mem hc)
    rcases mem_map.mp hmem with ⟨c', hc', heq⟩
    have hid : c'.id = c.id := (congrArg Customer.id heq :)
    rcases mem_append.mp hc' with hc' | hc'
    · exact absurd (mem_map.mpr ⟨c', hc', hid⟩) hnot
    · rcases mem_map.mp hc' with ⟨e, he, rfl⟩
      have hqueue : e.2.queue = c.queue := (congrArg Customer.queue heq :)
      have hstart : e.2.startServiceT = c.startServiceT := (congrArg Customer.startServiceT heq :)
      have harrival : e.2.arrivalT = c.arrivalT := (congrArg Customer.arrivalT heq :)
      rw [← hstart, ← harrival]
      exact hs.sound.immediate e he (hqueue.trans hminus)

theorem wasServed_iff [IsStrictOrderedRing K] (c : Customer K) :
    wasServed c = true ↔ c.arrivalT ≤ c.startServiceT := by
  unfold wasServed Customer.getWaitT
  dsimp only
  split
  case isTrue h => exact iff_of_false Bool.false_ne_true (not_le.mpr (sub_neg.mp h))
  case isFalse h => exact iff_of_true rfl (sub_nonneg.mp (not_lt.mp h))

/-- When nobody was taken too early, those who were not served are those turned away. -/
theorem Settled.not_served [IsStrictOrderedRing K] (hs : Settled b s) (h : s.event_list = [])
    (htime : s.InTime) :
    ((splitCustList s).2.map (·.id)).Perm (s.refused.map (·.id)) := by
  have hleft : ∀ l : List (Customer K), (l.filter fun c => !wasServed c).map (·.id) =
      ((l.map (·.noEnd)).filter fun c => !wasServed c).map (·.id) := by
    intro l
    rw [List.filter_map, List.map_map]
    rfl
  have hrefused : s.refused.filter (fun c => !wasServed c) = s.refused := by
    refine filter_eq_self.mpr fun c hc => ?_
    rcases hs.sound.turned_away c hc with ⟨hstart, hpos⟩
    rw [Bool.not_eq_true', ← Bool.not_eq_true, wasServed_iff, hstart]
    exact not_le.mpr hpos
  have hstarted : (s.started.map (·.2)).filter (fun c => !wasServed c) = [] := by
    refine filter_eq_nil_iff.mpr (forall_mem_map.mpr fun e he => ?_)
    rw [Bool.not_eq_true', ← Bool.not_eq_true, not_not, wasServed_iff]
    exact htime e he
  have hperm := ((hs.listed h).filter fun c => !wasServed c).map (·.id)
  rw [← hleft, ← hleft, filter_append, hrefused, hstarted, append_nil] at hperm
  unfold splitCustList
  rw [partition_eq_filter_filter]
  exact hperm

/-- The simulation, for every bank and all positive times. -/
theorem run_inOrder [IsStrictOrderedRing K] (b : Bank K) (d : Draws K) (n : Nat) :
    ∃ s, b.after d n = .ok s ∧ InOrder b s ∧ (s.event_list = [] → Accounted b s ∧
      ((∀ k < n, ∀ s', b.after d k = .ok s' → b.Timely s') →
        num_left s = s.refused.length ∧
          ((splitCustList s).2.map (·.id)).Perm (s.refused.map (·.id)))) := by
  rcases settled_after b d n with ⟨s, hrun, hs, htime⟩
  refine ⟨s, hrun, hs.inOrder, fun h => ⟨hs.accounted h, fun htimely => ?_⟩⟩
  have hperm := hs.not_served h (htime htimely)
  have hlen := hperm.length_eq
  rw [length_map, length_map] at hlen
  exact ⟨hlen, hperm⟩

end

/-! ## Runs of a bank with one teller -/

def oneTeller (sim_time : ℚ) (tot_capacity : Nat) : Bank ℚ where
  num_tells := 1
  single_queue := true
  sim_time := sim_time
  tot_capacity := tot_capacity
  num_tells_pos := Nat.le_refl 1
  capacity_nonneg := Int.natCast_nonneg tot_capacity

theorem draws_pos : (0 : ℚ) < 1 ∧ (0 : ℚ) < 9 ∧ (0 : ℚ) < 9000005 / 1000000 ∧ (0 : ℚ) < 4 := by
  decide +kernel

/-- The second customer arrives very shortly after the first one is finished. -/
def closeDraws : Draws ℚ where
  first_arr := 1
  next_serve _ := 9
  next_arr _ := 9000005 / 1000000
  first_arr_pos := draws_pos.1
  next_serve_pos _ := draws_pos.2.1
  next_arr_pos _ := draws_pos.2.2.1

/-- What is read off a state that was computed. -/
theorem of_toOption {ε α β : Type} {r : Except ε α} {f : α → β} {y : β}
    (h : r.toOption.map f = some y) : ∃ s, r = .ok s ∧ f s = y := by
  cases r with
  | error _ => exact absurd h (some_ne_none y).symm
  | ok s => exact ⟨s, rfl, some.inj h⟩

/-- Four units between the arrivals: the second customer waits, and the third is refused. -/
def busyDraws : Draws ℚ := { closeDraws with
  next_arr _ := 4
  next_arr_pos _ := draws_pos.2.2.2 }

/-- `Timely`, computed. -/
def Bank.timelyCheck (b : Bank ℚ) (s : State ℚ) : Bool :=
  match Lib.PriorityQueue.poll SimEvent.compareTo s.event_list with
  | some (.completionLoc t i, _) =>
    (s.bank_queues (b.queueOf i)).head?.all fun c => decide (c.arrivalT ≤ t)
  | _ => true

theorem run_inOrder_busy : ∃ s, (oneTeller 11 2).after busyDraws 6 = .ok s ∧
    s.refused.length = 1 ∧ s.started.length = 2 ∧
    InOrder (oneTeller 11 2) s ∧ Accounted (oneTeller 11 2) s ∧ num_left s = 1 := by
  have hended : ((oneTeller 11 2).after busyDraws 6).toOption.map (fun s =>
      (s.event_list.isEmpty, s.refused.length, s.started.length)) = some (true, 1, 2) := by
    decide +kernel
  have hcheck : ∀ k, k < 6 → ((oneTeller 11 2).after busyDraws k).toOption.map
      (oneTeller 11 2).timelyCheck = some true := by decide +kernel
  rcases run_inOrder (oneTeller 11 2) busyDraws 6 with ⟨s, hrun, hs, hend⟩
  rcases of_toOption hended with ⟨s₁, hrun₁, heq⟩
  rw [← Except.ok.inj (hrun.symm.trans hrun₁)] at heq
  rcases Prod.mk.inj heq with ⟨hnil, heq⟩
  rcases Prod.mk.inj heq with ⟨hrefused, hstarted⟩
  rcases hend (isEmpty_iff.mp hnil) with ⟨haccounted, hleft⟩
  have hnum := (hleft fun k hk s' hrun' => ?_).1
  · exact ⟨s, hrun, hrefused, hstarted, hs, haccounted, hnum.trans hrefused⟩
  rcases of_toOption (hcheck k hk) with ⟨s₂, hrun₂, htimely⟩
  rw [← Except.ok.inj (hrun'.symm.trans hrun₂)] at htimely
  intro t i es hpoll c hc
  unfold Bank.timelyCheck at htimely
  rw [hpoll] at htimely
  dsimp only at htimely
  rw [Option.mem_def.mp hc] at htimely
  exact of_decide_eq_true htimely

/-- A customer who is turned away has number -1 as well. A customer who is taken before the
arrival is counted as one who left, although nobody was turned away. -/
theorem not_at_once_and_not_left :
    (∃ s, (oneTeller 2 0).after closeDraws 2 = .ok s ∧ s.event_list = [] ∧
      ∃ c ∈ s.cust_list, c.queue = -1 ∧ c.startServiceT ≠ c.arrivalT) ∧
    ∃ s, (oneTeller 11 2).after closeDraws 5 = .ok s ∧ s.event_list = [] ∧ s.refused = [] ∧
      num_left s = 1 := by
  have hlate : ((oneTeller 2 0).after closeDraws 2).toOption.map (fun s => (s.event_list.isEmpty,
      s.cust_list.map fun c => (c.queue, c.startServiceT, c.arrivalT))) =
        some (true, [(-1, 0, 1)]) := by
    decide +kernel
  have hearly : ((oneTeller 11 2).after closeDraws 5).toOption.map (fun s =>
      (s.event_list.isEmpty, s.refused.isEmpty, num_left s)) = some (true, true, 1) := by
    decide +kernel
  constructor
  · rcases of_toOption hlate with ⟨s, hrun, heq⟩
    rcases map_eq_singleton_iff.mp (Prod.mk.inj heq).2 with ⟨c, hlist, hc⟩
    rcases Prod.mk.inj hc with ⟨hqueue, htimes⟩
    rcases Prod.mk.inj htimes with ⟨hstart, harrival⟩
    refine ⟨s, hrun, isEmpty_iff.mp (Prod.mk.inj heq).1, c, ?_, hqueue, ?_⟩
    · rw [hlist]
      exact mem_singleton_self c
    · rw [hstart, harrival]
      exact zero_ne_one
  · rcases of_toOption hearly with ⟨s, hrun, heq⟩
    rcases Prod.mk.inj heq with ⟨hevents, hrest⟩
    exact ⟨s, hrun, isEmpty_iff.mp hevents, isEmpty_iff.mp (Prod.mk.inj hrest).1,
      (Prod.mk.inj hrest).2⟩

end PittCs.Cs445.SimBank
