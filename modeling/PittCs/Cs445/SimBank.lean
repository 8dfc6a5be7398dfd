import Mathlib.Algebra.Field.Defs
import Mathlib.Algebra.Order.Group.Unbundled.Abs
import PittCs.Lib.Outcome
import PittCs.Lib.PriorityQueue

/-!
# The bank simulation

`SimBank.java` with its customers, tellers and events, over exact times. The lists of queues
and tellers are functions of the index; the indices in use are below their sizes. What the
random generator returns is given. Four lists of a state are its history: no step reads them.
-/

namespace PittCs.Cs445.SimBank

variable {K : Type} [Field K] [LinearOrder K]

/-! ## Customers, tellers and events -/

structure Customer (K : Type) where
  id : Nat
  teller : Nat
  queue : Int
  arrivalT : K
  serviceT : K
  startServiceT : K
  endServiceT : K

def Customer.new (newid : Nat) (arr : K) : Customer K := ⟨newid, 0, -1, arr, 0, 0, 0⟩

/-- Without a result where it throws. -/
def Customer.getWaitT (c : Customer K) : Option K :=
  let wait := c.startServiceT - c.arrivalT
  if wait < 0 then none else some wait

structure Teller (K : Type) where
  busy : Bool
  id : Nat
  currentCust : Option (Customer K)

def Teller.new (val : Nat) : Teller K := ⟨false, val, none⟩

def Teller.addCust (t : Teller K) (c : Customer K) : Teller K :=
  { t with currentCust := some c, busy := true }

/-- What is left of the teller by `removeCust`. -/
def Teller.removeCust (t : Teller K) : Teller K := { t with currentCust := none, busy := false }

inductive SimEvent (K : Type) where
  | arrival (e_time : K)
  | completionLoc (e_time : K) (location : Nat)

def SimEvent.get_e_time : SimEvent K → K
  | arrival e_time => e_time
  | completionLoc e_time _ => e_time

/-- Times that are very close count as equal. -/
def SimEvent.compareTo (left right : SimEvent K) : Int :=
  let diff := left.get_e_time - right.get_e_time
  if |diff| < 1 / 100000 then 0 else if diff < 0 then -1 else 1

/-! ## The bank -/

/-- The arguments of the constructor that are not rejected. -/
structure Bank (K : Type) where
  num_tells : Nat
  single_queue : Bool
  sim_time : K
  tot_capacity : Int
  num_tells_pos : 1 ≤ num_tells
  capacity_nonneg : 0 ≤ tot_capacity

structure State (K : Type) where
  event_list : List (SimEvent K)
  bank_queues : Nat → List (Customer K)
  tell_list : Nat → Teller K
  cust_list : List (Customer K)
  curr_time : K
  curr_capacity : Int
  cust_id : Nat
  /-- History: who arrived. -/
  arrived : List (Customer K)
  /-- History: who arrived when the bank was full. -/
  refused : List (Customer K)
  /-- History: who came into which queue. -/
  entered : List (Nat × Customer K)
  /-- History: who left which queue to a teller. -/
  started : List (Nat × Customer K)

/-- What `exponential` returns: for the first arrival, and for each turn of the loop. -/
structure Draws (K : Type) [Field K] [LinearOrder K] where
  first_arr : K
  next_serve : Nat → K
  next_arr : Nat → K
  first_arr_pos : 0 < first_arr
  next_serve_pos : ∀ n, 0 < next_serve n
  next_arr_pos : ∀ n, 0 < next_arr n

inductive Exc where
  | nullPointer
deriving DecidableEq

namespace Bank

variable (b : Bank K)

/-- The size of `bank_queues`. -/
def queues : Nat := if b.single_queue then 1 else b.num_tells

/-- The queue of a teller. -/
def queueOf (i : Nat) : Nat := if b.single_queue then 0 else i

def shortQueue (s : State K) : Nat :=
  ((List.range' 1 (b.queues - 1)).foldl
    (fun short i =>
      if (s.bank_queues i).length < short.2 then (i, (s.bank_queues i).length) else short)
    (0, (s.bank_queues 0).length)).1

/-- The queue number of a new customer. -/
def chooseQueue (s : State K) (shortest : Nat) : Int :=
  if (s.bank_queues shortest).length = 0 then
    if b.single_queue then
      (List.range b.num_tells).foldl
        (fun queue i => if (s.tell_list i).busy then queue else -1) shortest
    else if (s.tell_list shortest).busy then shortest else -1
  else shortest

def arrive (next_serve next_arr : K) (s : State K) : State K :=
  let new_cust := { Customer.new s.cust_id s.curr_time with serviceT := next_serve }
  let s := { s with
    cust_id := s.cust_id + 1
    event_list := Lib.PriorityQueue.offer SimEvent.compareTo
      (.arrival (s.curr_time + next_arr)) s.event_list
    arrived := s.arrived ++ [new_cust] }
  if s.curr_capacity < b.tot_capacity then
    let shortest := b.shortQueue s
    let new_cust := { new_cust with queue := b.chooseQueue s shortest }
    { s with
      bank_queues := Function.update s.bank_queues shortest (s.bank_queues shortest ++ [new_cust])
      curr_capacity := s.curr_capacity + 1
      entered := s.entered ++ [(shortest, new_cust)] }
  else { s with cust_list := s.cust_list ++ [new_cust], refused := s.refused ++ [new_cust] }

omit b in
def complete (location : Nat) (s : State K) : Except Exc (State K) :=
  match (s.tell_list location).currentCust with
  | none => .error .nullPointer
  | some finished_cust => .ok { s with
      tell_list := Function.update s.tell_list location (s.tell_list location).removeCust
      cust_list := s.cust_list ++ [{ finished_cust with endServiceT := s.curr_time }]
      curr_capacity := s.curr_capacity - 1 }

/-- One turn of the loop that pulls customers to free tellers. -/
def serve (s : State K) (i : Nat) : State K :=
  let curr_teller := s.tell_list i
  if curr_teller.busy then s
  else
    match s.bank_queues (b.queueOf i) with
    | [] => s
    | next_cust :: curr_queue =>
      let finish_time := s.curr_time + next_cust.serviceT
      let tell_id := curr_teller.id
      let next_cust := { next_cust with startServiceT := s.curr_time, teller := tell_id }
      { s with
        bank_queues := Function.update s.bank_queues (b.queueOf i) curr_queue
        event_list := Lib.PriorityQueue.offer SimEvent.compareTo
          (.completionLoc finish_time tell_id) s.event_list
        tell_list := Function.update s.tell_list i (curr_teller.addCust next_cust)
        started := s.started ++ [(b.queueOf i, next_cust)] }

/-- What an event does, before customers are pulled to the tellers. -/
def handle (next_serve next_arr : K) (curr_event : SimEvent K) (s : State K) :
    Except Exc (State K) :=
  match curr_event with
  | .arrival _ => .ok (if s.curr_time < b.sim_time then b.arrive next_serve next_arr s else s)
  | .completionLoc _ location => complete location s

/-- One turn of the event loop; nothing happens when there are no more events. -/
def turn (next_serve next_arr : K) (s : State K) : Except Exc (State K) :=
  match Lib.PriorityQueue.poll SimEvent.compareTo s.event_list with
  | none => .ok s
  | some (curr_event, event_list) => do
    let s := { s with event_list := event_list, curr_time := curr_event.get_e_time }
    let s ← b.handle next_serve next_arr curr_event s
    return (List.range b.num_tells).foldl b.serve s

omit b in
def init (d : Draws K) : State K where
  event_list := Lib.PriorityQueue.offer SimEvent.compareTo (.arrival d.first_arr) []
  bank_queues _ := []
  tell_list := Teller.new
  cust_list := []
  curr_time := 0
  curr_capacity := 0
  cust_id := 0
  arrived := []
  refused := []
  entered := []
  started := []

/-- The state after `n` turns. The simulation has ended when there are no more events. -/
def after (d : Draws K) : Nat → Except Exc (State K)
  | 0 => .ok (init d)
  | n + 1 => do
    let s ← after d n
    b.turn (d.next_serve n) (d.next_arr n) s

end Bank

/-! ## The summary -/

def wasServed (cust : Customer K) : Bool := cust.getWaitT.isSome

/-- The customers that were served, and those that were not. -/
def splitCustList (s : State K) : List (Customer K) × List (Customer K) :=
  s.cust_list.partition wasServed

def num_served (s : State K) : Nat := (splitCustList s).1.length

def num_left (s : State K) : Nat := (splitCustList s).2.length

end PittCs.Cs445.SimBank
