import Mathlib.Data.List.Count
import Mathlib.Data.List.Nodup
import PittCs.Ncp.Occurrences

/-!
# The connection queue

Who is served when, told by a record of the run: the clients in the order of their
first INIT, in the order in which they became `curr_conn`, and in the order in which
their connections were closed. A client that comes back later has a first INIT again.
-/

namespace PittCs.Ncp

open PittCs.Lib List

/-- The receiver with the record of its run. -/
structure Service where
  rcv : Rcv
  firstInits : List Client
  served : List Client
  closed : List Client

def RcvEvent.isAlarm : RcvEvent → Bool
  | .packet .. => false
  | .timeout => false
  | .alarm => true

namespace Service

def start (memory : Upkt) : Service := ⟨Rcv.start memory, [], [], []⟩

/-- An INIT is a first one when all earlier connections of its client are closed. -/
def noteInit (t : Service) (o : Occurrence) : List Client :=
  match o.event.initOf with
  | some client =>
    if t.firstInits.count client = t.closed.count client then t.firstInits ++ [client]
    else t.firstInits
  | none => t.firstInits

/-- `curr_conn` is set when it was NULL, and by the alarm. -/
def noteServed (t : Service) (o : Occurrence) (s' : Rcv) : List Client :=
  if t.rcv.currConn.isNone ∨ o.event.isAlarm then t.served ++ s'.currClient.toList else t.served

def noteClosed (t : Service) (o : Occurrence) : List Client :=
  if o.event.isAlarm then t.closed ++ t.rcv.currClient.toList else t.closed

/-- The receiver is in the state `s'` after the event. -/
def put (t : Service) (o : Occurrence) (s' : Rcv) : Service :=
  ⟨s', t.noteInit o, t.noteServed o s', t.noteClosed o⟩

def next (env : Env) (t : Service) (o : Occurrence) : Option Service :=
  (t.rcv.occur env o).map fun r => t.put o r.1

end Service

/-- All runs of the receiver, recorded. -/
def serviceSystem (env : Env) : TransitionSystem Service Occurrence where
  Init t := ∃ memory, t = Service.start memory
  Next t o t' := t.next env o = some t'

/-- The requests are the connections that were closed, the current one and the queue,
in this order. -/
structure Service.Inv (t : Service) : Prop where
  nodup : t.rcv.clients.Nodup
  idle : t.rcv.currConn = none → t.rcv.connQueue = []
  alarm : t.rcv.alarm = true → t.rcv.currConn.isSome
  firstInits : t.firstInits = t.closed ++ t.rcv.clients
  served : t.served = t.closed ++ t.rcv.currClient.toList

namespace Service.Inv

variable {env : Env} {t t' : Service} {o : Occurrence} {client : Client}

theorem start (memory : Upkt) : (Service.start memory).Inv where
  nodup := nodup_nil
  idle _ := rfl
  alarm h := absurd h Bool.false_ne_true
  firstInits := rfl
  served := rfl

/-- The record knows whether the client is served or waits. -/
theorem count_eq_iff (h : t.Inv) :
    t.firstInits.count client = t.closed.count client ↔ client ∉ t.rcv.clients := by
  rw [h.firstInits, count_append, ← count_eq_zero]
  omega

theorem noteInit_new (h : t.Inv) (hinit : o.event.initOf = some client)
    (hnew : client ∉ t.rcv.clients) : t.noteInit o = t.firstInits ++ [client] := by
  unfold Service.noteInit
  rw [hinit]
  exact if_pos (h.count_eq_iff.mpr hnew)

theorem noteInit_known (h : t.Inv) (hknown : ∀ c ∈ o.event.initOf, c ∈ t.rcv.clients) :
    t.noteInit o = t.firstInits := by
  unfold Service.noteInit
  cases hinit : o.event.initOf with
  | none => rfl
  | some c =>
    refine if_neg ?_
    rw [h.count_eq_iff, not_not]
    exact hknown c hinit

theorem clients_of_idle (h : t.Inv) (hidle : t.rcv.currConn = none) :
    t.rcv.currClient = none ∧ t.rcv.clients = [] := by
  have hcurr : t.rcv.currClient = none := congrArg (Option.map Conn.client) hidle
  refine ⟨hcurr, ?_⟩
  unfold Rcv.clients
  rw [hcurr, h.idle hidle]
  rfl

/-- A new client is served only when nobody is, or by the alarm. -/
theorem noteServed_of_busy (hbusy : t.rcv.currConn.isSome) (hquiet : o.event.isAlarm = false)
    (s' : Rcv) : t.noteServed o s' = t.served := by
  refine if_neg ?_
  rintro (hnone | halarm)
  · rw [Option.isNone_iff_eq_none.mp hnone] at hbusy
    cases hbusy
  · exact absurd (hquiet.symm.trans halarm) Bool.false_ne_true

theorem serve (h : t.Inv) {s' : Rcv} {pkt : Packet} {timeUp : Bool} (opens : Bool)
    (hinit : pkt.init = true) (hidle : t.rcv.currConn = none)
    (hcurr : s'.currClient = some client) (hqueue : s'.connQueue = t.rcv.connQueue) :
    (t.put ⟨.packet client pkt timeUp, opens⟩ s').Inv := by
  rcases h.clients_of_idle hidle with ⟨hnone, hclients⟩
  have hclients' : s'.clients = [client] := by
    unfold Rcv.clients
    rw [hcurr, hqueue, h.idle hidle]
    rfl
  have hsome : s'.currConn.isSome := by
    rw [← Rcv.isSome_currClient, hcurr]
    rfl
  constructor
  case nodup =>
    show s'.clients.Nodup
    rw [hclients']
    exact nodup_singleton client
  case idle =>
    intro hnull
    change s'.currConn = none at hnull
    rw [hnull] at hsome
    cases hsome
  case alarm => exact fun _ => hsome
  case firstInits =>
    have hnote : t.noteInit ⟨.packet client pkt timeUp, opens⟩ = t.firstInits ++ [client] := by
      refine h.noteInit_new (if_pos hinit) ?_
      rw [hclients]
      exact not_mem_nil
    show t.noteInit _ = t.closed ++ s'.clients
    rw [hnote, h.firstInits, hclients, hclients', append_nil]
  case served =>
    have hnote : t.noteServed ⟨.packet client pkt timeUp, opens⟩ s' =
        t.served ++ s'.currClient.toList := by
      refine if_pos (Or.inl ?_)
      rw [hidle]
      rfl
    show t.noteServed _ s' = t.closed ++ s'.currClient.toList
    rw [hnote, h.served, hnone, Option.toList_none, append_nil]

theorem wait (h : t.Inv) {s' : Rcv} {pkt : Packet} {timeUp : Bool} (opens : Bool)
    (hinit : pkt.init = true) (hnew : client ∉ t.rcv.clients) (hbusy : t.rcv.currConn.isSome)
    (hcurr : s'.currConn = t.rcv.currConn)
    (hqueue : s'.connQueue.map Conn.client = t.rcv.connQueue.map Conn.client ++ [client]) :
    (t.put ⟨.packet client pkt timeUp, opens⟩ s').Inv := by
  have hclient : s'.currClient = t.rcv.currClient := congrArg (Option.map Conn.client) hcurr
  have hclients' : s'.clients = t.rcv.clients ++ [client] := by
    unfold Rcv.clients
    rw [hclient, hqueue, append_assoc]
  constructor
  case nodup =>
    show s'.clients.Nodup
    rw [hclients']
    exact h.nodup.append (nodup_singleton client) (by simpa using hnew)
  case idle =>
    intro hnull
    change s'.currConn = none at hnull
    rw [← hcurr, hnull] at hbusy
    cases hbusy
  case alarm => exact fun _ => hcurr ▸ hbusy
  case firstInits =>
    have hnote : t.noteInit ⟨.packet client pkt timeUp, opens⟩ = t.firstInits ++ [client] :=
      h.noteInit_new (if_pos hinit) hnew
    show t.noteInit _ = t.closed ++ s'.clients
    rw [hnote, h.firstInits, hclients', append_assoc]
  case served =>
    show t.noteServed ⟨.packet client pkt timeUp, opens⟩ s' = t.closed ++ s'.currClient.toList
    rw [noteServed_of_busy hbusy rfl, hclient]
    exact h.served

theorem keep (h : t.Inv) {s' : Rcv} {e : RcvEvent} (opens : Bool)
    (hknown : ∀ c ∈ e.initOf, c ∈ t.rcv.clients) (he : e ≠ .alarm) (hkeeps : t.rcv.Keeps s') :
    (t.put ⟨e, opens⟩ s').Inv := by
  have hclients' : s'.clients = t.rcv.clients := by
    unfold Rcv.clients
    rw [hkeeps.currClient, hkeeps.connQueue]
  have hsame := Rcv.isSome_currConn hkeeps.currClient
  have hquiet : e.isAlarm = false := by
    cases e with
    | packet client pkt timeUp => rfl
    | timeout => rfl
    | alarm => exact absurd rfl he
  have hclosed : t.noteClosed ⟨e, opens⟩ = t.closed := by
    unfold Service.noteClosed
    rw [hquiet]
    rfl
  constructor
  case nodup =>
    show s'.clients.Nodup
    rw [hclients']
    exact h.nodup
  case idle =>
    intro hnull
    change s'.currConn = none at hnull
    show s'.connQueue = []
    rw [hkeeps.connQueue]
    refine h.idle (Option.isNone_iff_eq_none.mp (Option.isSome_eq_false_iff.mp ?_))
    rw [← hsame, hnull]
    rfl
  case alarm =>
    intro hset
    show s'.currConn.isSome
    rw [hsame]
    exact (hkeeps.alarm hset).elim h.alarm id
  case firstInits =>
    show t.noteInit ⟨e, opens⟩ = t.noteClosed ⟨e, opens⟩ ++ s'.clients
    rw [h.noteInit_known hknown, hclosed, hclients']
    exact h.firstInits
  case served =>
    show t.noteServed ⟨e, opens⟩ s' = t.noteClosed ⟨e, opens⟩ ++ s'.currClient.toList
    rw [hclosed, hkeeps.currClient]
    by_cases hbusy : t.rcv.currConn.isSome
    · rw [noteServed_of_busy hbusy hquiet]
      exact h.served
    · -- nobody is served before or after
      have hnone := (h.clients_of_idle (Option.not_isSome_iff_eq_none.mp hbusy)).1
      unfold Service.noteServed
      rw [hkeeps.currClient, hnone, Option.toList_none, append_nil, ite_self, h.served,
        hnone, Option.toList_none]

theorem close (h : t.Inv) (opens : Bool) (halarm : t.rcv.alarm = true) :
    (t.put ⟨.alarm, opens⟩ t.rcv.closeConn).Inv := by
  have hbusy := h.alarm halarm
  rcases Option.isSome_iff_exists.mp hbusy with ⟨curr, hcurr⟩
  have hclient : t.rcv.currClient = some curr.client := congrArg (Option.map Conn.client) hcurr
  have hinits : t.noteInit ⟨.alarm, opens⟩ = t.firstInits :=
    h.noteInit_known fun c hc => absurd hc (Option.not_mem_none c)
  have hclosed : t.noteClosed ⟨.alarm, opens⟩ = t.closed ++ [curr.client] := by
    unfold Service.noteClosed
    rw [hclient]
    rfl
  have hserved : t.noteServed ⟨.alarm, opens⟩ t.rcv.closeConn =
      t.closed ++ [curr.client] ++ t.rcv.closeConn.currClient.toList := by
    have hnote : t.noteServed ⟨.alarm, opens⟩ t.rcv.closeConn =
        t.served ++ t.rcv.closeConn.currClient.toList := if_pos (Or.inr rfl)
    rw [hnote, h.served, hclient]
    rfl
  -- without the current client the queue is what is left, whoever is served now
  have hclients : t.rcv.clients = curr.client :: t.rcv.closeConn.clients ∧
      (t.rcv.closeConn.currConn = none → t.rcv.closeConn.connQueue = []) ∧
      t.rcv.closeConn.alarm = false := by
    unfold Rcv.clients
    rw [hclient]
    cases hq : t.rcv.connQueue with
    | nil =>
      rcases Rcv.closeConn_nil hq with ⟨hnone, hempty, -, hset⟩
      refine ⟨?_, fun _ => hempty, hset⟩
      unfold Rcv.currClient
      rw [hnone, hempty]
      rfl
    | cons conn rest =>
      rcases Rcv.closeConn_cons hq with ⟨hsome, hrest, -, hset⟩
      refine ⟨?_, fun hnone => absurd (hsome.symm.trans hnone) (Option.some_ne_none conn), hset⟩
      unfold Rcv.currClient
      rw [hsome, hrest]
      rfl
  rcases hclients with ⟨hsplit, hidle, hset⟩
  constructor
  case nodup =>
    have hnodup := h.nodup
    rw [hsplit] at hnodup
    exact hnodup.of_cons
  case idle => exact hidle
  case alarm => exact fun htrue => absurd (hset.symm.trans htrue) Bool.false_ne_true
  case firstInits =>
    show t.noteInit ⟨.alarm, opens⟩ = t.noteClosed ⟨.alarm, opens⟩ ++ t.rcv.closeConn.clients
    rw [hinits, hclosed, h.firstInits, hsplit, append_assoc]
    rfl
  case served =>
    show t.noteServed ⟨.alarm, opens⟩ t.rcv.closeConn =
      t.noteClosed ⟨.alarm, opens⟩ ++ t.rcv.closeConn.currClient.toList
    rw [hserved, hclosed]

theorem next (h : t.Inv) (hnext : t.next env o = some t') : t'.Inv := by
  unfold Service.next at hnext
  rcases Option.map_eq_some_iff.mp hnext with ⟨⟨s', out⟩, hoccur, rfl⟩
  rcases o with ⟨e, opens⟩
  dsimp only
  have heffect : t.rcv.Effect s' e := Rcv.effect_of_occur hoccur
  cases heffect with
  | serve hinit hidle hcurr hqueue hallocated halarm => exact h.serve opens hinit hidle hcurr hqueue
  | wait hinit hnew hbusy hcurr hqueue hallocated halarm =>
    exact h.wait opens hinit hnew hbusy hcurr hqueue
  | keep hknown he hkeeps => exact h.keep opens hknown he hkeeps
  | close halarm ht =>
    rw [ht]
    exact h.close opens halarm

theorem of_reachable (h : (serviceSystem env).Reachable t) : t.Inv := by
  refine TransitionSystem.ReachableBy.invariant Service.Inv ?_ ?_ h
  · rintro t ⟨memory, rfl⟩
    exact start memory
  · intro t o t' hinv _ hnext
    exact hinv.next hnext

end Service.Inv

/-- In every reachable state no client occurs twice among the current connection and the
queue, the queue is empty when nobody is served, and the clients that became `curr_conn`,
followed by the queue, are the clients in the order of their first INIT. The one served
now is the last of them. -/
theorem connQueue_fifo {env : Env} {t : Service} (h : (serviceSystem env).Reachable t) :
    t.rcv.clients.Nodup ∧ (t.rcv.currConn = none → t.rcv.connQueue = []) ∧
      t.served ++ t.rcv.connQueue.map Conn.client = t.firstInits ∧
      t.served = t.closed ++ t.rcv.currClient.toList := by
  have hinv := Service.Inv.of_reachable h
  refine ⟨hinv.nodup, hinv.idle, ?_, hinv.served⟩
  rw [hinv.firstInits, hinv.served, append_assoc]
  rfl

/-- Two clients ask, the first one twice; it is served and closed, and asks again while
the second one is served. -/
theorem connQueue_fifo_two : ∃ t, (serviceSystem .wan).Reachable t ∧
    t.firstInits = [clientA, clientB, clientA] ∧ t.rcv.clients = [clientB, clientA] ∧
      t.served ++ t.rcv.connQueue.map Conn.client = t.firstInits := by
  have hrun : TransitionSystem.runMeets (Service.next .wan) (fun _ _ => true)
      (fun t => decide (t.firstInits = [clientA, clientB, clientA] ∧
        t.rcv.clients = [clientB, clientA]))
      [⟨.packet clientA initPkt false, true⟩, ⟨.packet clientB initPkt false, true⟩,
        ⟨.packet clientA initPkt false, true⟩, ⟨.packet clientA finPkt false, true⟩,
        ⟨.alarm, true⟩, ⟨.packet clientA initPkt false, true⟩]
      (Service.start ⟨0, 0, []⟩) = true := by
    decide
  have hinit : (serviceSystem .wan).Reachable (Service.start ⟨0, 0, []⟩) := .init ⟨⟨0, 0, []⟩, rfl⟩
  rcases TransitionSystem.exists_of_runMeets (fun _ _ _ hnext => hnext) (fun _ _ _ => trivial)
    hinit hrun with ⟨t, ht, hp⟩
  rcases of_decide_eq_true hp with ⟨hinits, hclients⟩
  exact ⟨t, ht, hinits, hclients, (connQueue_fifo ht).2.2.1⟩

end PittCs.Ncp
