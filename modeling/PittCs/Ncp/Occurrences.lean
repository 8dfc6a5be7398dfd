import PittCs.Ncp.Isolation

/-!
# What an event does to the connections

The receiver on a file system where a file may not be there to be opened, and the
effect of each event on the connections: it serves a client, lets one wait, closes
the current connection, or leaves them all as they are.
-/

namespace PittCs.Ncp

open PittCs.Lib List

/-- An event of the receiver; `opens` tells whether `fopen` gives a file when it is
called. -/
structure Occurrence where
  event : RcvEvent
  opens : Bool

/-- The client whose INIT the event is. -/
def RcvEvent.initOf : RcvEvent → Option Client
  | .packet client pkt _ => if pkt.init then some client else none
  | .timeout => none
  | .alarm => none

@[simp]
theorem RcvEvent.initOf_packet (client : Client) (pkt : Packet) (timeUp : Bool) :
    (RcvEvent.packet client pkt timeUp).initOf = if pkt.init then some client else none := rfl

namespace Rcv

/-- Without a file `fp` stays NULL. -/
def tryOpen (s : Rcv) (opens : Bool) : Rcv := if opens then s.openFile else s

/-- The branch for data packets behind the opening of the file. -/
def takeData (env : Env) (s : Rcv) (client : Client) (timeUp : Bool) :
    Option (Rcv × List (Client × Reply)) :=
  if s.dataDefined env timeUp then
    let (r, msgs) := s.transfer.takePkt s.transfer.pkt
    let (r, msgs) := r.finish env s.transfer.pkt.seq timeUp msgs
    some ({ s with transfer := r }, msgs.map fun msg => (client, .msg msg))
  else none

/-- The packet is in the packet memory. -/
def arrived (s : Rcv) (pkt : Packet) : Rcv :=
  { s with transfer := s.transfer.receive pkt.body }

/-- One event, on any file system. -/
def occur (env : Env) (s : Rcv) (o : Occurrence) : Option (Rcv × List (Client × Reply)) :=
  match o.event with
  | .packet client pkt timeUp =>
    if pkt.init then (s.arrived pkt).handleInitPkt client
    else if pkt.fin then some ((s.arrived pkt).handleFinPkt client)
    else ((s.arrived pkt).wake.tryOpen o.opens).takeData env client timeUp
  | .timeout => s.timeout
  | .alarm => if s.alarm then some (s.closeConn, []) else none

/-- The clients of the current connection and of the queue. -/
def clients (s : Rcv) : List Client := s.currClient.toList ++ s.connQueue.map Conn.client

/-- The last connection ends. -/
theorem closeConn_nil {s : Rcv} (h : s.connQueue = []) :
    s.closeConn.currConn = none ∧ s.closeConn.connQueue = [] ∧ s.closeConn.allocated = false ∧
      s.closeConn.alarm = false := by
  unfold closeConn
  split
  case h_1 => exact ⟨rfl, h, rfl, rfl⟩
  case h_2 hq => exact absurd (hq.symm.trans h) (cons_ne_nil _ _)

/-- The first of the queue is next. -/
theorem closeConn_cons {s : Rcv} {conn : Conn} {rest : List Conn} (h : s.connQueue = conn :: rest) :
    s.closeConn.currConn = some conn ∧ s.closeConn.connQueue = rest ∧
      s.closeConn.allocated = true ∧ s.closeConn.alarm = false := by
  unfold closeConn
  split
  case h_1 hq => exact absurd (h.symm.trans hq) (cons_ne_nil _ _)
  case h_2 hq =>
    injection hq.symm.trans h with hconn hrest
    rw [hconn, hrest]
    exact ⟨rfl, rfl, rfl, rfl⟩

/-! ## The four effects -/

/-- No connection comes or goes. The file is open, or the alarm set, only if it was
so before or there is a connection. -/
structure Keeps (s t : Rcv) : Prop where
  connQueue : t.connQueue = s.connQueue
  currClient : t.currClient = s.currClient
  allocated : t.allocated = s.allocated
  fp : t.fp = true → s.fp = true ∨ s.currConn.isSome
  alarm : t.alarm = true → s.alarm = true ∨ s.currConn.isSome

inductive Effect (s t : Rcv) : RcvEvent → Prop where
  | serve {client : Client} {pkt : Packet} {timeUp : Bool} (hinit : pkt.init = true)
      (hidle : s.currConn = none) (hcurr : t.currClient = some client)
      (hqueue : t.connQueue = s.connQueue) (hallocated : t.allocated = true)
      (halarm : t.alarm = s.alarm) : Effect s t (.packet client pkt timeUp)
  | wait {client : Client} {pkt : Packet} {timeUp : Bool} (hinit : pkt.init = true)
      (hnew : client ∉ s.clients) (hbusy : s.currConn.isSome) (hcurr : t.currConn = s.currConn)
      (hqueue : t.connQueue.map Conn.client = s.connQueue.map Conn.client ++ [client])
      (hallocated : t.allocated = s.allocated) (halarm : t.alarm = s.alarm) :
      Effect s t (.packet client pkt timeUp)
  | keep {e : RcvEvent} (hknown : ∀ client ∈ e.initOf, client ∈ s.clients) (he : e ≠ .alarm)
      (hkeeps : s.Keeps t) : Effect s t e
  | close (halarm : s.alarm = true) (ht : t = s.closeConn) : Effect s t .alarm

section Effects

variable {env : Env} {s t : Rcv} {out : List (Client × Reply)} {client : Client}

theorem Keeps.refl (s : Rcv) : s.Keeps s := ⟨rfl, rfl, rfl, Or.inl, Or.inl⟩

theorem isSome_currClient (s : Rcv) : s.currClient.isSome = s.currConn.isSome := by
  unfold Rcv.currClient
  rw [Option.isSome_map]

theorem isSome_currConn (h : t.currClient = s.currClient) :
    t.currConn.isSome = s.currConn.isSome := by
  rw [← isSome_currClient, ← isSome_currClient, h]

theorem Keeps.trans {u : Rcv} (h : s.Keeps t) (h' : t.Keeps u) : s.Keeps u := by
  have hsome := isSome_currConn h.currClient
  constructor
  · exact h'.connQueue.trans h.connQueue
  · exact h'.currClient.trans h.currClient
  · exact h'.allocated.trans h.allocated
  · intro hu
    rcases h'.fp hu with ht | ht
    · exact h.fp ht
    · exact Or.inr (hsome ▸ ht)
  · intro hu
    rcases h'.alarm hu with ht | ht
    · exact h.alarm ht
    · exact Or.inr (hsome ▸ ht)

/-- The file transfer is no matter of the connections. -/
theorem Keeps.transfer (s : Rcv) (r : Receiver) : s.Keeps { s with transfer := r } :=
  ⟨rfl, rfl, rfl, Or.inl, Or.inl⟩

theorem Keeps.wake (s : Rcv) : s.Keeps s.wake :=
  ⟨rfl, currClient_wake s, rfl, Or.inl, Or.inl⟩

theorem Keeps.tryOpen (s : Rcv) (opens : Bool) : s.Keeps (s.tryOpen opens) := by
  cases opens with
  | false => exact Keeps.refl s
  | true =>
    show s.Keeps s.openFile
    unfold Rcv.openFile
    split
    case isTrue h => exact ⟨rfl, rfl, rfl, fun _ => Or.inr h.1, Or.inl⟩
    case isFalse => exact Keeps.refl s

theorem Keeps.takeData {timeUp : Bool} (h : s.takeData env client timeUp = some (t, out)) :
    s.Keeps t := by
  unfold Rcv.takeData at h
  split at h
  · cases h
    exact Keeps.transfer s _
  · cases h

theorem Keeps.handleFinPkt (s : Rcv) (client : Client) : s.Keeps (s.handleFinPkt client).1 := by
  unfold Rcv.handleFinPkt
  cases hc : s.currConn with
  | none =>
    refine ⟨rfl, ?_, rfl, fun h => absurd h Bool.false_ne_true, Or.inl⟩
    exact congrArg (Option.map Conn.client) hc.symm
  | some curr =>
    have hcurr : s.currClient = some curr.client := congrArg (Option.map Conn.client) hc
    dsimp only
    split
    · -- the connection is closing now, and the alarm is set
      exact ⟨rfl, hcurr.symm, rfl, fun h => absurd h Bool.false_ne_true, fun _ => Or.inr (by rw [hc]; rfl)⟩
    · exact ⟨rfl, hcurr.symm, rfl, fun h => absurd h Bool.false_ne_true, Or.inl⟩

theorem Keeps.timeout (h : s.timeout = some (t, out)) : s.Keeps t := by
  unfold Rcv.timeout at h
  split at h
  · cases h
    exact Keeps.refl s
  split at h
  · cases h
    exact Keeps.refl s
  · split at h
    · cases h
      exact Keeps.transfer s _
    · cases h
  · cases h
    exact Keeps.refl s

theorem client_makeConn {connState : ConnState} {conn : Conn}
    (h : s.makeConn client connState = some conn) : conn.client = client := by
  unfold Rcv.makeConn at h
  dsimp only at h
  split at h
  · cases h
    rfl
  · cases h

/-- An INIT serves its client when nobody is served. A client that is not yet known
waits, and for all others nothing changes. -/
theorem Effect.handleInitPkt {pkt : Packet} (hinit : pkt.init = true) (timeUp : Bool)
    (h : s.handleInitPkt client = some (t, out)) : Effect s t (.packet client pkt timeUp) := by
  have hkeep : client ∈ s.clients → t = s → Effect s t (.packet client pkt timeUp) := by
    intro hmem ht
    refine .keep ?_ (by intro hne; cases hne) (ht ▸ Keeps.refl s)
    intro c hc
    rw [RcvEvent.initOf_packet, if_pos hinit] at hc
    exact Option.some.inj hc ▸ hmem
  unfold Rcv.handleInitPkt at h
  split at h
  case h_1 hidle =>
    rcases Option.map_eq_some_iff.mp h with ⟨conn, hconn, heq⟩
    cases heq
    exact .serve hinit hidle (congrArg some (client_makeConn hconn)) rfl rfl rfl
  case h_2 curr hcurr =>
    have hclients : s.clients = curr.client :: s.connQueue.map Conn.client := by
      unfold Rcv.clients Rcv.currClient
      rw [hcurr]
      rfl
    split at h
    case isTrue hsame =>
      injection h with h
      refine hkeep ?_ (congrArg Prod.fst h).symm
      rw [hclients, hsame]
      exact mem_cons_self
    case isFalse hother =>
    split at h
    case isTrue hany =>
      injection h with h
      refine hkeep ?_ (congrArg Prod.fst h).symm
      rcases any_eq_true.mp hany with ⟨c, hc, hsame⟩
      rw [hclients, ← of_decide_eq_true hsame]
      exact mem_cons_of_mem _ (mem_map_of_mem hc)
    case isFalse hnone =>
      rcases Option.map_eq_some_iff.mp h with ⟨conn, hconn, heq⟩
      cases heq
      refine .wait hinit ?_ (by rw [hcurr]; rfl) rfl ?_ rfl rfl
      · rw [hclients]
        intro hmem
        rcases mem_cons.mp hmem with heq | hmem
        · exact hother heq.symm
        · rcases mem_map.mp hmem with ⟨c, hc, hsame⟩
          exact hnone (any_eq_true.mpr ⟨c, hc, decide_eq_true hsame⟩)
      · show (s.connQueue ++ [conn]).map Conn.client = _
        rw [map_append, ← client_makeConn hconn]
        rfl
theorem Effect.of_keeps {u : Rcv} {e : RcvEvent} (hs : s.Keeps u) (hcurr : u.currConn = s.currConn)
    (halarm : u.alarm = s.alarm) (he : e ≠ .alarm) (h : Effect u t e) : Effect s t e := by
  have hclients : u.clients = s.clients := by
    unfold Rcv.clients
    rw [hs.currClient, hs.connQueue]
  cases h with
  | serve hinit hidle hclient hqueue hallocated hset =>
    exact .serve hinit (hcurr ▸ hidle) hclient (hqueue.trans hs.connQueue) hallocated
      (hset.trans halarm)
  | wait hinit hnew hbusy hsame hqueue hallocated hset =>
    refine .wait hinit (hclients ▸ hnew) (hcurr ▸ hbusy) (hsame.trans hcurr) ?_
      (hallocated.trans hs.allocated) (hset.trans halarm)
    rw [hqueue, hs.connQueue]
  | keep hknown hne hkeeps => exact .keep (hclients ▸ hknown) hne (hs.trans hkeeps)
  | close => exact absurd rfl he

/-- Every event has one of the four effects. -/
theorem effect_of_occur {o : Occurrence} (h : s.occur env o = some (t, out)) :
    Effect s t o.event := by
  unfold Rcv.occur at h
  split at h
  case h_1 client pkt timeUp heq =>
    rw [heq]
    have harrived : s.Keeps (s.arrived pkt) := Keeps.transfer s _
    split at h
    case isTrue hinit =>
      have heffect := Effect.handleInitPkt hinit timeUp h
      exact .of_keeps harrived rfl rfl (by intro hne; cases hne) heffect
    case isFalse hinit =>
      have hknown : ∀ c ∈ (RcvEvent.packet client pkt timeUp).initOf, c ∈ s.clients := by
        intro c hc
        rw [RcvEvent.initOf_packet, if_neg hinit] at hc
        cases hc
      refine .keep hknown (by intro hne; cases hne) ?_
      split at h
      · injection h with h
        have ht := congrArg Prod.fst h
        dsimp only at ht
        rw [← ht]
        exact harrived.trans (Keeps.handleFinPkt _ client)
      · exact ((harrived.trans (.wake _)).trans (.tryOpen _ o.opens)).trans (.takeData h)
  case h_2 heq =>
    rw [heq]
    exact .keep (fun c hc => absurd hc (Option.not_mem_none c)) (by intro hne; cases hne) (.timeout h)
  case h_3 heq =>
    rw [heq]
    split at h
    case isTrue halarm =>
      cases h
      exact .close halarm rfl
    case isFalse => cases h

end Effects

end Rcv

end PittCs.Ncp
