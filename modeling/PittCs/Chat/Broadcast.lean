import PittCs.Chat.Structs
import Mathlib.Algebra.GroupWithZero.Nat
import PittCs.Lib.TransitionSystem

/-!
# The broadcast protocol at one node

The state of a server and what it does inside one critical section: broadcast
an operation, and handle a packet, an ack or a nack that it received. Sends and
backups come out as events, together with a record of the calls of `broadcast`
and `handle_packet` and of what `handle_ack` purges.

Row `id` of each matrix is the live vector of the node itself, which the source
shares by reference; every change of a vector is followed by the assignment of
the row, so the model assigns it where the source does.
-/

namespace PittCs.Chat

open PittCs.Lib List

/-- Packets sent or received until the next ack. -/
def ackTime : Nat := 10

/-- Milliseconds without a packet after which a server leaves the view. -/
def viewTimeout : Nat := 10000

/-- `sys.maxsize`. -/
def maxsize : Nat := 2 ^ 63 - 1

/-- A user connected to this server, with the group it is in. -/
structure ActiveUser where
  username : String
  groupName : String
deriving DecidableEq

/-- The state of one server. Clock readings are in milliseconds. -/
structure Node (n : Nat) where
  id : Fin n
  timestamp : Nat
  log : List (BroadcastMsg n)
  seq : Nat
  buf : List (BroadcastMsg n)
  highestSeqRcvd : Fin n → Nat
  highestTsRcvd : Fin n → Nat
  pktsUntilAck : Nat
  seqMatrix : Fin n → Fin n → Nat
  tsMatrix : Fin n → Fin n → Nat
  inView : Fin n → Bool
  lastHeard : Fin n → Nat
  confirmedOrder : List (BroadcastMsg n)
  store : GroupStore
  activeUsers : List ActiveUser
deriving DecidableEq

/-- What a node does that is seen from outside or recorded. -/
inductive Event (n : Nat) where
  | send (target : Fin n) (pkt : Packet n)
  | backup (state : Node n)
  | broadcast (msg : BroadcastMsg n)
  | handlePacket (msg : BroadcastMsg n)
  | purge (minTs : Nat) (fromBuf fromLog : List (BroadcastMsg n))

namespace Event

def beq {n : Nat} : Event n → Event n → Bool
  | .send target pkt, .send target' pkt' => decide (target = target' ∧ pkt = pkt')
  | .backup state, .backup state' => decide (state = state')
  | .broadcast msg, .broadcast msg' => decide (msg = msg')
  | .handlePacket msg, .handlePacket msg' => decide (msg = msg')
  | .purge minTs fromBuf fromLog, .purge minTs' fromBuf' fromLog' =>
    decide (minTs = minTs' ∧ fromBuf = fromBuf' ∧ fromLog = fromLog')
  | _, _ => false

theorem beq_iff {n : Nat} (e e' : Event n) : e.beq e' = true ↔ e = e' := by
  cases e <;> cases e' <;> simp [beq]

instance {n : Nat} : DecidableEq (Event n) := fun e e' =>
  decidable_of_iff _ (beq_iff e e')

end Event

namespace Node

variable {n : Nat}

/-- A server that starts without a backup file at time `start`. -/
def init (id : Fin n) (start : Nat) : Node n where
  id := id
  timestamp := 0
  log := []
  seq := 0
  buf := []
  highestSeqRcvd := fun _ => 0
  highestTsRcvd := fun _ => 0
  pktsUntilAck := ackTime
  seqMatrix := fun _ _ => 0
  tsMatrix := fun _ _ => 0
  inView := fun _ => true
  lastHeard := fun _ => start
  confirmedOrder := []
  store := GroupStore.empty
  activeUsers := []

/-- The other servers. -/
def others (node : Node n) : List (Fin n) :=
  (finRange n).filter fun i => i ≠ node.id

def sendToOthers (node : Node n) (pkt : Packet n) : List (Event n) :=
  node.others.map fun i => .send i pkt

/-- Writes the own vectors into the matrices. -/
def updateMatrices (node : Node n) : Node n :=
  { node with
    seqMatrix := Function.update node.seqMatrix node.id node.highestSeqRcvd
    tsMatrix := Function.update node.tsMatrix node.id node.highestTsRcvd }

def sendAcks (node : Node n) : Node n × List (Event n) :=
  (node.updateMatrices,
    node.sendToOthers
      (.ack node.id node.timestamp node.seq node.highestSeqRcvd node.highestTsRcvd))

/-- Counts a packet that was sent or received, and sends acks when it is time. -/
def countPacket (node : Node n) : Node n × List (Event n) :=
  if node.pktsUntilAck - 1 ≤ 0 then { node with pktsUntilAck := ackTime }.sendAcks
  else ({ node with pktsUntilAck := node.pktsUntilAck - 1 }, [])

def sendNack (node : Node n) (target : Fin n) : Event n :=
  .send target (.nack node.id node.timestamp (node.highestSeqRcvd target + 1))

/-- Creates the next packet and places it in the log, as executed, and in the
buffer, for the others, as not executed. -/
def enqueue (node : Node n) (op : Operation) : Node n × BroadcastMsg n :=
  let timestamp := node.timestamp + 1
  let seq := node.seq + 1
  let execPkt : BroadcastMsg n := ⟨node.id, timestamp, seq, op, true⟩
  let broadcastPkt : BroadcastMsg n := ⟨node.id, timestamp, seq, op, false⟩
  let node := { node with
    timestamp
    seq
    highestTsRcvd := Function.update node.highestTsRcvd node.id timestamp
    highestSeqRcvd := Function.update node.highestSeqRcvd node.id seq }
  let node := node.updateMatrices
  ({ node with
      log := putInOrder node.log execPkt
      buf := node.buf ++ [broadcastPkt] }, broadcastPkt)

/-- Broadcasts an operation that was executed at this node. -/
def broadcast (node : Node n) (op : Operation) : Node n × List (Event n) :=
  let (node, pkt) := node.enqueue op
  let (node, acks) := node.countPacket
  (node, .broadcast pkt :: acks ++ .backup node :: node.sendToOthers (.data pkt))

/-- Sends the requested packet and all later ones again. -/
def handleNack (node : Node n) (reqSeq : Nat) (target : Fin n) : List (Event n) :=
  if reqSeq > node.seq then []
  else
    match node.buf.reverse.findIdx? fun msg => msg.seq = reqSeq with
    | none => []
    | some k =>
      (node.buf.drop (node.buf.length - 1 - k)).map fun msg => .send target (.data msg)

/-- The sequence number up to which every node has the packets of this one. -/
def minSeq (node : Node n) : Nat :=
  (finRange n).foldl (fun acc i => min acc (node.seqMatrix i node.id)) maxsize

/-- The timestamp that every node knows about. -/
def minTs (node : Node n) : Nat :=
  (finRange n).foldl
    (fun acc i => (finRange n).foldl (fun acc j => min acc (node.tsMatrix i j)) acc) maxsize

/-- Takes the vectors of an ack into the matrices, each if no element gets smaller. -/
def takeVectors (node : Node n) (senderId : Fin n) (seqVector tsVector : Fin n → Nat) : Node n :=
  { node with
    seqMatrix :=
      if ∀ i, node.seqMatrix senderId i ≤ seqVector i then
        Function.update node.seqMatrix senderId seqVector
      else node.seqMatrix
    tsMatrix :=
      if ∀ i, node.tsMatrix senderId i ≤ tsVector i then
        Function.update node.tsMatrix senderId tsVector
      else node.tsMatrix }

/-- The timestamp of an ack counts when every packet up to the ack was received. -/
def takeTimestamp (node : Node n) (senderId : Fin n) (ts seq : Nat) : Node n :=
  let highestTsRcvd :=
    if node.highestSeqRcvd senderId = seq then
      Function.update node.highestTsRcvd senderId (max (node.highestTsRcvd senderId) ts)
    else node.highestTsRcvd
  { node with
    highestTsRcvd
    tsMatrix :=
      if node.highestSeqRcvd senderId = seq then
        Function.update node.tsMatrix node.id highestTsRcvd
      else node.tsMatrix }

/-- Purges `buf` of what every node has, and `log` of what is below `minTs`. -/
def purge (node : Node n) : Node n × List (Event n) :=
  let minSeq := node.minSeq
  let minTs := node.minTs
  ({ node with
      buf := node.buf.dropWhile fun msg => msg.seq ≤ minSeq
      log := node.log.dropWhile fun msg => msg.ts < minTs },
    [.purge minTs (node.buf.takeWhile fun msg => msg.seq ≤ minSeq)
      (node.log.takeWhile fun msg => msg.ts < minTs)])

def handleAck (node : Node n) (senderId : Fin n) (ts seq : Nat) (seqVector tsVector : Fin n → Nat) :
    Node n × List (Event n) :=
  ((node.takeVectors senderId seqVector tsVector).takeTimestamp senderId ts seq).purge

/-- Attempts the unexecuted operations of the log, from left to right. -/
def runLog (store : GroupStore) : List (BroadcastMsg n) → GroupStore × List (BroadcastMsg n)
  | [] => (store, [])
  | m :: rest =>
    if m.executed then
      let (store, rest) := runLog store rest
      (store, m :: rest)
    else
      match store.apply m.content with
      | none =>
        let (store, rest) := runLog store rest
        (store, m :: rest)
      | some store =>
        let (store, rest) := runLog store rest
        (store, { m with executed := true } :: rest)

def handlePacket (node : Node n) (pkt : BroadcastMsg n) : Node n × List (Event n) :=
  let timestamp := max node.timestamp pkt.ts + 1
  let highestTsRcvd := Function.update node.highestTsRcvd node.id timestamp
  let node := { node with
    timestamp
    highestSeqRcvd := Function.update node.highestSeqRcvd pkt.senderId pkt.seq
    highestTsRcvd := Function.update highestTsRcvd pkt.senderId pkt.ts }
  let node := node.updateMatrices
  let (store, log) := runLog node.store (putInOrder node.log pkt)
  ({ node with store, log }, [.handlePacket pkt])

/-- The branch of `listen` for each kind of packet. -/
def dispatch (node : Node n) : Packet n → Node n × List (Event n)
  | .nack senderId _ seq => (node, node.handleNack seq senderId)
  | .ack senderId ts seq seqVector tsVector => node.handleAck senderId ts seq seqVector tsVector
  | .data msg =>
    if msg.seq = node.highestSeqRcvd msg.senderId + 1 then node.handlePacket msg
    else (node, [node.sendNack msg.senderId])

/-- Notes the time at which a packet was received from the sender. -/
def hear (node : Node n) (senderId : Fin n) (now : Nat) : Node n :=
  { node with
    lastHeard := Function.update node.lastHeard senderId now
    inView := Function.update node.inView senderId true }

/-- What `listen` does with a packet that arrives at time `now`. -/
def listen (node : Node n) (pkt : Packet n) (now : Nat) : Node n × List (Event n) :=
  let (node, acks) := (node.hear pkt.senderId now).countPacket
  let (node, events) := node.dispatch pkt
  (node, acks ++ events ++ [.backup node])

/-- Takes the servers that were not heard of for a while out of the view. -/
def checkView (node : Node n) (now : Nat) : Node n × List (Event n) :=
  let node := { node with
    inView := fun i =>
      if now - node.lastHeard i ≥ viewTimeout ∧ i ≠ node.id then false else node.inView i }
  (node, [.backup node])

end Node

/-!
## Client requests

A connection keeps a username and the group the user is in. Each request that
changes a group is one critical section of the server, except a request to join,
which has two: it leaves the old group in the first and enters the new one in
the second. A section applies its operation, writes a backup and broadcasts the
operation if it succeeded.
-/

/-- One connection: a `ChatServer` object. `joining` holds the argument of a
request to join between its two critical sections. -/
structure Session where
  username : String := ""
  groupName : String := ""
  joining : Option String := none
deriving DecidableEq

namespace Node

variable {n : Nat}

def setStore (node : Node n) (store : GroupStore) : Node n := { node with store }

/-- Runs an operation at this node; the operation message is returned on success. -/
def runOperation (node : Node n) (op : Operation) : Node n × Option Operation :=
  match node.store.apply op with
  | none => (node, none)
  | some store => (node.setStore store, some op)

/-- Broadcast and backup, as every client operation ends. -/
def backupAndBroadcast (node : Node n) (op : Option Operation) : Node n × List (Event n) :=
  match op with
  | none => (node, [.backup node])
  | some op =>
    let (node', events) := node.broadcast op
    (node', .backup node :: events)

/-- A critical section that runs one operation. -/
def perform (node : Node n) (op : Operation) : Node n × List (Event n) :=
  let (node, op) := node.runOperation op
  node.backupAndBroadcast op

/-- Removes the first entry of the user in the group from `active_users`. -/
def removeActive (node : Node n) (username groupName : String) : Node n :=
  { node with activeUsers := node.activeUsers.erase ⟨username, groupName⟩ }

/-- Leaves `oldGroup`; then takes the user out of `active_users` under `groupName`,
which is the group the connection names at that moment. -/
def leaveSection (node : Node n) (username oldGroup groupName : String) :
    Node n × List (Event n) :=
  let (node, events) := node.perform (.leaveGroup oldGroup username)
  (node.removeActive username groupName, events)

/-- `on_disconnect`. -/
def onDisconnect (node : Node n) (session : Session) : Node n × List (Event n) :=
  if session.username ≠ "" ∧ session.groupName ≠ "" ∧
      session.groupName ∈ node.store.groupDict.keys then
    node.leaveSection session.username session.groupName session.groupName
  else (node, [])

/-- `exposed_set_username`. The group name is reset before `active_users` is searched. -/
def setUsername (node : Node n) (session : Session) (username : String) :
    Node n × Session × List (Event n) :=
  if session.username ≠ "" then
    if session.groupName ≠ "" ∧ session.groupName ∈ node.store.groupDict.keys then
      let (node, events) := node.leaveSection session.username session.groupName ""
      (node, { session with username, groupName := "" }, events)
    else (node, { session with username, groupName := "" }, [])
  else (node, { session with username }, [])

/-- The first critical section of `exposed_join_group`; no effect without a username. -/
def joinGroupLeave (node : Node n) (session : Session) (newGroup : String) :
    Node n × Session × List (Event n) :=
  if session.username = "" then (node, session, [])
  else if session.groupName ∈ node.store.groupDict.keys then
    let (node, events) := node.leaveSection session.username session.groupName ""
    (node, { session with groupName := "", joining := some newGroup }, events)
  else (node, { session with joining := some newGroup }, [])

/-- The second critical section of `exposed_join_group`. -/
def joinGroupEnter (node : Node n) (session : Session) (newGroup : String) :
    Node n × Session × List (Event n) :=
  let session := { session with groupName := newGroup, joining := none }
  let (node, op) :=
    if newGroup ∈ node.store.groupDict.keys then
      node.runOperation (.joinGroup newGroup session.username)
    else node.runOperation (.createGroup newGroup session.username)
  let node := { node with
    activeUsers := node.activeUsers ++ [ActiveUser.mk session.username newGroup] }
  let (node, events) := node.backupAndBroadcast op
  (node, session, events)

/-- The group of the connection, if its user is a member of it. -/
def memberGroup (node : Node n) (session : Session) : Option Group :=
  if session.username = "" ∨ session.groupName = "" then none
  else (node.store.groupDict.get? session.groupName).filter
    fun group => session.username ∈ group.users

/-- `exposed_write_message`; a user that is in no group gets an exception. -/
def writeMessage (node : Node n) (session : Session) (message : String) :
    Node n × List (Event n) :=
  match node.memberGroup session with
  | none => (node, [])
  | some _ =>
    node.perform
      (.writeMessage session.groupName session.username message (node.timestamp + 1) node.id)

/-- `exposed_add_like`; an exception if there is no such message or it is liked already. -/
def addLike (node : Node n) (session : Session) (serverId ts : Nat) : Node n × List (Event n) :=
  match node.memberGroup session with
  | none => (node, [])
  | some group =>
    match group.messages.find? fun m => m.id = (serverId, ts) with
    | none => (node, [])
    | some m =>
      if session.username ∈ m.likes then (node, [])
      else node.perform (.addLike session.groupName session.username ts serverId)

/-- `exposed_remove_like`; an exception if there is no such message or no such like. -/
def removeLike (node : Node n) (session : Session) (serverId ts : Nat) : Node n × List (Event n) :=
  match node.memberGroup session with
  | none => (node, [])
  | some group =>
    match group.messages.find? fun m => m.id = (serverId, ts) with
    | none => (node, [])
    | some m =>
      if session.username ∉ m.likes then (node, [])
      else node.perform (.removeLike session.groupName session.username ts serverId)

end Node

/-!
## The replicated server

`n` servers, their client connections and the network between them. The trace
records every event with the node it happened at. A packet that was sent can
arrive at its target at any later time, any number of times, or never: loss,
duplication and reordering are choices of the run.
-/

namespace Event

variable {n : Nat}

def broadcasts : Event n → List (BroadcastMsg n)
  | .broadcast msg => [msg]
  | _ => []

def handled : Event n → List (BroadcastMsg n)
  | .handlePacket msg => [msg]
  | _ => []

/-- The packets that leave the log. -/
def purged : Event n → List (BroadcastMsg n)
  | .purge _ _ fromLog => fromLog
  | _ => []

end Event

/-- The servers and what has happened at them. -/
structure Cluster (n : Nat) where
  node : Fin n → Node n
  trace : List (Fin n × Event n)

namespace Cluster

variable {n : Nat}

/-- Node `i` ends a critical section in a new state, after some events. -/
def put (s : Cluster n) (i : Fin n) (result : Node n × List (Event n)) : Cluster n where
  node := Function.update s.node i result.1
  trace := s.trace ++ result.2.map fun e => (i, e)

/-- The packet was sent to `i`. -/
def Sent (s : Cluster n) (i : Fin n) (pkt : Packet n) : Prop :=
  ∃ e ∈ s.trace, e.2 = .send i pkt

instance (s : Cluster n) (i : Fin n) (pkt : Packet n) : Decidable (s.Sent i pkt) :=
  inferInstanceAs (Decidable (∃ e ∈ s.trace, e.2 = .send i pkt))

/-- What the events at `i` have to say, in order. -/
def collect {α : Type} (f : Event n → List α) (s : Cluster n) (i : Fin n) : List α :=
  s.trace.flatMap fun e => if e.1 = i then f e.2 else []

/-- The packets that `i` has broadcast, in order. -/
def broadcasts (s : Cluster n) (i : Fin n) : List (BroadcastMsg n) :=
  s.collect Event.broadcasts i

/-- The packets that `handle_packet` was called for at `i`, in order. -/
def handled (s : Cluster n) (i : Fin n) : List (BroadcastMsg n) :=
  s.collect Event.handled i

/-- The packets that `i` has purged from its log, as they were then. -/
def purged (s : Cluster n) (i : Fin n) : List (BroadcastMsg n) :=
  s.collect Event.purged i

end Cluster

/-- The servers with their connections. -/
structure System (n : Nat) where
  cluster : Cluster n
  sessions : Fin n → Nat → Option Session

/-- The program runs five servers. -/
instance neZeroServers : NeZero 5 := ⟨by decide⟩

/-- One step of the system: a client request, a packet that arrives, or a timer. -/
inductive Action (n : Nat) where
  | connect (i : Fin n) (c : Nat)
  | disconnect (i : Fin n) (c : Nat)
  | setUsername (i : Fin n) (c : Nat) (username : String)
  | joinGroupLeave (i : Fin n) (c : Nat) (newGroup : String)
  | joinGroupEnter (i : Fin n) (c : Nat)
  | writeMessage (i : Fin n) (c : Nat) (message : String)
  | addLike (i : Fin n) (c : Nat) (serverId ts : Nat)
  | removeLike (i : Fin n) (c : Nat) (serverId ts : Nat)
  | receive (i : Fin n) (pkt : Packet n) (now : Nat)
  | nackTimeout (i target : Fin n)
  | checkView (i : Fin n) (now : Nat)
deriving DecidableEq

namespace System

variable {n : Nat}

/-- Every server starts without a backup file, server `i` at time `start i`. -/
def init (start : Fin n → Nat) : System n where
  cluster := { node := fun i => Node.init i (start i), trace := [] }
  sessions := fun _ _ => none

def put (s : System n) (i : Fin n) (result : Node n × List (Event n)) : System n :=
  { s with cluster := s.cluster.put i result }

def setSession (s : System n) (i : Fin n) (c : Nat) (session : Option Session) : System n :=
  { s with
    sessions := Function.update s.sessions i (Function.update (s.sessions i) c session) }

/-- The connection `c` of server `i` that waits for a request. -/
def idle (s : System n) (i : Fin n) (c : Nat) : Option Session :=
  (s.sessions i c).filter fun session => session.joining = none

/-- A request that may change both the server and the connection. -/
def request (s : System n) (i : Fin n) (c : Nat)
    (result : Node n × Session × List (Event n)) : System n :=
  (s.put i (result.1, result.2.2)).setSession i c (some result.2.1)

/-- One step; a step that is not possible gives nothing. -/
def next (s : System n) : Action n → Option (System n)
  | .connect i c =>
    match s.sessions i c with
    | none => some (s.setSession i c (some {}))
    | some _ => none
  | .disconnect i c =>
    (s.idle i c).map fun session =>
      (s.put i ((s.cluster.node i).onDisconnect session)).setSession i c none
  | .setUsername i c username =>
    (s.idle i c).map fun session =>
      s.request i c ((s.cluster.node i).setUsername session username)
  | .joinGroupLeave i c newGroup =>
    (s.idle i c).map fun session =>
      s.request i c ((s.cluster.node i).joinGroupLeave session newGroup)
  | .joinGroupEnter i c =>
    (s.sessions i c).bind fun session =>
      session.joining.map fun newGroup =>
        s.request i c ((s.cluster.node i).joinGroupEnter session newGroup)
  | .writeMessage i c message =>
    (s.idle i c).map fun session =>
      s.put i ((s.cluster.node i).writeMessage session message)
  | .addLike i c serverId ts =>
    (s.idle i c).map fun session =>
      s.put i ((s.cluster.node i).addLike session serverId ts)
  | .removeLike i c serverId ts =>
    (s.idle i c).map fun session =>
      s.put i ((s.cluster.node i).removeLike session serverId ts)
  | .receive i pkt now =>
    if s.cluster.Sent i pkt then some (s.put i ((s.cluster.node i).listen pkt now)) else none
  | .nackTimeout i target =>
    if target ≠ i then some (s.put i (s.cluster.node i, [(s.cluster.node i).sendNack target]))
    else none
  | .checkView i now => some (s.put i ((s.cluster.node i).checkView now))

end System

/-- The replicated server over any network, without crashes. -/
def chatSystem (n : Nat) : TransitionSystem (System n) (Action n) where
  Init s := ∃ start, s = System.init start
  Next s a s' := s.next a = some s'

/-- A run that can be taken step by step shows a reachable state. -/
theorem exists_reachable_of_run {n : Nat} {start : Fin n → Nat} {p : System n → Bool}
    {actions : List (Action n)}
    (h : TransitionSystem.runMeets System.next (fun _ _ => true) p actions (System.init start) =
      true) :
    ∃ t, (chatSystem n).Reachable t ∧ p t = true := by
  have hinit : (chatSystem n).Reachable (System.init start) := .init ⟨start, rfl⟩
  exact TransitionSystem.exists_of_runMeets (fun _ _ _ hnext => hnext) (fun _ _ _ => trivial)
    hinit h

end PittCs.Chat
