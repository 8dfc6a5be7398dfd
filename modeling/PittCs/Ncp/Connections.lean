import PittCs.Lib.TransitionSystem
import PittCs.Ncp.Receiver

/-!
# The connections of the receiver

The main loop of `rcv`. One connection is served at a time, the others wait in a
queue, and the variables of the file transfer are global. Any client may send any
packet at any time; `alarm` is the signal that ends a connection some seconds
after its FIN.

A call on a null pointer, and a file name that does not fit, is undefined; such a
step gives nothing. The name resolution of addresses is not modelled, and a signal
arrives between two turns of the loop.
-/

namespace PittCs.Ncp

open PittCs.Lib

/-- The address of a client. -/
structure Client where
  ip : List UInt8
  port : List UInt8
deriving DecidableEq

inductive ConnState where
  | sleeping
  | active
  | closing
deriving DecidableEq

/-- `struct conn`; its sequence number is not used. -/
structure Conn where
  connState : ConnState
  client : Client
  filename : List UInt8
deriving DecidableEq

def maxFilename : Nat := 255

/-- A packet of any kind on the network, with the flags that `rcv` looks at. -/
structure Packet where
  init : Bool
  fin : Bool
  body : Datagram

/-- What `rcv` sends. -/
inductive Reply where
  | init
  | sleep
  | fin
  | msg (msg : RcvMsg)

/-- The global variables. `file` in `transfer` is what is in the file of the current
connection, `allocated` tells that the gap list and the buffer are there, `fp`
that the file is open, and `alarm` that the signal is pending. -/
structure Rcv where
  connQueue : List Conn
  currConn : Option Conn
  transfer : Receiver
  allocated : Bool
  fp : Bool
  alarm : Bool

namespace Rcv

def start (memory : Upkt) : Rcv where
  connQueue := []
  currConn := none
  transfer := Receiver.init memory
  allocated := true
  fp := false
  alarm := false

/-- Everything of the file transfer starts anew. -/
def reset (s : Rcv) (conn : Conn) : Rcv :=
  { s with
    currConn := some conn
    transfer := Receiver.init s.transfer.pkt
    allocated := true
    fp := false }

/-- The file name is copied from the payload in the packet memory. -/
def makeConn (s : Rcv) (client : Client) (connState : ConnState) : Option Conn :=
  let filename := s.transfer.pkt.text
  if filename.length < maxFilename then some ⟨connState, client, filename⟩ else none

def handleInitPkt (s : Rcv) (client : Client) : Option (Rcv × List (Client × Reply)) :=
  match s.currConn with
  | none => (s.makeConn client .active).map fun conn => (s.reset conn, [(client, .init)])
  | some curr =>
    if curr.client = client then some (s, [(client, .init)])
    else if s.connQueue.any fun c => c.client = client then some (s, [(client, .sleep)])
    else (s.makeConn client .sleeping).map fun conn =>
      ({ s with connQueue := s.connQueue ++ [conn] }, [(client, .sleep)])

/-- The file is closed before the sender of the packet is known. -/
def handleFinPkt (s : Rcv) (client : Client) : Rcv × List (Client × Reply) :=
  let s := { s with fp := false }
  match s.currConn with
  | none => (s, [])
  | some curr =>
    if curr.client = client then
      ({ s with currConn := some { curr with connState := .closing }, alarm := true },
        [(client, .fin)])
    else (s, [])

/-- A data packet wakes the current connection up. -/
def wake (s : Rcv) : Rcv :=
  { s with currConn := s.currConn.map fun curr =>
      if curr.connState = .sleeping then { curr with connState := .active } else curr }

/-- The file of the current connection is opened, which empties it. -/
def openFile (s : Rcv) : Rcv :=
  if s.currConn.isSome ∧ ¬ s.fp then { s with fp := true, transfer := { s.transfer with file := [] } }
  else s

/-- The gap list, and for the next packet the file, is used without a check. -/
def dataDefined (env : Env) (s : Rcv) (timeUp : Bool) : Prop :=
  let seq := s.transfer.pkt.seq
  if seq ≤ s.transfer.startOfWindow then
    s.transfer.writtenSinceLastMessage ≥ env.windowSize / 2 ∨ timeUp → s.allocated
  else if s.transfer.startOfWindow + 1 = seq then s.allocated ∧ s.fp
  else s.allocated

instance (env : Env) (s : Rcv) (timeUp : Bool) : Decidable (s.dataDefined env timeUp) := by
  unfold dataDefined
  infer_instance

/-- A data packet, whoever sent it. -/
def handleDataPkt (env : Env) (s : Rcv) (client : Client) (timeUp : Bool) :
    Option (Rcv × List (Client × Reply)) :=
  let s := s.wake.openFile
  if s.dataDefined env timeUp then
    let (r, msgs) := s.transfer.takePkt s.transfer.pkt
    let (r, msgs) := r.finish env s.transfer.pkt.seq timeUp msgs
    some ({ s with transfer := r }, msgs.map fun msg => (client, .msg msg))
  else none

/-- A packet is received into the packet memory and dispatched. -/
def handlePkt (env : Env) (s : Rcv) (client : Client) (pkt : Packet) (timeUp : Bool) :
    Option (Rcv × List (Client × Reply)) :=
  let s := { s with transfer := s.transfer.receive pkt.body }
  if pkt.init then s.handleInitPkt client
  else if pkt.fin then some (s.handleFinPkt client)
  else s.handleDataPkt env client timeUp

/-- No packet arrived for a while. -/
def timeout (s : Rcv) : Option (Rcv × List (Client × Reply)) :=
  match s.currConn with
  | none => some (s, [])
  | some curr =>
    match curr.connState with
    | .sleeping => some (s, [(curr.client, .init)])
    | .active =>
      if s.allocated then
        let (r, msgs) := s.transfer.reply
        some ({ s with transfer := r }, msgs.map fun msg => (curr.client, .msg msg))
      else none
    | .closing => some (s, [])

/-- The signal: the next connection of the queue is served. -/
def closeConn (s : Rcv) : Rcv :=
  match s.connQueue with
  | [] => { s with currConn := none, allocated := false, alarm := false }
  | next :: rest => { s with connQueue := rest, alarm := false }.reset next

end Rcv

/-- What can happen to the receiver. -/
inductive RcvEvent where
  | packet (client : Client) (pkt : Packet) (timeUp : Bool)
  | timeout
  | alarm

/-- One event; nothing when it is not possible or not defined. -/
def Rcv.step (env : Env) (s : Rcv) : RcvEvent → Option (Rcv × List (Client × Reply))
  | .packet client pkt timeUp => s.handlePkt env client pkt timeUp
  | .timeout => s.timeout
  | .alarm => if s.alarm then some (s.closeConn, []) else none

/-- Events one after the other. -/
def Rcv.run (env : Env) (s : Rcv) : List RcvEvent → Option Rcv
  | [] => some s
  | e :: es => (s.step env e).bind fun r => Rcv.run env r.1 es

/-- All runs of the receiver, from any content of the packet memory. -/
def rcvSystem (env : Env) : TransitionSystem Rcv RcvEvent where
  Init s := ∃ memory, s = Rcv.start memory
  Next s e s' := ∃ out, s.step env e = some (s', out)

end PittCs.Ncp
