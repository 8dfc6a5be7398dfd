import PittCs.Lib.RingSlots
import PittCs.Lib.TransitionSystem

/-!
# The real-time server

The loop of `main` in `rt_srv.c` and its handlers. A client connects with an INIT and
starts the stream with a LIVE packet; from then on what the application sends is
numbered, kept in a ring of `WINDOW_SIZE` packets and sent on, and a NACK asks for one
of them again. What the application sends before is received into the ring too.
Statistics and the failures of system calls are left out.
-/

namespace PittCs.Stream

open PittCs.Lib Function List

def maxMessLen : Nat := 1400

/-- Where the payload starts in `struct upkt`. -/
def offsetofPayload : Nat := 28

def windowSize : Nat := 1800

/-- The largest `int`. -/
def intMax : Nat := 2147483647

/-- The name of a host and of a port. -/
structure Addr where
  ip : List UInt8
  port : List UInt8
deriving DecidableEq

/-- The time of a packet. -/
structure Time where
  sec : Int
  usec : Int
deriving DecidableEq

/-- `struct upkt` in `pkt_buf`, where its flags are always false. -/
structure BufPkt where
  ts : Time
  seq : Nat
  payloadSize : Nat
  payload : List UInt8
deriving DecidableEq

namespace BufPkt

/-- Static memory is zero. -/
def zero : BufPkt := ⟨⟨0, 0⟩, 0, 0, List.replicate maxMessLen 0⟩

/-- `memset` of the first `MAX_MESS_LEN` bytes of the packet, which ends before the payload
does. -/
def clear (p : BufPkt) : BufPkt :=
  let cleared := maxMessLen - offsetofPayload
  ⟨⟨0, 0⟩, 0, 0, List.replicate cleared 0 ++ p.payload.drop cleared⟩

/-- Receives the message of the application as the payload. -/
def recvfrom (p : BufPkt) (bytes : List UInt8) : BufPkt :=
  { p with payload := bytes ++ p.payload.drop bytes.length }

/-- The payload that the receiver finds in the packet. -/
def data (p : BufPkt) : List UInt8 := p.payload.take p.payloadSize

end BufPkt

/-- `state` of the server. -/
inductive SrvState where
  | free
  | waiting
  | busy
deriving DecidableEq

/-- What a client sends. -/
structure ClientPkt where
  init : Bool
  live : Bool
  nack : Bool
  seq : Nat
deriving DecidableEq

/-- What the server sends. Data is sent with all of its packet only when it is sent
again. -/
inductive SrvMsg where
  | init (seq : Nat)
  | reject (seq : Nat)
  | live (seq : Nat)
  | data (pkt : BufPkt)
  | resent (pkt : BufPkt)
deriving DecidableEq

/-- The variables of the server; `sent` is a record of the payloads of the stream. -/
structure RtSrv where
  state : SrvState
  seq : Nat
  receiver : Option Addr
  pktBuf : Nat → BufPkt
  firstDataPktRcvd : Bool
  sent : List (List UInt8)

namespace RtSrv

def start : RtSrv where
  state := .free
  seq := 0
  receiver := none
  pktBuf := fun _ => .zero
  firstDataPktRcvd := false
  sent := []

/-- The first data packet of a stream has the number 0. -/
def beginStream (s : RtSrv) : RtSrv :=
  if s.firstDataPktRcvd then s else { s with seq := 0, firstDataPktRcvd := true, sent := [] }

/-- A message of the application. It is put into the ring before the state is looked at;
counting beyond the largest `int` is undefined. -/
def appPacket (s : RtSrv) (message : List UInt8) (now : Time) :
    Option (RtSrv × List (Option Addr × SrvMsg)) :=
  let index := s.seq % windowSize
  let bytes := message.take maxMessLen
  let pkt := (s.pktBuf index).clear.recvfrom bytes
  if s.state = .busy then
    let s := s.beginStream
    let pkt := { pkt with ts := now, seq := s.seq, payloadSize := bytes.length }
    if s.seq < intMax then
      some ({ s with
        pktBuf := Function.update s.pktBuf index pkt
        seq := s.seq + 1
        sent := s.sent ++ [bytes] }, [(s.receiver, .data pkt)])
    else none
  else some ({ s with pktBuf := Function.update s.pktBuf index pkt }, [])

def handleInit (s : RtSrv) (pkt : ClientPkt) (client : Addr) :
    RtSrv × List (Option Addr × SrvMsg) :=
  if s.state = .free then
    ({ s with receiver := some client, state := .waiting }, [(some client, .init pkt.seq)])
  else if s.receiver ≠ some client then (s, [(some client, .reject pkt.seq)])
  else (s, [(some client, .init pkt.seq)])

/-- The address of the receiver is read without a check. -/
def handleLive (s : RtSrv) (pkt : ClientPkt) (client : Addr) :
    Option (RtSrv × List (Option Addr × SrvMsg)) :=
  match s.receiver with
  | none => none
  | some receiver =>
    if receiver ≠ client then some (s, [])
    else some ({ s with state := if s.state = .waiting then .busy else s.state },
      [(some client, .live pkt.seq)])

/-- The packets that a NACK is answered with. -/
def handleNack (s : RtSrv) (seq : Nat) (client : Addr) : List BufPkt :=
  if s.state = .free ∨ s.state = .waiting then []
  else if s.receiver ≠ some client then []
  else if seq > s.seq then []
  else
    let toResend := s.pktBuf (seq % windowSize)
    if toResend.seq ≠ seq then [] else [toResend]

def clientPacket (s : RtSrv) (pkt : ClientPkt) (client : Addr) :
    Option (RtSrv × List (Option Addr × SrvMsg)) :=
  if pkt.init then some (s.handleInit pkt client)
  else if pkt.live then s.handleLive pkt client
  else if pkt.nack then
    some (s, (s.handleNack pkt.seq client).map fun p => (some client, .resent p))
  else some (s, [])

end RtSrv

/-- A message of the application, or a packet of a client. -/
inductive SrvEvent where
  | app (message : List UInt8) (now : Time)
  | client (pkt : ClientPkt) (addr : Addr)

def RtSrv.step (s : RtSrv) : SrvEvent → Option (RtSrv × List (Option Addr × SrvMsg))
  | .app message now => s.appPacket message now
  | .client pkt addr => s.clientPacket pkt addr

/-- All runs of the server. -/
def rtSrvSystem : TransitionSystem RtSrv SrvEvent where
  Init s := s = RtSrv.start
  Next s e s' := ∃ out, s.step e = some (s', out)

/-- What a NACK for number `k` of the client should do: a packet is sent again only if
number `k` was sent, and has its number and payload; the last `WINDOW_SIZE` of them are
sent again. -/
def Retransmits (s : RtSrv) (client : Addr) (k : Nat) : Prop :=
  (∀ p ∈ s.handleNack k client, p.seq = k ∧ s.sent[k]? = some p.data) ∧
    (k < s.sent.length → s.sent.length ≤ k + windowSize → s.handleNack k client ≠ [])

/-- The buffer packet is the one that was sent with number `k`. -/
def BufPkt.Is (sent : List (List UInt8)) (k : Nat) (p : BufPkt) : Prop :=
  p.seq = k ∧ sent[k]? = some p.data

namespace RtSrv

/-- The ring holds the last packets of the stream; a slot that was not used for it has
the number 0. -/
structure Inv (s : RtSrv) : Prop where
  seq : s.seq = s.sent.length
  busy : s.firstDataPktRcvd = true → s.state = .busy
  first : s.firstDataPktRcvd = false → s.sent = []
  ring : RingSlots windowSize (BufPkt.Is s.sent) (fun p => p.seq = 0) s.sent.length s.pktBuf

variable {s s' : RtSrv} {out : List (Option Addr × SrvMsg)} {client : Addr} {k : Nat}

theorem Inv.start : start.Inv where
  seq := rfl
  busy h := absurd h Bool.false_ne_true
  first _ := rfl
  ring := RingSlots.init fun _ => rfl

/-- The payload of a packet that was received whole. -/
theorem data_recvfrom (p : BufPkt) (bytes : List UInt8) (ts : Time) (seq : Nat) :
    BufPkt.data { p.recvfrom bytes with ts := ts, seq := seq, payloadSize := bytes.length } =
      bytes := by
  show (bytes ++ p.payload.drop bytes.length).take bytes.length = bytes
  rw [take_left']
  rfl

theorem Inv.beginStream (h : s.Inv) (hbusy : s.state = .busy) :
    s.beginStream.Inv ∧ s.beginStream.seq = s.seq ∧ s.beginStream.pktBuf = s.pktBuf ∧
      s.beginStream.sent = s.sent ∧ s.beginStream.state = .busy ∧
      s.beginStream.firstDataPktRcvd = true := by
  unfold RtSrv.beginStream
  by_cases hfirst : s.firstDataPktRcvd = true
  · rw [if_pos hfirst]
    exact ⟨h, rfl, rfl, rfl, hbusy, hfirst⟩
  · -- nothing was sent, so nothing changes but the flag
    rw [if_neg hfirst]
    have hsent := h.first (Bool.eq_false_iff.mpr hfirst)
    have hseq : s.seq = 0 := by
      rw [h.seq, hsent]
      rfl
    have hring := h.ring
    rw [hsent] at hring
    exact ⟨⟨rfl, fun _ => hbusy, fun hfalse => absurd hfalse.symm Bool.false_ne_true, hring⟩,
      hseq.symm, rfl, hsent.symm, hbusy, rfl⟩

theorem Inv.appPacket (h : s.Inv) {message : List UInt8} {now : Time}
    (hstep : s.appPacket message now = some (s', out)) : s'.Inv := by
  unfold RtSrv.appPacket at hstep
  dsimp only at hstep
  split at hstep
  case isTrue hbusy =>
    rcases h.beginStream hbusy with ⟨hinv, hseq, hbuf, hsent, hstate, hfirst⟩
    split at hstep
    case isTrue hlt =>
      cases hstep
      have hlen : (s.beginStream.sent ++ [message.take maxMessLen]).length =
          s.beginStream.sent.length + 1 := length_append
      constructor
      case seq =>
        dsimp only
        rw [hlen, hinv.seq]
      case busy => exact fun _ => hstate
      case first => exact fun hfalse => absurd (hfalse.symm.trans hfirst) Bool.false_ne_true
      case ring =>
        dsimp only
        rw [hlen, ← hseq, hinv.seq]
        refine (hinv.ring.mono ?_).push ⟨rfl, ?_⟩
        · rintro k hk p ⟨hpseq, hdata⟩
          exact ⟨hpseq, by rw [List.getElem?_append_left hk, hdata]⟩
        · rw [List.getElem?_concat_length]
          exact congrArg some (data_recvfrom _ _ _ _).symm
    case isFalse => cases hstep
  case isFalse hidle =>
    have hfirst : s.firstDataPktRcvd = false := Bool.eq_false_iff.mpr (mt h.busy hidle)
    have hsent := h.first hfirst
    cases hstep
    refine ⟨h.seq, h.busy, h.first, ?_⟩
    have hring := h.ring
    rw [hsent] at hring
    dsimp only
    rw [hsent]
    -- the slot holds a message now, but its number is 0
    refine ⟨fun k hk => absurd hk (Nat.not_lt_zero k), ?_⟩
    intro i hi hcount
    by_cases hslot : i = s.seq % windowSize
    · rw [hslot, update_self]
      rfl
    · rw [update_of_ne hslot]
      exact hring.blank i hi hcount

theorem Inv.clientPacket (h : s.Inv) {pkt : ClientPkt}
    (hstep : s.clientPacket pkt client = some (s', out)) : s'.Inv := by
  unfold RtSrv.clientPacket at hstep
  split at hstep
  · -- INIT
    injection hstep with hstep
    unfold RtSrv.handleInit at hstep
    split at hstep
    case isTrue hfree =>
      cases hstep
      refine ⟨h.seq, fun hfirst => ?_, h.first, h.ring⟩
      exact absurd ((h.busy hfirst).symm.trans hfree) SrvState.noConfusion
    case isFalse =>
    split at hstep
    · cases hstep
      exact h
    · cases hstep
      exact h
  split at hstep
  · -- LIVE
    unfold RtSrv.handleLive at hstep
    split at hstep
    · cases hstep
    split at hstep
    · cases hstep
      exact h
    · cases hstep
      refine ⟨h.seq, fun hfirst => ?_, h.first, h.ring⟩
      have hbusy := h.busy hfirst
      dsimp only
      rw [hbusy]
      rfl
  split at hstep
  · cases hstep
    exact h
  · cases hstep
    exact h

theorem Inv.of_reachable (h : rtSrvSystem.Reachable s) : s.Inv := by
  refine TransitionSystem.ReachableBy.invariant RtSrv.Inv ?_ ?_ h
  · rintro s rfl
    exact Inv.start
  · rintro s e s' hinv - ⟨out, hstep⟩
    cases e with
    | app message now => exact hinv.appPacket hstep
    | client pkt addr => exact hinv.clientPacket hstep

/-- When a NACK of the connected client is answered. -/
theorem handleNack_eq (hclient : s.receiver = some client) :
    s.handleNack k client =
      if s.state = .busy ∧ k ≤ s.seq ∧ (s.pktBuf (k % windowSize)).seq = k then
        [s.pktBuf (k % windowSize)]
      else [] := by
  unfold handleNack
  by_cases hbusy : s.state = .busy
  · have hstate : ¬ (s.state = .free ∨ s.state = .waiting) := by
      rw [hbusy]
      decide
    rw [if_neg hstate, if_neg (not_not.mpr hclient)]
    dsimp only
    split
    case isTrue hgt => rw [if_neg fun h => absurd h.2.1 (not_le.mpr hgt)]
    case isFalse hle =>
    split
    case isTrue hne => rw [if_neg fun h => hne h.2.2]
    case isFalse heq => rw [if_pos ⟨hbusy, not_lt.mp hle, not_not.mp heq⟩]
  · have hstate : s.state = .free ∨ s.state = .waiting := by
      cases hs : s.state with
      | free => exact Or.inl rfl
      | waiting => exact Or.inr rfl
      | busy => exact absurd hs hbusy
    rw [if_pos hstate, if_neg fun h => hbusy h.1]

/-- What is in the slot of a number is the packet of that number, or the stream has not
begun and it is the number of an empty slot. -/
theorem Inv.slot (h : s.Inv) (hseq : (s.pktBuf (k % windowSize)).seq = k) :
    s.sent[k]? = some (s.pktBuf (k % windowSize)).data ∨ k = 0 ∧ s.sent = [] := by
  have hi : k % windowSize < windowSize := Nat.mod_lt _ (by decide)
  rcases h.ring.slot hi with ⟨hwritten, hnum, hdata⟩ | ⟨hnone, hblank⟩
  · left
    rw [hnum.symm.trans hseq] at hdata
    exact hdata
  · right
    have hk : k = 0 := hseq.symm.trans hblank
    refine ⟨hk, eq_nil_of_length_eq_zero (Nat.eq_zero_of_not_pos ?_)⟩
    intro hpos
    subst hk
    have hle := le_lastWritten windowSize (Int.natCast_pos.mpr hpos)
    exact absurd hnone (not_lt.mpr hle)

end RtSrv

/-- A NACK is answered as it should be, whenever it comes, but for the number 0 before
the first packet of the stream. -/
theorem retransmits_iff {s : RtSrv} {client : Addr} (h : rtSrvSystem.Reachable s)
    (hclient : s.receiver = some client) (k : Nat) :
    Retransmits s client k ↔ (s.state = .busy → s.sent = [] → k ≠ 0) := by
  have hinv := RtSrv.Inv.of_reachable h
  have hlen := hinv.seq
  constructor
  · rintro ⟨hsent, -⟩ hbusy hnil rfl
    -- the slot is empty, which looks like packet 0
    have hblank : (s.pktBuf 0).seq = 0 := by
      refine hinv.ring.blank 0 (by decide) ?_
      rw [hnil]
      exact Nat.zero_le _
    have hanswer : s.handleNack 0 client = [s.pktBuf 0] := by
      rw [RtSrv.handleNack_eq hclient]
      exact if_pos ⟨hbusy, Nat.zero_le _, hblank⟩
    have hdata := (hsent (s.pktBuf 0) (by rw [hanswer]; exact mem_singleton_self _)).2
    rw [hnil] at hdata
    cases hdata
  · intro hcond
    constructor
    · intro p hp
      rw [RtSrv.handleNack_eq hclient] at hp
      split at hp
      case isTrue hfound =>
        rcases hfound with ⟨hbusy, -, hseq⟩
        rw [mem_singleton.mp hp]
        refine ⟨hseq, ?_⟩
        rcases hinv.slot hseq with hdata | ⟨hk, hnil⟩
        · exact hdata
        · exact absurd hk (hcond hbusy hnil)
      case isFalse => cases hp
    · intro hk hnear
      have hfirst : s.firstDataPktRcvd = true := by
        by_contra hfalse
        rw [hinv.first (Bool.eq_false_iff.mpr hfalse)] at hk
        exact absurd hk (Nat.not_lt_zero k)
      have hseq := (hinv.ring.recent k hk hnear).1
      rw [RtSrv.handleNack_eq hclient, if_pos ⟨hinv.busy hfirst, by omega, hseq⟩]
      exact cons_ne_nil _ _

def clientAddr : Addr := ⟨[49], [50]⟩

/-- A client has connected and asked for the stream, and the application has sent a
message before that. -/
def connected : List SrvEvent :=
  [.app [7, 7] ⟨0, 0⟩, .client ⟨true, false, false, 0⟩ clientAddr,
    .client ⟨false, true, false, 0⟩ clientAddr]

/-- The runs of the server that take these events end in a state with the property. -/
theorem exists_reachable (p : RtSrv → Bool) (es : List SrvEvent)
    (h : TransitionSystem.runMeets (fun s e => (s.step e).map Prod.fst) (fun _ _ => true) p es
      RtSrv.start = true) : ∃ s, rtSrvSystem.Reachable s ∧ p s = true := by
  refine TransitionSystem.exists_of_runMeets ?_ (fun _ _ _ => trivial) (.init rfl) h
  intro s e s' hnext
  rcases Option.map_eq_some_iff.mp hnext with ⟨⟨t, out⟩, hstep, rfl⟩
  exact ⟨out, hstep⟩

theorem retransmits_iff_streaming : ∃ s, rtSrvSystem.Reachable s ∧
    s.receiver = some clientAddr ∧ s.sent = [[1, 2]] ∧ Retransmits s clientAddr 0 := by
  have hrun : ∃ s, rtSrvSystem.Reachable s ∧
      decide (s.receiver = some clientAddr ∧ s.sent = [[1, 2]]) = true :=
    exists_reachable (fun s => decide (s.receiver = some clientAddr ∧ s.sent = [[1, 2]]))
      (connected ++ [.app [1, 2] ⟨3, 4⟩]) (by decide)
  rcases hrun with ⟨s, hs, hp⟩
  rcases of_decide_eq_true hp with ⟨hclient, hsent⟩
  refine ⟨s, hs, hclient, hsent, (retransmits_iff hs hclient 0).mpr ?_⟩
  intro _ hnil
  rw [hsent] at hnil
  cases hnil

/-- Before the first packet of the stream the NACK for number 0 is answered with a packet
that was never sent. -/
theorem not_retransmits : ∃ s, rtSrvSystem.Reachable s ∧ s.receiver = some clientAddr ∧
    ¬ Retransmits s clientAddr 0 := by
  have hrun : ∃ s, rtSrvSystem.Reachable s ∧
      decide (s.receiver = some clientAddr ∧ s.sent = [] ∧ s.handleNack 0 clientAddr ≠ []) =
        true :=
    exists_reachable
      (fun s => decide (s.receiver = some clientAddr ∧ s.sent = [] ∧
        s.handleNack 0 clientAddr ≠ [])) connected (by decide)
  rcases hrun with ⟨s, hs, hp⟩
  rcases of_decide_eq_true hp with ⟨hclient, hsent, hanswer⟩
  refine ⟨s, hs, hclient, ?_⟩
  rintro ⟨hdata, -⟩
  rcases exists_mem_of_ne_nil _ hanswer with ⟨p, hmem⟩
  have hsome := (hdata p hmem).2
  rw [hsent] at hsome
  cases hsome

end PittCs.Stream
