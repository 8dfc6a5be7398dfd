import PittCs.Ncp.Isolation
import PittCs.Ncp.Sender

/-!
# The transfer of one file

`ncp` and `rcv` after INIT, with the network between them. Whatever was sent can arrive
at any later time, any number of times, or never, so loss, duplication and reordering of
packets and of messages are choices of the run. The two programs may be started for
different environments.

When `ncp` has left its loop it sends FIN until it is answered, and `rcv` closes the file.
A data packet that comes after FIN opens the file again, which empties it, and is then
discarded as old; `FileKept` is the condition that this does not happen. A run is about one
connection: it ends before the alarm that FIN sets. The packets that answer INIT and FIN
are not given to the loop here, and the file can be opened.
-/

namespace PittCs.Ncp

open PittCs.Lib List

/-- The two ends and everything that was sent so far; `client` is the address of `ncp`. -/
structure System where
  sender : Sender
  client : Client
  receiver : Rcv
  data : List Datagram
  replies : List RcvMsg

/-- A half of an iteration of the sender, a data packet or a FIN that arrives at the
receiver, or a time without packets there. -/
inductive Action where
  | transmit
  | poll (msg : Option RcvMsg) (timeout : Bool)
  | deliver (d : Datagram) (timeUp : Bool)
  | fin
  | quiet
deriving DecidableEq

def Reply.toMsg : Reply → Option RcvMsg
  | .msg m => some m
  | _ => none

namespace System

/-- The receiver begins to serve the connection. -/
def init (file : List UInt8) (s : Rcv) (conn : Conn) : System where
  sender := Sender.init file
  client := conn.client
  receiver := s.reset conn
  data := []
  replies := []

/-- The sender is in a new state after it has sent some packets. -/
def putSender (t : System) (result : Sender × List Datagram) : System :=
  { t with sender := result.1, data := t.data ++ result.2 }

/-- The receiver is in a new state after it has sent some packets. -/
def putReceiver (t : System) (result : Rcv × List (Client × Reply)) : System :=
  { t with receiver := result.1, replies := t.replies ++ result.2.filterMap fun out => out.2.toMsg }

/-- One step; a step that is not possible or not defined gives nothing. FIN is sent again
and again once the loop is left. -/
def next (sendEnv rcvEnv : Env) (t : System) : Action → Option System
  | .transmit =>
    if t.sender.phase = .transmit then (t.sender.transmit sendEnv).map t.putSender else none
  | .poll msg timeout =>
    if t.sender.phase = .poll ∧ ∀ x ∈ msg, x ∈ t.replies then
      (t.sender.poll sendEnv msg timeout).map t.putSender
    else none
  | .deliver d timeUp =>
    if d ∈ t.data then
      (t.receiver.handlePkt rcvEnv t.client ⟨false, false, d⟩ timeUp).map t.putReceiver
    else none
  | .fin =>
    if t.sender.phase = .left then
      (t.receiver.handlePkt rcvEnv t.client finPkt false).map t.putReceiver
    else none
  | .quiet => t.receiver.timeout.map t.putReceiver

end System

/-- All runs that transfer the file, from whatever the receiver did before. The connection
is accepted at once, or it has waited in the queue. -/
def transferSystem (sendEnv rcvEnv : Env) (file : List UInt8) :
    TransitionSystem System Action where
  Init t := ∃ s conn, conn.connState ≠ .closing ∧ t = System.init file s conn
  Next t a t' := t.next sendEnv rcvEnv a = some t'

/-- No data packet arrives when the file was closed with something in it. -/
def FileKept (t : System) : Action → Prop
  | .deliver _ _ => t.receiver.fp = false → t.receiver.transfer.file = []
  | _ => True

instance decidableFileKept (t : System) : (a : Action) → Decidable (FileKept t a)
  | .deliver _ _ => inferInstanceAs (Decidable (_ → _))
  | .transmit => inferInstanceAs (Decidable True)
  | .poll _ _ => inferInstanceAs (Decidable True)
  | .fin => inferInstanceAs (Decidable True)
  | .quiet => inferInstanceAs (Decidable True)

/-- The receiver has written the texts of the packets up to its window, in order and each
once. When the sender has left its loop the file is read to its end, and the packets up to
the window are all that were created. -/
structure Reliable (t : System) : Prop where
  seq : ∀ (k : Nat) (pkt : Upkt), t.sender.created[k]? = some pkt → pkt.seq = k
  low : -1 ≤ t.receiver.transfer.startOfWindow
  high : t.receiver.transfer.startOfWindow + 1 ≤ t.sender.created.length
  file : t.receiver.transfer.file =
    (t.sender.created.take (t.receiver.transfer.startOfWindow + 1).toNat).flatMap Upkt.text
  left : t.sender.phase = .left →
    t.sender.unread = [] ∧ t.receiver.transfer.startOfWindow + 1 = t.sender.created.length ∧
      t.receiver.transfer.file = t.sender.created.flatMap Upkt.text

/-- What holds between the two ends. The sender never knows of more than the
receiver has written, and is never more than a window ahead of it. -/
structure TransferInv (sendEnv : Env) (file : List UInt8) (t : System) : Prop where
  sender : SenderInv sendEnv file t.sender
  receiver : ReceiverInv (fun k => (packetAt file k).text) t.sender.created.length
    t.receiver.transfer.greatestRecvdSeq t.receiver.transfer
  behind : t.sender.startOfWindow ≤ t.receiver.transfer.startOfWindow + 1
  room : (t.sender.created.length : Int) ≤
    t.receiver.transfer.startOfWindow + 1 + sendEnv.windowSize
  data : ∀ d ∈ t.data, Known file t.sender.created.length d
  replies : ∀ msg ∈ t.replies,
    MsgOk t.receiver.transfer.startOfWindow t.sender.created.length msg
  recvd : t.sender.checkGaps = true →
    MsgOk t.receiver.transfer.startOfWindow t.sender.created.length t.sender.recvdMsg
  curr : t.receiver.currClient = some t.client
  allocated : t.receiver.allocated = true
  -- only FIN closes the file, and it is sent after the loop
  closed : t.receiver.fp = false → t.receiver.transfer.file = [] ∨ t.sender.phase = .left

theorem windowSize_le (env : Env) : env.windowSize ≤ maxGaps := by
  cases env <;> decide

namespace TransferInv

variable {sendEnv rcvEnv : Env} {file : List UInt8} {t : System}

theorem init (sendEnv : Env) (file : List UInt8) (s : Rcv) (conn : Conn) :
    TransferInv sendEnv file (System.init file s conn) where
  sender := SenderInv.init sendEnv file
  receiver := ReceiverInv.init s.transfer.pkt
  behind := by
    show (0 : Int) ≤ -1 + 1
    omega
  room := by
    show ((0 : Nat) : Int) ≤ -1 + 1 + sendEnv.windowSize
    omega
  data := fun _ h => absurd h not_mem_nil
  replies := fun _ h => absurd h not_mem_nil
  recvd := fun h => nomatch h
  curr := rfl
  allocated := rfl
  closed := fun _ => Or.inl rfl

/-- The sender has done something that fits the messages of the receiver. -/
theorem putSender (h : TransferInv sendEnv file t) (hphase : t.sender.phase ≠ .left)
    {s' : Sender} {ds : List Datagram} (hinv : SenderInv sendEnv file s')
    (hknown : ∀ d ∈ ds, Known file s'.created.length d)
    (hgrow : t.sender.created.length ≤ s'.created.length)
    (hbehind : s'.startOfWindow ≤ t.receiver.transfer.startOfWindow + 1)
    (hroom : (s'.created.length : Int) ≤
      t.receiver.transfer.startOfWindow + 1 + sendEnv.windowSize)
    (hrecvd : s'.checkGaps = true →
      MsgOk t.receiver.transfer.startOfWindow s'.created.length s'.recvdMsg) :
    TransferInv sendEnv file (t.putSender (s', ds)) where
  sender := hinv
  receiver := by
    have hhigh := h.receiver.high
    refine h.receiver.mono (Int.le_refl _) ?_
    show t.receiver.transfer.greatestRecvdSeq < (s'.created.length : Int)
    omega
  behind := hbehind
  room := hroom
  data := by
    intro d hd
    rcases mem_append.mp hd with hd | hd
    · exact (h.data d hd).mono hgrow
    · exact hknown d hd
  replies := fun msg hmsg => (h.replies msg hmsg).mono (Int.le_refl _) hgrow
  recvd := hrecvd
  curr := h.curr
  allocated := h.allocated
  closed := by
    intro hfp
    rcases h.closed hfp with hfile | hleft
    · exact Or.inl hfile
    · exact absurd hleft hphase

/-- The receiver has moved on. -/
theorem putReceiver (h : TransferInv sendEnv file t) {s' : Rcv} {out : List (Client × Reply)}
    (hinv : ReceiverInv (fun k => (packetAt file k).text) t.sender.created.length
      s'.transfer.greatestRecvdSeq s'.transfer)
    (hstart : t.receiver.transfer.startOfWindow ≤ s'.transfer.startOfWindow)
    (hmsgs : ∀ msg ∈ out.filterMap fun o => o.2.toMsg,
      MsgOk s'.transfer.startOfWindow t.sender.created.length msg)
    (hcurr : s'.currClient = some t.client) (halloc : s'.allocated = true)
    (hclosed : s'.fp = false → s'.transfer.file = [] ∨ t.sender.phase = .left) :
    TransferInv sendEnv file (t.putReceiver (s', out)) where
  sender := h.sender
  receiver := hinv
  behind := by
    have hbehind := h.behind
    show t.sender.startOfWindow ≤ s'.transfer.startOfWindow + 1
    omega
  room := by
    have hroom := h.room
    show (t.sender.created.length : Int) ≤ s'.transfer.startOfWindow + 1 + sendEnv.windowSize
    omega
  data := h.data
  replies := by
    intro msg hmsg
    rcases mem_append.mp hmsg with hmsg | hmsg
    · exact (h.replies msg hmsg).mono hstart (Nat.le_refl _)
    · exact hmsgs msg hmsg
  recvd := fun hcheck => (h.recvd hcheck).mono hstart (Nat.le_refl _)
  curr := hcurr
  allocated := halloc
  closed := hclosed

theorem maxRoom (h : TransferInv sendEnv file t) :
    (t.sender.created.length : Int) ≤ t.receiver.transfer.startOfWindow + 1 + maxGaps := by
  have hroom := h.room
  have hle := windowSize_le sendEnv
  omega

/-- No read of the sender is undefined. -/
theorem transmit (h : TransferInv sendEnv file t) (hphase : t.sender.phase = .transmit) :
    ∃ s' ds, t.sender.transmit sendEnv = some (s', ds) ∧
      TransferInv sendEnv file (t.putSender (s', ds)) := by
  have hne : t.sender.phase ≠ .left := by
    rw [hphase]
    decide
  rcases h.sender.transmit h.recvd with
    ⟨s', ds, heq, hinv, hknown, hgrow, hroom, hstart, hcheck⟩
  refine ⟨s', ds, heq, h.putSender hne hinv hknown hgrow ?_ ?_ ?_⟩
  · rw [hstart]
    exact h.behind
  · have hbehind := h.behind
    have hold := h.room
    rcases hroom with hsame | hnew
    · omega
    · omega
  · intro htrue
    rw [hcheck] at htrue
    cases htrue

theorem poll (h : TransferInv sendEnv file t) (hphase : t.sender.phase = .poll)
    {msg : Option RcvMsg} (hmsg : ∀ x ∈ msg, x ∈ t.replies) (timeout : Bool) :
    ∃ s' ds, t.sender.poll sendEnv msg timeout = some (s', ds) ∧
      TransferInv sendEnv file (t.putSender (s', ds)) := by
  have hne : t.sender.phase ≠ .left := by
    rw [hphase]
    decide
  have hok : ∀ x ∈ msg, MsgOk t.receiver.transfer.startOfWindow t.sender.created.length x :=
    fun x hx => h.replies x (hmsg x hx)
  rcases h.sender.poll hphase hok h.recvd timeout with
    ⟨s', ds, heq, hinv, hknown, hcreated, hstart, hrecvd⟩
  have hbehind := h.behind
  rw [← hcreated] at hknown hrecvd
  refine ⟨s', ds, heq, h.putSender hne hinv hknown ?_ ?_ ?_ hrecvd⟩
  · rw [hcreated]
  · rcases hstart with hsame | hle
    · omega
    · exact hle
  · rw [hcreated]
    exact h.room

/-- Of a packet that arrives, the text and its length are those of a packet of the file. -/
theorem received (h : TransferInv sendEnv file t) {d : Datagram} (hd : d ∈ t.data)
    (memory : Upkt) : ∃ k < t.sender.created.length,
      (memory.recvfrom d).seq = k ∧ (memory.recvfrom d).text = (packetAt file k).text ∧
      (memory.recvfrom d).payloadLen = (memory.recvfrom d).text.length := by
  rcases h.data d hd with ⟨k, hk, rfl⟩
  have hfilled := filled_packetAt file k
  have htext := hfilled.recvfrom memory
  exact ⟨k, hk, rfl, htext, htext ▸ hfilled.payloadLen⟩

/-- A data packet is handled with the file open, whether it was or not. -/
theorem handlePkt (h : TransferInv sendEnv file t) (d : Datagram) (timeUp : Bool) :
    ∃ s' out, t.receiver.handlePkt rcvEnv t.client ⟨false, false, d⟩ timeUp = some (s', out) ∧
      s'.currClient = some t.client ∧ s'.allocated = true ∧ s'.fp = true ∧
      ∃ r : Receiver, r = { t.receiver.transfer.receive d with
          file := if t.receiver.fp then t.receiver.transfer.file else [] } ∧
        (r.takePkt r.pkt).1.finish rcvEnv r.pkt.seq timeUp (r.takePkt r.pkt).2 =
          (s'.transfer, out.filterMap fun o => o.2.toMsg) := by
  let s : Rcv := { t.receiver with transfer := t.receiver.transfer.receive d }
  have hcurr : s.currClient = some t.client := h.curr
  rcases Rcv.handleDataPkt_of_curr rcvEnv t.client hcurr h.allocated timeUp with
    ⟨s', out, hstep, hcurr', halloc', hfp', htransfer, hout⟩
  refine ⟨s', out, hstep, hcurr', halloc', hfp', s.opened, ?_, ?_⟩
  · unfold Rcv.opened
    split <;> rfl
  · have hpkt : s.opened.pkt = s.transfer.pkt := by
      unfold Rcv.opened
      split <;> rfl
    rw [htransfer, hout, hpkt, filterMap_map]
    refine Prod.ext rfl ?_
    exact filterMap_some.symm

/-- When the loop was left, every packet that was created is old. -/
theorem window_of_left (h : TransferInv sendEnv file t) (hleft : t.sender.phase = .left) :
    t.receiver.transfer.startOfWindow + 1 = t.sender.created.length := by
  have hcount := h.sender.inFlight
  have hbehind := h.behind
  have horder := h.receiver.order
  have hhigh := h.receiver.high
  have hgone := (h.sender.gone hleft).2
  omega

/-- The file that was closed with something in it is emptied, and nothing is written. -/
theorem deliver_closed (h : TransferInv sendEnv file t) {d : Datagram} (hd : d ∈ t.data)
    {timeUp : Bool} (hfp : t.receiver.fp = false) (hfile : t.receiver.transfer.file ≠ [])
    {s' : Rcv} {out : List (Client × Reply)}
    (hstep : t.receiver.handlePkt rcvEnv t.client ⟨false, false, d⟩ timeUp = some (s', out)) :
    s'.transfer.file = [] ∧ s'.transfer.startOfWindow = t.receiver.transfer.startOfWindow := by
  rcases h.handlePkt d timeUp with ⟨s₁, out₁, hstep₁, -, -, -, r, hr, hres⟩
  rw [hstep] at hstep₁
  cases hstep₁
  rw [hfp] at hr
  -- FIN has closed the file, so the loop was left
  have hleft := (h.closed hfp).resolve_left hfile
  have hwindow := h.window_of_left hleft
  rcases h.received hd t.receiver.transfer.pkt with ⟨k, hk, hseq, -, -⟩
  have hold : r.pkt.seq ≤ r.startOfWindow := by
    rw [hr]
    show (t.receiver.transfer.pkt.recvfrom d).seq ≤ t.receiver.transfer.startOfWindow
    omega
  unfold Receiver.takePkt at hres
  rw [if_pos hold] at hres
  have hsame := Receiver.Same.finish_self rcvEnv r r.pkt.seq timeUp []
  rw [hres] at hsame
  exact ⟨hsame.file.trans (by rw [hr]; rfl), hsame.startOfWindow.trans (by rw [hr]; rfl)⟩

variable (rcvEnv) in
theorem deliver (h : TransferInv sendEnv file t) {d : Datagram} (hd : d ∈ t.data)
    {timeUp : Bool} (hkept : FileKept t (.deliver d timeUp)) :
    ∃ s' out, t.receiver.handlePkt rcvEnv t.client ⟨false, false, d⟩ timeUp = some (s', out) ∧
      TransferInv sendEnv file (t.putReceiver (s', out)) := by
  rcases h.handlePkt d timeUp with ⟨s', out, hstep, hcurr, halloc, hfp, r, hr, hres⟩
  have hfile : (if t.receiver.fp then t.receiver.transfer.file else []) =
      t.receiver.transfer.file := by
    cases hopen : t.receiver.fp with
    | true => rfl
    | false => exact (hkept hopen).symm
  rw [hfile] at hr
  rcases h.received hd t.receiver.transfer.pkt with ⟨k, hk, hseq, htext, hlen⟩
  have hinv : ReceiverInv (fun k => (packetAt file k).text) t.sender.created.length
      r.greatestRecvdSeq r := by
    rw [hr]
    exact { h.receiver with }
  subst hr
  rcases hinv.takePkt_finish hseq htext hlen hk h.maxRoom rcvEnv timeUp hres with
    ⟨hend, hstart, hmsgs⟩
  refine ⟨s', out, hstep, h.putReceiver hend hstart hmsgs hcurr halloc ?_⟩
  intro hclosed
  rw [hfp] at hclosed
  cases hclosed

variable (rcvEnv) in
/-- FIN changes nothing of the transfer but that the file is closed. -/
theorem fin (h : TransferInv sendEnv file t) (hleft : t.sender.phase = .left) :
    ∃ s' out, t.receiver.handlePkt rcvEnv t.client finPkt false = some (s', out) ∧
      TransferInv sendEnv file (t.putReceiver (s', out)) := by
  rcases Option.map_eq_some_iff.mp h.curr with ⟨curr, hcurr, hclient⟩
  refine ⟨{ t.receiver with
      transfer := t.receiver.transfer.receive finPkt.body
      fp := false
      currConn := some { curr with connState := .closing }
      alarm := true }, [(t.client, .fin)], ?_, ?_⟩
  · unfold Rcv.handlePkt
    rw [if_neg (by decide), if_pos (by decide)]
    unfold Rcv.handleFinPkt
    dsimp only
    rw [hcurr]
    dsimp only
    rw [if_pos hclient]
  · refine h.putReceiver { h.receiver with } (Int.le_refl _) ?_ ?_ h.allocated fun _ => Or.inr hleft
    · exact fun _ hmsg => absurd hmsg not_mem_nil
    · exact congrArg some hclient

/-- The receiver replies when the connection is active, and only then. -/
theorem quiet (h : TransferInv sendEnv file t) :
    ∃ s' out, t.receiver.timeout = some (s', out) ∧
      TransferInv sendEnv file (t.putReceiver (s', out)) := by
  have hsame : ∀ out : List (Client × Reply), (out.filterMap fun o => o.2.toMsg) = [] →
      TransferInv sendEnv file (t.putReceiver (t.receiver, out)) := by
    intro out hout
    refine h.putReceiver h.receiver (Int.le_refl _) ?_ h.curr h.allocated h.closed
    rw [hout]
    exact fun _ hmsg => absurd hmsg not_mem_nil
  rcases Option.map_eq_some_iff.mp h.curr with ⟨curr, hcurr, hclient⟩
  unfold Rcv.timeout
  rw [hcurr]
  dsimp only
  cases curr.connState with
  | sleeping => exact ⟨_, _, rfl, hsame _ rfl⟩
  | active =>
    dsimp only
    rw [if_pos h.allocated]
    refine ⟨_, _, rfl, h.putReceiver { h.receiver with } (Int.le_refl _) ?_
      (congrArg some hclient) h.allocated h.closed⟩
    intro msg hmsg
    rw [mem_singleton.mp hmsg]
    exact h.receiver.prepareMessage h.maxRoom
  | closing => exact ⟨_, _, rfl, hsame _ rfl⟩

theorem next (h : TransferInv sendEnv file t) {a : Action} (hkept : FileKept t a) {t' : System}
    (hnext : t.next sendEnv rcvEnv a = some t') : TransferInv sendEnv file t' := by
  cases a with
  | transmit =>
    simp only [System.next] at hnext
    split at hnext
    · rename_i hphase
      rcases h.transmit hphase with ⟨s', ds, heq, hinv⟩
      rw [heq] at hnext
      injection hnext with hnext
      rw [← hnext]
      exact hinv
    · cases hnext
  | poll msg timeout =>
    simp only [System.next] at hnext
    split at hnext
    · rename_i hcond
      rcases h.poll hcond.1 hcond.2 timeout with ⟨s', ds, heq, hinv⟩
      rw [heq] at hnext
      injection hnext with hnext
      rw [← hnext]
      exact hinv
    · cases hnext
  | deliver d timeUp =>
    simp only [System.next] at hnext
    split at hnext
    · rename_i hd
      rcases h.deliver rcvEnv hd hkept with ⟨s', out, heq, hinv⟩
      rw [heq] at hnext
      injection hnext with hnext
      rw [← hnext]
      exact hinv
    · cases hnext
  | fin =>
    simp only [System.next] at hnext
    split at hnext
    · rename_i hleft
      rcases h.fin rcvEnv hleft with ⟨s', out, heq, hinv⟩
      rw [heq] at hnext
      injection hnext with hnext
      rw [← hnext]
      exact hinv
    · cases hnext
  | quiet =>
    rcases h.quiet with ⟨s', out, heq, hinv⟩
    simp only [System.next] at hnext
    rw [heq] at hnext
    injection hnext with hnext
    rw [← hnext]
    exact hinv

theorem of_reachableBy (h : (transferSystem sendEnv rcvEnv file).ReachableBy FileKept t) :
    TransferInv sendEnv file t := by
  refine TransitionSystem.ReachableBy.invariant (TransferInv sendEnv file) ?_ ?_ h
  · rintro t ⟨s, conn, -, rfl⟩
    exact TransferInv.init sendEnv file s conn
  · intro t a t' hinv hkept hnext
    exact hinv.next hkept hnext

theorem reliable (h : TransferInv sendEnv file t) : Reliable t := by
  have hlow := h.receiver.low
  have horder := h.receiver.order
  have hhigh := h.receiver.high
  have hwritten : t.receiver.transfer.file =
      (t.sender.created.take (t.receiver.transfer.startOfWindow + 1).toNat).flatMap Upkt.text := by
    have htake : (List.range t.sender.created.length).take
        (t.receiver.transfer.startOfWindow + 1).toNat =
        List.range (t.receiver.transfer.startOfWindow + 1).toNat := by
      rw [take_range, Nat.min_eq_left (by omega)]
    rw [h.sender.created, ← map_take, htake, flatMap_map]
    exact h.receiver.file
  refine ⟨?_, hlow, by omega, hwritten, ?_⟩
  · intro k pkt hk
    rw [h.sender.created, List.getElem?_map] at hk
    rcases Option.map_eq_some_iff.mp hk with ⟨j, hj, rfl⟩
    rcases List.getElem?_eq_some_iff.mp hj with ⟨_, hval⟩
    rw [List.getElem_range] at hval
    rw [← hval]
    rfl
  · intro hleft
    have hall := h.window_of_left hleft
    refine ⟨?_, hall, ?_⟩
    · rw [h.sender.unread]
      exact drop_eq_nil_of_le (Nat.le_of_lt (h.sender.eof.mp (h.sender.gone hleft).1))
    · have htoNat : (t.receiver.transfer.startOfWindow + 1).toNat = t.sender.created.length := by
        omega
      rw [hwritten, htoNat, take_length]

/-- A step keeps what was written exactly when it does not open the file a second time. -/
theorem reliable_next_iff (h : TransferInv sendEnv file t) {a : Action} {t' : System}
    (hnext : t.next sendEnv rcvEnv a = some t') : Reliable t' ↔ FileKept t a := by
  refine ⟨fun hrel => ?_, fun hkept => (h.next hkept hnext).reliable⟩
  by_contra hlost
  cases a with
  | deliver d timeUp =>
    rcases Classical.not_imp.mp hlost with ⟨hfp, hfile⟩
    simp only [System.next] at hnext
    split at hnext
    · rename_i hd
      rcases Option.map_eq_some_iff.mp hnext with ⟨⟨s', out⟩, hstep, rfl⟩
      rcases h.deliver_closed hd hfp hfile hstep with ⟨hempty, hstart⟩
      -- the window says that there is something in the file
      have hafter : s'.transfer.file = _ := hrel.file
      have hbefore := h.reliable.file
      rw [hempty] at hafter
      change [] = (t.sender.created.take (s'.transfer.startOfWindow + 1).toNat).flatMap Upkt.text
        at hafter
      rw [hstart, ← hbefore] at hafter
      exact hfile hafter.symm
    · cases hnext
  | transmit => exact hlost trivial
  | poll msg timeout => exact hlost trivial
  | fin => exact hlost trivial
  | quiet => exact hlost trivial

end TransferInv

section Runs

variable {sendEnv rcvEnv : Env} {file : List UInt8} {t : System}

/-- What is written is right in every run that keeps the file, and the first step that
does not keep it makes it wrong. -/
theorem reliable_transfer (h : (transferSystem sendEnv rcvEnv file).ReachableBy FileKept t) :
    Reliable t ∧
      ∀ a t', t.next sendEnv rcvEnv a = some t' → (Reliable t' ↔ FileKept t a) :=
  ⟨(TransferInv.of_reachableBy h).reliable,
    fun _ _ hnext => (TransferInv.of_reachableBy h).reliable_next_iff hnext⟩

end Runs

/-- One full chunk, so that a second packet without text follows. -/
def fullChunk : List UInt8 := List.replicate chunkLen 65

def connA : Conn := ⟨.active, clientA, [97]⟩

/-- The first packet of the file, as it is sent. -/
def firstPkt : Datagram := ⟨0, chunkLen, fullChunk ++ [0]⟩

/-- The second packet arrives first, and again; the first one is lost, reported
missing and sent again. Then FIN arrives twice. -/
def reorderedRun : List Action :=
  [.transmit, .poll none false, .transmit, .deliver ⟨1, 0, [0, 0, 0]⟩ false,
    .poll (some ⟨0, 1, [⟨0, 1⟩]⟩) false, .transmit, .deliver ⟨1, 0, [0, 0, 0]⟩ false,
    .deliver firstPkt true, .poll (some ⟨2, 0, []⟩) false, .fin, .quiet, .fin]

theorem runMeets_transfer {run : List Action} {p : System → Bool} {file : List UInt8}
    (h : TransitionSystem.runMeets (System.next .wan .lan) (fun t a => decide (FileKept t a)) p run
      (System.init file (Rcv.start ⟨0, 0, []⟩) connA) = true) :
    ∃ t, (transferSystem .wan .lan file).ReachableBy FileKept t ∧ p t = true :=
  TransitionSystem.exists_of_runMeets (fun _ _ _ hnext => hnext)
    (fun _ _ hkept => of_decide_eq_true hkept) (.init ⟨_, _, by decide, rfl⟩) h

theorem reliable_transfer_reorderedRun :
    ∃ t, (transferSystem .wan .lan fullChunk).ReachableBy FileKept t ∧ t.sender.phase = .left ∧
      t.receiver.fp = false ∧ t.sender.created.length = 2 ∧ Reliable t ∧
      t.receiver.transfer.startOfWindow = 1 := by
  have hrun : TransitionSystem.runMeets (System.next .wan .lan) (fun t a => decide (FileKept t a))
      (fun t => decide (t.sender.phase = .left ∧ t.receiver.fp = false ∧
        t.sender.created.length = 2)) reorderedRun
      (System.init fullChunk (Rcv.start ⟨0, 0, []⟩) connA) = true := by
    decide +kernel
  rcases runMeets_transfer hrun with ⟨t, ht, hp⟩
  rcases of_decide_eq_true hp with ⟨hleft, hfp, hlen⟩
  have hrel := (reliable_transfer ht).1
  have hwindow := (hrel.left hleft).2.1
  exact ⟨t, ht, hleft, hfp, hlen, hrel, by omega⟩

/-- A late copy of the only packet comes after FIN: the file is empty at the end. -/
theorem not_reliable_transfer :
    ∃ t, (transferSystem .wan .lan [65]).Reachable t ∧ t.sender.phase = .left ∧
      t.receiver.transfer.startOfWindow = 0 ∧ t.sender.created.flatMap Upkt.text = [65] ∧
      t.receiver.transfer.file = [] ∧ ¬ Reliable t := by
  have hrun : TransitionSystem.runMeets (System.next .wan .lan) (fun _ _ => true)
      (fun t => decide (t.sender.phase = .left ∧ t.receiver.transfer.startOfWindow = 0 ∧
        t.sender.created.flatMap Upkt.text = [65] ∧ t.receiver.transfer.file = []))
      [.transmit, .deliver ⟨0, 1, [65, 0, 0, 0]⟩ true, .poll (some ⟨1, 0, []⟩) false, .fin,
        .deliver ⟨0, 1, [65, 0, 0, 0]⟩ false]
      (System.init [65] (Rcv.start ⟨0, 0, []⟩) connA) = true := by
    decide +kernel
  have hinit : (transferSystem .wan .lan [65]).Reachable
      (System.init [65] (Rcv.start ⟨0, 0, []⟩) connA) := .init ⟨_, _, by decide, rfl⟩
  rcases TransitionSystem.exists_of_runMeets (fun _ _ _ hnext => hnext) (fun _ _ _ => trivial)
    hinit hrun with ⟨t, ht, hp⟩
  rcases of_decide_eq_true hp with ⟨hleft, hstart, htext, hfile⟩
  refine ⟨t, ht, hleft, hstart, htext, hfile, fun hrel => ?_⟩
  have hall := (hrel.left hleft).2.2
  rw [htext, hfile] at hall
  cases hall

end PittCs.Ncp
