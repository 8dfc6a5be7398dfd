import PittCs.Ncp.Connections

/-!
# Isolation of connections

The state of a file transfer is a function of the packets of its own client, in
every run without packets of other clients that reach it. Data packets are not
checked for their sender at all and a FIN closes the file before its sender is
looked at, so only such packets of other clients are harmless that find nothing to
do.
-/

namespace PittCs.Ncp

open PittCs.Lib List Option

/-- The state of the file transfer: the bytes in the file, the window, the gaps, the
buffer, and whether the file is open. -/
structure View where
  file : List UInt8
  startOfWindow : Int
  list : GapList
  buf : RcvBuffer
  fp : Bool

def Rcv.view (s : Rcv) : View :=
  ⟨s.transfer.file, s.transfer.startOfWindow, s.transfer.list, s.transfer.buf, s.fp⟩

/-- A packet of the current client has the terminator of its payload with it, as
every packet of `ncp` has. A packet of another client is an INIT, a FIN when the
file is not open, or data of the past when the file is open. -/
def HarmlessPkt (s : Rcv) (curr client : Client) (pkt : Packet) : Prop :=
  if curr = client then pkt.init = true ∨ pkt.fin = true ∨ 0 ∈ pkt.body.bytes
  else pkt.init = true ∨
    if pkt.fin then s.fp = false else s.fp = true ∧ pkt.body.seq ≤ s.transfer.startOfWindow

def Harmless (s : Rcv) : RcvEvent → Prop
  | .packet client pkt _ => ∀ curr ∈ s.currConn, HarmlessPkt s curr.client client pkt
  | .timeout => True
  | .alarm => True

/-- Every event of the run is harmless where it happens. -/
def HarmlessRun (env : Env) (s : Rcv) : List RcvEvent → Prop
  | [] => True
  | e :: es => Harmless s e ∧ ∀ r ∈ s.step env e, HarmlessRun env r.1 es

instance (s : Rcv) (curr client : Client) (pkt : Packet) :
    Decidable (HarmlessPkt s curr client pkt) := by
  unfold HarmlessPkt
  infer_instance

instance (s : Rcv) : (e : RcvEvent) → Decidable (Harmless s e)
  | .packet client pkt _ =>
    inferInstanceAs (Decidable (∀ curr ∈ s.currConn, HarmlessPkt s curr.client client pkt))
  | .timeout => inferInstanceAs (Decidable True)
  | .alarm => inferInstanceAs (Decidable True)

instance decidableHarmlessRun (env : Env) : (s : Rcv) → (es : List RcvEvent) →
    Decidable (HarmlessRun env s es)
  | _, [] => inferInstanceAs (Decidable True)
  | s, e :: es =>
    have : ∀ r, Decidable (HarmlessRun env r es) := fun r => decidableHarmlessRun env r es
    inferInstanceAs (Decidable (Harmless s e ∧ ∀ r ∈ s.step env e, HarmlessRun env r.1 es))

/-- The event is not a packet of another client. -/
def RcvEvent.own (c : Client) : RcvEvent → Bool
  | .packet client _ _ => client = c
  | .timeout => true
  | .alarm => true

/-! ## Receivers that differ in nothing but the packet memory -/

/-- The same transfer, up to the packet memory and the count of packets since the
last message. -/
structure Receiver.Same (r r' : Receiver) : Prop where
  file : r'.file = r.file
  startOfWindow : r'.startOfWindow = r.startOfWindow
  greatestRecvdSeq : r'.greatestRecvdSeq = r.greatestRecvdSeq
  list : r'.list = r.list
  buf : r'.buf = r.buf

/-- The same packet, up to what is behind its text. -/
structure Upkt.Same (p p' : Upkt) : Prop where
  seq : p'.seq = p.seq
  payloadLen : p'.payloadLen = p.payloadLen
  text : p'.text = p.text

namespace Receiver.Same

variable {r r' : Receiver} {p p' : Upkt}

theorem refl (r : Receiver) : r.Same r := ⟨rfl, rfl, rfl, rfl, rfl⟩

theorem symm (h : r.Same r') : r'.Same r :=
  ⟨h.file.symm, h.startOfWindow.symm, h.greatestRecvdSeq.symm, h.list.symm, h.buf.symm⟩

theorem trans {r'' : Receiver} (h : r.Same r') (h' : r'.Same r'') : r.Same r'' :=
  ⟨h'.file.trans h.file, h'.startOfWindow.trans h.startOfWindow,
    h'.greatestRecvdSeq.trans h.greatestRecvdSeq, h'.list.trans h.list, h'.buf.trans h.buf⟩

theorem put (h : r.Same r') (seq : Int) (text : List UInt8) :
    (r.put seq text).Same (r'.put seq text) where
  file := congrArg (· ++ text) h.file
  startOfWindow := rfl
  greatestRecvdSeq := h.greatestRecvdSeq
  list := h.list
  buf := h.buf

theorem drain (nodes : List BufferNode) (h : r.Same r') :
    (Receiver.drain nodes r).Same (Receiver.drain nodes r') := by
  induction nodes generalizing r r' with
  | nil => exact h
  | cons head rest ih =>
    unfold Receiver.drain
    rw [h.startOfWindow]
    split
    · refine ih ?_
      exact { h.put head.seq head.text with buf := congrArg RcvBuffer.freeHead h.buf }
    · exact h

theorem writePkt (h : r.Same r') (hp : p.Same p') : (r.writePkt p).Same (r'.writePkt p') := by
  have hput := h.put p.seq p.text
  have hlist : (r'.list.splitGap p.seq).2 = (r.list.splitGap p.seq).2 := by
    rw [h.list]
  unfold Receiver.writePkt
  rw [hp.seq, hp.text]
  dsimp only
  have hnodes : (r'.put p.seq p.text).buf.nodes = (r.put p.seq p.text).buf.nodes :=
    congrArg RcvBuffer.nodes hput.buf
  rw [hnodes]
  exact drain _ { hput with list := hlist }

theorem bufferInsert (h : r.Same r') (hp : p.Same p') :
    r'.buf.bufferInsert p' = r.buf.bufferInsert p := by
  have hcopy : strncpyPayload p'.payload p'.payloadLen = strncpyPayload p.payload p.payloadLen := by
    have htext : cstr p'.payload = cstr p.payload := hp.text
    unfold strncpyPayload
    rw [htext, hp.payloadLen]
  unfold RcvBuffer.bufferInsert
  rw [h.buf, hcopy, hp.seq, hp.payloadLen]

theorem savePkt (h : r.Same r') (hp : p.Same p') :
    (r.savePkt p).1.Same (r'.savePkt p').1 := by
  unfold Receiver.savePkt
  rw [h.bufferInsert hp, hp.seq, h.list, h.greatestRecvdSeq]
  dsimp only
  split
  · exact ⟨h.file, h.startOfWindow, rfl, rfl, rfl⟩
  · exact ⟨h.file, h.startOfWindow, rfl, rfl, rfl⟩

theorem takePkt (h : r.Same r') (hp : p.Same p') :
    (r.takePkt p).1.Same (r'.takePkt p').1 := by
  unfold Receiver.takePkt
  rw [hp.seq, h.startOfWindow]
  split
  · exact h
  split
  · exact h.writePkt hp
  · exact h.savePkt hp

/-- What `finish` does to the transfer. -/
theorem finish_self (env : Env) (r : Receiver) (seq : Int) (timeUp : Bool) (msgs : List RcvMsg) :
    ({ r with
      greatestRecvdSeq := if seq > r.greatestRecvdSeq then seq else r.greatestRecvdSeq }).Same
      (r.finish env seq timeUp msgs).1 := by
  unfold Receiver.finish
  dsimp only
  by_cases hdue : r.writtenSinceLastMessage ≥ env.windowSize / 2 ∨ timeUp
  · rw [if_pos hdue]
    exact ⟨rfl, rfl, rfl, rfl, rfl⟩
  · rw [if_neg hdue]
    exact ⟨rfl, rfl, rfl, rfl, rfl⟩

theorem finish (h : r.Same r') (env : Env) (seq : Int) (timeUp : Bool) (msgs msgs' : List RcvMsg) :
    (r.finish env seq timeUp msgs).1.Same (r'.finish env seq timeUp msgs').1 := by
  refine (finish_self env r seq timeUp msgs).symm.trans (.trans ?_ (finish_self ..))
  exact { h with greatestRecvdSeq := by dsimp only; rw [h.greatestRecvdSeq] }

end Receiver.Same

/-! ## The window is not ahead of the greatest number -/

/-- Neither the window nor the buffer is ahead of `greatest`. -/
structure Receiver.Bounded (r : Receiver) (greatest : Int) : Prop where
  startOfWindow : r.startOfWindow ≤ greatest
  buf : ∀ node ∈ r.buf.nodes, node.seq ≤ greatest

namespace Receiver.Bounded

variable {r : Receiver} {p : Upkt} {greatest : Int}

theorem drain {nodes : List BufferNode} (h : r.Bounded greatest) (hnodes : r.buf.nodes = nodes) :
    (Receiver.drain nodes r).Bounded greatest ∧
      (Receiver.drain nodes r).greatestRecvdSeq = r.greatestRecvdSeq := by
  induction nodes generalizing r with
  | nil => exact ⟨h, rfl⟩
  | cons head rest ih =>
    unfold Receiver.drain
    split
    · have hrest : r.buf.freeHead.nodes = rest := by
        unfold RcvBuffer.freeHead
        rw [hnodes]
      refine ih ⟨?_, ?_⟩ hrest
      · exact h.buf head (by rw [hnodes]; exact mem_cons_self)
      · intro node hnode
        dsimp only at hnode
        rw [hrest] at hnode
        exact h.buf node (by rw [hnodes]; exact mem_cons_of_mem _ hnode)
    · exact ⟨h, rfl⟩

theorem takePkt (h : r.Bounded greatest) (hp : p.seq ≤ greatest) :
    (r.takePkt p).1.Bounded greatest ∧
      (r.takePkt p).1.greatestRecvdSeq = r.greatestRecvdSeq := by
  unfold Receiver.takePkt
  split
  · exact ⟨h, rfl⟩
  split
  · unfold Receiver.writePkt
    exact drain ⟨hp, h.buf⟩ rfl
  · -- the packet is in the buffer now
    have hbuf : ∀ node ∈ (r.buf.bufferInsert p).2.nodes, node.seq ≤ greatest := by
      intro node hnode
      unfold RcvBuffer.bufferInsert at hnode
      dsimp only at hnode
      split at hnode
      · exact h.buf node hnode
      · rename_i nodes hins
        rcases mem_insertNode hins hnode with rfl | hmem
        · exact hp
        · exact h.buf node hmem
    unfold Receiver.savePkt
    dsimp only
    split
    · exact ⟨⟨h.startOfWindow, hbuf⟩, rfl⟩
    · exact ⟨⟨h.startOfWindow, hbuf⟩, rfl⟩

/-- A packet keeps the window and the buffer behind the greatest number. -/
theorem handle (h : r.Bounded r.greatestRecvdSeq) (env : Env) (timeUp : Bool) (msgs : List RcvMsg) :
    ((r.takePkt p).1.finish env p.seq timeUp msgs).1.Bounded
      ((r.takePkt p).1.finish env p.seq timeUp msgs).1.greatestRecvdSeq := by
  have hsame := Receiver.Same.finish_self env (r.takePkt p).1 p.seq timeUp msgs
  have hle : r.Bounded (if p.seq > r.greatestRecvdSeq then p.seq else r.greatestRecvdSeq) := by
    refine ⟨?_, fun node hnode => ?_⟩
    · have := h.startOfWindow
      split <;> omega
    · have := h.buf node hnode
      split <;> omega
  rcases hle.takePkt (p := p) (by split <;> omega) with ⟨htake, hgreatest⟩
  rw [hsame.greatestRecvdSeq]
  dsimp only
  rw [hgreatest]
  exact ⟨hsame.startOfWindow ▸ htake.startOfWindow, hsame.buf ▸ htake.buf⟩

end Receiver.Bounded

/-! ## Reachable states -/

/-- The current connection has a gap list and a buffer. -/
structure Rcv.Inv (s : Rcv) : Prop where
  allocated : s.currConn.isSome → s.allocated = true
  bounded : s.transfer.Bounded s.transfer.greatestRecvdSeq

theorem Receiver.bounded_init (memory : Upkt) :
    (Receiver.init memory).Bounded (Receiver.init memory).greatestRecvdSeq :=
  ⟨Int.le_refl _, fun _ h => absurd h not_mem_nil⟩

namespace Rcv

variable {env : Env} {s s' t : Rcv} {out : List (Client × Reply)} {client : Client}

theorem Inv.reset (s : Rcv) (conn : Conn) : (s.reset conn).Inv :=
  ⟨fun _ => rfl, Receiver.bounded_init _⟩

theorem Inv.receive (h : s.Inv) (d : Datagram) :
    Rcv.Inv { s with transfer := s.transfer.receive d } :=
  ⟨h.allocated, h.bounded.startOfWindow, h.bounded.buf⟩

theorem Inv.handleInitPkt (h : s.Inv) (hstep : s.handleInitPkt client = some (t, out)) : t.Inv := by
  unfold Rcv.handleInitPkt at hstep
  split at hstep
  · rcases map_eq_some_iff.mp hstep with ⟨conn, -, heq⟩
    cases heq
    exact Inv.reset s conn
  split at hstep
  · cases hstep
    exact h
  split at hstep
  · cases hstep
    exact h
  · rcases map_eq_some_iff.mp hstep with ⟨conn, -, heq⟩
    cases heq
    exact ⟨h.allocated, h.bounded⟩

theorem Inv.handleFinPkt (h : s.Inv) : (s.handleFinPkt client).1.Inv := by
  unfold Rcv.handleFinPkt
  cases hc : s.currConn with
  | none =>
    exact ⟨fun hsome => (nomatch hsome), h.bounded⟩
  | some curr =>
    have halloc := h.allocated (by rw [hc]; rfl)
    dsimp only
    split
    · exact ⟨fun _ => halloc, h.bounded⟩
    · exact ⟨fun _ => halloc, h.bounded⟩

theorem currConn_openFile (s : Rcv) : s.openFile.currConn = s.currConn := by
  unfold openFile
  split <;> rfl

theorem allocated_openFile (s : Rcv) : s.openFile.allocated = s.allocated := by
  unfold openFile
  split <;> rfl

/-- Opening the file changes what is in it, and nothing else of the transfer. -/
theorem Inv.openFile (h : s.Inv) : s.wake.openFile.Inv := by
  refine ⟨fun hsome => ?_, ?_⟩
  · rw [currConn_openFile] at hsome
    rw [allocated_openFile]
    refine h.allocated ?_
    unfold wake at hsome
    rwa [isSome_map] at hsome
  · unfold Rcv.openFile
    split
    · exact ⟨h.bounded.startOfWindow, h.bounded.buf⟩
    · exact h.bounded

theorem Inv.handleDataPkt (h : s.Inv) {timeUp : Bool}
    (hstep : s.handleDataPkt env client timeUp = some (t, out)) : t.Inv := by
  have hopen := h.openFile
  unfold Rcv.handleDataPkt at hstep
  dsimp only at hstep
  split at hstep
  · cases hstep
    exact ⟨hopen.allocated, hopen.bounded.handle env timeUp _⟩
  · cases hstep

theorem Inv.closeConn (h : s.Inv) : s.closeConn.Inv := by
  unfold Rcv.closeConn
  split
  · exact ⟨fun hsome => (nomatch hsome), h.bounded⟩
  · exact Inv.reset _ _

theorem Inv.timeout (h : s.Inv) (hstep : s.timeout = some (t, out)) : t.Inv := by
  unfold Rcv.timeout at hstep
  split at hstep
  · cases hstep
    exact h
  split at hstep
  · cases hstep
    exact h
  · split at hstep
    · cases hstep
      exact ⟨h.allocated, h.bounded.startOfWindow, h.bounded.buf⟩
    · cases hstep
  · cases hstep
    exact h

theorem Inv.step (h : s.Inv) {e : RcvEvent} (hstep : s.step env e = some (t, out)) : t.Inv := by
  cases e with
  | packet client pkt timeUp =>
    have hrecv := h.receive pkt.body
    dsimp only [Rcv.step] at hstep
    unfold Rcv.handlePkt at hstep
    dsimp only at hstep
    split at hstep
    · exact hrecv.handleInitPkt hstep
    split at hstep
    · have ht := congrArg Prod.fst (some.inj hstep)
      dsimp only at ht
      rw [← ht]
      exact hrecv.handleFinPkt
    · exact hrecv.handleDataPkt hstep
  | timeout => exact h.timeout hstep
  | alarm =>
    dsimp only [Rcv.step] at hstep
    split at hstep
    · cases hstep
      exact h.closeConn
    · cases hstep

/-- The client of the current connection. -/
def currClient (s : Rcv) : Option Client := s.currConn.map Conn.client

/-- Two receivers that serve the same client and agree on its transfer. -/
structure Sim (c : Client) (s s' : Rcv) : Prop where
  curr : s.currClient = some c
  curr' : s'.currClient = some c
  allocated : s.allocated = true
  allocated' : s'.allocated = true
  fp : s'.fp = s.fp
  transfer : s.transfer.Same s'.transfer

variable {c : Client}

theorem Sim.refl (hc : s.currClient = some c) (h : s.Inv) : Sim c s s := by
  have hsome : s.currConn.isSome := by
    rw [← isSome_map (f := Conn.client)]
    exact isSome_iff_exists.mpr ⟨c, hc⟩
  exact ⟨hc, hc, h.allocated hsome, h.allocated hsome, rfl, .refl _⟩

theorem Sim.trans {s'' : Rcv} (h : Sim c s s') (h' : Sim c s' s'') : Sim c s s'' :=
  ⟨h.curr, h'.curr', h.allocated, h'.allocated', h'.fp.trans h.fp, h.transfer.trans h'.transfer⟩

theorem Sim.symm (h : Sim c s s') : Sim c s' s :=
  ⟨h.curr', h.curr, h.allocated', h.allocated, h.fp.symm, h.transfer.symm⟩

theorem Sim.view (h : Sim c s s') : s'.view = s.view := by
  unfold Rcv.view
  rw [h.transfer.file, h.transfer.startOfWindow, h.transfer.list, h.transfer.buf, h.fp]

theorem Sim.receive (h : Sim c s s') (d : Datagram) :
    Sim c { s with transfer := s.transfer.receive d } { s' with transfer := s'.transfer.receive d } :=
  ⟨h.curr, h.curr', h.allocated, h.allocated', h.fp, { h.transfer with }⟩

/-- A packet with its terminator is the same, whatever was in the memory. -/
theorem same_recvfrom (p p' : Upkt) {d : Datagram} (hd : 0 ∈ d.bytes) :
    (p.recvfrom d).Same (p'.recvfrom d) := by
  refine ⟨rfl, rfl, ?_⟩
  show cstr (d.bytes ++ _) = cstr (d.bytes ++ _)
  rw [cstr_append_of_mem hd, cstr_append_of_mem hd]

/-- The transfer when the file of the current connection is open. -/
def opened (s : Rcv) : Receiver := if s.fp then s.transfer else { s.transfer with file := [] }

theorem currClient_wake (s : Rcv) : s.wake.currClient = s.currClient := by
  unfold currClient wake
  rw [Option.map_map]
  congr 1
  funext curr
  dsimp only [Function.comp]
  split <;> rfl

theorem openFile_of_curr (hc : s.currClient = some c) :
    s.wake.openFile = { s.wake with fp := true, transfer := s.opened } := by
  have hsome : s.wake.currConn.isSome := by
    rw [← isSome_map (f := Conn.client)]
    exact isSome_iff_exists.mpr ⟨c, (currClient_wake s).trans hc⟩
  unfold openFile opened
  by_cases hfp : s.fp = true
  · rw [if_neg fun hand => hand.2 hfp, if_pos hfp]
    unfold wake
    rw [hfp]
  · rw [if_pos ⟨hsome, hfp⟩, if_neg hfp]
    rfl

/-- The current connection takes a data packet, whoever sent it. -/
theorem handleDataPkt_of_curr (env : Env) (client : Client) (hc : s.currClient = some c)
    (halloc : s.allocated = true) (timeUp : Bool) :
    ∃ t out, s.handleDataPkt env client timeUp = some (t, out) ∧ t.currClient = some c ∧
      t.allocated = true ∧ t.fp = true ∧
      t.transfer = ((s.opened.takePkt s.transfer.pkt).1.finish env s.transfer.pkt.seq timeUp
        (s.opened.takePkt s.transfer.pkt).2).1 ∧
      out = ((s.opened.takePkt s.transfer.pkt).1.finish env s.transfer.pkt.seq timeUp
        (s.opened.takePkt s.transfer.pkt).2).2.map fun msg => (client, .msg msg) := by
  have hpkt : s.opened.pkt = s.transfer.pkt := by
    unfold opened
    split <;> rfl
  have hdefined : ({ s.wake with fp := true, transfer := s.opened } : Rcv).dataDefined env timeUp := by
    unfold dataDefined
    dsimp only
    split
    · exact fun _ => halloc
    split
    · exact ⟨halloc, rfl⟩
    · exact halloc
  unfold handleDataPkt
  rw [openFile_of_curr hc]
  dsimp only
  rw [if_pos hdefined, hpkt]
  exact ⟨_, _, rfl, (currClient_wake s).trans hc, halloc, rfl, rfl, rfl⟩

theorem Sim.opened (h : Sim c s s') : s.opened.Same s'.opened := by
  unfold Rcv.opened
  rw [h.fp]
  split
  · exact h.transfer
  · exact { h.transfer with file := rfl }

theorem Sim.handleDataPkt (h : Sim c s s') (hp : s.transfer.pkt.Same s'.transfer.pkt)
    {timeUp : Bool} (hstep : s.handleDataPkt env client timeUp = some (t, out)) :
    ∃ t' out', s'.handleDataPkt env client timeUp = some (t', out') ∧ Sim c t t' := by
  rcases handleDataPkt_of_curr env client h.curr h.allocated timeUp with
    ⟨t₁, out₁, hstep₁, hc₁, halloc₁, hfp₁, htransfer₁, -⟩
  rcases handleDataPkt_of_curr env client h.curr' h.allocated' timeUp with
    ⟨t', out', hstep', hc', halloc', hfp', htransfer', -⟩
  rw [hstep] at hstep₁
  cases hstep₁
  refine ⟨t', out', hstep', hc₁, hc', halloc₁, halloc', hfp'.trans hfp₁.symm, ?_⟩
  rw [htransfer₁, htransfer', hp.seq]
  exact (h.opened.takePkt hp).finish env _ timeUp _ _

/-- Data of the past finds nothing to do when the file is open. -/
theorem Sim.oldData (hc : s.currClient = some c) (h : s.Inv) (hfp : s.fp = true)
    (hold : s.transfer.pkt.seq ≤ s.transfer.startOfWindow) {timeUp : Bool}
    (hstep : s.handleDataPkt env client timeUp = some (t, out)) : Sim c s t := by
  have hself := Sim.refl hc h
  rcases handleDataPkt_of_curr env client hc hself.allocated timeUp with
    ⟨t₁, out₁, hstep₁, hc₁, halloc₁, hfp₁, htransfer₁, -⟩
  rw [hstep] at hstep₁
  cases hstep₁
  refine ⟨hc, hc₁, hself.allocated, halloc₁, hfp₁.trans hfp.symm, ?_⟩
  have hopened : s.opened = s.transfer := if_pos hfp
  have htake : (s.transfer.takePkt s.transfer.pkt).1 = s.transfer := by
    unfold Receiver.takePkt
    rw [if_pos hold]
  have hgreatest : ¬ s.transfer.pkt.seq > s.transfer.greatestRecvdSeq := by
    have hbound := h.bounded.startOfWindow
    omega
  rw [htransfer₁, hopened, htake]
  refine Receiver.Same.trans ?_ (Receiver.Same.finish_self ..)
  rw [if_neg hgreatest]
  exact .refl _

/-! ## One event -/

/-- An INIT changes nothing of the transfer of the current connection. -/
theorem Sim.handleInitPkt (hc : s.currClient = some c) (h : s.Inv)
    (hstep : s.handleInitPkt client = some (t, out)) : Sim c s t := by
  have hself := Sim.refl hc h
  unfold Rcv.handleInitPkt at hstep
  split at hstep
  case h_1 hnone =>
    unfold currClient at hc
    rw [hnone] at hc
    cases hc
  case h_2 curr hcurr =>
    split at hstep
    · cases hstep
      exact hself
    split at hstep
    · cases hstep
      exact hself
    · rcases map_eq_some_iff.mp hstep with ⟨conn, -, heq⟩
      cases heq
      exact { hself with }

theorem handleFinPkt_of_curr (client : Client) (hc : s.currClient = some c) :
    (s.handleFinPkt client).1.currClient = some c ∧
      (s.handleFinPkt client).1.allocated = s.allocated ∧
      (s.handleFinPkt client).1.transfer = s.transfer ∧ (s.handleFinPkt client).1.fp = false := by
  unfold handleFinPkt
  dsimp only
  cases hcurr : s.currConn with
  | none =>
    unfold currClient at hc
    rw [hcurr] at hc
    cases hc
  | some curr =>
    unfold currClient at hc
    rw [hcurr] at hc
    dsimp only
    split
    · exact ⟨hc, rfl, rfl, rfl⟩
    · exact ⟨hc, rfl, rfl, rfl⟩

theorem timeout_of_curr (hc : s.currClient = some c) (halloc : s.allocated = true) :
    ∃ t out, s.timeout = some (t, out) ∧ t.currClient = some c ∧ t.allocated = true ∧
      t.fp = s.fp ∧ s.transfer.Same t.transfer := by
  unfold timeout
  cases hcurr : s.currConn with
  | none =>
    unfold currClient at hc
    rw [hcurr] at hc
    cases hc
  | some curr =>
    have hcurr' : (some curr).map Conn.client = some c := hcurr ▸ hc
    dsimp only
    split
    · exact ⟨_, _, rfl, hc, halloc, rfl, .refl _⟩
    · rw [if_pos halloc]
      exact ⟨_, _, rfl, hcurr', halloc, rfl, ⟨rfl, rfl, rfl, rfl, rfl⟩⟩
    · exact ⟨_, _, rfl, hc, halloc, rfl, .refl _⟩

/-- An event of the own client does the same in both runs. -/
theorem Sim.own (h : Sim c s s') {e : RcvEvent} (hown : e.own c = true) (halarm : e ≠ .alarm)
    (hharmless : Harmless s e) (hinv : s.Inv) (hinv' : s'.Inv)
    (hstep : s.step env e = some (t, out)) :
    ∃ t' out', s'.step env e = some (t', out') ∧ Sim c t t' := by
  cases e with
  | alarm => exact absurd rfl halarm
  | timeout =>
    rcases timeout_of_curr h.curr h.allocated with ⟨t₁, out₁, hstep₁, hc₁, halloc₁, hfp₁, hsame₁⟩
    rcases timeout_of_curr h.curr' h.allocated' with ⟨t', out', hstep', hc', halloc', hfp', hsame'⟩
    dsimp only [Rcv.step] at hstep
    rw [hstep] at hstep₁
    cases hstep₁
    refine ⟨t', out', hstep', hc₁, hc', halloc₁, halloc', ?_, ?_⟩
    · rw [hfp', h.fp, hfp₁]
    · exact (hsame₁.symm.trans h.transfer).trans hsame'
  | packet client pkt timeUp =>
    have hclient : client = c := of_decide_eq_true hown
    have hrecv := h.receive pkt.body
    have hr := hinv.receive pkt.body
    have hr' := hinv'.receive pkt.body
    dsimp only [Rcv.step] at hstep ⊢
    unfold Rcv.handlePkt at hstep ⊢
    dsimp only at hstep ⊢
    by_cases hinit : pkt.init = true
    · rw [if_pos hinit] at hstep ⊢
      -- the INIT is only answered, as the client is served already
      rcases map_eq_some_iff.mp h.curr' with ⟨curr, hcurr, hname⟩
      have hanswer : Rcv.handleInitPkt { s' with transfer := s'.transfer.receive pkt.body } client =
          some ({ s' with transfer := s'.transfer.receive pkt.body }, [(client, .init)]) := by
        unfold Rcv.handleInitPkt
        dsimp only
        rw [hcurr]
        dsimp only
        rw [if_pos (hname.trans hclient.symm)]
      exact ⟨_, _, hanswer, (Sim.handleInitPkt hrecv.curr hr hstep).symm.trans hrecv⟩
    rw [if_neg hinit] at hstep ⊢
    by_cases hfin : pkt.fin = true
    · rw [if_pos hfin] at hstep ⊢
      have ht := congrArg Prod.fst (some.inj hstep)
      dsimp only at ht
      rcases handleFinPkt_of_curr client hrecv.curr with ⟨hc₁, halloc₁, htr₁, hfp₁⟩
      rcases handleFinPkt_of_curr client hrecv.curr' with ⟨hc', halloc', htr', hfp'⟩
      rw [ht] at hc₁ halloc₁ htr₁ hfp₁
      refine ⟨(Rcv.handleFinPkt { s' with transfer := s'.transfer.receive pkt.body } client).1, _, rfl,
        hc₁, hc', halloc₁.trans h.allocated, halloc'.trans h.allocated', hfp'.trans hfp₁.symm, ?_⟩
      rw [htr₁, htr']
      exact hrecv.transfer
    · rw [if_neg hfin] at hstep ⊢
      rcases map_eq_some_iff.mp h.curr with ⟨curr, hcurr, hname⟩
      have hpkt := hharmless curr hcurr
      unfold HarmlessPkt at hpkt
      rw [if_pos (hname.trans hclient.symm)] at hpkt
      have hzero := (hpkt.resolve_left hinit).resolve_left hfin
      exact hrecv.handleDataPkt (same_recvfrom _ _ hzero) hstep

/-- A harmless packet of another client changes nothing of the transfer. -/
theorem Sim.other (hc : s.currClient = some c) (hinv : s.Inv) {e : RcvEvent}
    (hother : e.own c = false) (hharmless : Harmless s e)
    (hstep : s.step env e = some (t, out)) : Sim c s t := by
  cases e with
  | timeout => cases hother
  | alarm => cases hother
  | packet client pkt timeUp =>
    have hne : c ≠ client := fun heq => by
      have hfalse := of_decide_eq_false hother
      exact hfalse heq.symm
    rcases map_eq_some_iff.mp hc with ⟨curr, hcurr, hname⟩
    have hpkt := hharmless curr hcurr
    unfold HarmlessPkt at hpkt
    rw [hname, if_neg hne] at hpkt
    have hself := Sim.refl hc hinv
    have hrecv : Sim c s { s with transfer := s.transfer.receive pkt.body } :=
      ⟨hc, hc, hself.allocated, hself.allocated, rfl, ⟨rfl, rfl, rfl, rfl, rfl⟩⟩
    have hr := hinv.receive pkt.body
    dsimp only [Rcv.step] at hstep
    unfold Rcv.handlePkt at hstep
    dsimp only at hstep
    by_cases hinit : pkt.init = true
    · rw [if_pos hinit] at hstep
      exact hrecv.trans (Sim.handleInitPkt hrecv.curr' hr hstep)
    rw [if_neg hinit] at hstep
    have hpkt := hpkt.resolve_left hinit
    by_cases hfin : pkt.fin = true
    · rw [if_pos hfin] at hstep hpkt
      have ht := congrArg Prod.fst (some.inj hstep)
      dsimp only at ht
      rcases handleFinPkt_of_curr client hrecv.curr' with ⟨hc₁, halloc₁, htr₁, hfp₁⟩
      rw [ht] at hc₁ halloc₁ htr₁ hfp₁
      refine ⟨hc, hc₁, hself.allocated, halloc₁.trans hself.allocated, hfp₁.trans hpkt.symm, ?_⟩
      rw [htr₁]
      exact hrecv.transfer
    · rw [if_neg hfin] at hstep hpkt
      exact hrecv.trans (Sim.oldData hrecv.curr' hr hpkt.1 hpkt.2 hstep)

/-- The events of the other clients can be left out of a run. -/
theorem Sim.run (h : Sim c s s') (hinv : s.Inv) (hinv' : s'.Inv) {es : List RcvEvent}
    (halarm : .alarm ∉ es) (hharmless : HarmlessRun env s es) (hrun : Rcv.run env s es = some t) :
    ∃ t', Rcv.run env s' (es.filter (RcvEvent.own c)) = some t' ∧ Sim c t t' := by
  induction es generalizing s s' with
  | nil =>
    cases hrun
    exact ⟨s', rfl, h⟩
  | cons e es ih =>
    unfold Rcv.run at hrun
    rcases bind_eq_some_iff.mp hrun with ⟨⟨s₁, out₁⟩, hstep, hrest⟩
    have hinv₁ := hinv.step hstep
    have halarm₁ : .alarm ∉ es := fun hmem => halarm (mem_cons_of_mem _ hmem)
    cases hown : e.own c with
    | true =>
      have hne : e ≠ .alarm := fun heq => halarm (heq ▸ mem_cons_self)
      rcases h.own hown hne hharmless.1 hinv hinv' hstep with ⟨s₁', out', hstep', h₁⟩
      rcases ih h₁ hinv₁ (hinv'.step hstep') halarm₁ (hharmless.2 _ hstep) hrest with
        ⟨t', hrun', ht⟩
      refine ⟨t', ?_, ht⟩
      rw [filter_cons_of_pos hown]
      unfold Rcv.run
      rw [hstep']
      exact hrun'
    | false =>
      have h₁ := (Sim.other h.curr hinv hown hharmless.1 hstep).symm.trans h
      rw [filter_cons_of_neg (by rw [hown]; exact Bool.false_ne_true)]
      exact ih h₁ hinv₁ hinv' halarm₁ (hharmless.2 _ hstep) hrest

end Rcv

def clientA : Client := ⟨[49], [49]⟩

def clientB : Client := ⟨[50], [50]⟩

def initPkt : Packet := ⟨true, false, ⟨0, 1, [102, 0, 0, 0, 0]⟩⟩

def finPkt : Packet := ⟨false, true, ⟨0, 0, [0, 0, 0, 0]⟩⟩

def dataPkt (seq : Int) (letter : UInt8) : Packet := ⟨false, false, ⟨seq, 1, [letter, 0, 0, 0]⟩⟩

/-- The receiver after the INIT of the first client. -/
def servedA : Rcv :=
  (Rcv.start ((⟨0, 0, []⟩ : Upkt).recvfrom initPkt.body)).reset ⟨.active, clientA, [102]⟩

end PittCs.Ncp
