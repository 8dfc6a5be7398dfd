import PittCs.Lib.RingSlots
import PittCs.Ncp.Occurrences
import PittCs.Ncp.Transfer

/-!
# What the sender takes for a message

The loop of `ncp` receives every packet into a `struct rcv_msg` and does not look at
`is_rcv_msg`. The packets with which `rcv` answers INIT and FIN come to the same
socket, so the loop may read the clock of `rcv` as a number of gaps; and a late message
may report packets that have left the window. Here the loop receives any packet.
-/

namespace PittCs.Ncp

open PittCs.Lib TransitionSystem Option

/-- Which flag of a control packet is set. -/
inductive ControlKind where
  | init
  | sleep
  | fin
deriving DecidableEq

/-- A packet that `rcv` sends: what `create_pkt` makes, with the time, or a message. -/
inductive RcvPacket where
  | control (kind : ControlKind) (tsSec tsUsec : Int)
  | msg (m : RcvMsg)
deriving DecidableEq

/-- The lower and the higher half of 64 bits, as `int`. -/
def lowWord (x : Int) : Int := Int.bmod x 4294967296

def highWord (x : Int) : Int := Int.bmod (x / 4294967296) 4294967296

/-- The packet as it lies in a `struct rcv_msg`. The padding before the time of a control
packet is zero and becomes `aru`, the two halves of the seconds become `num_gaps` and the
start of the first gap, whose end are the microseconds; `seq` and `payload_len` are the
second gap. The rest is not sent. -/
def RcvPacket.view : RcvPacket → RcvMsg
  | .control _ tsSec tsUsec => ⟨0, lowWord tsSec, [⟨highWord tsSec, tsUsec⟩, ⟨0, 0⟩]⟩
  | .msg m => m

def ControlKind.reply : ControlKind → Reply
  | .init => .init
  | .sleep => .sleep
  | .fin => .fin

/-- There is a run of `rcv` in which the packet is sent to a client; its clock may show
any time. -/
def CanSend (env : Env) (p : RcvPacket) : Prop :=
  ∃ s e t out client, (rcvSystem env).Reachable s ∧ s.step env e = some (t, out) ∧
    match p with
    | .control kind _ _ => (client, kind.reply) ∈ out
    | .msg m => (client, .msg m) ∈ out

/-- The loop, with a record of the packet that is in `recvd_msg`. -/
structure Loop where
  sender : Sender
  last : Option RcvPacket

/-- A half of an iteration; the second one may receive a packet. -/
inductive LoopEvent where
  | transmit
  | poll (pkt : Option RcvPacket) (timeout : Bool)
deriving DecidableEq

namespace Loop

def start (file : List UInt8) : Loop := ⟨Sender.init file, none⟩

def next (env : Env) (t : Loop) : LoopEvent → Option Loop
  | .transmit =>
    if t.sender.phase = .transmit then
      (t.sender.transmit env).map fun r => { t with sender := r.1 }
    else none
  | .poll pkt timeout =>
    if t.sender.phase = .poll then
      (t.sender.poll env (pkt.map RcvPacket.view) timeout).map fun r => ⟨r.1, pkt <|> t.last⟩
    else none

end Loop

/-- The packet in the slot is one of the window. -/
def InWindow (env : Env) (s : Sender) (seq : Int) : Prop :=
  ∃ pkt, s.slot env seq = some pkt ∧ s.startOfWindow ≤ pkt.seq ∧
    pkt.seq < s.startOfWindow + s.currInFlight

/-- When packets are about to be sent again, it is for the gaps of a message, of which
there are at most `MAX_GAPS`, and all these packets are in the window. -/
def Genuine (env : Env) (t : Loop) : Prop :=
  t.sender.phase = .transmit → t.sender.checkGaps = true →
    (∃ m, t.last = some (.msg m)) ∧ t.sender.recvdMsg.numGaps ≤ maxGaps ∧
      ∀ k < t.sender.recvdMsg.numGaps.toNat, ∃ g, t.sender.recvdMsg.gaps[k]? = some g ∧
        ∀ seq, g.start ≤ seq → seq < g.stop → InWindow env t.sender seq

/-- Where the window starts when the message was received. -/
def Sender.startAfter (s : Sender) (msg : RcvMsg) : Int :=
  if msg.aru > 0 then msg.aru else s.startOfWindow

/-- The message reports few gaps, and no number whose slot still holds a packet from before
the window that the message leaves. -/
def Fits (env : Env) (s : Sender) (msg : RcvMsg) : Prop :=
  msg.numGaps ≤ maxGaps ∧
    ∀ k < msg.numGaps.toNat, ∃ g, msg.gaps[k]? = some g ∧
      ∀ seq, g.start ≤ seq → seq < g.stop →
        0 ≤ seq.tmod env.windowSize ∧
          s.startAfter msg ≤ lastWritten env.windowSize s.created.length seq

/-- A packet that arrives has no gaps to report, or ends the loop, or is a message that
fits. -/
def Welcome (env : Env) (t : Loop) : LoopEvent → Prop
  | .transmit => True
  | .poll none _ => True
  | .poll (some pkt) _ =>
    t.sender.phase = .poll →
      pkt.view.numGaps ≤ 0 ∨
      (t.sender.eof = true ∧ (t.sender.created.length : Int) ≤ t.sender.startAfter pkt.view) ∨
      ∃ m, pkt = .msg m ∧ Fits env t.sender m

/-! ## The ring of the window -/

/-- Every slot of the window holds the last packet that was created for it. -/
def Sender.Ring (env : Env) (file : List UInt8) (s : Sender) : Prop :=
  RingSlots env.windowSize (fun k x => x = some (packetAt file k)) (· = none) s.created.length
    s.window

theorem windowSize_pos (env : Env) : 0 < env.windowSize := by
  cases env <;> decide

theorem tmod_emod (a b : Int) : a.tmod b % b = a % b := by
  rw [Int.tmod_def, Int.sub_mul_emod_self_left]

theorem inWindow_iff {env : Env} {file : List UInt8} {s : Sender} (h : SenderInv env file s)
    (hring : s.Ring env file) (seq : Int) :
    InWindow env s seq ↔ 0 ≤ seq.tmod env.windowSize ∧
      s.startOfWindow ≤ lastWritten env.windowSize s.created.length seq := by
  have hpos := windowSize_pos env
  by_cases hindex : 0 ≤ seq.tmod env.windowSize
  · rcases Int.eq_ofNat_of_zero_le hindex with ⟨i, hi⟩
    have hlt : seq.tmod env.windowSize < env.windowSize :=
      Int.tmod_lt_of_pos seq (Int.natCast_pos.mpr hpos)
    have hslot : s.slot env seq = s.window i := by
      unfold Sender.slot
      dsimp only
      rw [if_pos hindex, hi]
      rfl
    have hsame : lastWritten env.windowSize s.created.length i =
        lastWritten env.windowSize s.created.length seq := by
      apply lastWritten_congr
      rw [← hi]
      exact tmod_emod seq env.windowSize
    have hlast := lastWritten_lt hpos s.created.length seq
    have hcount := h.inFlight
    have hstart := h.start
    have hmem := hring.slot (i := i) (by omega)
    rw [hsame] at hmem
    constructor
    · rintro ⟨pkt, hpkt, hlow, -⟩
      refine ⟨hindex, ?_⟩
      rw [hslot] at hpkt
      rcases hmem with ⟨hwritten, heq⟩ | ⟨-, hnone⟩
      · -- the packet has the number of the slot
        rw [heq] at hpkt
        rw [← some.inj hpkt] at hlow
        have hseq : (packetAt file (lastWritten env.windowSize s.created.length seq).toNat).seq =
            lastWritten env.windowSize s.created.length seq := Int.toNat_of_nonneg hwritten
        rwa [hseq] at hlow
      · rw [hnone] at hpkt
        cases hpkt
    · rintro ⟨-, hlow⟩
      rcases hmem with ⟨hwritten, heq⟩ | ⟨hneg, -⟩
      · have hseq : (packetAt file (lastWritten env.windowSize s.created.length seq).toNat).seq =
            lastWritten env.windowSize s.created.length seq := Int.toNat_of_nonneg hwritten
        refine ⟨_, hslot.trans heq, ?_, ?_⟩
        · rw [hseq]
          exact hlow
        · rw [hseq]
          omega
      · omega
  · constructor
    · rintro ⟨pkt, hpkt, -⟩
      unfold Sender.slot at hpkt
      dsimp only at hpkt
      rw [if_neg hindex] at hpkt
      cases hpkt
    · rintro ⟨hnonneg, -⟩
      exact absurd hnonneg hindex

/-! ## The halves of an iteration -/

section Halves

variable {env : Env} {file : List UInt8} {s s' : Sender} {ds : List Datagram}

/-- The first half creates at most one packet, and has then no gaps in mind. -/
theorem ring_transmit (h : SenderInv env file s) (hring : s.Ring env file)
    (hstep : s.transmit env = some (s', ds)) :
    SenderInv env file s' ∧ s'.Ring env file ∧ s'.phase = .poll ∧ s'.checkGaps = false := by
  unfold Sender.transmit at hstep
  rcases bind_eq_some_iff.mp hstep with ⟨resent, -, hstep⟩
  have hnext : SenderInv env file { s with checkGaps := false, phase := .poll } :=
    { h with gone := fun hleft => Phase.noConfusion hleft }
  dsimp only at hstep
  split at hstep
  · rcases hnext.sendNew (fun hleft => Phase.noConfusion hleft) with
      ⟨s₁, d, hnew, hinv, -, hlen, -, hphase, hcheck, hwindow⟩
    rw [hnew] at hstep
    injection hstep with hstep
    injection hstep with hstep
    rw [← hstep]
    refine ⟨hinv, ?_, hphase, hcheck⟩
    unfold Sender.Ring
    rw [hlen, hwindow]
    exact hring.push rfl
  · injection hstep with hstep
    injection hstep with hstep
    rw [← hstep]
    exact ⟨hnext, hring, rfl, rfl⟩

/-- The end of an iteration only moves on. -/
theorem finish_eq {timeout : Bool} (h : s.finish env timeout = some (s', ds)) :
    s' = { s with phase := if s.eof = true ∧ s.currInFlight ≤ 0 then .left else .transmit } := by
  unfold Sender.finish at h
  split at h
  case isTrue hleave =>
    rw [if_pos hleave]
    injection h with h
    injection h with h
    exact h.symm
  case isFalse hstay =>
    rw [if_neg hstay]
    rcases map_eq_some_iff.mp h with ⟨resent, -, heq⟩
    injection heq with heq
    exact heq.symm

theorem ring_finish {timeout : Bool} (hinv : SenderInv env file s) (hring : s.Ring env file)
    (h : s.finish env timeout = some (s', ds)) :
    SenderInv env file s' ∧ s'.Ring env file ∧ s'.phase ≠ .poll := by
  rcases hinv.finish timeout with ⟨s₁, ds₁, hfinish, hinv', -, -, -, -, -⟩
  have hsame : s₁ = s' := by
    have heq := hfinish.symm.trans h
    injection heq with heq
    injection heq
  refine ⟨hsame ▸ hinv', ?_, ?_⟩
  · rw [finish_eq h]
    exact hring
  · rw [finish_eq h]
    dsimp only
    split
    · exact Phase.noConfusion
    · exact Phase.noConfusion

/-- A message sets the window and is kept. -/
theorem recvMsg_eq (s : Sender) (msg : RcvMsg) :
    s.recvMsg msg =
      { s with
        recvdMsg := msg
        startOfWindow := s.startAfter msg
        currInFlight := s.currInFlight - (s.startAfter msg - s.startOfWindow)
        checkGaps := if msg.numGaps > 0 then true else s.checkGaps } := by
  unfold Sender.recvMsg Sender.startAfter
  by_cases haru : msg.aru > 0
  · simp only [if_pos haru]
    split
    · rfl
    · rfl
  · simp only [if_neg haru, sub_self, sub_zero]
    split
    · rfl
    · rfl

end Halves

/-- What the loop keeps, whatever it receives. -/
structure Loop.Inv (env : Env) (file : List UInt8) (t : Loop) : Prop where
  sender : SenderInv env file t.sender
  ring : t.sender.Ring env file
  idle : t.sender.phase = .poll → t.sender.checkGaps = false

namespace Loop.Inv

variable {env : Env} {file : List UInt8} {t t' : Loop}

theorem start (env : Env) (file : List UInt8) : (Loop.start file).Inv env file where
  sender := SenderInv.init env file
  ring := RingSlots.init fun _ => rfl
  idle _ := rfl

/-- The sender that ends the iteration. -/
theorem poll (h : t.Inv env file) {pkt : Option RcvPacket} {timeout : Bool}
    (hnext : t.next env (.poll pkt timeout) = some t') :
    t.sender.phase = .poll ∧ t'.last = (pkt <|> t.last) ∧ ∃ s ds,
      s = (pkt.map RcvPacket.view).elim t.sender t.sender.recvMsg ∧
      SenderInv env file s ∧ s.Ring env file ∧ s.finish env timeout = some (t'.sender, ds) := by
  unfold Loop.next at hnext
  dsimp only at hnext
  split at hnext
  case isTrue hphase =>
    rcases map_eq_some_iff.mp hnext with ⟨⟨s', ds⟩, hpoll, rfl⟩
    refine ⟨hphase, rfl, ?_⟩
    cases pkt with
    | none => exact ⟨_, ds, rfl, h.sender, h.ring, hpoll⟩
    | some pkt =>
      have hinv := (h.sender.recvMsg pkt.view (by rw [hphase]; exact Phase.noConfusion)).1
      refine ⟨_, ds, rfl, hinv, ?_, hpoll⟩
      show (t.sender.recvMsg pkt.view).Ring env file
      rw [recvMsg_eq]
      exact h.ring
  case isFalse => cases hnext

theorem next (h : t.Inv env file) {e : LoopEvent} (hnext : t.next env e = some t') :
    t'.Inv env file := by
  cases e with
  | transmit =>
    simp only [Loop.next] at hnext
    split at hnext
    · rcases map_eq_some_iff.mp hnext with ⟨⟨s', ds⟩, hstep, rfl⟩
      rcases ring_transmit h.sender h.ring hstep with ⟨hinv, hring, -, hcheck⟩
      exact ⟨hinv, hring, fun _ => hcheck⟩
    · cases hnext
  | poll pkt timeout =>
    rcases h.poll hnext with ⟨-, -, s, ds, -, hinv, hring, hfinish⟩
    rcases ring_finish hinv hring hfinish with ⟨hinv', hring', hphase⟩
    exact ⟨hinv', hring', fun hpoll => absurd hpoll hphase⟩

/-- A packet is acted on as it should be exactly when it is welcome. -/
theorem genuine_poll_some (h : t.Inv env file) {pkt : RcvPacket} {timeout : Bool}
    (hnext : t.next env (.poll (some pkt) timeout) = some t') :
    Genuine env t' ↔ Welcome env t (.poll (some pkt) timeout) := by
  rcases h.poll hnext with ⟨hphase, hlast, s, ds, hs, hinv, hring, hfinish⟩
  rcases ring_finish hinv hring hfinish with ⟨hinv', hring', -⟩
  have ht' := finish_eq hfinish
  have hs' : s = t.sender.recvMsg pkt.view := hs
  rw [recvMsg_eq, h.idle hphase] at hs'
  have hmsg : t'.sender.recvdMsg = pkt.view := by rw [ht', hs']
  have hstart : t'.sender.startOfWindow = t.sender.startAfter pkt.view := by rw [ht', hs']
  have hcreated : t'.sender.created = t.sender.created := by rw [ht', hs']
  have hcheck : t'.sender.checkGaps = true ↔ 0 < pkt.view.numGaps := by
    rw [ht', hs']
    simp
  have hflight := hinv'.inFlight
  have hgoing : t'.sender.phase = .transmit ↔
      ¬ (t.sender.eof = true ∧ (t.sender.created.length : Int) ≤ t.sender.startAfter pkt.view) := by
    have hleft : s.eof = t.sender.eof ∧ s.currInFlight = t'.sender.currInFlight := by
      rw [ht', hs']
      exact ⟨rfl, rfl⟩
    rw [hstart, hcreated, ← hleft.2] at hflight
    have hsame : s.currInFlight ≤ 0 ↔
        (t.sender.created.length : Int) ≤ t.sender.startAfter pkt.view := by omega
    rw [← hsame, ← hleft.1, ht']
    dsimp only
    split
    case isTrue hend => simp [hend]
    case isFalse hend => simp [hend]
  have hwindow : ∀ seq, InWindow env t'.sender seq ↔ 0 ≤ seq.tmod env.windowSize ∧
      t.sender.startAfter pkt.view ≤ lastWritten env.windowSize t.sender.created.length seq := by
    intro seq
    rw [inWindow_iff hinv' hring', hstart, hcreated]
  unfold Genuine Welcome
  rw [hgoing, hcheck, hmsg, hlast]
  constructor
  · intro hgen _
    by_cases hnone : pkt.view.numGaps ≤ 0
    · exact Or.inl hnone
    by_cases hend : t.sender.eof = true ∧
        (t.sender.created.length : Int) ≤ t.sender.startAfter pkt.view
    · exact Or.inr (Or.inl hend)
    rcases hgen hend (not_le.mp hnone) with ⟨⟨m, hm⟩, hmax, hgaps⟩
    have hpkt : pkt = .msg m := some.inj hm
    subst hpkt
    refine Or.inr (Or.inr ⟨m, rfl, hmax, ?_⟩)
    intro k hk
    rcases hgaps k hk with ⟨g, hg, hin⟩
    exact ⟨g, hg, fun seq hlow hhigh => (hwindow seq).mp (hin seq hlow hhigh)⟩
  · intro hwelcome hgo hsome
    rcases hwelcome hphase with hnone | hend | ⟨m, rfl, hmax, hgaps⟩
    · exact absurd hsome (not_lt.mpr hnone)
    · exact absurd hend hgo
    · refine ⟨⟨m, rfl⟩, hmax, ?_⟩
      intro k hk
      rcases hgaps k hk with ⟨g, hg, hin⟩
      exact ⟨g, hg, fun seq hlow hhigh => (hwindow seq).mpr (hin seq hlow hhigh)⟩

/-- Only a packet that is received matters: without one there are no gaps in mind. -/
theorem genuine_iff (h : t.Inv env file) (e : LoopEvent) :
    (∀ t' ∈ t.next env e, Genuine env t') ↔ Welcome env t e := by
  cases e with
  | transmit =>
    refine iff_of_true ?_ trivial
    intro t' hnext hphase
    simp only [Loop.next] at hnext
    split at hnext
    · rcases map_eq_some_iff.mp hnext with ⟨⟨s', ds⟩, hstep, rfl⟩
      have hpoll := (ring_transmit h.sender h.ring hstep).2.2.1
      exact absurd (hpoll.symm.trans hphase) Phase.noConfusion
    · cases hnext
  | poll pkt timeout =>
    cases pkt with
    | none =>
      refine iff_of_true ?_ trivial
      intro t' hnext _ hcheck
      rcases h.poll hnext with ⟨hphase, -, s, ds, rfl, -, -, hfinish⟩
      rw [finish_eq hfinish] at hcheck
      exact absurd ((h.idle hphase).symm.trans hcheck) Bool.false_ne_true
    | some pkt =>
      cases hnext : t.next env (.poll (some pkt) timeout) with
      | some t' =>
        rw [← h.genuine_poll_some hnext]
        simp
      | none =>
        -- the second half of an iteration can only fail outside its turn
        refine iff_of_true (fun _ hmem => absurd hmem (not_mem_none _)) ?_
        intro hphase
        simp only [Loop.next, if_pos hphase] at hnext
        have hinv := (h.sender.recvMsg pkt.view (by rw [hphase]; exact Phase.noConfusion)).1
        rcases hinv.finish timeout with ⟨s', ds, hfinish, -⟩
        have hnone : (t.sender.recvMsg pkt.view).finish env timeout = none :=
          map_eq_none_iff.mp hnext
        rw [hfinish] at hnone
        cases hnone

end Loop.Inv

/-- In every run of the loop, with any packets at any time, it acts on nothing but messages,
their gaps and packets of the window exactly when every packet it receives is welcome. -/
theorem genuine_iff_welcome (env : Env) (file : List UInt8) (es : List LoopEvent) :
    AlongRun (Loop.next env) (fun t e => ∀ t' ∈ t.next env e, Genuine env t') (Loop.start file) es ↔
      AlongRun (Loop.next env) (Welcome env) (Loop.start file) es := by
  apply alongRun_iff (Loop.Inv env file)
  · exact fun t e t' hinv hnext => hinv.next hnext
  · exact fun t e hinv => hinv.genuine_iff e
  · exact Loop.Inv.start env file

/-- An answer to INIT that is still under way when the loop starts. The sender would read
behind the end of the message for one gap after the other. -/
theorem not_genuine : CanSend .lan (.control .init 1700000000 5) ∧
    ¬ AlongRun (Loop.next .wan) (fun t e => ∀ t' ∈ t.next .wan e, Genuine .wan t')
      (Loop.start [65]) [.transmit, .poll (some (.control .init 1700000000 5)) false] := by
  constructor
  · exact ⟨Rcv.start ⟨0, 0, []⟩, .packet clientA initPkt false, servedA, [(clientA, .init)], clientA,
      .init ⟨⟨0, 0, []⟩, rfl⟩, rfl, List.mem_singleton_self _⟩
  · intro hgen
    have hfew := hgen.mono (Q := fun t e => ∀ t' ∈ t.next .wan e, t'.sender.phase = .transmit →
      t'.sender.checkGaps = true → t'.sender.recvdMsg.numGaps ≤ 100)
      fun t e h t' ht' hphase hcheck => (h t' ht' hphase hcheck).2.1
    revert hfew
    decide

end PittCs.Ncp
