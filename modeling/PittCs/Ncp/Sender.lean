import PittCs.Ncp.ReceiverInv

/-!
# The sender

The loop of `transmission_sequence`, in two halves: it sends packets again that
were reported missing and one new packet, then looks for a message and, when the
window has not moved for a while, sends the first packets of the window again.
A read of a window slot that was never filled, or of a gap behind the end of a
message, is undefined; such a step gives nothing. Statistics are left out.
-/

namespace PittCs.Ncp

open List Option

def numToResend : Nat := 2

/-- Where the loop is. -/
inductive Phase where
  | transmit
  | poll
  | left
deriving DecidableEq

/-- The variables of the loop. `unread` and `eof` are the state of the file, and
`created` is a record of all packets that were created. -/
structure Sender where
  phase : Phase
  unread : List UInt8
  eof : Bool
  startOfWindow : Int
  currInFlight : Int
  window : Nat → Option Upkt
  recvdMsg : RcvMsg
  checkGaps : Bool
  created : List Upkt

namespace Sender

def init (file : List UInt8) : Sender where
  phase := .transmit
  unread := file
  eof := false
  startOfWindow := 0
  currInFlight := 0
  window := fun _ => none
  recvdMsg := ⟨0, 0, []⟩
  checkGaps := false
  created := []

/-- `window[seq % WINDOW_SIZE]`. -/
def slot (env : Env) (s : Sender) (seq : Int) : Option Upkt :=
  let index := seq.tmod env.windowSize
  if 0 ≤ index then s.window index.toNat else none

/-- The packets for the sequence numbers in a gap. -/
def resendGap (env : Env) (s : Sender) (g : Gap) : Option (List Datagram) :=
  (List.range (g.stop - g.start).toNat).mapM fun (k : Nat) =>
    (s.slot env (g.start + k)).map fun pkt => pkt.sendto pkt.resendSize

/-- The packets for all gaps of the last message. -/
def resendGaps (env : Env) (s : Sender) : Option (List Datagram) := do
  let resent ← (List.range s.recvdMsg.numGaps.toNat).mapM fun (k : Nat) => do
    let g ← s.recvdMsg.gaps[k]?
    s.resendGap env g
  return resent.flatten

def resendMissing (env : Env) (s : Sender) : Option (List Datagram) :=
  if s.checkGaps then s.resendGaps env else some []

/-- Reads the next chunk of the file into a packet and sends it. -/
def sendNew (env : Env) (s : Sender) : Option (Sender × Datagram) :=
  let seq := s.startOfWindow + s.currInFlight
  let index := seq.tmod env.windowSize
  let pkt := Upkt.create seq (s.unread.take (maxMessLen - 1))
  if 0 ≤ index then
    some
      ({ s with
          unread := s.unread.drop (maxMessLen - 1)
          eof := decide (s.unread.length < maxMessLen - 1)
          window := Function.update s.window index.toNat (some pkt)
          currInFlight := s.currInFlight + 1
          created := s.created ++ [pkt] }, pkt.sendto pkt.sendSize)
  else none

/-- The first half of an iteration. -/
def transmit (env : Env) (s : Sender) : Option (Sender × List Datagram) := do
  let resent ← s.resendMissing env
  let s := { s with checkGaps := false, phase := .poll }
  if s.currInFlight < (env.windowSize : Int) ∧ ¬ s.eof then
    let (s, d) ← s.sendNew env
    return (s, resent ++ [d])
  else return (s, resent)

/-- A message that is received moves the window, also back. -/
def recvMsg (s : Sender) (msg : RcvMsg) : Sender :=
  let s := { s with recvdMsg := msg }
  let s := if msg.aru > 0 then
      { s with
        currInFlight := s.currInFlight - (msg.aru - s.startOfWindow)
        startOfWindow := msg.aru }
    else s
  if msg.numGaps > 0 then { s with checkGaps := true } else s

/-- The first packets of the window, when it has not moved for a while. -/
def resendFirst (env : Env) (s : Sender) (timeout : Bool) : Option (List Datagram) :=
  if timeout then
    (List.range (min numToResend s.currInFlight.toNat)).mapM fun (k : Nat) =>
      (s.slot env (s.startOfWindow + k)).map fun pkt => pkt.sendto pkt.sendSize
  else some []

/-- The loop is left when all was read and acknowledged. -/
def finish (env : Env) (s : Sender) (timeout : Bool) : Option (Sender × List Datagram) :=
  if s.eof ∧ s.currInFlight ≤ 0 then some ({ s with phase := .left }, [])
  else (s.resendFirst env timeout).map fun resent => ({ s with phase := .transmit }, resent)

/-- The second half of an iteration, with the message that is there, if any. -/
def poll (env : Env) (s : Sender) (msg : Option RcvMsg) (timeout : Bool) :
    Option (Sender × List Datagram) :=
  match msg with
  | none => s.finish env timeout
  | some msg => (s.recvMsg msg).finish env timeout

end Sender

/-!
## What the sender keeps

Packet `k` holds chunk `k` of the file. Packets are created in order, each once,
however the window moves, and every slot the sender reads holds one of them. So
nothing but packets of the file is ever sent.
-/

/-- Bytes of the file that go into one packet. -/
def chunkLen : Nat := maxMessLen - 1

def packetAt (file : List UInt8) (k : Nat) : Upkt :=
  Upkt.create k ((file.drop (chunkLen * k)).take chunkLen)

theorem filled_packetAt (file : List UInt8) (k : Nat) : (packetAt file k).Filled := by
  refine Upkt.filled_create _ ?_
  rw [length_take]
  exact Nat.min_le_left _ _

/-- The datagram is a packet of the file that was created. -/
def Known (file : List UInt8) (m : Nat) (d : Datagram) : Prop :=
  ∃ k < m, d = (packetAt file k).sendto (packetAt file k).sendSize

theorem Known.mono {file : List UInt8} {m m' : Nat} {d : Datagram} (h : Known file m d)
    (hle : m ≤ m') : Known file m' d := by
  rcases h with ⟨k, hk, rfl⟩
  exact ⟨k, by omega, rfl⟩

structure SenderInv (env : Env) (file : List UInt8) (s : Sender) : Prop where
  created : s.created = (List.range s.created.length).map (packetAt file)
  unread : s.unread = file.drop (chunkLen * s.created.length)
  eof : s.eof = true ↔ file.length < chunkLen * s.created.length
  inFlight : s.startOfWindow + s.currInFlight = s.created.length
  start : 0 ≤ s.startOfWindow
  window : ∀ k < s.created.length, ∃ j < s.created.length,
    s.window (k % env.windowSize) = some (packetAt file j)
  gone : s.phase = .left → s.eof = true ∧ s.currInFlight ≤ 0

/-- A loop whose steps are all defined is defined. -/
theorem exists_mapM {α β : Type} {f : α → Option β} {P : β → Prop} {l : List α}
    (h : ∀ a ∈ l, ∃ b, f a = some b ∧ P b) : ∃ bs, l.mapM f = some bs ∧ ∀ b ∈ bs, P b := by
  induction l with
  | nil => exact ⟨[], rfl, fun _ hb => absurd hb not_mem_nil⟩
  | cons a l ih =>
    rcases h a mem_cons_self with ⟨b, hb, hP⟩
    rcases ih fun x hx => h x (mem_cons_of_mem a hx) with ⟨bs, hbs, hall⟩
    refine ⟨b :: bs, ?_, ?_⟩
    · rw [mapM_cons, hb, hbs]
      rfl
    · intro x hx
      rcases mem_cons.mp hx with rfl | hx
      · exact hP
      · exact hall x hx

theorem tmod_windowSize (env : Env) (k : Nat) :
    (k : Int).tmod env.windowSize = ((k % env.windowSize : Nat) : Int) := by
  rfl

namespace SenderInv

variable {env : Env} {file : List UInt8} {s : Sender}

theorem init (env : Env) (file : List UInt8) : SenderInv env file (Sender.init file) where
  created := rfl
  unread := rfl
  eof := by simp [Sender.init]
  inFlight := rfl
  start := Int.le_refl _
  window := fun _ h => absurd h (Nat.not_lt_zero _)
  gone := fun h => nomatch h

/-- Every slot for a packet that was created is filled. -/
theorem slot (h : SenderInv env file s) {seq : Int} (hlow : 0 ≤ seq)
    (hhigh : seq < s.created.length) :
    ∃ j < s.created.length, s.slot env seq = some (packetAt file j) := by
  rcases Int.eq_ofNat_of_zero_le hlow with ⟨k, rfl⟩
  have hk : k < s.created.length := by omega
  rcases h.window k hk with ⟨j, hj, hslot⟩
  refine ⟨j, hj, ?_⟩
  simp only [Sender.slot]
  rw [tmod_windowSize, if_pos (Int.natCast_nonneg _), Int.toNat_natCast]
  exact hslot

theorem resendGap (h : SenderInv env file s) {g : Gap} (hlow : 0 ≤ g.start)
    (hhigh : g.stop ≤ s.created.length) :
    ∃ ds, s.resendGap env g = some ds ∧ ∀ d ∈ ds, Known file s.created.length d := by
  refine exists_mapM ?_
  intro k hk
  have hlt := mem_range.mp hk
  have hseq : g.start + k < s.created.length := by omega
  rcases h.slot (by omega) hseq with ⟨j, hj, hslot⟩
  rw [hslot]
  refine ⟨_, rfl, j, hj, ?_⟩
  exact congrArg (packetAt file j).sendto (filled_packetAt file j).resendSize

theorem resendGaps (h : SenderInv env file s) {start : Int}
    (hmsg : MsgOk start s.created.length s.recvdMsg) :
    ∃ ds, s.resendGaps env = some ds ∧ ∀ d ∈ ds, Known file s.created.length d := by
  have hgap : ∀ k ∈ List.range s.recvdMsg.numGaps.toNat,
      ∃ ds, (s.recvdMsg.gaps[k]?.bind fun g => s.resendGap env g) = some ds ∧
        ∀ d ∈ ds, Known file s.created.length d := by
    intro k hk
    -- the number of gaps is that of the gaps in the message
    have hlt := mem_range.mp hk
    have hnum := hmsg.numGaps
    have hk' : k < s.recvdMsg.gaps.length := by omega
    rw [List.getElem?_eq_getElem hk', bind_some]
    rcases hmsg.gaps _ (List.getElem_mem hk') with ⟨hlow, hhigh⟩
    exact h.resendGap hlow hhigh
  rcases exists_mapM hgap with ⟨resent, hresent, hall⟩
  refine ⟨resent.flatten, ?_, ?_⟩
  · have hdef : s.resendGaps env = ((List.range s.recvdMsg.numGaps.toNat).mapM fun k =>
        s.recvdMsg.gaps[k]?.bind fun g => s.resendGap env g).bind fun resent =>
          some resent.flatten := rfl
    rw [hdef, hresent]
    rfl
  · intro d hd
    rcases mem_flatten.mp hd with ⟨ds, hds, hd⟩
    exact hall ds hds d hd

theorem resendFirst (h : SenderInv env file s) (timeout : Bool) :
    ∃ ds, s.resendFirst env timeout = some ds ∧ ∀ d ∈ ds, Known file s.created.length d := by
  unfold Sender.resendFirst
  split
  case isFalse => exact ⟨[], rfl, fun _ hd => absurd hd not_mem_nil⟩
  refine exists_mapM ?_
  intro k hk
  have hlt := mem_range.mp hk
  have hstart := h.start
  have hcount := h.inFlight
  have hseq : s.startOfWindow + k < s.created.length := by omega
  rcases h.slot (by omega) hseq with ⟨j, hj, hslot⟩
  rw [hslot]
  exact ⟨_, rfl, j, hj, rfl⟩

/-- The next chunk of the file becomes the next packet. -/
theorem sendNew (h : SenderInv env file s) (hphase : s.phase ≠ .left) :
    ∃ s' d, s.sendNew env = some (s', d) ∧ SenderInv env file s' ∧
      Known file s'.created.length d ∧ s'.created.length = s.created.length + 1 ∧
      s'.startOfWindow = s.startOfWindow ∧ s'.phase = s.phase ∧ s'.checkGaps = s.checkGaps ∧
      s'.window = Function.update s.window (s.created.length % env.windowSize)
        (some (packetAt file s.created.length)) := by
  have hseq := h.inFlight
  have hpkt : Upkt.create (s.startOfWindow + s.currInFlight) (s.unread.take (maxMessLen - 1)) =
      packetAt file s.created.length := by
    rw [hseq, h.unread]
    rfl
  have hindex : 0 ≤ (s.startOfWindow + s.currInFlight).tmod env.windowSize := by
    rw [hseq, tmod_windowSize]
    exact Int.natCast_nonneg _
  have hslot : ((s.startOfWindow + s.currInFlight).tmod env.windowSize).toNat =
      s.created.length % env.windowSize := by
    rw [hseq, tmod_windowSize]
    exact Int.toNat_natCast _
  have hlen : (s.created ++ [packetAt file s.created.length]).length = s.created.length + 1 :=
    length_append
  have hchunk : chunkLen * (s.created.length + 1) = chunkLen * s.created.length + chunkLen :=
    Nat.mul_succ _ _
  refine ⟨{ s with
      unread := s.unread.drop chunkLen
      eof := decide (s.unread.length < chunkLen)
      window := Function.update s.window (s.created.length % env.windowSize)
        (some (packetAt file s.created.length))
      currInFlight := s.currInFlight + 1
      created := s.created ++ [packetAt file s.created.length] }, _, ?_, ?_,
    ⟨s.created.length, ?_, rfl⟩, hlen, rfl, rfl, rfl, rfl⟩
  · simp only [Sender.sendNew]
    rw [if_pos hindex, hpkt, hslot]
    rfl
  · constructor
    case created =>
      show s.created ++ [packetAt file s.created.length] = (List.range _).map (packetAt file)
      rw [hlen, range_succ, map_append, ← h.created]
      rfl
    case unread =>
      show s.unread.drop chunkLen = file.drop (chunkLen * _)
      rw [hlen, hchunk, h.unread, drop_drop]
    case eof =>
      show decide (s.unread.length < chunkLen) = true ↔ file.length < chunkLen * _
      rw [hlen, hchunk, decide_eq_true_iff, h.unread, length_drop]
      have hpos : chunkLen = 1399 := rfl
      omega
    case inFlight =>
      show s.startOfWindow + (s.currInFlight + 1) = ((_ : Nat) : Int)
      rw [hlen]
      omega
    case start => exact h.start
    case window =>
      intro k hk
      have hk' : k < s.created.length + 1 := hlen ▸ hk
      show ∃ j < (s.created ++ [packetAt file s.created.length]).length,
        Function.update s.window _ _ (k % env.windowSize) = some (packetAt file j)
      rw [hlen]
      by_cases hsame : k % env.windowSize = s.created.length % env.windowSize
      · exact ⟨s.created.length, by omega, by rw [hsame, Function.update_self]⟩
      · -- another slot, so not the new packet
        have hne : k ≠ s.created.length := fun heq => hsame (heq ▸ rfl)
        rcases h.window k (by omega) with ⟨j, hj, hwindow⟩
        exact ⟨j, by omega, by rw [Function.update_of_ne hsame, hwindow]⟩
    case gone => exact fun hleft => absurd hleft hphase
  · show s.created.length < _
    rw [hlen]
    omega

/-- The first half of an iteration is defined and sends packets of the file only. -/
theorem transmit (h : SenderInv env file s) {start : Int}
    (hmsg : s.checkGaps = true → MsgOk start s.created.length s.recvdMsg) :
    ∃ s' ds, s.transmit env = some (s', ds) ∧ SenderInv env file s' ∧
      (∀ d ∈ ds, Known file s'.created.length d) ∧ s.created.length ≤ s'.created.length ∧
      (s'.created.length = s.created.length ∨
        (s'.created.length : Int) ≤ s.startOfWindow + env.windowSize) ∧
      s'.startOfWindow = s.startOfWindow ∧ s'.checkGaps = false := by
  have hresend : ∃ ds, s.resendMissing env = some ds ∧
      ∀ d ∈ ds, Known file s.created.length d := by
    unfold Sender.resendMissing
    by_cases hcheck : s.checkGaps = true
    · rw [if_pos hcheck]
      exact h.resendGaps (hmsg hcheck)
    · rw [if_neg hcheck]
      exact ⟨[], rfl, fun _ hd => absurd hd not_mem_nil⟩
  rcases hresend with ⟨resent, hresent, hknown⟩
  have hnext : SenderInv env file { s with checkGaps := false, phase := .poll } :=
    { h with gone := fun hleft => nomatch hleft }
  simp only [Sender.transmit, hresent, bind_eq_bind, bind_some]
  by_cases hcond : s.currInFlight < (env.windowSize : Int) ∧ ¬ s.eof
  · rw [if_pos hcond]
    rcases hnext.sendNew (fun hleft => nomatch hleft) with
      ⟨s', d, hnew, hinv, hd, hlen, hstart, _, hcheck, _⟩
    have hcount := h.inFlight
    have hlen' : s'.created.length = s.created.length + 1 := hlen
    refine ⟨s', resent ++ [d], ?_, hinv, ?_, by omega, Or.inr ?_, hstart, hcheck⟩
    · rw [hnew]
      rfl
    · intro x hx
      rcases mem_append.mp hx with hx | hx
      · exact (hknown x hx).mono (by omega)
      · rw [mem_singleton.mp hx]
        exact hd
    · omega
  · rw [if_neg hcond]
    exact ⟨_, resent, rfl, hnext, hknown, Nat.le_refl _, Or.inl rfl, rfl, rfl⟩

theorem recvMsg (h : SenderInv env file s) (msg : RcvMsg) (hphase : s.phase ≠ .left) :
    SenderInv env file (s.recvMsg msg) ∧ (s.recvMsg msg).created = s.created ∧
      (s.recvMsg msg).phase = s.phase ∧ (s.recvMsg msg).recvdMsg = msg ∧
      ((s.recvMsg msg).startOfWindow = s.startOfWindow ∨
        (s.recvMsg msg).startOfWindow = msg.aru) := by
  have hcount := h.inFlight
  unfold Sender.recvMsg
  by_cases hpos : msg.aru > 0
  · simp only [if_pos hpos]
    -- the window moves, but not the sum of its start and the packets in flight
    have hmoved : SenderInv env file
        { s with
          recvdMsg := msg
          currInFlight := s.currInFlight - (msg.aru - s.startOfWindow)
          startOfWindow := msg.aru } := by
      refine { h with
        inFlight := ?_, start := Int.le_of_lt hpos, gone := fun hleft => absurd hleft hphase }
      show msg.aru + (s.currInFlight - (msg.aru - s.startOfWindow)) = s.created.length
      omega
    split
    · exact ⟨{ hmoved with }, rfl, rfl, rfl, Or.inr rfl⟩
    · exact ⟨hmoved, rfl, rfl, rfl, Or.inr rfl⟩
  · simp only [if_neg hpos]
    split
    · exact ⟨{ h with }, rfl, rfl, rfl, Or.inl rfl⟩
    · exact ⟨{ h with }, rfl, rfl, rfl, Or.inl rfl⟩

/-- The end of an iteration: the loop is left, or packets are sent again. -/
theorem finish (h : SenderInv env file s) (timeout : Bool) :
    ∃ s' ds, s.finish env timeout = some (s', ds) ∧ SenderInv env file s' ∧
      (∀ d ∈ ds, Known file s.created.length d) ∧ s'.created = s.created ∧
      s'.startOfWindow = s.startOfWindow ∧ s'.checkGaps = s.checkGaps ∧
      s'.recvdMsg = s.recvdMsg := by
  unfold Sender.finish
  by_cases hleave : s.eof = true ∧ s.currInFlight ≤ 0
  · rw [if_pos hleave]
    exact ⟨_, [], rfl, { h with gone := fun _ => hleave },
      fun _ hd => absurd hd not_mem_nil, rfl, rfl, rfl, rfl⟩
  · rw [if_neg hleave]
    rcases h.resendFirst timeout with ⟨ds, hds, hknown⟩
    rw [hds]
    exact ⟨_, ds, rfl, { h with gone := fun hleft => nomatch hleft }, hknown, rfl, rfl, rfl, rfl⟩

/-- The second half of an iteration, with a message that is true. -/
theorem poll (h : SenderInv env file s) (hphase : s.phase = .poll) {start : Int}
    {msg : Option RcvMsg} (hmsg : ∀ x ∈ msg, MsgOk start s.created.length x)
    (hold : s.checkGaps = true → MsgOk start s.created.length s.recvdMsg) (timeout : Bool) :
    ∃ s' ds, s.poll env msg timeout = some (s', ds) ∧ SenderInv env file s' ∧
      (∀ d ∈ ds, Known file s.created.length d) ∧ s'.created = s.created ∧
      (s'.startOfWindow = s.startOfWindow ∨ s'.startOfWindow ≤ start + 1) ∧
      (s'.checkGaps = true → MsgOk start s.created.length s'.recvdMsg) := by
  cases msg with
  | none =>
    rcases h.finish timeout with ⟨s', ds, heq, hinv, hknown, hcreated, hstart, hcheck, hrecvd⟩
    refine ⟨s', ds, heq, hinv, hknown, hcreated, Or.inl hstart, ?_⟩
    rw [hcheck, hrecvd]
    exact hold
  | some msg =>
    have hok := hmsg msg rfl
    rcases h.recvMsg msg (by rw [hphase]; exact fun hleft => nomatch hleft) with
      ⟨hinv, hcreated, _, hmsg', hstart⟩
    rcases hinv.finish timeout with
      ⟨s', ds, heq, hinv', hknown, hcreated', hstart', _, hrecvd⟩
    refine ⟨s', ds, heq, hinv', ?_, hcreated'.trans hcreated, ?_, ?_⟩
    · rwa [hcreated] at hknown
    · rw [hstart']
      rcases hstart with hsame | haru
      · exact Or.inl hsame
      · right
        rw [haru]
        exact hok.aru.2
    · intro _
      rw [hrecvd, hmsg']
      exact hok

end SenderInv

end PittCs.Ncp
