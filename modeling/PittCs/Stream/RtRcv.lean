import Mathlib.Data.List.Chain
import PittCs.Lib.TransitionSystem

/-!
# The real-time receiver

The loop of `transmission_protocol` in `rt_rcv.c`. Data packets wait in a latency
buffer until it is time to deliver the first of them; missing ones are requested
again. Whether a delivery is due is an input of each turn. Statistics and packets
without data are left out, and so are the timers.

The counters of the source, `buf_size` and `outstanding_pkts`, are the lengths of
the two lists here. The sequence numbers are those of one stream and unbounded: two
billion packets are needed to leave the range of `int`.
-/

namespace PittCs.Stream

open PittCs.Lib List Option

/-- A data packet. -/
structure Upkt where
  seq : Nat
  payload : List UInt8
deriving DecidableEq

/-- `delivered` is what was sent to the application so far. -/
structure RtRcv where
  highestSeqRecvd : Nat
  nextSeqToDeliver : Nat
  latencyBuffer : List Upkt
  missingPkts : List Nat
  firstPktRcvd : Bool
  delivered : List Upkt

/-- Where the loop over the latency buffer ends for an old packet. -/
inductive Scan where
  | isDup
  | targetFound (front back : List Upkt)
  | notFound

/-- The loop over the latency buffer: `front` are the packets before the one that is
asked for. -/
def scan (seq : Nat) : List Upkt → Scan
  | [] => .notFound
  | p :: rest =>
    if p.seq < seq then
      match scan seq rest with
      | .isDup => .isDup
      | .targetFound front back => .targetFound (p :: front) back
      | .notFound => .notFound
    else if p.seq = seq then .isDup
    else .targetFound [] (p :: rest)

namespace RtRcv

def init : RtRcv := ⟨0, 0, [], [], false, []⟩

/-- The packets between the highest one and `seq`, without those before the next
delivery. -/
def gap (s : RtRcv) (seq : Nat) : List Nat :=
  ((List.range (seq - s.highestSeqRecvd - 1)).map (s.highestSeqRecvd + 1 + ·)).filter
    fun lost => ¬ lost ≤ s.nextSeqToDeliver

/-- An empty buffer: the packet is the next one to be delivered. -/
def beginDelivery (s : RtRcv) (seq : Nat) : RtRcv :=
  if s.latencyBuffer = [] then { s with nextSeqToDeliver := seq } else s

/-- The packet is an answer to a request. -/
def IsOld (s : RtRcv) (seq : Nat) : Prop := s.nextSeqToDeliver < seq ∧ seq < s.highestSeqRecvd

instance (s : RtRcv) (seq : Nat) : Decidable (s.IsOld seq) :=
  inferInstanceAs (Decidable (_ ∧ _))

/-- The list of missing packets after a packet. -/
def updateMissing (s : RtRcv) (seq : Nat) : RtRcv :=
  if seq > s.highestSeqRecvd + 1 then { s with missingPkts := s.missingPkts ++ s.gap seq }
  else if s.IsOld seq then { s with missingPkts := s.missingPkts.erase seq }
  else s

/-- The buffer with the packet in its place. An insertion behind no packet is not
defined. -/
def place (s : RtRcv) (pkt : Upkt) : Option (List Upkt) :=
  match if s.IsOld pkt.seq then scan pkt.seq s.latencyBuffer else .notFound with
  | .targetFound [] _ => none
  | .targetFound front back => some (front ++ pkt :: back)
  | .isDup => some s.latencyBuffer
  | .notFound =>
    some (if pkt.seq ≥ s.nextSeqToDeliver then s.latencyBuffer ++ [pkt] else s.latencyBuffer)

/-- A data packet is received. -/
def recvData (s : RtRcv) (pkt : Upkt) : Option RtRcv :=
  let s := { s with firstPktRcvd := true }.beginDelivery pkt.seq
  (s.place pkt).map fun buffer =>
    { s.updateMissing pkt.seq with
      highestSeqRecvd := if pkt.seq ≥ s.highestSeqRecvd then pkt.seq else s.highestSeqRecvd
      latencyBuffer := buffer }

/-- The first packet of the buffer is sent to the application, and packets before
the next one are given up. -/
def deliver (s : RtRcv) : Option RtRcv :=
  match s.latencyBuffer with
  | [] => none
  | p :: rest =>
    let next := match rest with
      | [] => s.nextSeqToDeliver
      | q :: _ => q.seq
    some { s with
      nextSeqToDeliver := next
      latencyBuffer := rest
      missingPkts := s.missingPkts.dropWhile (· ≤ next)
      delivered := s.delivered ++ [p] }

/-- A packet may arrive. -/
def arrive (s : RtRcv) : Option Upkt → Option RtRcv
  | none => some s
  | some pkt => s.recvData pkt

/-- One turn of the loop: a packet may arrive, and the time to deliver may be over
for a buffer that was not empty at the start of the turn. -/
def turn (s : RtRcv) (arrival : Option Upkt) (due : Bool) : Option RtRcv :=
  (s.arrive arrival).bind fun s' =>
    if s.latencyBuffer ≠ [] ∧ due then s'.deliver else some s'

end RtRcv

/-- All runs of the receiver; a turn has the packet that arrives, if any, and
whether a delivery is due. -/
def rtRcvSystem : TransitionSystem RtRcv (Option Upkt × Bool) where
  Init s := s = RtRcv.init
  Next s e s' := s.turn e.1 e.2 = some s'

/-- A packet that arrives at an empty buffer is newer than all before; one that
arrives at packets in the buffer is neither a copy of the next to be delivered nor
of the newest. -/
def Timely (s : RtRcv) (pkt : Upkt) : Prop :=
  if s.latencyBuffer = [] then s.firstPktRcvd = false ∨ s.highestSeqRecvd < pkt.seq
  else pkt.seq ≠ s.nextSeqToDeliver ∧ pkt.seq ≠ s.highestSeqRecvd

instance (s : RtRcv) (pkt : Upkt) : Decidable (Timely s pkt) := by
  unfold Timely
  infer_instance

/-- The packet of the turn, if there is one, is timely. -/
def TimelyTurn (s : RtRcv) (e : Option Upkt × Bool) : Prop := ∀ pkt ∈ e.1, Timely s pkt

instance (s : RtRcv) (e : Option Upkt × Bool) : Decidable (TimelyTurn s e) :=
  inferInstanceAs (Decidable (∀ pkt ∈ e.1, Timely s pkt))

/-! ## Packets in order -/

/-- Strictly increasing sequence numbers. -/
def Increasing (l : List Upkt) : Prop := l.Pairwise fun p q => p.seq < q.seq

/-- What was delivered and what is in the buffer is in order. The next number is
that of the head of the buffer, and the highest one that of the last packet. -/
structure RtRcv.Inv (s : RtRcv) : Prop where
  increasing : Increasing (s.delivered ++ s.latencyBuffer)
  head : ∀ p ∈ s.latencyBuffer.head?, p.seq = s.nextSeqToDeliver
  last : ∀ p ∈ (s.delivered ++ s.latencyBuffer).getLast?, p.seq = s.highestSeqRecvd
  fresh : s.firstPktRcvd = false →
    s.delivered = [] ∧ s.latencyBuffer = [] ∧ s.highestSeqRecvd = 0

/-- What the loop over the buffer finds. -/
theorem scan_spec (seq : Nat) {l : List Upkt} (hl : Increasing l) :
    match scan seq l with
    | .isDup => True
    | .targetFound front back => l = front ++ back ∧ (∀ p ∈ front, p.seq < seq) ∧
        ∀ p ∈ back, seq < p.seq
    | .notFound => ∀ p ∈ l, p.seq < seq := by
  induction l with
  | nil =>
    intro p hp
    cases hp
  | cons p rest ih =>
    rcases pairwise_cons.mp hl with ⟨hhead, hrest⟩
    unfold scan
    by_cases hlt : p.seq < seq
    · rw [if_pos hlt]
      have hih := ih hrest
      cases hscan : scan seq rest with
      | isDup => trivial
      | notFound =>
        rw [hscan] at hih
        intro q hq
        rcases mem_cons.mp hq with rfl | hq
        · exact hlt
        · exact hih q hq
      | targetFound front back =>
        rw [hscan] at hih
        rcases hih with ⟨hsplit, hfront, hback⟩
        refine ⟨by rw [hsplit, cons_append], ?_, hback⟩
        intro q hq
        rcases mem_cons.mp hq with rfl | hq
        · exact hlt
        · exact hfront q hq
    · rw [if_neg hlt]
      by_cases heq : p.seq = seq
      · rw [if_pos heq]
        trivial
      · rw [if_neg heq]
        refine ⟨rfl, fun q hq => absurd hq not_mem_nil, ?_⟩
        intro q hq
        rcases mem_cons.mp hq with rfl | hq
        · omega
        · have hafter := hhead q hq
          omega

theorem increasing_insert {front back : List Upkt} {pkt : Upkt} (h : Increasing (front ++ back))
    (hfront : ∀ p ∈ front, p.seq < pkt.seq) (hback : ∀ p ∈ back, pkt.seq < p.seq) :
    Increasing (front ++ pkt :: back) := by
  rcases pairwise_append.mp h with ⟨hf, hb, hfb⟩
  refine pairwise_append.mpr ⟨hf, pairwise_cons.mpr ⟨hback, hb⟩, ?_⟩
  intro p hp q hq
  rcases mem_cons.mp hq with rfl | hq
  · exact hfront p hp
  · exact hfb p hp q hq

/-- All packets of an increasing list are at most its last one. -/
theorem Increasing.le_last {l : List Upkt} (h : Increasing l) {p q : Upkt} (hp : p ∈ l)
    (hq : q ∈ l.getLast?) : p.seq ≤ q.seq := by
  rcases getLast?_eq_some_iff.mp hq with ⟨front, rfl⟩
  rcases mem_append.mp hp with hp | hp
  · exact Nat.le_of_lt ((pairwise_append.mp h).2.2 p hp q mem_cons_self)
  · rw [mem_singleton.mp hp]

namespace RtRcv

variable {s s' : RtRcv} {pkt : Upkt}

theorem inv_init : init.Inv where
  increasing := List.Pairwise.nil
  head := fun _ h => (nomatch h)
  last := fun _ h => (nomatch h)
  fresh := fun _ => ⟨rfl, rfl, rfl⟩

/-- The missing packets play no part in the order. -/
theorem delivered_updateMissing (s : RtRcv) (seq : Nat) :
    (s.updateMissing seq).delivered = s.delivered ∧
      (s.updateMissing seq).nextSeqToDeliver = s.nextSeqToDeliver ∧
      (s.updateMissing seq).firstPktRcvd = s.firstPktRcvd := by
  unfold updateMissing
  split
  · exact ⟨rfl, rfl, rfl⟩
  split
  · exact ⟨rfl, rfl, rfl⟩
  · exact ⟨rfl, rfl, rfl⟩

/-- A packet behind all others. -/
theorem Inv.append (h : s.Inv) (hnew : s.firstPktRcvd = false ∨ s.highestSeqRecvd < pkt.seq) :
    Increasing (s.delivered ++ (s.latencyBuffer ++ [pkt])) := by
  rw [← append_assoc]
  refine pairwise_append.mpr ⟨h.increasing, pairwise_singleton _ _, ?_⟩
  intro p hp q hq
  rw [mem_singleton.mp hq]
  rcases hnew with hfresh | hlt
  · rcases h.fresh hfresh with ⟨hd, hb, -⟩
    rw [hd, hb] at hp
    cases hp
  · cases hlast : (s.delivered ++ s.latencyBuffer).getLast? with
    | none =>
      rw [getLast?_eq_none_iff.mp hlast] at hp
      cases hp
    | some q =>
      have hle := h.increasing.le_last hp hlast
      rw [h.last q hlast] at hle
      omega

/-- The state after a packet, for a buffer that is in order again. -/
theorem inv_stored {s₁ : RtRcv} {buffer : List Upkt} {seq high : Nat}
    (hincreasing : Increasing (s₁.delivered ++ buffer))
    (hhead : ∀ p ∈ buffer.head?, p.seq = s₁.nextSeqToDeliver)
    (hlast : ∀ p ∈ (s₁.delivered ++ buffer).getLast?, p.seq = high)
    (hfirst : s₁.firstPktRcvd = true) :
    Inv { s₁.updateMissing seq with highestSeqRecvd := high, latencyBuffer := buffer } := by
  rcases delivered_updateMissing s₁ seq with ⟨hd, hn, hf⟩
  constructor
  case increasing =>
    dsimp only
    rw [hd]
    exact hincreasing
  case head =>
    dsimp only
    rw [hn]
    exact hhead
  case last =>
    dsimp only
    rw [hd]
    exact hlast
  case fresh =>
    intro hfalse
    dsimp only at hfalse
    rw [hf, hfirst] at hfalse
    cases hfalse

theorem getLast?_append_singleton (l : List Upkt) (b : List Upkt) (pkt : Upkt) :
    (l ++ (b ++ [pkt])).getLast? = some pkt := by
  rw [← append_assoc]
  exact getLast?_concat

/-- A packet at an empty buffer. -/
theorem Inv.recvEmpty (h : s.Inv) (hempty : s.latencyBuffer = [])
    (hnew : s.firstPktRcvd = false ∨ s.highestSeqRecvd < pkt.seq)
    (hrecv : s.recvData pkt = some s') : s'.Inv := by
  have hold : ¬ IsOld { s with firstPktRcvd := true, nextSeqToDeliver := pkt.seq } pkt.seq :=
    fun hold => Nat.lt_irrefl _ hold.1
  have hhigh : pkt.seq ≥ s.highestSeqRecvd := by
    rcases hnew with hfresh | hlt
    · rw [(h.fresh hfresh).2.2]
      exact Nat.zero_le _
    · exact Nat.le_of_lt hlt
  unfold recvData beginDelivery at hrecv
  dsimp only at hrecv
  rw [if_pos hempty] at hrecv
  unfold place at hrecv
  rw [if_neg hold] at hrecv
  dsimp only at hrecv
  rw [if_pos (Nat.le_refl _), if_pos hhigh] at hrecv
  cases hrecv
  refine inv_stored (h.append hnew) ?_ ?_ rfl
  · intro p hp
    dsimp only at hp ⊢
    rw [hempty] at hp
    cases hp
    rfl
  · intro p hp
    dsimp only at hp
    rw [getLast?_append_singleton] at hp
    cases hp
    rfl

/-- A packet at packets in the buffer. -/
theorem Inv.recvWaiting (h : s.Inv) {first : Upkt} {rest : List Upkt}
    (hbuffer : s.latencyBuffer = first :: rest) (hnext : pkt.seq ≠ s.nextSeqToDeliver)
    (hhighest : pkt.seq ≠ s.highestSeqRecvd) (hrecv : s.recvData pkt = some s') : s'.Inv := by
  have hwaiting : ¬ s.latencyBuffer = [] := by
    rw [hbuffer]
    exact cons_ne_nil _ _
  have hhead : first.seq = s.nextSeqToDeliver := h.head first (by rw [hbuffer]; rfl)
  rcases isSome_iff_exists.mp (getLast?_isSome.mpr hwaiting) with ⟨last, hlast'⟩
  have hlastMem : last ∈ (s.delivered ++ s.latencyBuffer).getLast? := by
    rw [getLast?_append_of_ne_nil _ hwaiting]
    exact hlast'
  have hlast : last.seq = s.highestSeqRecvd := h.last last hlastMem
  have hbufferIncreasing : Increasing s.latencyBuffer := (pairwise_append.mp h.increasing).2.1
  have hle : first.seq ≤ last.seq :=
    hbufferIncreasing.le_last (by rw [hbuffer]; exact mem_cons_self) hlast'
  unfold recvData beginDelivery at hrecv
  dsimp only at hrecv
  rw [if_neg hwaiting] at hrecv
  rcases map_eq_some_iff.mp hrecv with ⟨buffer, hplace, rfl⟩
  unfold place at hplace
  by_cases hold : s.IsOld pkt.seq
  · -- the packet belongs between the head of the buffer and the last packet
    have hold' : IsOld { s with firstPktRcvd := true } pkt.seq := hold
    have hhigh : ¬ pkt.seq ≥ s.highestSeqRecvd := Nat.not_le.mpr hold.2
    rw [if_pos hold'] at hplace
    rw [if_neg hhigh]
    have hscan := scan_spec pkt.seq hbufferIncreasing
    dsimp only at hplace
    cases hresult : scan pkt.seq s.latencyBuffer with
    | isDup =>
      rw [hresult] at hplace
      cases hplace
      exact inv_stored h.increasing h.head h.last rfl
    | notFound =>
      rw [hresult] at hscan
      have hlt := hscan last (mem_of_getLast? hlast')
      have hsecond := hold.2
      omega
    | targetFound front back =>
      rw [hresult] at hscan hplace
      rcases hscan with ⟨hsplit, hfront, hback⟩
      cases front with
      | nil => cases hplace
      | cons f front =>
        cases hplace
        have hfirst : f = first := by
          rw [hbuffer] at hsplit
          exact (List.cons.inj hsplit).1.symm
        have hbackNe : back ≠ [] := by
          rintro rfl
          rw [hsplit, append_nil] at hlast'
          have hlt := hfront last (mem_of_getLast? hlast')
          have hsecond := hold.2
          omega
        refine inv_stored ?_ ?_ ?_ rfl
        · have hall := h.increasing
          rw [hsplit, ← append_assoc] at hall
          have hins := increasing_insert hall ?_ hback
          · rwa [append_assoc] at hins
          · intro p hp
            rcases mem_append.mp hp with hp | hp
            · have hdelivered := (pairwise_append.mp h.increasing).2.2 p hp first
                (by rw [hbuffer]; exact mem_cons_self)
              have hfirstOld := hold.1
              omega
            · exact hfront p hp
        · intro p hp
          cases hp
          rw [hfirst]
          exact hhead
        · intro p hp
          refine h.last p ?_
          rw [hsplit]
          rw [← append_assoc, getLast?_append_of_ne_nil _ hbackNe]
          rwa [← append_assoc, getLast?_append_of_ne_nil _ (cons_ne_nil _ _),
            getLast?_cons_of_ne_nil hbackNe] at hp
  · have hold' : ¬ IsOld { s with firstPktRcvd := true } pkt.seq := hold
    rw [if_neg hold'] at hplace
    cases hplace
    by_cases hafter : s.highestSeqRecvd < pkt.seq
    · -- behind the last packet
      have hge : pkt.seq ≥ s.nextSeqToDeliver := by omega
      have hhigh : pkt.seq ≥ s.highestSeqRecvd := Nat.le_of_lt hafter
      rw [if_pos hge, if_pos hhigh]
      refine inv_stored (h.append (.inr hafter)) ?_ ?_ rfl
      · intro p hp
        refine h.head p ?_
        dsimp only at hp
        rw [hbuffer] at hp ⊢
        exact hp
      · intro p hp
        dsimp only at hp
        rw [getLast?_append_singleton] at hp
        cases hp
        rfl
    · -- too late
      have hlate : ¬ pkt.seq ≥ s.nextSeqToDeliver := by
        intro hge
        exact hold ⟨by omega, by omega⟩
      have hhigh : ¬ pkt.seq ≥ s.highestSeqRecvd := by omega
      rw [if_neg hlate, if_neg hhigh]
      exact inv_stored h.increasing h.head h.last rfl

theorem Inv.recvData (h : s.Inv) (htimely : Timely s pkt) (hrecv : s.recvData pkt = some s') :
    s'.Inv := by
  unfold Timely at htimely
  by_cases hempty : s.latencyBuffer = []
  · rw [if_pos hempty] at htimely
    exact h.recvEmpty hempty htimely hrecv
  · rw [if_neg hempty] at htimely
    rcases exists_cons_of_ne_nil hempty with ⟨first, rest, hbuffer⟩
    exact h.recvWaiting hbuffer htimely.1 htimely.2 hrecv

theorem Inv.deliver (h : s.Inv) (hdeliver : s.deliver = some s') : s'.Inv := by
  unfold RtRcv.deliver at hdeliver
  cases hbuffer : s.latencyBuffer with
  | nil =>
    rw [hbuffer] at hdeliver
    cases hdeliver
  | cons p rest =>
    rw [hbuffer] at hdeliver
    cases hdeliver
    have hsame : s.delivered ++ [p] ++ rest = s.delivered ++ s.latencyBuffer := by
      rw [hbuffer, append_assoc]
      rfl
    constructor
    case increasing =>
      dsimp only
      rw [hsame]
      exact h.increasing
    case head =>
      intro q hq
      cases rest with
      | nil => cases hq
      | cons q' rest =>
        cases hq
        rfl
    case last =>
      dsimp only
      rw [hsame]
      exact h.last
    case fresh =>
      intro hfresh
      have hempty := (h.fresh hfresh).2.1
      rw [hbuffer] at hempty
      cases hempty

theorem Inv.turn (h : s.Inv) {e : Option Upkt × Bool} (htimely : TimelyTurn s e)
    (hturn : s.turn e.1 e.2 = some s') : s'.Inv := by
  unfold RtRcv.turn at hturn
  rcases bind_eq_some_iff.mp hturn with ⟨s₁, harrival, hrest⟩
  have h₁ : s₁.Inv := by
    cases hpkt : e.1 with
    | none =>
      rw [hpkt] at harrival
      cases harrival
      exact h
    | some pkt =>
      rw [hpkt] at harrival
      exact h.recvData (htimely pkt hpkt) harrival
  split at hrest
  · exact h₁.deliver hrest
  · cases hrest
    exact h₁

end RtRcv

/-- In every run of timely packets, what is delivered is in order and nothing is
delivered twice. -/
theorem delivered_increasing {s : RtRcv} (h : rtRcvSystem.ReachableBy TimelyTurn s) :
    (s.delivered.map Upkt.seq).Pairwise (· < ·) := by
  have hinv : s.Inv := by
    refine TransitionSystem.ReachableBy.invariant RtRcv.Inv ?_ ?_ h
    · rintro s rfl
      exact RtRcv.inv_init
    · intro s e s' hinv htimely hnext
      exact hinv.turn htimely hnext
  exact pairwise_map.mpr (pairwise_append.mp hinv.increasing).1

/-- A packet that is lost and sent again, twice, and one that comes too late. -/
def retransmissionRun : List (Option Upkt × Bool) :=
  [(some ⟨0, [1]⟩, false), (some ⟨2, [3]⟩, false), (some ⟨1, [2]⟩, false), (some ⟨1, [2]⟩, true),
    (some ⟨0, [1]⟩, true), (none, true), (some ⟨3, [4]⟩, false), (none, true)]

theorem delivered_increasing_retransmissionRun :
    ∃ s, rtRcvSystem.ReachableBy TimelyTurn s ∧ s.delivered.map Upkt.seq = [0, 1, 2, 3] ∧
      (s.delivered.map Upkt.seq).Pairwise (· < ·) := by
  have hrun : TransitionSystem.runMeets (fun s e => RtRcv.turn s e.1 e.2)
      (fun s e => decide (TimelyTurn s e))
      (fun s => decide (s.delivered.map Upkt.seq = [0, 1, 2, 3])) retransmissionRun RtRcv.init =
        true := by
    decide
  rcases TransitionSystem.exists_of_runMeets (S := rtRcvSystem) (fun _ _ _ hnext => hnext)
    (fun _ _ hcheck => of_decide_eq_true hcheck) (.init rfl) hrun with ⟨s, hs, hseq⟩
  exact ⟨s, hs, of_decide_eq_true hseq, delivered_increasing hs⟩

/-- A copy of the newest packet is delivered a second time, and an old packet that
arrives at an empty buffer is delivered after a newer one. -/
theorem not_delivered_increasing :
    (∃ s, rtRcvSystem.Reachable s ∧ s.delivered.map Upkt.seq = [0, 0]) ∧
      ∃ s, rtRcvSystem.Reachable s ∧ s.delivered.map Upkt.seq = [1, 0] := by
  have hcopy : TransitionSystem.runMeets (fun s e => RtRcv.turn s e.1 e.2) (fun _ _ => true)
      (fun s => decide (s.delivered.map Upkt.seq = [0, 0]))
      [(some ⟨0, []⟩, false), (some ⟨0, []⟩, true), (none, true)] RtRcv.init = true := by
    decide
  have hlate : TransitionSystem.runMeets (fun s e => RtRcv.turn s e.1 e.2) (fun _ _ => true)
      (fun s => decide (s.delivered.map Upkt.seq = [1, 0]))
      [(some ⟨1, []⟩, false), (none, true), (some ⟨0, []⟩, false), (none, true)] RtRcv.init =
        true := by
    decide
  have hinit : rtRcvSystem.Reachable RtRcv.init := .init rfl
  rcases TransitionSystem.exists_of_runMeets (fun _ _ _ hnext => hnext) (fun _ _ _ => trivial) hinit
    hcopy with ⟨s, hs, hseq⟩
  rcases TransitionSystem.exists_of_runMeets (fun _ _ _ hnext => hnext) (fun _ _ _ => trivial) hinit
    hlate with ⟨s', hs', hseq'⟩
  exact ⟨⟨s, hs, of_decide_eq_true hseq⟩, s', hs', of_decide_eq_true hseq'⟩

end PittCs.Stream
