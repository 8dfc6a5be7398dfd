import PittCs.Ncp.Receiver

/-!
# What the receiver keeps

The file holds the texts of the packets up to the window, in order. The buffer
has later packets, and no gap has a number that was received. Every message that
is prepared tells the truth about this.
-/

namespace PittCs.Ncp

open List

/-- The state of the receiver when packets `0` to `m - 1` exist, packet `k` with the
text `text k`, and `greatest` is the greatest number received. -/
structure ReceiverInv (text : Nat → List UInt8) (m : Nat) (greatest : Int) (r : Receiver) :
    Prop where
  low : -1 ≤ r.startOfWindow
  order : r.startOfWindow ≤ greatest
  high : greatest < m
  file : r.file = (List.range (r.startOfWindow + 1).toNat).flatMap text
  buf : ∀ node ∈ r.buf.nodes, ∃ k : Nat, node.seq = k ∧ node.seq ≤ greatest ∧ node.text = text k
  list : r.list.WellFormed
  gaps : ∀ s, Covers r.list.nodes s →
    r.startOfWindow < s ∧ s ≤ greatest ∧ ∀ node ∈ r.buf.nodes, node.seq ≠ s

/-- A message that was true when the window of the receiver was at most at `start`. -/
structure MsgOk (start : Int) (m : Nat) (msg : RcvMsg) : Prop where
  aru : 0 ≤ msg.aru ∧ msg.aru ≤ start + 1
  numGaps : msg.numGaps = msg.gaps.length
  gaps : ∀ g ∈ msg.gaps, 0 ≤ g.start ∧ g.stop ≤ m

theorem MsgOk.mono {start start' : Int} {m m' : Nat} {msg : RcvMsg} (h : MsgOk start m msg)
    (hstart : start ≤ start') (hm : m ≤ m') : MsgOk start' m' msg where
  aru := ⟨h.aru.1, by have := h.aru.2; omega⟩
  numGaps := h.numGaps
  gaps := by
    intro g hg
    rcases h.gaps g hg with ⟨h₁, h₂⟩
    exact ⟨h₁, by omega⟩

namespace ReceiverInv

variable {text : Nat → List UInt8} {m : Nat} {greatest seq : Int} {r : Receiver}

theorem init (memory : Upkt) : ReceiverInv text m (-1) (Receiver.init memory) where
  low := Int.le_refl _
  order := Int.le_refl _
  high := by omega
  file := rfl
  buf := fun _ h => absurd h not_mem_nil
  list := GapList.wellFormed_newList
  gaps := fun _ h => absurd h not_covers_nil

/-- A later packet was received, and more packets may exist. -/
theorem mono (h : ReceiverInv text m greatest r) {m' : Nat} {greatest' : Int}
    (hle : greatest ≤ greatest') (hhigh : greatest' < m') : ReceiverInv text m' greatest' r where
  low := h.low
  order := Int.le_trans h.order hle
  high := hhigh
  file := h.file
  buf := by
    intro node hnode
    rcases h.buf node hnode with ⟨k, hk, hkle, htext⟩
    exact ⟨k, hk, Int.le_trans hkle hle, htext⟩
  list := h.list
  gaps := by
    intro s hs
    rcases h.gaps s hs with ⟨h₁, h₂, h₃⟩
    exact ⟨h₁, Int.le_trans h₂ hle, h₃⟩

/-- The next packet is written, when it is in no gap. -/
theorem put (h : ReceiverInv text m greatest r) {k : Nat}
    (hnext : r.startOfWindow + 1 = seq) (hk : seq = k) (hle : seq ≤ greatest)
    (hgap : ¬ Covers r.list.nodes seq) : ReceiverInv text m greatest (r.put seq (text k)) where
  low := by
    show -1 ≤ seq
    omega
  order := hle
  high := h.high
  file := by
    show r.file ++ text k = (List.range (seq + 1).toNat).flatMap text
    have hrange : (seq + 1).toNat = (r.startOfWindow + 1).toNat + 1 := by
      have := h.low
      omega
    have hlast : (r.startOfWindow + 1).toNat = k := by omega
    rw [hrange, range_succ, flatMap_append, ← h.file, flatMap_singleton, hlast]
  buf := h.buf
  list := h.list
  gaps := by
    intro s hs
    rcases h.gaps s hs with ⟨h₁, h₂, h₃⟩
    have hne : s ≠ seq := by
      rintro rfl
      exact hgap hs
    refine ⟨?_, h₂, h₃⟩
    show seq < s
    omega

/-- A number is taken out of the gaps. -/
theorem splitGap (h : ReceiverInv text m greatest r) (p : Int) :
    ReceiverInv text m greatest { r with list := (r.list.splitGap p).2 } where
  low := h.low
  order := h.order
  high := h.high
  file := h.file
  buf := h.buf
  list := (h.list.splitGap p).1
  gaps := fun s hs => h.gaps s (((h.list.splitGap p).2 s).mp hs).1

/-- Nodes leave the buffer. -/
theorem shrink (h : ReceiverInv text m greatest r) {buf : RcvBuffer}
    (hsub : ∀ node ∈ buf.nodes, node ∈ r.buf.nodes) :
    ReceiverInv text m greatest { r with buf } where
  low := h.low
  order := h.order
  high := h.high
  file := h.file
  buf := fun node hnode => h.buf node (hsub node hnode)
  list := h.list
  gaps := by
    intro s hs
    rcases h.gaps s hs with ⟨h₁, h₂, h₃⟩
    exact ⟨h₁, h₂, fun node hnode => h₃ node (hsub node hnode)⟩

theorem drain {nodes : List BufferNode} (h : ReceiverInv text m greatest r)
    (hnodes : r.buf.nodes = nodes) :
    ReceiverInv text m greatest (Receiver.drain nodes r) ∧
      r.startOfWindow ≤ (Receiver.drain nodes r).startOfWindow := by
  induction nodes generalizing r with
  | nil => exact ⟨h, Int.le_refl _⟩
  | cons head rest ih =>
    unfold Receiver.drain
    by_cases hseq : head.seq = r.startOfWindow + 1
    · rw [if_pos hseq]
      have hmem : head ∈ r.buf.nodes := by
        rw [hnodes]
        exact mem_cons_self
      rcases h.buf head hmem with ⟨k, hk, hle, htext⟩
      -- a packet in the buffer was received, so it is in no gap
      have hgap : ¬ Covers r.list.nodes head.seq := fun hs => (h.gaps _ hs).2.2 head hmem rfl
      have hput := h.put hseq.symm hk hle hgap
      have hfree : r.buf.freeHead.nodes = rest := by
        unfold RcvBuffer.freeHead
        rw [hnodes]
      have hsub : ∀ node ∈ r.buf.freeHead.nodes, node ∈ r.buf.nodes := by
        intro node hnode
        rw [hfree] at hnode
        rw [hnodes]
        exact mem_cons_of_mem head hnode
      rw [htext]
      rcases ih (hput.shrink hsub) hfree with ⟨hinv, hstart⟩
      refine ⟨hinv, Int.le_trans ?_ hstart⟩
      show r.startOfWindow ≤ head.seq
      omega
    · rw [if_neg hseq]
      exact ⟨h, Int.le_refl _⟩

/-- The gaps are between the window and the greatest number. -/
theorem gap_bound (h : ReceiverInv text m greatest r) {g : Gap} (hg : g ∈ r.list.nodes) :
    r.startOfWindow + 1 ≤ g.start ∧ g.stop ≤ m := by
  have hproper := h.list.sorted.proper g hg
  -- the first and the last number of the gap are missing
  have hfirst := h.gaps g.start ⟨g, hg, Int.le_refl _, hproper⟩
  have hlast := h.gaps (g.stop - 1) ⟨g, hg, by omega, by omega⟩
  have hhigh := h.high
  omega

/-- The message is true when the packets ahead of the window are few enough. -/
theorem prepareMessage (h : ReceiverInv text m greatest r)
    (hroom : (m : Int) ≤ r.startOfWindow + 1 + maxGaps) :
    MsgOk r.startOfWindow m r.prepareMessage := by
  have hbound : ∀ g ∈ r.list.nodes, r.startOfWindow + 1 ≤ g.start ∧ g.stop ≤ m :=
    fun g hg => h.gap_bound hg
  have hlow := h.low
  have horder := h.order
  have hhigh := h.high
  have hlen : (r.list.nodes.length : Int) ≤ m - (r.startOfWindow + 1) :=
    h.list.sorted.length_le (by omega) hbound
  have hall : r.list.nodes.take maxGaps = r.list.nodes := take_of_length_le (by omega)
  constructor
  case aru =>
    show 0 ≤ r.startOfWindow + 1 ∧ r.startOfWindow + 1 ≤ r.startOfWindow + 1
    omega
  case numGaps =>
    show r.list.size = ((r.list.nodes.take maxGaps).length : Int)
    rw [hall]
    exact h.list.size
  case gaps =>
    intro g hg
    have hmem : g ∈ r.list.nodes := mem_of_mem_take hg
    have := hbound g hmem
    omega

section Packet

variable {pkt : Upkt} {k : Nat}

theorem writePkt (h : ReceiverInv text m greatest r) (hnext : r.startOfWindow + 1 = pkt.seq)
    (hk : pkt.seq = k) (htext : pkt.text = text k) (hm : k < m) :
    ReceiverInv text m (max greatest pkt.seq) (r.writePkt pkt) ∧
      r.startOfWindow ≤ (r.writePkt pkt).startOfWindow := by
  have hmax : ReceiverInv text m (max greatest pkt.seq) r := by
    have := h.high
    exact h.mono (by omega) (by omega)
  have hgap : ¬ Covers (r.list.splitGap pkt.seq).2.nodes pkt.seq :=
    fun hs => (((h.list.splitGap pkt.seq).2 pkt.seq).mp hs).2 rfl
  have hput := (hmax.splitGap pkt.seq).put hnext hk (by omega) hgap
  rw [← htext] at hput
  rcases hput.drain rfl with ⟨hinv, hstart⟩
  refine ⟨hinv, Int.le_trans ?_ hstart⟩
  show r.startOfWindow ≤ pkt.seq
  omega

/-- The packet is saved; its number leaves the gaps. -/
theorem save (h : ReceiverInv text m greatest r) (hk : pkt.seq = k) (htext : pkt.text = text k)
    (hlen : pkt.payloadLen = pkt.text.length) (hm : k < m) :
    ReceiverInv text m (max greatest pkt.seq)
      { r with
        buf := (r.buf.bufferInsert pkt).2
        list := (r.list.splitGap pkt.seq).2 } := by
  have hnode : ∀ node ∈ (r.buf.bufferInsert pkt).2.nodes,
      (node.seq = pkt.seq ∧ node.text = pkt.text) ∨ node ∈ r.buf.nodes :=
    fun node hmem => mem_bufferInsert hlen hmem
  have horder := h.order
  have hhigh := h.high
  constructor
  case low => exact h.low
  case order =>
    show r.startOfWindow ≤ max greatest pkt.seq
    omega
  case high => omega
  case file => exact h.file
  case buf =>
    intro node hmem
    rcases hnode node hmem with ⟨hseq, hnodeText⟩ | hold
    · exact ⟨k, hseq.trans hk, by omega, hnodeText.trans htext⟩
    · rcases h.buf node hold with ⟨j, hj, hle, hnodeText⟩
      exact ⟨j, hj, by omega, hnodeText⟩
  case list => exact (h.list.splitGap pkt.seq).1
  case gaps =>
    intro s hs
    rcases ((h.list.splitGap pkt.seq).2 s).mp hs with ⟨hcov, hne⟩
    rcases h.gaps s hcov with ⟨h₁, h₂, h₃⟩
    refine ⟨h₁, by omega, ?_⟩
    intro node hmem
    rcases hnode node hmem with ⟨hseq, _⟩ | hold
    · rw [hseq]
      exact fun heq => hne heq.symm
    · exact h₃ node hold

/-- A new gap at the end. -/
theorem insertGap (h : ReceiverInv text m greatest r) {g : Gap} (hproper : g.start < g.stop)
    (hend : ∀ x ∈ r.list.nodes, x.stop ≤ g.start)
    (hnew : ∀ s, g.Has s →
      r.startOfWindow < s ∧ s ≤ greatest ∧ ∀ node ∈ r.buf.nodes, node.seq ≠ s) :
    ReceiverInv text m greatest { r with list := r.list.insert g } where
  low := h.low
  order := h.order
  high := h.high
  file := h.file
  buf := h.buf
  list := h.list.insert hproper hend
  gaps := by
    intro s hs
    rcases covers_append.mp hs with hs | hs
    · exact h.gaps s hs
    · rcases hs with ⟨x, hx, hs⟩
      rw [mem_singleton.mp hx] at hs
      exact hnew s hs

theorem savePkt (h : ReceiverInv text m r.greatestRecvdSeq r) (hk : pkt.seq = k)
    (htext : pkt.text = text k) (hlen : pkt.payloadLen = pkt.text.length) (hm : k < m)
    (hroom : (m : Int) ≤ r.startOfWindow + 1 + maxGaps) :
    ReceiverInv text m (max r.greatestRecvdSeq pkt.seq) (r.savePkt pkt).1 ∧
      (r.savePkt pkt).1.startOfWindow = r.startOfWindow ∧
      ∀ msg ∈ (r.savePkt pkt).2, MsgOk r.startOfWindow m msg := by
  have hsave := h.save hk htext hlen hm
  simp only [Receiver.savePkt]
  split
  · -- the numbers between the greatest one and the packet are a new gap
    rename_i hcond
    have hend : ∀ x ∈ (r.list.splitGap pkt.seq).2.nodes, x.stop ≤ r.greatestRecvdSeq + 1 := by
      intro x hx
      have hproper := hsave.list.sorted.proper x hx
      have hlast := (h.splitGap pkt.seq).gaps (x.stop - 1) ⟨x, hx, by omega, by omega⟩
      omega
    have hnew : ∀ s, Gap.Has ⟨r.greatestRecvdSeq + 1, pkt.seq⟩ s →
        r.startOfWindow < s ∧ s ≤ max r.greatestRecvdSeq pkt.seq ∧
          ∀ node ∈ (r.buf.bufferInsert pkt).2.nodes, node.seq ≠ s := by
      rintro s ⟨hstart, hstop⟩
      have hstart' : r.greatestRecvdSeq + 1 ≤ s := hstart
      have hstop' : s < pkt.seq := hstop
      have horder := h.order
      refine ⟨by omega, by omega, ?_⟩
      intro node hnode
      rcases mem_bufferInsert hlen hnode with ⟨hseq, _⟩ | hold
      · omega
      · rcases h.buf node hold with ⟨_, _, hle, _⟩
        omega
    have hinv := hsave.insertGap hcond.2 hend hnew
    refine ⟨{ hinv with }, rfl, ?_⟩
    intro msg hmsg
    rw [mem_singleton.mp hmsg]
    exact hinv.prepareMessage hroom
  · exact ⟨hsave, rfl, fun msg hmsg => absurd hmsg not_mem_nil⟩

theorem takePkt (h : ReceiverInv text m r.greatestRecvdSeq r) (hk : pkt.seq = k)
    (htext : pkt.text = text k) (hlen : pkt.payloadLen = pkt.text.length) (hm : k < m)
    (hroom : (m : Int) ≤ r.startOfWindow + 1 + maxGaps) :
    ReceiverInv text m (max r.greatestRecvdSeq pkt.seq) (r.takePkt pkt).1 ∧
      r.startOfWindow ≤ (r.takePkt pkt).1.startOfWindow ∧
      ∀ msg ∈ (r.takePkt pkt).2, MsgOk r.startOfWindow m msg := by
  unfold Receiver.takePkt
  by_cases hold : pkt.seq ≤ r.startOfWindow
  · rw [if_pos hold]
    have horder := h.order
    have hhigh := h.high
    exact ⟨h.mono (by omega) (by omega), Int.le_refl _, fun msg hmsg => absurd hmsg not_mem_nil⟩
  rw [if_neg hold]
  by_cases hnext : r.startOfWindow + 1 = pkt.seq
  · rw [if_pos hnext]
    rcases h.writePkt hnext hk htext hm with ⟨hinv, hstart⟩
    exact ⟨hinv, hstart, fun msg hmsg => absurd hmsg not_mem_nil⟩
  · rw [if_neg hnext]
    rcases h.savePkt hk htext hlen hm hroom with ⟨hinv, hstart, hmsgs⟩
    exact ⟨hinv, Int.le_of_eq hstart.symm, hmsgs⟩

end Packet

theorem drain_greatest (nodes : List BufferNode) (r : Receiver) :
    (Receiver.drain nodes r).greatestRecvdSeq = r.greatestRecvdSeq := by
  induction nodes generalizing r with
  | nil => rfl
  | cons head rest ih =>
    unfold Receiver.drain
    split
    · exact ih _
    · rfl

theorem takePkt_greatest (r : Receiver) (pkt : Upkt) :
    (r.takePkt pkt).1.greatestRecvdSeq = r.greatestRecvdSeq := by
  unfold Receiver.takePkt
  split
  · rfl
  split
  · exact drain_greatest _ _
  · simp only [Receiver.savePkt]
    split <;> rfl

/-- The greatest number is updated, and a reply is sent if it is time. -/
theorem finish (h : ReceiverInv text m (max r.greatestRecvdSeq seq) r)
    (hroom : (m : Int) ≤ r.startOfWindow + 1 + maxGaps) {msgs : List RcvMsg}
    (hmsgs : ∀ msg ∈ msgs, MsgOk r.startOfWindow m msg) (env : Env) (timeUp : Bool) :
    ReceiverInv text m (r.finish env seq timeUp msgs).1.greatestRecvdSeq
        (r.finish env seq timeUp msgs).1 ∧
      (r.finish env seq timeUp msgs).1.startOfWindow = r.startOfWindow ∧
      ∀ msg ∈ (r.finish env seq timeUp msgs).2, MsgOk r.startOfWindow m msg := by
  have hmax : (if seq > r.greatestRecvdSeq then seq else r.greatestRecvdSeq) =
      max r.greatestRecvdSeq seq := by
    split <;> omega
  simp only [Receiver.finish]
  rw [hmax]
  split
  · refine ⟨{ h with }, rfl, ?_⟩
    intro msg hmsg
    rcases mem_append.mp hmsg with hmsg | hmsg
    · exact hmsgs msg hmsg
    · rw [mem_singleton.mp hmsg]
      exact h.prepareMessage hroom
  · exact ⟨{ h with }, rfl, hmsgs⟩

/-- One packet that exists is in the packet memory, in whatever order they arrive. -/
theorem takePkt_finish (h : ReceiverInv text m r.greatestRecvdSeq r) {k : Nat}
    (hk : r.pkt.seq = k) (htext : r.pkt.text = text k) (hlen : r.pkt.payloadLen = r.pkt.text.length)
    (hm : k < m) (hroom : (m : Int) ≤ r.startOfWindow + 1 + maxGaps) (env : Env) (timeUp : Bool)
    {res : Receiver × List RcvMsg}
    (hres : (r.takePkt r.pkt).1.finish env r.pkt.seq timeUp (r.takePkt r.pkt).2 = res) :
    ReceiverInv text m res.1.greatestRecvdSeq res.1 ∧ r.startOfWindow ≤ res.1.startOfWindow ∧
      ∀ msg ∈ res.2, MsgOk res.1.startOfWindow m msg := by
  rcases h.takePkt hk htext hlen hm hroom with ⟨hinv, hstart, hmsgs⟩
  rw [← takePkt_greatest r r.pkt] at hinv
  have hmsgs' : ∀ msg ∈ (r.takePkt r.pkt).2, MsgOk (r.takePkt r.pkt).1.startOfWindow m msg :=
    fun msg hmsg => (hmsgs msg hmsg).mono hstart (Nat.le_refl m)
  rcases hinv.finish (by omega) hmsgs' env timeUp with ⟨hend, hsame, hall⟩
  rw [hres] at hend hsame hall
  refine ⟨hend, by omega, ?_⟩
  rw [hsame]
  exact hall

end ReceiverInv

end PittCs.Ncp
