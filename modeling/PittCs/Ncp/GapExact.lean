import PittCs.Lib.TransitionSystem
import PittCs.Ncp.GapNodes
import PittCs.Ncp.ReceiverInv

/-!
# The gap list is exact

The gaps are the numbers above the window, up to the greatest one received, that have not
been received. This is shown for the receiver with unbounded numbers and any packets. The
program itself has its gaps in linked nodes and its numbers in 32 bits; it does the same
until an addition wraps, which takes the packet with the greatest number there is.
-/

namespace PittCs.Ncp

open PittCs.Lib List Option

/-! ## Unbounded numbers -/

namespace Receiver

/-- A data packet, as far as window, gaps, buffer and greatest number go. -/
def take (r : Receiver) (pkt : Upkt) : Receiver :=
  let r := (r.takePkt pkt).1
  { r with
    greatestRecvdSeq := if pkt.seq > r.greatestRecvdSeq then pkt.seq else r.greatestRecvdSeq }

end Receiver

theorem splitGap_found {list : GapList} (h : list.WellFormed) (p : Int) :
    (list.splitGap p).1 = true ↔ Covers list.nodes p := by
  unfold GapList.splitGap
  rcases splitNodes_spec h.sorted p with ⟨hnone, hcov⟩ | ⟨nodes', hsome, hcov, -, -⟩
  · simp [hnone, hcov]
  · simp [hsome, hcov]

theorem seq_mem_bufferInsert {buffer : RcvBuffer} {packet : Upkt} {x : BufferNode}
    (hx : x ∈ (buffer.bufferInsert packet).2.nodes) : x.seq = packet.seq ∨ x ∈ buffer.nodes := by
  simp only [RcvBuffer.bufferInsert] at hx
  split at hx
  · exact .inr hx
  · rename_i nodes hins
    rcases mem_insertNode hins hx with rfl | hmem
    · exact .inl rfl
    · exact .inr hmem

/-- The gaps of the receiver are exact, when `received` are the numbers of the packets
received so far and `greatest` is the greatest of them. -/
structure GapsExact (received : List Int) (greatest : Int) (r : Receiver) : Prop where
  low : -1 ≤ r.startOfWindow
  order : r.startOfWindow ≤ greatest
  top : greatest = -1 ∨ greatest ∈ received
  le : ∀ s ∈ received, s ≤ greatest
  buf : ∀ node ∈ r.buf.nodes, 0 ≤ node.seq ∧ node.seq ∈ received
  list : r.list.WellFormed
  covers : ∀ s, Covers r.list.nodes s ↔ r.startOfWindow < s ∧ s ≤ greatest ∧ s ∉ received

namespace GapsExact

variable {received : List Int} {greatest : Int} {r : Receiver} {pkt : Upkt}

theorem init (memory : Upkt) : GapsExact [] (-1) (Receiver.init memory) where
  low := Int.le_refl _
  order := Int.le_refl _
  top := .inl rfl
  le := fun _ h => absurd h not_mem_nil
  buf := fun _ h => absurd h not_mem_nil
  list := GapList.wellFormed_newList
  covers := by
    intro s
    refine iff_of_false not_covers_nil ?_
    rintro ⟨hlow, hhigh, -⟩
    have : (-1 : Int) < s := hlow
    omega

/-- Where the gaps may lie. -/
theorem bounds (h : GapsExact received greatest r) :
    ∀ g ∈ r.list.nodes, 0 ≤ g.start ∧ g.stop ≤ greatest := by
  intro g hg
  have hproper := h.list.sorted.proper g hg
  have hfirst := (h.covers g.start).mp ⟨g, hg, Int.le_refl _, hproper⟩
  have hlast := (h.covers (g.stop - 1)).mp ⟨g, hg, by omega, by omega⟩
  have hlow := h.low
  -- the greatest number was received, so it is in no gap
  have hne : g.stop - 1 ≠ greatest := by
    rintro heq
    rcases h.top with htop | htop
    · omega
    · exact hlast.2.2 (heq ▸ htop)
  omega

/-- The greatest number is one of an `int`, if all are. -/
theorem greatest_le (h : GapsExact received greatest r) (hrange : ∀ s ∈ received, s ≤ intMax) :
    greatest ≤ intMax := by
  rcases h.top with htop | htop
  · rw [htop]
    decide
  · exact hrange _ htop

theorem bounds_int (h : GapsExact received greatest r) (hgreatest : greatest ≤ intMax) :
    ∀ g ∈ r.list.nodes, 0 ≤ g.start ∧ g.stop ≤ intMax := by
  intro g hg
  have := h.bounds g hg
  omega

/-- Packets of the buffer are written: their numbers were received. -/
theorem drain {nodes : List BufferNode} (h : GapsExact received greatest r)
    (hnodes : r.buf.nodes = nodes) :
    GapsExact received greatest (Receiver.drain nodes r) := by
  induction nodes generalizing r with
  | nil => exact h
  | cons head rest ih =>
    unfold Receiver.drain
    by_cases hseq : head.seq = r.startOfWindow + 1
    case neg =>
        rw [if_neg hseq]
        exact h
    case pos =>
        rw [if_pos hseq]
        have hfree : r.buf.freeHead.nodes = rest := by
          unfold RcvBuffer.freeHead
          rw [hnodes]
        have hmem := (h.buf head (hnodes ▸ mem_cons_self)).2
        have hlow := h.low
        refine ih ⟨?_, h.le _ hmem, h.top, h.le, ?_, h.list, ?_⟩ hfree
        · show -1 ≤ head.seq
          omega
        · intro node hnode
          refine h.buf node ?_
          have hrest : node ∈ rest := hfree ▸ hnode
          rw [hnodes]
          exact mem_cons_of_mem head hrest
        · intro s
          refine (h.covers s).trans ?_
          show r.startOfWindow < s ∧ s ≤ greatest ∧ s ∉ received ↔
            head.seq < s ∧ s ≤ greatest ∧ s ∉ received
          constructor
          · rintro ⟨hlt, hle, hnot⟩
            have hne : s ≠ head.seq := fun heq => hnot (heq ▸ hmem)
            exact ⟨by omega, hle, hnot⟩
          · rintro ⟨hlt, hle, hnot⟩
            exact ⟨by omega, hle, hnot⟩

/-- An old packet. -/
theorem discard (h : GapsExact received greatest r) {seq : Int} (hold : seq ≤ r.startOfWindow) :
    GapsExact (seq :: received) greatest r where
  low := h.low
  order := h.order
  top := h.top.imp_right (mem_cons_of_mem seq)
  le := by
    intro s hs
    rcases mem_cons.mp hs with rfl | hs
    · exact Int.le_trans hold h.order
    · exact h.le s hs
  buf := fun node hnode => ⟨(h.buf node hnode).1, mem_cons_of_mem _ (h.buf node hnode).2⟩
  list := h.list
  covers := by
    intro s
    rw [h.covers s, mem_cons, not_or]
    refine and_congr_right fun hlt => and_congr_right fun _ => ?_
    exact (and_iff_right (by omega)).symm

/-- The greatest number with another one. -/
theorem top_cons (h : GapsExact received greatest r) {seq : Int} (hseq : 0 ≤ seq) :
    max greatest seq = -1 ∨ max greatest seq ∈ seq :: received := by
  right
  rcases Int.le_total greatest seq with hle | hle
  · rw [Int.max_eq_right hle]
    exact mem_cons_self
  · rw [Int.max_eq_left hle]
    refine mem_cons_of_mem _ (h.top.resolve_left fun heq => ?_)
    omega

theorem le_cons (h : GapsExact received greatest r) {seq : Int} :
    ∀ s ∈ seq :: received, s ≤ max greatest seq := by
  intro s hs
  rcases mem_cons.mp hs with rfl | hs
  · exact Int.le_max_right _ _
  · exact Int.le_trans (h.le s hs) (Int.le_max_left _ _)

/-- The packet that follows the window. -/
theorem writePkt (h : GapsExact received greatest r) (hnext : r.startOfWindow + 1 = pkt.seq) :
    GapsExact (pkt.seq :: received) (max greatest pkt.seq) (r.writePkt pkt) := by
  have hlow := h.low
  have horder := h.order
  have hput : GapsExact (pkt.seq :: received) (max greatest pkt.seq)
      { r.put pkt.seq pkt.text with list := (r.list.splitGap pkt.seq).2 } := by
    constructor
    case low =>
      show -1 ≤ pkt.seq
      omega
    case order =>
      show pkt.seq ≤ max greatest pkt.seq
      omega
    case top => exact h.top_cons (by omega)
    case le => exact h.le_cons
    case buf =>
      exact fun node hnode => ⟨(h.buf node hnode).1, mem_cons_of_mem _ (h.buf node hnode).2⟩
    case list => exact (h.list.splitGap pkt.seq).1
    case covers =>
      intro s
      refine ((h.list.splitGap pkt.seq).2 s).trans ?_
      show Covers r.list.nodes s ∧ s ≠ pkt.seq ↔
        pkt.seq < s ∧ s ≤ max greatest pkt.seq ∧ s ∉ pkt.seq :: received
      rw [h.covers s, mem_cons, not_or]
      constructor
      · rintro ⟨⟨hlt, hle, hnot⟩, hne⟩
        exact ⟨by omega, by omega, hne, hnot⟩
      · rintro ⟨hlt, hle, hne, hnot⟩
        exact ⟨⟨by omega, by omega, hnot⟩, hne⟩
  exact hput.drain rfl

/-- A packet ahead of the window. -/
theorem savePkt (h : GapsExact received r.greatestRecvdSeq r)
    (hahead : r.startOfWindow + 1 < pkt.seq) :
    GapsExact (pkt.seq :: received) (max r.greatestRecvdSeq pkt.seq) (r.savePkt pkt).1 := by
  have hlow := h.low
  have horder := h.order
  have hsplit := h.list.splitGap pkt.seq
  have hfound := splitGap_found h.list pkt.seq
  have htop : max r.greatestRecvdSeq pkt.seq = -1 ∨
      max r.greatestRecvdSeq pkt.seq ∈ pkt.seq :: received := h.top_cons (by omega)
  have hmax : ∀ s ∈ pkt.seq :: received, s ≤ max r.greatestRecvdSeq pkt.seq := h.le_cons
  have hbuf : ∀ node ∈ (r.buf.bufferInsert pkt).2.nodes,
      0 ≤ node.seq ∧ node.seq ∈ pkt.seq :: received := by
    intro node hnode
    rcases seq_mem_bufferInsert hnode with hseq | hold
    · exact ⟨by omega, hseq ▸ mem_cons_self⟩
    · exact ⟨(h.buf node hold).1, mem_cons_of_mem _ (h.buf node hold).2⟩
  simp only [Receiver.savePkt]
  split
  case isTrue hgap =>
    -- all numbers between the greatest one so far and the packet are missing
    have hend : ∀ x ∈ (r.list.splitGap pkt.seq).2.nodes, x.stop ≤ r.greatestRecvdSeq + 1 := by
      intro x hx
      have hproper := hsplit.1.sorted.proper x hx
      have hlast := (hsplit.2 (x.stop - 1)).mp ⟨x, hx, by omega, by omega⟩
      have := (h.covers _).mp hlast.1
      omega
    refine ⟨hlow, by show r.startOfWindow ≤ _; omega, htop, hmax, hbuf,
      hsplit.1.insert hgap.2 hend, fun s => ?_⟩
    show Covers ((r.list.splitGap pkt.seq).2.nodes ++ [⟨r.greatestRecvdSeq + 1, pkt.seq⟩]) s ↔
      r.startOfWindow < s ∧ s ≤ max r.greatestRecvdSeq pkt.seq ∧ s ∉ pkt.seq :: received
    rw [covers_append, hsplit.2 s, h.covers s, covers_cons, or_iff_left not_covers_nil,
      mem_cons, not_or]
    constructor
    · rintro (⟨⟨hlt, hle, hnot⟩, hne⟩ | ⟨hstart, hstop⟩)
      · exact ⟨hlt, by omega, hne, hnot⟩
      · have hstart' : r.greatestRecvdSeq + 1 ≤ s := hstart
        have hstop' : s < pkt.seq := hstop
        refine ⟨by omega, by omega, by omega, fun hmem => ?_⟩
        have := h.le s hmem
        omega
    · rintro ⟨hlt, hle, hne, hnot⟩
      by_cases hold : s ≤ r.greatestRecvdSeq
      · exact .inl ⟨⟨hlt, hold, hnot⟩, hne⟩
      · refine .inr ⟨?_, ?_⟩
        · show r.greatestRecvdSeq + 1 ≤ s
          omega
        · show s < pkt.seq
          omega
  case isFalse hgap =>
    refine ⟨hlow, by show r.startOfWindow ≤ _; omega, htop, hmax, hbuf, hsplit.1, fun s => ?_⟩
    show Covers (r.list.splitGap pkt.seq).2.nodes s ↔
      r.startOfWindow < s ∧ s ≤ max r.greatestRecvdSeq pkt.seq ∧ s ∉ pkt.seq :: received
    -- a packet that was in no gap is at most the next one after the greatest
    have hnext : pkt.seq ≤ r.greatestRecvdSeq + 1 := by
      by_contra hlt
      refine hgap ⟨fun hcov => ?_, by omega⟩
      have := (h.covers _).mp (hfound.mp hcov)
      omega
    rw [hsplit.2 s, h.covers s, mem_cons, not_or]
    constructor
    · rintro ⟨⟨hlt, hle, hnot⟩, hne⟩
      exact ⟨hlt, by omega, hne, hnot⟩
    · rintro ⟨hlt, hle, hne, hnot⟩
      exact ⟨⟨hlt, by omega, hnot⟩, hne⟩

/-- Any packet at all. -/
theorem take (h : GapsExact received r.greatestRecvdSeq r) (pkt : Upkt) :
    GapsExact (pkt.seq :: received) (r.take pkt).greatestRecvdSeq (r.take pkt) := by
  have hgreatest : (r.take pkt).greatestRecvdSeq = max r.greatestRecvdSeq pkt.seq := by
    simp only [Receiver.take, ReceiverInv.takePkt_greatest]
    split <;> omega
  have htake : GapsExact (pkt.seq :: received) (max r.greatestRecvdSeq pkt.seq)
      (r.takePkt pkt).1 := by
    have horder := h.order
    unfold Receiver.takePkt
    split
    case isTrue hold =>
      have hmax : max r.greatestRecvdSeq pkt.seq = r.greatestRecvdSeq := Int.max_eq_left (by omega)
      rw [hmax]
      exact h.discard hold
    case isFalse hnew =>
      split
      case isTrue hnext => exact h.writePkt hnext
      case isFalse hnext => exact h.savePkt (by omega)
  rw [hgreatest]
  exact { htake with }

end GapsExact

/-! ## The compiled program -/

/-- The variables of `rcv` that the gaps depend on. -/
structure GapReceiver where
  startOfWindow : Int
  greatestRecvdSeq : Int
  list : NodeList
  buf : RcvBuffer

namespace GapReceiver

/-- After INIT. -/
def init : GapReceiver where
  startOfWindow := -1
  greatestRecvdSeq := -1
  list := NodeList.newList
  buf := RcvBuffer.newBuffer

/-- The loop that writes the packets of the buffer that directly follow. -/
def drain : List BufferNode → GapReceiver → GapReceiver
  | [], r => r
  | head :: rest, r =>
    if head.seq = toInt (r.startOfWindow + 1) then
      drain rest { r with startOfWindow := head.seq, buf := r.buf.freeHead }
    else r

/-- The branch of `main` for data packets. One node at most is allocated, at `addr`. -/
def takePkt (r : GapReceiver) (pkt : Upkt) (addr : Nat) : Option GapReceiver :=
  if pkt.seq ≤ r.startOfWindow then some r
  else if toInt (r.startOfWindow + 1) = pkt.seq then do
    let r := { r with startOfWindow := pkt.seq }
    let (_, list) ← r.list.splitGap addr pkt.seq
    let r := { r with list }
    some (drain r.buf.nodes r)
  else do
    let r := { r with buf := (r.buf.bufferInsert pkt).2 }
    let (found, list) ← r.list.splitGap addr pkt.seq
    let r := { r with list }
    if ¬ found ∧ pkt.seq > toInt (r.greatestRecvdSeq + 1) then do
      let list ← r.list.insert addr ⟨toInt (r.greatestRecvdSeq + 1), pkt.seq⟩
      some { r with list }
    else some r

/-- A data packet, and then the greatest number received. -/
def take (r : GapReceiver) (pkt : Upkt) (addr : Nat) : Option GapReceiver := do
  let r ← r.takePkt pkt addr
  some { r with
    greatestRecvdSeq := if pkt.seq > r.greatestRecvdSeq then pkt.seq else r.greatestRecvdSeq }

/-- The program agrees with the receiver of unbounded numbers. -/
structure Matches (r : GapReceiver) (R : Receiver) : Prop where
  startOfWindow : r.startOfWindow = R.startOfWindow
  greatestRecvdSeq : r.greatestRecvdSeq = R.greatestRecvdSeq
  buf : r.buf = R.buf
  nodes : ∃ ptrs, r.list.Holds ptrs R.list.nodes
  size : r.list.size = R.list.size

/-- The addition that finds the end of the known numbers does not wrap. It would for a
packet that is in the buffer already when the greatest number of all was received. -/
def NoWrap (r : GapReceiver) (received : List Int) (pkt : Upkt) : Prop :=
  ¬ (r.greatestRecvdSeq = intMax ∧ pkt.seq ∈ received ∧ r.startOfWindow + 1 < pkt.seq)

instance (r : GapReceiver) (received : List Int) (pkt : Upkt) :
    Decidable (r.NoWrap received pkt) :=
  inferInstanceAs (Decidable (¬ _))

variable {r r' : GapReceiver} {R : Receiver} {received : List Int} {greatest : Int} {pkt : Upkt}
  {addr : Nat}

theorem matches_init (memory : Upkt) : init.Matches (Receiver.init memory) where
  startOfWindow := rfl
  greatestRecvdSeq := rfl
  buf := rfl
  nodes := ⟨[], NodeList.holds_newList⟩
  size := rfl

theorem Matches.drain {nodes : List BufferNode} (h : r.Matches R)
    (hbuf : ∀ node ∈ nodes, 0 ≤ node.seq ∧ node.seq ≤ intMax) (hlow : -1 ≤ R.startOfWindow)
    (hhigh : R.startOfWindow ≤ intMax) :
    (GapReceiver.drain nodes r).Matches (Receiver.drain nodes R) := by
  induction nodes generalizing r R with
  | nil => exact h
  | cons head rest ih =>
    have hhead := hbuf head mem_cons_self
    have hsame : head.seq = toInt (r.startOfWindow + 1) ↔ head.seq = R.startOfWindow + 1 := by
      rw [h.startOfWindow]
      rcases Int.lt_or_eq_of_le hhigh with hlt | heq
      · rw [toInt_eq (by omega) (by omega)]
      · -- nothing follows the greatest number
        rw [heq]
        have hwrap : toInt (intMax + 1) < 0 := by decide
        have hmax : intMax < intMax + 1 := by omega
        exact iff_of_false (by omega) (by omega)
    unfold GapReceiver.drain Receiver.drain
    by_cases hseq : head.seq = R.startOfWindow + 1
    case neg =>
        rw [if_neg hseq, if_neg (fun heq => hseq (hsame.mp heq))]
        exact h
    case pos =>
        rw [if_pos hseq, if_pos (hsame.mpr hseq)]
        refine ih ?_ (fun node hnode => hbuf node (mem_cons_of_mem head hnode)) ?_ ?_
        · exact ⟨rfl, h.greatestRecvdSeq, by rw [h.buf], h.nodes, h.size⟩
        · show -1 ≤ head.seq
          omega
        · exact hhead.2

/-- Gaps whose numbers an `int` can hold are not too many to be counted by one. -/
theorem length_le_of_int {nodes : List Gap} (hsorted : GapsSorted nodes)
    (hint : ∀ g ∈ nodes, 0 ≤ g.start ∧ g.stop ≤ intMax) : (nodes.length : Int) ≤ intMax := by
  have hlen := hsorted.length_le (by decide : (0 : Int) ≤ intMax) hint
  omega

/-- `split_gap` in memory and on intervals. A list in which the point is in no gap is left
alone. -/
theorem Matches.splitGap (h : r.Matches R) (hlist : R.list.WellFormed)
    (hint : ∀ g ∈ R.list.nodes, 0 ≤ g.start ∧ g.stop ≤ intMax)
    (hfree : r.list.mem addr = none) (haddr : addr ≠ 0) (p : Int) :
    ∃ list', r.list.splitGap addr p = some ((R.list.splitGap p).1, list') ∧
      (∃ ptrs', list'.Holds ptrs' (R.list.splitGap p).2.nodes) ∧
      list'.size = (R.list.splitGap p).2.size ∧
      ((R.list.splitGap p).1 = false → list'.mem addr = none) := by
  rcases h.nodes with ⟨ptrs, hholds⟩
  have hsize : r.list.size = R.list.nodes.length := h.size.trans hlist.size
  have hbound : r.list.size ≤ intMax := hsize ▸ length_le_of_int hlist.sorted hint
  have hresult := hholds.splitGap hfree haddr hsize hbound hint p
  have hafter := hlist.splitGap p
  unfold GapList.splitGap at hafter ⊢
  cases hnodes : splitNodes p R.list.nodes with
  | none =>
    rw [hnodes] at hresult
    exact ⟨r.list, hresult, ⟨ptrs, hholds⟩, h.size, fun _ => hfree⟩
  | some nodes' =>
    rw [hnodes] at hresult
    rcases hresult with ⟨list', ptrs', hsplit, hholds', hsize'⟩
    simp only [hnodes] at hafter
    -- the new gaps lie in old ones
    have hint' : ∀ g ∈ nodes', 0 ≤ g.start ∧ g.stop ≤ intMax := by
      intro g hg
      have hproper := hafter.1.sorted.proper g hg
      rcases ((hafter.2 g.start).mp ⟨g, hg, Int.le_refl _, hproper⟩).1 with ⟨x, hx, hstart, _⟩
      rcases ((hafter.2 (g.stop - 1)).mp ⟨g, hg, by omega, by omega⟩).1 with ⟨y, hy, _, hstop⟩
      have hxint := hint x hx
      have hyint := hint y hy
      omega
    refine ⟨list', hsplit, ⟨ptrs', hholds'⟩, ?_, fun hfound => absurd hfound (by simp)⟩
    rw [hsize', toInt_eq (by omega) (length_le_of_int hafter.1.sorted hint')]
    exact hafter.1.size.symm

/-- The next number after the greatest one. -/
theorem toInt_greatest (h : GapsExact received greatest R) (hlt : greatest < intMax) :
    toInt (greatest + 1) = greatest + 1 := by
  have hlow := h.low
  have horder := h.order
  exact toInt_eq (by omega) (by omega)

/-- A packet ahead of the window, in the program and with unbounded numbers. -/
theorem Matches.takePkt_ahead (h : r.Matches R)
    (hexact : GapsExact received R.greatestRecvdSeq R) (hgreatest : R.greatestRecvdSeq ≤ intMax)
    (hseq : pkt.seq ≤ intMax) (hfree : r.list.mem addr = none) (haddr : addr ≠ 0)
    (hwrap : r.NoWrap received pkt) (hahead : R.startOfWindow + 1 < pkt.seq) :
    ∃ r', r.takePkt pkt addr = some r' ∧ r'.Matches (R.savePkt pkt).1 := by
  have hlow := hexact.low
  have horder := hexact.order
  have hint := hexact.bounds_int hgreatest
  have hafter := hexact.list.splitGap pkt.seq
  have hfound := splitGap_found hexact.list pkt.seq
  have hcount : (R.savePkt pkt).1.list.size ≤ intMax := by
    have hnew := hexact.savePkt hahead
    rw [hnew.list.size]
    exact length_le_of_int hnew.list.sorted (hnew.bounds_int (by omega))
  rcases h.splitGap hexact.list hint hfree haddr pkt.seq with
    ⟨list', hsplit, ⟨ptrs', hnodes'⟩, hsize', hfree'⟩
  unfold GapReceiver.takePkt
  rw [h.startOfWindow, if_neg (by omega), toInt_eq (by omega) (by omega), if_neg (by omega)]
  simp only [hsplit, bind_eq_bind, bind_some, Receiver.savePkt, h.greatestRecvdSeq,
    h.buf]
  rcases Int.lt_or_eq_of_le hgreatest with hlt | htop
  case inl =>
    rw [toInt_greatest hexact hlt]
    split
    case isTrue hgap =>
      rcases hnodes'.insert (hfree' (by simpa using hgap.1)) haddr
        ⟨R.greatestRecvdSeq + 1, pkt.seq⟩ with ⟨list'', hinsert, hnodes'', hsize''⟩
      rw [hinsert]
      refine ⟨_, rfl, rfl, rfl, rfl, ⟨_, hnodes''⟩, ?_⟩
      have hsize : (R.savePkt pkt).1.list.size = (R.list.splitGap pkt.seq).2.size + 1 := by
        simp only [Receiver.savePkt, if_pos hgap]
        rfl
      have hpos : 0 ≤ (R.list.splitGap pkt.seq).2.size := by
        rw [hafter.1.size]
        omega
      show list''.size = (R.list.splitGap pkt.seq).2.size + 1
      rw [hsize'', hsize', toInt_eq (by omega) (by omega)]
    case isFalse hgap => exact ⟨_, rfl, rfl, rfl, rfl, ⟨ptrs', hnodes'⟩, hsize'⟩
  case inr =>
    -- all numbers up to the greatest one are known, and this packet is missing
    have hmissing : pkt.seq ∉ received := by
      intro hmem
      refine hwrap ⟨h.greatestRecvdSeq.trans htop, hmem, ?_⟩
      rw [h.startOfWindow]
      exact hahead
    have hsplit : (R.list.splitGap pkt.seq).1 = true :=
      hfound.mpr ((hexact.covers pkt.seq).mpr ⟨by omega, by omega, hmissing⟩)
    rw [if_neg (fun hgap => hgap.1 hsplit), if_neg (fun hgap => hgap.1 hsplit)]
    exact ⟨_, rfl, rfl, rfl, rfl, ⟨ptrs', hnodes'⟩, hsize'⟩

/-- One packet, in the program and with unbounded numbers. -/
theorem Matches.take (h : r.Matches R) (hexact : GapsExact received R.greatestRecvdSeq R)
    (hrange : ∀ s ∈ received, s ≤ intMax) (hseq : pkt.seq ≤ intMax)
    (hfree : r.list.mem addr = none) (haddr : addr ≠ 0) (hwrap : r.NoWrap received pkt) :
    ∃ r', r.take pkt addr = some r' ∧ r'.Matches (R.take pkt) := by
  have hlow := hexact.low
  have horder := hexact.order
  have hgreatest := hexact.greatest_le hrange
  have htake : ∃ r', r.takePkt pkt addr = some r' ∧ r'.Matches (R.takePkt pkt).1 := by
    unfold Receiver.takePkt
    by_cases hold : pkt.seq ≤ R.startOfWindow
    case pos =>
      unfold GapReceiver.takePkt
      rw [h.startOfWindow, if_pos hold, if_pos hold]
      exact ⟨r, rfl, h⟩
    rw [if_neg hold]
    by_cases hnext : R.startOfWindow + 1 = pkt.seq
    case pos =>
      rcases h.splitGap hexact.list (hexact.bounds_int hgreatest) hfree haddr pkt.seq with
        ⟨list', hsplit, hnodes', hsize', -⟩
      unfold GapReceiver.takePkt Receiver.writePkt
      rw [h.startOfWindow, if_neg hold, toInt_eq (by omega) (by omega)]
      simp only [if_pos hnext, hsplit, bind_eq_bind, bind_some]
      refine ⟨_, rfl, ?_⟩
      rw [h.buf]
      refine Matches.drain ⟨rfl, h.greatestRecvdSeq, rfl, hnodes', hsize'⟩ ?_ ?_ hseq
      · intro node hnode
        exact ⟨(hexact.buf node hnode).1, hrange _ (hexact.buf node hnode).2⟩
      · show -1 ≤ pkt.seq
        omega
    case neg =>
      rw [if_neg hnext]
      exact h.takePkt_ahead hexact hgreatest hseq hfree haddr hwrap (by omega)
  rcases htake with ⟨r', hr', hmatches⟩
  unfold GapReceiver.take
  rw [hr']
  refine ⟨_, rfl, hmatches.startOfWindow, ?_, hmatches.buf, hmatches.nodes, hmatches.size⟩
  show (if pkt.seq > r'.greatestRecvdSeq then pkt.seq else r'.greatestRecvdSeq) = _
  rw [hmatches.greatestRecvdSeq]
  rfl

/-- When the addition wraps, a gap from the least `int` on is inserted. -/
theorem Matches.take_wrap (h : r.Matches R) (hexact : GapsExact received R.greatestRecvdSeq R)
    (hrange : ∀ s ∈ received, s ≤ intMax) (hfree : r.list.mem addr = none) (haddr : addr ≠ 0)
    (hwrap : ¬ r.NoWrap received pkt) :
    ∃ r' ptrs gaps, r.take pkt addr = some r' ∧ r'.startOfWindow = R.startOfWindow ∧
      r'.list.Holds ptrs (gaps ++ [⟨toInt (intMax + 1), pkt.seq⟩]) := by
  rcases not_not.mp hwrap with ⟨htop, hmem, hahead⟩
  rw [h.startOfWindow] at hahead
  have hlow := hexact.low
  have hseq := hrange _ hmem
  have hfound : ¬ (R.list.splitGap pkt.seq).1 = true := fun hfound =>
    ((hexact.covers pkt.seq).mp ((splitGap_found hexact.list pkt.seq).mp hfound)).2.2 hmem
  have hleast : toInt (intMax + 1) < 0 := by decide
  rcases h.splitGap hexact.list (hexact.bounds_int (hexact.greatest_le hrange)) hfree haddr
    pkt.seq with ⟨list', hsplit, ⟨ptrs', hnodes'⟩, -, hfree'⟩
  rcases hnodes'.insert (hfree' (by simpa using hfound)) haddr ⟨toInt (intMax + 1), pkt.seq⟩ with
    ⟨list'', hinsert, hnodes'', -⟩
  unfold GapReceiver.take GapReceiver.takePkt
  rw [h.startOfWindow, if_neg (by omega), toInt_eq (by omega) (by omega), if_neg (by omega)]
  simp only [hsplit, htop, bind_eq_bind, bind_some]
  rw [if_pos ⟨hfound, by omega⟩, hinsert]
  exact ⟨_, _, _, rfl, rfl, hnodes''⟩

end GapReceiver

/-! ## Runs -/

/-- The receiver on one connection, and the numbers of the data packets received. -/
structure GapRun where
  receiver : GapReceiver
  received : List Int

namespace GapRun

def init : GapRun := ⟨.init, []⟩

/-- A data packet can arrive whose number is an `int`; `addr` is a new address. -/
def Arrives (s : GapRun) (pkt : Upkt) (addr : Nat) : Prop :=
  -intMax - 1 ≤ pkt.seq ∧ pkt.seq ≤ intMax ∧ addr ≠ 0 ∧ s.receiver.list.mem addr = none

instance (s : GapRun) (pkt : Upkt) (addr : Nat) : Decidable (s.Arrives pkt addr) :=
  inferInstanceAs (Decidable (_ ∧ _))

def next (s : GapRun) : Upkt × Nat → Option GapRun
  | (pkt, addr) =>
    if s.Arrives pkt addr then
      (s.receiver.take pkt addr).map fun receiver => ⟨receiver, pkt.seq :: s.received⟩
    else none

/-- The condition of `GapReceiver.NoWrap`, for a step. -/
def KeepsExact (s : GapRun) (l : Upkt × Nat) : Prop :=
  s.receiver.NoWrap s.received l.1

instance (s : GapRun) (l : Upkt × Nat) : Decidable (s.KeepsExact l) :=
  inferInstanceAs (Decidable (s.receiver.NoWrap _ _))

/-- The list in memory is linked as it should be, counts its nodes, and holds sorted, disjoint
and non-empty gaps: the numbers above the window up to the greatest one that are missing. -/
def GapListExact (s : GapRun) : Prop :=
  ∃ ptrs gaps, s.receiver.list.Holds ptrs gaps ∧ GapsSorted gaps ∧
    s.receiver.list.size = gaps.length ∧
    ∀ q, Covers gaps q ↔ s.receiver.startOfWindow < q ∧ q ≤ s.receiver.greatestRecvdSeq ∧
      q ∉ s.received

/-- The run agrees with a receiver of unbounded numbers whose gaps are exact. -/
structure Ok (s : GapRun) : Prop where
  refines : ∃ R : Receiver, s.receiver.Matches R ∧ GapsExact s.received R.greatestRecvdSeq R
  range : ∀ q ∈ s.received, q ≤ intMax

variable {s s' : GapRun} {pkt : Upkt} {addr : Nat}

theorem Ok.exact (h : s.Ok) : s.GapListExact := by
  rcases h.refines with ⟨R, hmatches, hexact⟩
  rcases hmatches.nodes with ⟨ptrs, hnodes⟩
  refine ⟨ptrs, R.list.nodes, hnodes, hexact.list.sorted, hmatches.size.trans hexact.list.size, ?_⟩
  rw [hmatches.startOfWindow, hmatches.greatestRecvdSeq]
  exact hexact.covers

theorem ok_init (memory : Upkt) : init.Ok where
  refines := ⟨.init memory, GapReceiver.matches_init memory, .init memory⟩
  range := fun _ h => absurd h not_mem_nil

theorem next_eq {r' : GapReceiver} (harrives : s.Arrives pkt addr)
    (htake : s.receiver.take pkt addr = some r') :
    s.next (pkt, addr) = some ⟨r', pkt.seq :: s.received⟩ := by
  simp only [next]
  rw [if_pos harrives, htake]
  rfl

/-- A step that does not wrap. -/
theorem Ok.step (h : s.Ok) (harrives : s.Arrives pkt addr) (hkeeps : s.KeepsExact (pkt, addr)) :
    ∃ s', s.next (pkt, addr) = some s' ∧ s'.Ok := by
  rcases h.refines with ⟨R, hmatches, hexact⟩
  rcases harrives with ⟨hlow, hseq, haddr, hfree⟩
  rcases hmatches.take hexact h.range hseq hfree haddr hkeeps with ⟨r', htake, hmatches'⟩
  refine ⟨_, next_eq ⟨hlow, hseq, haddr, hfree⟩ htake,
    ⟨R.take pkt, hmatches', hexact.take pkt⟩, fun q hq => ?_⟩
  rcases mem_cons.mp hq with rfl | hq
  · exact hseq
  · exact h.range q hq

/-- A step that wraps: the new gap has numbers below the window. -/
theorem Ok.step_wrap (h : s.Ok) (harrives : s.Arrives pkt addr)
    (hwrap : ¬ s.KeepsExact (pkt, addr)) :
    ∃ s', s.next (pkt, addr) = some s' ∧ ¬ s'.GapListExact := by
  rcases h.refines with ⟨R, hmatches, hexact⟩
  rcases harrives with ⟨hlow, hseq, haddr, hfree⟩
  rcases hmatches.take_wrap hexact h.range hfree haddr hwrap with
    ⟨r', ptrs, gaps, htake, hstart, hholds⟩
  refine ⟨_, next_eq ⟨hlow, hseq, haddr, hfree⟩ htake, ?_⟩
  rintro ⟨ptrs', gaps', hholds', hsorted, -, hcovers⟩
  have hgaps : gaps ++ [⟨toInt (intMax + 1), pkt.seq⟩] = gaps' := hholds.unique hholds'
  have hmem : (⟨toInt (intMax + 1), pkt.seq⟩ : Gap) ∈ gaps' := by simp [← hgaps]
  have hcov : Covers gaps' (toInt (intMax + 1)) :=
    ⟨_, hmem, Int.le_refl _, hsorted.proper ⟨_, _⟩ hmem⟩
  have hbelow : r'.startOfWindow < toInt (intMax + 1) := ((hcovers _).mp hcov).1
  have hwindow := hexact.low
  have hleast : toInt (intMax + 1) < -1 := by decide
  omega

end GapRun

/-- The runs of the receiver. -/
def gapSystem : TransitionSystem GapRun (Upkt × Nat) where
  Init s := s = .init
  Next s l s' := s.next l = some s'

theorem GapRun.ok_of_reachableBy {s : GapRun} (h : gapSystem.ReachableBy GapRun.KeepsExact s) :
    s.Ok := by
  refine h.invariant GapRun.Ok ?_ ?_
  · rintro s rfl
    exact GapRun.ok_init ⟨0, 0, []⟩
  · rintro s ⟨pkt, addr⟩ s' hok hkeeps hnext
    have harrives : s.Arrives pkt addr := by
      by_contra hnot
      have hnone : s.next (pkt, addr) = none := if_neg hnot
      exact absurd (hnone.symm.trans hnext) (by simp)
    rcases hok.step harrives hkeeps with ⟨s'', hnext', hok'⟩
    exact some.inj (hnext'.symm.trans hnext) ▸ hok'

/-- In every run in which no addition wraps the gap list is exact; every packet is handled,
and the first one for which it wraps is followed by a list that is not exact. -/
theorem gap_list_exact_iff {s : GapRun} (h : gapSystem.ReachableBy GapRun.KeepsExact s) :
    s.GapListExact ∧ ∀ pkt addr, s.Arrives pkt addr →
      ∃ s', s.next (pkt, addr) = some s' ∧ (s'.GapListExact ↔ s.KeepsExact (pkt, addr)) := by
  have hok := GapRun.ok_of_reachableBy h
  refine ⟨hok.exact, fun pkt addr harrives => ?_⟩
  by_cases hkeeps : s.KeepsExact (pkt, addr)
  case pos =>
    rcases hok.step harrives hkeeps with ⟨s', hnext, hok'⟩
    exact ⟨s', hnext, iff_of_true hok'.exact hkeeps⟩
  case neg =>
    rcases hok.step_wrap harrives hkeeps with ⟨s', hnext, hnot⟩
    exact ⟨s', hnext, iff_of_false hnot hkeeps⟩

/-- Packets 5, 2 and 0 arrive: 1, 3 and 4 are missing. -/
theorem gap_list_exact_after_three :
    ∃ s : GapRun, s.received = [0, 2, 5] ∧ s.receiver.list.size = 2 ∧ s.GapListExact ∧
      ∃ s', s.next (⟨1, 0, []⟩, 4) = some s' ∧ s'.GapListExact := by
  have hrun : TransitionSystem.runMeets GapRun.next (fun s l => decide (s.KeepsExact l))
      (fun s => decide (s.received = [0, 2, 5] ∧ s.receiver.list.size = 2 ∧
        s.Arrives ⟨1, 0, []⟩ 4 ∧ s.KeepsExact (⟨1, 0, []⟩, 4)))
      [(⟨5, 0, []⟩, 1), (⟨2, 0, []⟩, 2), (⟨0, 0, []⟩, 3)] .init = true := by
    decide +kernel
  rcases TransitionSystem.exists_of_runMeets (S := gapSystem) (fun _ _ _ hnext => hnext)
    (fun _ _ hcheck => of_decide_eq_true hcheck) (.init rfl) hrun with ⟨s, hs, hp⟩
  rcases of_decide_eq_true hp with ⟨hreceived, hsize, harrives, hkeeps⟩
  rcases gap_list_exact_iff hs with ⟨hexact, hstep⟩
  rcases hstep _ _ harrives with ⟨s', hnext, hiff⟩
  exact ⟨s, hreceived, hsize, hexact, s', hnext, hiff.mpr hkeeps⟩

/-- The packet with the greatest number arrives twice before any other. -/
theorem not_gap_list_exact : ¬ ∀ s : GapRun, gapSystem.Reachable s → s.GapListExact := by
  intro hexact
  have hrun : TransitionSystem.runMeets GapRun.next (fun s l => decide (s.KeepsExact l))
      (fun s => decide (s.Arrives ⟨intMax, 0, []⟩ 2 ∧ ¬ s.KeepsExact (⟨intMax, 0, []⟩, 2)))
      [(⟨intMax, 0, []⟩, 1)] .init = true := by
    decide +kernel
  rcases TransitionSystem.exists_of_runMeets (S := gapSystem) (fun _ _ _ hnext => hnext)
    (fun _ _ hcheck => of_decide_eq_true hcheck) (.init rfl) hrun with ⟨s, hs, hp⟩
  rcases of_decide_eq_true hp with ⟨harrives, hwrap⟩
  rcases (GapRun.ok_of_reachableBy hs).step_wrap harrives hwrap with ⟨s', hnext, hnot⟩
  exact hnot (hexact s' (.step (hs.mono fun _ _ _ => trivial) trivial hnext))

end PittCs.Ncp
