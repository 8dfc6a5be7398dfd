import Mathlib.Data.List.TakeWhile
import PittCs.Chat.Clock

/-!
# What acks let a node forget

The rows of the sequence matrix are never ahead of what the nodes have really
received, so a packet leaves the buffer only after every node has handled it.
The own row of the timestamp matrix bounds the timestamps of everything that is
still to come, so nothing below the purged part of the log ever arrives.
-/

namespace PittCs.Chat

open PittCs.Lib Function List

variable {n : Nat}

/-! ## Minima -/

theorem foldl_le_init {α : Type} {g : Nat → α → Nat} (hg : ∀ acc x, g acc x ≤ acc)
    (l : List α) (a : Nat) : l.foldl g a ≤ a := by
  induction l generalizing a with
  | nil => exact Nat.le_refl a
  | cons x l ih => exact (ih (g a x)).trans (hg a x)

/-- A fold that only goes down is below what one of its elements brings it to. -/
theorem foldl_le_of_mem {α : Type} {g : Nat → α → Nat} (hg : ∀ acc x, g acc x ≤ acc)
    {l : List α} {x : α} (hx : x ∈ l) {b : Nat} (hb : ∀ acc, g acc x ≤ b) (a : Nat) :
    l.foldl g a ≤ b := by
  induction l generalizing a with
  | nil => cases hx
  | cons y l ih =>
    rcases mem_cons.mp hx with rfl | hx
    · exact (foldl_le_init hg l (g a x)).trans (hb a)
    · exact ih hx (g a y)

theorem foldl_min_le {α : Type} (f : α → Nat) {l : List α} {x : α} (hx : x ∈ l) (a : Nat) :
    l.foldl (fun acc y => min acc (f y)) a ≤ f x :=
  foldl_le_of_mem (fun acc y => Nat.min_le_left acc (f y)) hx
    (fun acc => Nat.min_le_right acc (f x)) a

theorem Node.minSeq_le (node : Node n) (j : Fin n) : node.minSeq ≤ node.seqMatrix j node.id :=
  foldl_min_le (fun i => node.seqMatrix i node.id) (mem_finRange j) maxsize

theorem Node.minTs_le (node : Node n) (i j : Fin n) : node.minTs ≤ node.tsMatrix i j := by
  refine foldl_le_of_mem ?_ (mem_finRange i) ?_ maxsize
  · intro acc k
    exact foldl_le_init (fun acc j => Nat.min_le_left acc (node.tsMatrix k j)) _ acc
  · intro acc
    exact foldl_min_le (node.tsMatrix i) (mem_finRange j) acc

/-! ## The matrices -/

structure MatrixInv (s : Cluster n) : Prop where
  rows : ∀ i k l, (s.node i).seqMatrix k l ≤ (s.node k).highestSeqRcvd l
  ownRow : ∀ i, (s.node i).tsMatrix i = (s.node i).highestTsRcvd
  acks : ∀ i k ts seq seqVector tsVector, s.Sent i (.ack k ts seq seqVector tsVector) →
    k ≠ i ∧ ∀ l, seqVector l ≤ (s.node k).highestSeqRcvd l

namespace MatrixInv

variable {s : Cluster n} {i : Fin n}

theorem init (start : Fin n → Nat) :
    MatrixInv { node := fun i => Node.init i (start i), trace := [] } where
  rows := fun _ _ _ => Nat.le_refl 0
  ownRow := fun _ => rfl
  acks := by
    rintro i k ts seq seqVector tsVector ⟨e, he, _⟩
    cases he

theorem quiet (h : MatrixInv s) (hd : DeliveryInv s) {node' : Node n} {events : List (Event n)}
    (hquiet : Quiet (s.node i) node') (hevents : ∀ e ∈ events, Harmless (s.node i) e) :
    MatrixInv (s.put i (node', events)) := by
  have hnode := fun j => (quiet_put hquiet hevents j).1
  constructor
  case rows =>
    intro j k l
    rw [(hnode k).highestSeqRcvd]
    rcases (hnode j).seqMatrix k with hrow | ⟨hk, hrow⟩
    · rw [hrow]
      exact h.rows j k l
    · -- the row was set to the live vector
      rw [hrow, hk, hd.id j]
  case ownRow =>
    intro j
    rw [(hnode j).highestTsRcvd]
    rcases (hnode j).tsMatrix j with hrow | ⟨_, hrow⟩
    · rw [hrow]
      exact h.ownRow j
    · exact hrow
  case acks =>
    intro j k ts seq seqVector tsVector hsent
    rw [(hnode k).highestSeqRcvd]
    rcases Cluster.sent_put.mp hsent with hsent | he
    · exact h.acks j k ts seq seqVector tsVector hsent
    · rcases hevents _ he with ⟨htarget, hk, _, _, hvector, _⟩
      refine ⟨hk ▸ htarget.symm, ?_⟩
      intro l
      rw [hvector, hk, hd.id i]

/-- A move that sets the own rows and in which no vector gets smaller. -/
theorem put (h : MatrixInv s) {r : Node n × List (Event n)} (hid : (s.node i).id = i)
    (hrcvd : ∀ l, (s.node i).highestSeqRcvd l ≤ r.1.highestSeqRcvd l)
    (hseqs : r.1.seqMatrix = Function.update (s.node i).seqMatrix (s.node i).id r.1.highestSeqRcvd)
    (htss : r.1.tsMatrix = Function.update (s.node i).tsMatrix (s.node i).id r.1.highestTsRcvd)
    (hevents : ∀ target pkt, .send target pkt ∉ r.2) : MatrixInv (s.put i r) := by
  rw [hid] at hseqs htss
  have hle : ∀ k l, (s.node k).highestSeqRcvd l ≤ ((s.put i r).node k).highestSeqRcvd l := by
    intro k l
    by_cases hk : k = i
    · subst hk
      rw [Cluster.put_node_self]
      exact hrcvd l
    · rw [Cluster.put_node_of_ne _ _ hk]
  constructor
  case rows =>
    intro j k l
    by_cases hj : j = i
    · subst hj
      rw [Cluster.put_node_self, hseqs]
      by_cases hk : k = j
      · subst hk
        rw [update_self, Cluster.put_node_self]
      · rw [update_of_ne hk]
        exact (h.rows j k l).trans (hle k l)
    · rw [Cluster.put_node_of_ne _ _ hj]
      exact (h.rows j k l).trans (hle k l)
  case ownRow =>
    intro j
    by_cases hj : j = i
    · subst hj
      rw [Cluster.put_node_self, htss, update_self]
    · rw [Cluster.put_node_of_ne _ _ hj]
      exact h.ownRow j
  case acks =>
    intro j k ts seq seqVector tsVector hsent
    rcases Cluster.sent_put.mp hsent with hsent | he
    · rcases h.acks j k ts seq seqVector tsVector hsent with ⟨hk, hvector⟩
      exact ⟨hk, fun l => (hvector l).trans (hle k l)⟩
    · exact absurd he (hevents _ _)

theorem takeVectors_ownRow {node : Node n} {senderId : Fin n} (seqVector tsVector : Fin n → Nat)
    (hsender : senderId ≠ node.id) :
    (node.takeVectors senderId seqVector tsVector).tsMatrix node.id = node.tsMatrix node.id := by
  unfold Node.takeVectors
  dsimp only
  split
  · rw [update_of_ne hsender.symm]
  · rfl

theorem takeTimestamp_ownRow {node : Node n} (senderId : Fin n) (ts seq : Nat)
    (h : node.tsMatrix node.id = node.highestTsRcvd) :
    (node.takeTimestamp senderId ts seq).tsMatrix node.id =
      (node.takeTimestamp senderId ts seq).highestTsRcvd := by
  unfold Node.takeTimestamp
  dsimp only
  by_cases hseq : node.highestSeqRcvd senderId = seq
  · rw [if_pos hseq, if_pos hseq, update_self]
  · rw [if_neg hseq, if_neg hseq]
    exact h

theorem handleAck_ownRow {node : Node n} {senderId : Fin n} (ts seq : Nat)
    (seqVector tsVector : Fin n → Nat) (hsender : senderId ≠ node.id)
    (h : node.tsMatrix node.id = node.highestTsRcvd) :
    (node.handleAck senderId ts seq seqVector tsVector).1.tsMatrix node.id =
      (node.handleAck senderId ts seq seqVector tsVector).1.highestTsRcvd := by
  have hvectors : (node.takeVectors senderId seqVector tsVector).tsMatrix node.id =
      (node.takeVectors senderId seqVector tsVector).highestTsRcvd :=
    (takeVectors_ownRow seqVector tsVector hsender).trans h
  exact takeTimestamp_ownRow senderId ts seq hvectors

theorem ack (h : MatrixInv s) (hd : DeliveryInv s) {senderId : Fin n} {ts seq : Nat}
    {seqVector tsVector : Fin n → Nat}
    (hsent : s.Sent i (.ack senderId ts seq seqVector tsVector)) :
    MatrixInv (s.put i ((s.node i).handleAck senderId ts seq seqVector tsVector)) := by
  rcases h.acks _ _ _ _ _ _ hsent with ⟨hsender, hvector⟩
  have hid := hd.id i
  generalize hr : (s.node i).handleAck senderId ts seq seqVector tsVector = r
  have hrcvd : ∀ k, ((s.put i r).node k).highestSeqRcvd = (s.node k).highestSeqRcvd := by
    intro k
    by_cases hk : k = i
    · subst hk
      rw [Cluster.put_node_self, ← hr]
      rfl
    · rw [Cluster.put_node_of_ne _ _ hk]
  constructor
  case rows =>
    intro j k l
    rw [hrcvd]
    by_cases hj : j = i
    · subst hj
      rw [Cluster.put_node_self, ← hr]
      show (if _ then _ else _ : Fin n → Fin n → Nat) k l ≤ _
      split
      · by_cases hk : k = senderId
        · subst hk
          rw [update_self]
          exact hvector l
        · rw [update_of_ne hk]
          exact h.rows j k l
      · exact h.rows j k l
    · rw [Cluster.put_node_of_ne _ _ hj]
      exact h.rows j k l
  case ownRow =>
    intro j
    by_cases hj : j = i
    · subst hj
      rw [Cluster.put_node_self, ← hr]
      -- the ack is of another node, so the own row stays
      have hown : (s.node j).tsMatrix (s.node j).id = (s.node j).highestTsRcvd := by
        rw [hid]
        exact h.ownRow j
      have hrow := handleAck_ownRow ts seq seqVector tsVector (hid.symm ▸ hsender) hown
      rw [hid] at hrow
      exact hrow
    · rw [Cluster.put_node_of_ne _ _ hj]
      exact h.ownRow j
  case acks =>
    intro j k ts' seq' seqVector' tsVector' hsent'
    rw [hrcvd]
    rcases Cluster.sent_put.mp hsent' with hsent' | he
    · exact h.acks j k ts' seq' seqVector' tsVector' hsent'
    · rw [← hr] at he
      cases mem_singleton.mp he

theorem moved (h : MatrixInv s) (hd : DeliveryInv s) {m : Move n} {s' : Cluster n}
    (hmove : Moved s m s') : MatrixInv s' := by
  cases hmove with
  | quiet hquiet hevents => exact h.quiet hd hquiet hevents
  | @broadcast i op store _ _ =>
    have hid := hd.id i
    refine h.put hid ?_ rfl rfl ?_
    · intro l
      show _ ≤ Function.update (s.node i).highestSeqRcvd (s.node i).id ((s.node i).seq + 1) l
      by_cases hl : l = i
      · subst hl
        rw [hid, update_self, hd.own]
        exact Nat.le_succ _
      · rw [hid, update_of_ne hl]
    · intro target pkt he
      cases mem_singleton.mp he
  | @handle i msg hsent hseq =>
    have hid := hd.id i
    refine h.put hid ?_ rfl rfl ?_
    · intro l
      show _ ≤ Function.update (s.node i).highestSeqRcvd msg.senderId msg.seq l
      by_cases hl : l = msg.senderId
      · subst hl
        rw [update_self, hseq]
        exact Nat.le_succ _
      · rw [update_of_ne hl]
    · intro target pkt he
      cases mem_singleton.mp he
  | ack hsent => exact h.ack hd hsent

end MatrixInv

theorem Reached.matrixInv {P : GroupStore → Operation → Prop} {s : Cluster n}
    (h : Reached P s) : MatrixInv s := by
  refine Reached.induction MatrixInv MatrixInv.init ?_ h
  intro s m s' hs hinv _ hmove
  exact hinv.moved hs.deliveryInv hmove


/-! ## What is purged is final -/

/-- A packet that a node handles or broadcasts after a purge is not below the purge. -/
def NotBelow (e e' : Fin n × Event n) : Prop :=
  ∀ i minTs fromBuf fromLog msg, e = (i, .purge minTs fromBuf fromLog) →
    e' = (i, .handlePacket msg) ∨ e' = (i, .broadcast msg) → minTs ≤ msg.ts

structure PurgeInv (s : Cluster n) : Prop where
  floor : ∀ i minTs fromBuf fromLog, (i, .purge minTs fromBuf fromLog) ∈ s.trace →
    (∀ j, minTs ≤ (s.node i).highestTsRcvd j) ∧ (∀ msg ∈ (s.node i).log, minTs ≤ msg.ts) ∧
      ∀ msg ∈ fromLog, msg.ts < minTs
  done : ∀ k i minTs fromBuf fromLog,
    s.trace[k]? = some (i, .purge minTs fromBuf fromLog) →
    ∀ msg ∈ fromBuf, ∀ j, j ≠ i → (j, .handlePacket msg) ∈ s.trace.take k
  final : s.trace.Pairwise NotBelow

/-- What is left of a log in order after the packets below `m` at its front are dropped. -/
theorem le_ts_of_mem_dropWhile {log : List (BroadcastMsg n)} (h : KeySorted BroadcastMsg.key log)
    {m : Nat} {msg : BroadcastMsg n} (hmsg : msg ∈ log.dropWhile fun msg => msg.ts < m) :
    m ≤ msg.ts := by
  induction log with
  | nil => cases hmsg
  | cons x log ih =>
    rcases pairwise_cons.mp h with ⟨hx, hlog⟩
    by_cases hlt : x.ts < m
    · rw [dropWhile_cons_of_pos (by simpa using hlt)] at hmsg
      exact ih hlog hmsg
    · rw [dropWhile_cons_of_neg (by simpa using hlt)] at hmsg
      rcases mem_cons.mp hmsg with rfl | hmsg
      · omega
      · -- the rest is above the first packet that is kept
        have hle : x.ts ≤ msg.ts := by
          rcases Prod.Lex.toLex_lt_toLex.mp (hx msg hmsg) with hlt' | ⟨heq, _⟩
          · exact hlt'.le
          · exact heq.le
        omega

namespace PurgeInv

variable {s : Cluster n} {i : Fin n}

theorem trace_put {r : Node n × List (Event n)} {k : Nat} {e : Fin n × Event n}
    (h : (s.put i r).trace[k]? = some e) :
    s.trace[k]? = some e ∨ s.trace.length ≤ k ∧ e.1 = i ∧ e.2 ∈ r.2 := by
  unfold Cluster.put at h
  by_cases hk : k < s.trace.length
  · left
    rw [← h]
    exact (List.getElem?_append_left hk).symm
  · right
    rw [List.getElem?_append_right (by omega)] at h
    rcases mem_map.mp (mem_of_getElem? h) with ⟨e', he', rfl⟩
    exact ⟨by omega, rfl, he'⟩

/-- A section without a purge, in which the packets are above what was noted. -/
theorem extend (h : PurgeInv s) {r : Node n × List (Event n)}
    (hts : ∀ k, (s.node i).highestTsRcvd k ≤ r.1.highestTsRcvd k)
    (hlog : ∀ x ∈ r.1.log, (∃ y ∈ (s.node i).log, y.ts = x.ts) ∨
      ∃ j, (s.node i).highestTsRcvd j < x.ts)
    (hpurge : ∀ minTs fromBuf fromLog, .purge minTs fromBuf fromLog ∉ r.2)
    (hpkt : ∀ msg, .handlePacket msg ∈ r.2 ∨ .broadcast msg ∈ r.2 →
      ∃ j, (s.node i).highestTsRcvd j < msg.ts) :
    PurgeInv (s.put i r) := by
  have hold : ∀ j minTs fromBuf fromLog,
      (j, .purge minTs fromBuf fromLog) ∈ (s.put i r).trace →
      (j, .purge minTs fromBuf fromLog) ∈ s.trace := by
    intro j minTs fromBuf fromLog hmem
    rcases mem_append.mp hmem with hmem | hmem
    · exact hmem
    · rcases mem_map.mp hmem with ⟨e, he, heq⟩
      injection heq with _ heq
      exact absurd (heq ▸ he) (hpurge _ _ _)
  constructor
  case floor =>
    intro j minTs fromBuf fromLog hmem
    rcases h.floor j minTs fromBuf fromLog (hold _ _ _ _ hmem) with ⟨hfloor, hfloorLog, hbelow⟩
    by_cases hj : j = i
    · subst hj
      rw [Cluster.put_node_self]
      refine ⟨fun k => (hfloor k).trans (hts k), ?_, hbelow⟩
      intro x hx
      rcases hlog x hx with ⟨y, hy, hyx⟩ | ⟨k, hk⟩
      · exact hyx ▸ hfloorLog y hy
      · exact (hfloor k).trans hk.le
    · rw [Cluster.put_node_of_ne _ _ hj]
      exact ⟨hfloor, hfloorLog, hbelow⟩
  case done =>
    intro k j minTs fromBuf fromLog hat msg hmsg j' hj'
    have hat' : s.trace[k]? = some (j, .purge minTs fromBuf fromLog) := by
      rcases trace_put hat with hat | ⟨_, _, he⟩
      · exact hat
      · exact absurd he (hpurge _ _ _)
    have hlt : k < s.trace.length := (List.getElem?_eq_some_iff.mp hat').1
    have hmem := h.done k j minTs fromBuf fromLog hat' msg hmsg j' hj'
    show _ ∈ (s.trace ++ _).take k
    rw [take_append_of_le_length hlt.le]
    exact hmem
  case final =>
    refine pairwise_append.mpr ⟨h.final, ?_, ?_⟩
    · -- there is no purge among the new events
      rw [pairwise_map]
      refine pairwise_of_forall_mem_list ?_
      intro e he e' he' j minTs fromBuf fromLog msg heq
      injection heq with _ heq
      exact absurd (heq ▸ he) (hpurge _ _ _)
    · intro e he e' he' j minTs fromBuf fromLog msg heq heq'
      subst heq
      rcases mem_map.mp he' with ⟨e'', he'', rfl⟩
      have hpkt' : j = i ∧ (.handlePacket msg ∈ r.2 ∨ .broadcast msg ∈ r.2) := by
        rcases heq' with heq' | heq'
        · injection heq' with hij heq'
          exact ⟨hij.symm, Or.inl (heq' ▸ he'')⟩
        · injection heq' with hij heq'
          exact ⟨hij.symm, Or.inr (heq' ▸ he'')⟩
      rcases hpkt' with ⟨rfl, hpkt'⟩
      rcases hpkt msg hpkt' with ⟨k, hk⟩
      exact ((h.floor j minTs fromBuf fromLog he).1 k).trans hk.le

theorem init (start : Fin n → Nat) :
    PurgeInv { node := fun i => Node.init i (start i), trace := [] } where
  floor := by
    intro i minTs fromBuf fromLog hmem
    cases hmem
  done := by
    intro k i minTs fromBuf fromLog hat
    cases hat
  final := List.Pairwise.nil

theorem quiet (h : PurgeInv s) {node' : Node n} {events : List (Event n)}
    (hquiet : Quiet (s.node i) node') (hevents : ∀ e ∈ events, Harmless (s.node i) e) :
    PurgeInv (s.put i (node', events)) := by
  refine h.extend ?_ ?_ ?_ ?_
  · intro k
    rw [hquiet.highestTsRcvd]
  · intro x hx
    rw [hquiet.log] at hx
    exact Or.inl ⟨x, hx, rfl⟩
  · intro minTs fromBuf fromLog he
    exact hevents _ he
  · rintro msg (he | he)
    · exact absurd (hevents _ he) id
    · exact absurd (hevents _ he) id

theorem broadcast (h : PurgeInv s) (hd : DeliveryInv s) (hc : ClockInv s) (store : GroupStore)
    (op : Operation) :
    PurgeInv (s.put i ((((s.node i).setStore store).enqueue op).1,
      [.broadcast (((s.node i).setStore store).enqueue op).2])) := by
  have hnew : (s.node i).highestTsRcvd i < (s.node i).timestamp + 1 := by
    rw [hc.own i]
    exact Nat.lt_succ_self _
  refine h.extend ?_ ?_ ?_ ?_
  · intro k
    show _ ≤ Function.update (s.node i).highestTsRcvd (s.node i).id ((s.node i).timestamp + 1) k
    rw [hd.id i]
    by_cases hk : k = i
    · subst hk
      rw [update_self]
      exact hnew.le
    · rw [update_of_ne hk]
  · intro x hx
    rcases mem_putInOrder hx with rfl | hx
    · exact Or.inr ⟨i, hnew⟩
    · exact Or.inl ⟨x, hx, rfl⟩
  · intro minTs fromBuf fromLog he
    cases mem_singleton.mp he
  · rintro msg (he | he)
    · cases mem_singleton.mp he
    · injection mem_singleton.mp he with he
      subst he
      exact ⟨i, hnew⟩

theorem handle (h : PurgeInv s) (hd : DeliveryInv s) (hc : ClockInv s) {msg : BroadcastMsg n}
    (hsent : s.Sent i (.data msg))
    (hseq : msg.seq = (s.node i).highestSeqRcvd msg.senderId + 1) :
    PurgeInv (s.put i ((s.node i).handlePacket msg)) := by
  rcases hd.next_msg hsent hseq with ⟨_, hmem⟩
  have hnew : (s.node i).highestTsRcvd msg.senderId < msg.ts :=
    hc.later i msg.senderId msg hmem (by omega)
  refine h.extend ?_ ?_ ?_ ?_
  · intro k
    show _ ≤ Function.update (Function.update (s.node i).highestTsRcvd (s.node i).id
      (max (s.node i).timestamp msg.ts + 1)) msg.senderId msg.ts k
    rw [hd.id i]
    by_cases hk : k = msg.senderId
    · subst hk
      rw [update_self]
      exact hnew.le
    · rw [update_of_ne hk]
      by_cases hki : k = i
      · subst hki
        rw [update_self, hc.own k]
        omega
      · rw [update_of_ne hki]
  · intro x hx
    rcases mem_runLog hx with ⟨y, hy, hyx⟩
    have hts : y.unexecuted.ts = x.unexecuted.ts := by rw [hyx]
    replace hts : y.ts = x.ts := hts
    rcases mem_putInOrder hy with rfl | hy
    · exact Or.inr ⟨y.senderId, hts ▸ hnew⟩
    · exact Or.inl ⟨y, hy, hts⟩
  · intro minTs fromBuf fromLog he
    cases mem_singleton.mp he
  · rintro msg' (he | he)
    · injection mem_singleton.mp he with he
      subst he
      exact ⟨msg'.senderId, hnew⟩
    · cases mem_singleton.mp he

theorem ack (h : PurgeInv s) (hd : DeliveryInv s) (hm : MatrixInv s)
    (hsorted : ∀ j, KeySorted BroadcastMsg.key (s.node j).log) {senderId : Fin n} {ts seq : Nat}
    {seqVector tsVector : Fin n → Nat}
    (hsent : s.Sent i (.ack senderId ts seq seqVector tsVector)) :
    PurgeInv (s.put i ((s.node i).handleAck senderId ts seq seqVector tsVector)) := by
  have hm' := hm.ack hd hsent
  have hid := hd.id i
  have htss := ClockInv.handleAck_highestTsRcvd (s.node i) senderId ts seq seqVector tsVector
  -- the node between the update of the vectors and the purge
  generalize hr : (s.node i).handleAck senderId ts seq seqVector tsVector = r at hm' htss
  generalize hmid : ((s.node i).takeVectors senderId seqVector tsVector).takeTimestamp senderId ts
    seq = mid
  have hr' : mid.purge = r := by rw [← hmid]; exact hr
  have hlog : mid.log = (s.node i).log := by rw [← hmid]; rfl
  have hbuf : mid.buf = (s.node i).buf := by rw [← hmid]; rfl
  have hmidId : mid.id = i := by rw [← hmid]; exact hid
  have hrlog : r.1.log = (s.node i).log.dropWhile fun msg => msg.ts < mid.minTs := by
    rw [← hr', ← hlog]
    rfl
  have hevents : r.2 = [.purge mid.minTs
      ((s.node i).buf.takeWhile fun msg => msg.seq ≤ mid.minSeq)
      ((s.node i).log.takeWhile fun msg => msg.ts < mid.minTs)] := by
    rw [← hr', ← hlog, ← hbuf]
    rfl
  have hminTs : ∀ j, mid.minTs ≤ r.1.highestTsRcvd j := by
    intro j
    have hrow := hm'.ownRow i
    rw [Cluster.put_node_self] at hrow
    rw [← hrow, ← hr']
    exact mid.minTs_le i j
  have hminSeq : ∀ j, j ≠ i → mid.minSeq ≤ (s.node j).highestSeqRcvd i := by
    intro j hj
    have hrow := hm'.rows i j i
    rw [Cluster.put_node_self, Cluster.put_node_of_ne _ _ hj, ← hr'] at hrow
    have hle := mid.minSeq_le j
    rw [hmidId] at hle
    exact hle.trans hrow
  have htrace : (s.put i r).trace = s.trace ++ [(i, .purge mid.minTs
      ((s.node i).buf.takeWhile fun msg => msg.seq ≤ mid.minSeq)
      ((s.node i).log.takeWhile fun msg => msg.ts < mid.minTs))] := by
    unfold Cluster.put
    rw [hevents]
    rfl
  constructor
  case floor =>
    intro j minTs fromBuf fromLog hmem
    rw [htrace] at hmem
    rcases mem_append.mp hmem with hmem | hmem
    · rcases h.floor j minTs fromBuf fromLog hmem with ⟨hfloor, hfloorLog, hbelow⟩
      by_cases hj : j = i
      · subst hj
        rw [Cluster.put_node_self, hrlog]
        refine ⟨?_, ?_, hbelow⟩
        · intro k
          rw [htss]
          split
          · exact (hfloor k).trans (Nat.le_max_left _ _)
          · exact hfloor k
        · intro msg hmsg
          exact hfloorLog msg ((dropWhile_sublist _).subset hmsg)
      · rw [Cluster.put_node_of_ne _ _ hj]
        exact ⟨hfloor, hfloorLog, hbelow⟩
    · -- the purge of this section
      injection mem_singleton.mp hmem with hj hpurge
      injection hpurge with hmin _ hfrom
      subst hj hmin hfrom
      rw [Cluster.put_node_self, hrlog]
      refine ⟨hminTs, fun msg hmsg => le_ts_of_mem_dropWhile (hsorted j) hmsg, ?_⟩
      intro msg hmsg
      have hp := mem_takeWhile_imp hmsg
      simpa using hp
  case done =>
    intro k j minTs fromBuf fromLog hat msg hmsg j' hj'
    rcases trace_put hat with hat | ⟨hk, hj, he⟩
    · have hlt : k < s.trace.length := (List.getElem?_eq_some_iff.mp hat).1
      rw [htrace, take_append_of_le_length hlt.le]
      exact h.done k j minTs fromBuf fromLog hat msg hmsg j' hj'
    · rw [hevents] at he
      injection mem_singleton.mp he with _ hfrom _
      replace hj : j = i := hj
      subst hj hfrom
      have hbufMem : msg ∈ (s.node j).buf := takeWhile_subset _ hmsg
      have hle : msg.seq ≤ mid.minSeq := by
        have hp := mem_takeWhile_imp hmsg
        simpa using hp
      have hhandled := hd.mem_handled_of_seq_le hj' (hd.buf j msg hbufMem)
        (hle.trans (hminSeq j' hj'))
      have hmemTrace := Cluster.mem_handled.mp hhandled
      rw [htrace, take_append]
      exact mem_append_left _ (by rwa [take_of_length_le hk])
  case final =>
    rw [htrace]
    refine pairwise_append.mpr ⟨h.final, pairwise_singleton _ _, ?_⟩
    intro e he e' he' j minTs fromBuf fromLog msg _ heq'
    rw [mem_singleton.mp he'] at heq'
    rcases heq' with heq' | heq'
    · cases heq'
    · cases heq'

end PurgeInv

theorem Reached.purgeInv {P : GroupStore → Operation → Prop} {s : Cluster n}
    (h : Reached P s) : PurgeInv s := by
  refine Reached.induction PurgeInv PurgeInv.init ?_ h
  intro s m s' hs hinv _ hmove
  cases hmove with
  | quiet hquiet hevents => exact hinv.quiet hquiet hevents
  | broadcast _ _ => exact hinv.broadcast hs.deliveryInv hs.clockInv _ _
  | handle hsent hseq => exact hinv.handle hs.deliveryInv hs.clockInv hsent hseq
  | ack hsent => exact hinv.ack hs.deliveryInv hs.matrixInv hs.log_sorted hsent

/-- Whenever `handle_ack` has purged: every other node had handled each packet that
left the buffer, and the node handles and broadcasts no packet below `minTs`
afterwards, nor has one in its log. -/
theorem purge_is_safe {t : System n} (h : (chatSystem n).Reachable t)
    {pre post : List (Fin n × Event n)} {i : Fin n} {minTs : Nat}
    {fromBuf fromLog : List (BroadcastMsg n)}
    (htrace : t.cluster.trace = pre ++ (i, .purge minTs fromBuf fromLog) :: post) :
    (∀ msg ∈ fromBuf, ∀ j, j ≠ i → (j, .handlePacket msg) ∈ pre) ∧
      (∀ msg, (i, .handlePacket msg) ∈ post ∨ (i, .broadcast msg) ∈ post → minTs ≤ msg.ts) ∧
      ∀ msg ∈ (t.cluster.node i).log, minTs ≤ msg.ts := by
  have hinv := (reached_of_run h).purgeInv
  have hat : t.cluster.trace[pre.length]? = some (i, .purge minTs fromBuf fromLog) := by
    rw [htrace]
    simp
  have htake : t.cluster.trace.take pre.length = pre := by
    rw [htrace]
    simp
  refine ⟨?_, ?_, ?_⟩
  · intro msg hmsg j hj
    have hmem := hinv.done _ _ _ _ _ hat msg hmsg j hj
    rwa [htake] at hmem
  · intro msg hmsg
    have hfinal := hinv.final
    rw [htrace] at hfinal
    have hpost := (pairwise_cons.mp (pairwise_append.mp hfinal).2.1).1
    rcases hmsg with hmsg | hmsg
    · exact hpost _ hmsg i minTs fromBuf fromLog msg rfl (Or.inl rfl)
    · exact hpost _ hmsg i minTs fromBuf fromLog msg rfl (Or.inr rfl)
  · exact (hinv.floor i minTs fromBuf fromLog (mem_of_getElem? hat)).2.1

/-- The packet of `purgeRun`. -/
def createPkt : BroadcastMsg 5 := ⟨0, 1, 1, .createGroup "g" "u", false⟩

/-- The ack of server `j` after it has handled `createPkt` and nothing else. -/
def ackOf (j : Fin 5) : Packet 5 :=
  .ack j 2 0 (fun k => if k = 0 then 1 else 0) (fun k => if k = 0 then 1 else if k = j then 2 else 0)

/-- User `u` of server 0 creates group `g`. Every other server receives the packet
ten times, which makes it send an ack, and server 0 receives the four acks. -/
def purgeRun : List (Action 5) :=
  [.connect 0 0, .setUsername 0 0 "u", .joinGroupLeave 0 0 "g", .joinGroupEnter 0 0] ++
    [1, 2, 3, 4].flatMap (fun j => List.replicate 10 (.receive j (.data createPkt) 0)) ++
    [1, 2, 3, 4].map fun j => .receive 0 (ackOf j) 0

theorem purge_is_safe_purgeRun :
    ∃ (t : System 5) (pre post : List (Fin 5 × Event 5)), (chatSystem 5).Reachable t ∧
      t.cluster.trace = pre ++ (0, .purge 0 [createPkt] []) :: post ∧
      (4, .handlePacket createPkt) ∈ pre := by
  have hrun : TransitionSystem.runMeets System.next (fun _ _ => true)
      (fun t => decide ((0, Event.purge 0 [createPkt] []) ∈ t.cluster.trace)) purgeRun
      (System.init fun _ => 0) = true := by
    decide +kernel
  rcases exists_reachable_of_run hrun with ⟨t, ht, hp⟩
  rcases append_of_mem (of_decide_eq_true hp) with ⟨pre, post, htrace⟩
  refine ⟨t, pre, post, ht, htrace, ?_⟩
  exact (purge_is_safe ht htrace).1 createPkt mem_cons_self 4 (by decide)

end PittCs.Chat
