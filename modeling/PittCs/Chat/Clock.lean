import PittCs.Chat.Delivery

/-!
# Lamport clocks

A node's clock is not behind the timestamp of any packet it has broadcast or
handled, so the packets of each node have increasing timestamps. What a node
has noted as the timestamp of another node is below the timestamps of all the
packets that are still to come from there, also when it was noted from an ack.
-/

namespace PittCs.Chat

open PittCs.Lib Function List

variable {n : Nat}

structure ClockInv (s : Cluster n) : Prop where
  seen : ∀ i msg, msg ∈ s.broadcasts i ∨ msg ∈ s.handled i → msg.ts ≤ (s.node i).timestamp
  increasing : ∀ i, (s.broadcasts i).Pairwise fun msg msg' => msg.ts < msg'.ts
  own : ∀ i, (s.node i).highestTsRcvd i = (s.node i).timestamp
  later : ∀ i j, ∀ msg ∈ s.broadcasts j, (s.node i).highestSeqRcvd j < msg.seq →
    (s.node i).highestTsRcvd j < msg.ts
  known : ∀ i j, (s.node i).highestTsRcvd j ≤ (s.node j).timestamp
  acks : ∀ i k ts seq seqVector tsVector, s.Sent i (.ack k ts seq seqVector tsVector) →
    ts ≤ (s.node k).timestamp ∧ ∀ msg ∈ s.broadcasts k, seq < msg.seq → ts < msg.ts

namespace ClockInv

variable {s : Cluster n} {i : Fin n}

theorem init (start : Fin n → Nat) :
    ClockInv { node := fun i => Node.init i (start i), trace := [] } where
  seen := by
    intro i msg hmsg
    rcases hmsg with hmsg | hmsg
    · cases hmsg
    · cases hmsg
  increasing := fun _ => List.Pairwise.nil
  own := fun _ => rfl
  later := by
    intro i j msg hmsg
    cases hmsg
  known := fun _ _ => Nat.le_refl 0
  acks := by
    rintro i k ts seq seqVector tsVector ⟨e, he, _⟩
    cases he

theorem quiet (h : ClockInv s) (hd : DeliveryInv s) {node' : Node n} {events : List (Event n)}
    (hquiet : Quiet (s.node i) node') (hevents : ∀ e ∈ events, Harmless (s.node i) e) :
    ClockInv (s.put i (node', events)) := by
  have hnode := fun j => (quiet_put hquiet hevents j).1
  have hb := fun j => (quiet_put hquiet hevents j).2.1
  have hh := fun j => (quiet_put hquiet hevents j).2.2.1
  constructor
  case seen =>
    intro j msg hmsg
    rw [hb, hh] at hmsg
    rw [(hnode j).timestamp]
    exact h.seen j msg hmsg
  case increasing =>
    intro j
    rw [hb]
    exact h.increasing j
  case own =>
    intro j
    rw [(hnode j).highestTsRcvd, (hnode j).timestamp]
    exact h.own j
  case later =>
    intro j k msg hmsg
    rw [hb] at hmsg
    rw [(hnode j).highestSeqRcvd, (hnode j).highestTsRcvd]
    exact h.later j k msg hmsg
  case known =>
    intro j k
    rw [(hnode j).highestTsRcvd, (hnode k).timestamp]
    exact h.known j k
  case acks =>
    intro j k ts seq seqVector tsVector hsent
    rw [hb, (hnode k).timestamp]
    rcases Cluster.sent_put.mp hsent with hsent | he
    · exact h.acks j k ts seq seqVector tsVector hsent
    · -- a new ack carries the clock and the number of the last packet
      rcases hevents _ he with ⟨_, hk, hts, hseq, _, _⟩
      rw [hd.id i] at hk
      subst hk hts hseq
      refine ⟨Nat.le_refl _, ?_⟩
      intro msg hmsg hlt
      have hle := (getElem?_of_numbered (hd.seqs k) hmsg).2.2
      omega

theorem broadcast (h : ClockInv s) (hd : DeliveryInv s) (store : GroupStore) (op : Operation) :
    ClockInv (s.put i ((((s.node i).setStore store).enqueue op).1,
      [.broadcast (((s.node i).setStore store).enqueue op).2])) := by
  generalize hq : ((s.node i).setStore store).enqueue op = q
  have htime : q.1.timestamp = (s.node i).timestamp + 1 := by rw [← hq]; rfl
  have hseqs : q.1.highestSeqRcvd =
      Function.update (s.node i).highestSeqRcvd (s.node i).id ((s.node i).seq + 1) := by
    rw [← hq]
    rfl
  have htss : q.1.highestTsRcvd =
      Function.update (s.node i).highestTsRcvd (s.node i).id ((s.node i).timestamp + 1) := by
    rw [← hq]
    rfl
  have hts : q.2.ts = (s.node i).timestamp + 1 := by rw [← hq]; rfl
  have hseq : q.2.seq = (s.node i).seq + 1 := by rw [← hq]; rfl
  rw [hd.id i] at hseqs htss
  have hb : ∀ j msg, msg ∈ (s.put i (q.1, [.broadcast q.2])).broadcasts j →
      msg ∈ s.broadcasts j ∨ j = i ∧ msg = q.2 := by
    intro j msg hmsg
    rcases Cluster.mem_collect_put.mp hmsg with hmsg | ⟨hj, e, he, hmsg⟩
    · exact Or.inl hmsg
    · rw [mem_singleton.mp he] at hmsg
      exact Or.inr ⟨hj, mem_singleton.mp hmsg⟩
  have hh := fun j => Cluster.handled_put_broadcast s i j q.1 q.2
  constructor
  case seen =>
    intro j msg hmsg
    rw [hh] at hmsg
    by_cases hj : j = i
    · subst hj
      rw [Cluster.put_node_self, htime]
      rcases hmsg with hmsg | hmsg
      · rcases hb j msg hmsg with hmsg | ⟨_, rfl⟩
        · exact Nat.le_succ_of_le (h.seen j msg (Or.inl hmsg))
        · exact hts.le
      · exact Nat.le_succ_of_le (h.seen j msg (Or.inr hmsg))
    · rw [Cluster.put_node_of_ne _ _ hj]
      rcases hmsg with hmsg | hmsg
      · rcases hb j msg hmsg with hmsg | ⟨hji, _⟩
        · exact h.seen j msg (Or.inl hmsg)
        · exact absurd hji hj
      · exact h.seen j msg (Or.inr hmsg)
  case increasing =>
    intro j
    by_cases hj : j = i
    · subst hj
      have hself : (s.put j (q.1, [.broadcast q.2])).broadcasts j = s.broadcasts j ++ [q.2] :=
        Cluster.collect_put_self
      rw [hself]
      refine pairwise_append.mpr ⟨h.increasing j, pairwise_singleton _ _, ?_⟩
      intro msg hmsg msg' hmsg'
      rw [mem_singleton.mp hmsg', hts]
      exact Nat.lt_succ_of_le (h.seen j msg (Or.inl hmsg))
    · have hne : (s.put i (q.1, [.broadcast q.2])).broadcasts j = s.broadcasts j :=
        Cluster.collect_put_of_ne hj
      rw [hne]
      exact h.increasing j
  case own =>
    intro j
    by_cases hj : j = i
    · subst hj
      rw [Cluster.put_node_self, htss, htime, update_self]
    · rw [Cluster.put_node_of_ne _ _ hj]
      exact h.own j
  case later =>
    intro j k msg hmsg
    by_cases hj : j = i
    · subst hj
      rw [Cluster.put_node_self, hseqs, htss]
      by_cases hk : k = j
      · -- the node has every packet of its own
        subst hk
        rw [update_self, update_self]
        intro hlt
        have hle : msg.seq ≤ (s.node k).seq + 1 := by
          rcases hb k msg hmsg with hmsg | ⟨_, rfl⟩
          · exact Nat.le_succ_of_le (getElem?_of_numbered (hd.seqs k) hmsg).2.2
          · exact hseq.le
        omega
      · rw [update_of_ne hk, update_of_ne hk]
        rcases hb k msg hmsg with hmsg | ⟨hkj, _⟩
        · exact h.later j k msg hmsg
        · exact absurd hkj hk
    · rw [Cluster.put_node_of_ne _ _ hj]
      rcases hb k msg hmsg with hmsg | ⟨rfl, rfl⟩
      · exact h.later j k msg hmsg
      · intro _
        rw [hts]
        exact Nat.lt_succ_of_le (h.known j k)
  case known =>
    intro j k
    have hle : (s.node k).timestamp ≤
        ((s.put i (q.1, [.broadcast q.2])).node k).timestamp := by
      by_cases hk : k = i
      · subst hk
        rw [Cluster.put_node_self, htime]
        exact Nat.le_succ _
      · rw [Cluster.put_node_of_ne _ _ hk]
    by_cases hj : j = i
    · subst hj
      rw [Cluster.put_node_self, htss]
      by_cases hk : k = j
      · subst hk
        rw [update_self, Cluster.put_node_self, htime]
      · rw [update_of_ne hk]
        exact (h.known j k).trans hle
    · rw [Cluster.put_node_of_ne _ _ hj]
      exact (h.known j k).trans hle
  case acks =>
    intro j k ts seq seqVector tsVector hsent
    have hold : s.Sent j (.ack k ts seq seqVector tsVector) := by
      rcases Cluster.sent_put.mp hsent with hsent | he
      · exact hsent
      · simp at he
    rcases h.acks j k ts seq seqVector tsVector hold with ⟨hle, hlater⟩
    by_cases hk : k = i
    · subst hk
      rw [Cluster.put_node_self, htime]
      refine ⟨Nat.le_succ_of_le hle, ?_⟩
      intro msg hmsg hlt
      rcases hb k msg hmsg with hmsg | ⟨_, rfl⟩
      · exact hlater msg hmsg hlt
      · rw [hts]
        exact Nat.lt_succ_of_le hle
    · rw [Cluster.put_node_of_ne _ _ hk]
      refine ⟨hle, ?_⟩
      intro msg hmsg hlt
      rcases hb k msg hmsg with hmsg | ⟨hki, _⟩
      · exact hlater msg hmsg hlt
      · exact absurd hki hk

variable {msg : BroadcastMsg n}

/-- A later packet of a node has a larger timestamp. -/
theorem ts_lt (h : ClockInv s) (hd : DeliveryInv s) {msg' : BroadcastMsg n}
    (hmsg : msg ∈ s.broadcasts i) (hmsg' : msg' ∈ s.broadcasts i) (hseq : msg.seq < msg'.seq) :
    msg.ts < msg'.ts := by
  rcases getElem?_of_numbered (hd.seqs i) hmsg with ⟨hat, hpos, _⟩
  rcases getElem?_of_numbered (hd.seqs i) hmsg' with ⟨hat', _, _⟩
  rcases List.getElem?_eq_some_iff.mp hat with ⟨hlt, hget⟩
  rcases List.getElem?_eq_some_iff.mp hat' with ⟨hlt', hget'⟩
  have hpair := pairwise_iff_getElem.mp (h.increasing i) (msg.seq - 1) (msg'.seq - 1) hlt hlt'
    (by omega)
  rw [hget, hget'] at hpair
  exact hpair

/-- The sender and the timestamp determine the packet. -/
theorem eq_of_ts (h : ClockInv s) (hd : DeliveryInv s) {msg' : BroadcastMsg n}
    (hmsg : msg ∈ s.broadcasts i) (hmsg' : msg' ∈ s.broadcasts i) (hts : msg.ts = msg'.ts) :
    msg = msg' := by
  rcases Nat.lt_trichotomy msg.seq msg'.seq with hlt | heq | hlt
  · have hlt' := h.ts_lt hd hmsg hmsg' hlt
    omega
  · exact eq_of_numbered (hd.seqs i) hmsg hmsg' heq
  · have hlt' := h.ts_lt hd hmsg' hmsg hlt
    omega

theorem handle (h : ClockInv s) (hd : DeliveryInv s) (hsent : s.Sent i (.data msg))
    (hseq : msg.seq = (s.node i).highestSeqRcvd msg.senderId + 1) :
    ClockInv (s.put i ((s.node i).handlePacket msg)) := by
  rcases hd.next_msg hsent hseq with ⟨hother, hmem⟩
  have hb := fun j => Cluster.broadcasts_put_handlePacket s i j msg
  generalize hr : (s.node i).handlePacket msg = r at hb
  have htime : r.1.timestamp = max (s.node i).timestamp msg.ts + 1 := by rw [← hr]; rfl
  have hseqs : r.1.highestSeqRcvd =
      Function.update (s.node i).highestSeqRcvd msg.senderId msg.seq := by
    rw [← hr]
    rfl
  have htss : r.1.highestTsRcvd = Function.update
      (Function.update (s.node i).highestTsRcvd (s.node i).id r.1.timestamp)
      msg.senderId msg.ts := by
    rw [← hr]
    rfl
  rw [hd.id i] at htss
  have hevents : r.2 = [.handlePacket msg] := by rw [← hr]; rfl
  have hh : ∀ j msg', msg' ∈ (s.put i r).handled j →
      msg' ∈ s.handled j ∨ j = i ∧ msg' = msg := by
    intro j msg' hmsg'
    rcases Cluster.mem_collect_put.mp hmsg' with hmsg' | ⟨hj, e, he, hmsg'⟩
    · exact Or.inl hmsg'
    · rw [hevents] at he
      rw [mem_singleton.mp he] at hmsg'
      exact Or.inr ⟨hj, mem_singleton.mp hmsg'⟩
  have hclock : ∀ k, (s.node k).timestamp ≤ ((s.put i r).node k).timestamp := by
    intro k
    by_cases hk : k = i
    · subst hk
      rw [Cluster.put_node_self, htime]
      omega
    · rw [Cluster.put_node_of_ne _ _ hk]
  constructor
  case seen =>
    intro j msg' hmsg'
    rw [hb] at hmsg'
    rcases hmsg' with hmsg' | hmsg'
    · exact (h.seen j msg' (Or.inl hmsg')).trans (hclock j)
    · rcases hh j msg' hmsg' with hmsg' | ⟨rfl, rfl⟩
      · exact (h.seen j msg' (Or.inr hmsg')).trans (hclock j)
      · rw [Cluster.put_node_self, htime]
        omega
  case increasing =>
    intro j
    rw [hb]
    exact h.increasing j
  case own =>
    intro j
    by_cases hj : j = i
    · subst hj
      rw [Cluster.put_node_self, htss, update_of_ne hother.symm, update_self]
    · rw [Cluster.put_node_of_ne _ _ hj]
      exact h.own j
  case later =>
    intro j k msg' hmsg'
    rw [hb] at hmsg'
    by_cases hj : j = i
    · subst hj
      rw [Cluster.put_node_self, hseqs, htss]
      by_cases hk : k = msg.senderId
      · subst hk
        rw [update_self, update_self]
        exact h.ts_lt hd hmem hmsg'
      · rw [update_of_ne hk, update_of_ne hk]
        by_cases hkj : k = j
        · -- the node has every packet of its own
          subst hkj
          intro hlt
          have hle := (getElem?_of_numbered (hd.seqs k) hmsg').2.2
          rw [hd.own k] at hlt
          omega
        · rw [update_of_ne hkj]
          exact h.later j k msg' hmsg'
    · rw [Cluster.put_node_of_ne _ _ hj]
      exact h.later j k msg' hmsg'
  case known =>
    intro j k
    by_cases hj : j = i
    · subst hj
      by_cases hk : k = msg.senderId
      · have hnode := Cluster.put_node_of_ne s r (hk ▸ hother : k ≠ j)
        rw [Cluster.put_node_self, htss, hnode]
        subst hk
        rw [update_self]
        exact h.seen _ msg (Or.inl hmem)
      · by_cases hkj : k = j
        · subst hkj
          rw [Cluster.put_node_self, htss, update_of_ne hk, update_self]
        · rw [Cluster.put_node_self, htss, update_of_ne hk, update_of_ne hkj]
          exact (h.known j k).trans (hclock k)
    · rw [Cluster.put_node_of_ne _ _ hj]
      exact (h.known j k).trans (hclock k)
  case acks =>
    intro j k ts seq seqVector tsVector hsent'
    rw [hb]
    rcases Cluster.sent_put.mp hsent' with hsent' | he
    · rcases h.acks j k ts seq seqVector tsVector hsent' with ⟨hle, hlater⟩
      exact ⟨hle.trans (hclock k), hlater⟩
    · rw [hevents] at he
      simp at he

/-- What an ack does to the timestamps noted: the clock of its sender may be noted. -/
theorem handleAck_highestTsRcvd (node : Node n) (senderId : Fin n) (ts seq : Nat)
    (seqVector tsVector : Fin n → Nat) (k : Fin n) :
    (node.handleAck senderId ts seq seqVector tsVector).1.highestTsRcvd k =
      if node.highestSeqRcvd senderId = seq ∧ k = senderId then max (node.highestTsRcvd k) ts
      else node.highestTsRcvd k := by
  show (if node.highestSeqRcvd senderId = seq then
      Function.update node.highestTsRcvd senderId (max (node.highestTsRcvd senderId) ts)
    else node.highestTsRcvd) k = _
  by_cases hseq : node.highestSeqRcvd senderId = seq
  · by_cases hk : k = senderId
    · subst hk
      rw [if_pos hseq, if_pos ⟨hseq, rfl⟩, update_self]
    · rw [if_pos hseq, if_neg (fun hc => hk hc.2), update_of_ne hk]
  · rw [if_neg hseq, if_neg (fun hc => hseq hc.1)]

theorem ack (h : ClockInv s) {senderId : Fin n} {ts seq : Nat} {seqVector tsVector : Fin n → Nat}
    (hsent : s.Sent i (.ack senderId ts seq seqVector tsVector)) :
    ClockInv (s.put i ((s.node i).handleAck senderId ts seq seqVector tsVector)) := by
  rcases h.acks _ _ _ _ _ _ hsent with ⟨hle, hlater⟩
  have htss := handleAck_highestTsRcvd (s.node i) senderId ts seq seqVector tsVector
  have hhistory := Cluster.history_put_handleAck s i senderId ts seq seqVector tsVector
  generalize hr : (s.node i).handleAck senderId ts seq seqVector tsVector = r at htss hhistory
  have htime : r.1.timestamp = (s.node i).timestamp := by rw [← hr]; rfl
  have hseqs : r.1.highestSeqRcvd = (s.node i).highestSeqRcvd := by rw [← hr]; rfl
  have hb := fun j => (hhistory j).1
  have hh := fun j => (hhistory j).2
  have hclock : ∀ k, ((s.put i r).node k).timestamp = (s.node k).timestamp := by
    intro k
    by_cases hk : k = i
    · subst hk
      rw [Cluster.put_node_self, htime]
    · rw [Cluster.put_node_of_ne _ _ hk]
  constructor
  case seen =>
    intro j msg hmsg
    rw [hb, hh] at hmsg
    rw [hclock]
    exact h.seen j msg hmsg
  case increasing =>
    intro j
    rw [hb]
    exact h.increasing j
  case own =>
    intro j
    rw [hclock]
    by_cases hj : j = i
    · subst hj
      rw [Cluster.put_node_self, htss, h.own j]
      split
      · rename_i hc
        rw [hc.2]
        exact Nat.max_eq_left hle
      · rfl
    · rw [Cluster.put_node_of_ne _ _ hj]
      exact h.own j
  case later =>
    intro j k msg hmsg
    rw [hb] at hmsg
    by_cases hj : j = i
    · subst hj
      rw [Cluster.put_node_self, htss, hseqs]
      intro hlt
      have hold := h.later j k msg hmsg hlt
      split
      · rename_i hc
        -- the packet comes after the ack
        rcases hc with ⟨hseq, rfl⟩
        exact Nat.max_lt.mpr ⟨hold, hlater msg hmsg (hseq ▸ hlt)⟩
      · exact hold
    · rw [Cluster.put_node_of_ne _ _ hj]
      exact h.later j k msg hmsg
  case known =>
    intro j k
    rw [hclock]
    by_cases hj : j = i
    · subst hj
      rw [Cluster.put_node_self, htss]
      split
      · rename_i hc
        rcases hc with ⟨_, rfl⟩
        exact Nat.max_le.mpr ⟨h.known j k, hle⟩
      · exact h.known j k
    · rw [Cluster.put_node_of_ne _ _ hj]
      exact h.known j k
  case acks =>
    intro j k ts' seq' seqVector' tsVector' hsent'
    rw [hb, hclock]
    rcases Cluster.sent_put.mp hsent' with hsent' | he
    · exact h.acks j k ts' seq' seqVector' tsVector' hsent'
    · rw [← hr] at he
      cases mem_singleton.mp he

theorem moved (h : ClockInv s) (hd : DeliveryInv s) {m : Move n} {s' : Cluster n}
    (hmove : Moved s m s') : ClockInv s' := by
  cases hmove with
  | quiet hquiet hevents => exact h.quiet hd hquiet hevents
  | broadcast _ _ => exact h.broadcast hd _ _
  | handle hsent hseq => exact h.handle hd hsent hseq
  | ack hsent => exact h.ack hsent

end ClockInv

theorem Reached.clockInv {P : GroupStore → Operation → Prop} {s : Cluster n}
    (h : Reached P s) : ClockInv s := by
  refine Reached.induction ClockInv ClockInv.init ?_ h
  intro s m s' hs hinv _ hmove
  exact hinv.moved hs.deliveryInv hmove

/-!
## The log in total order

Insertion and execution keep the log strictly in order; execution changes
nothing but the flags.
-/

variable {n : Nat}

/-- The packet as it was broadcast. -/
def BroadcastMsg.unexecuted (msg : BroadcastMsg n) : BroadcastMsg n :=
  { msg with executed := false }

variable {ls : List (BroadcastMsg n)} {msg : BroadcastMsg n}

theorem mem_putInOrder {x : BroadcastMsg n} (h : x ∈ putInOrder ls msg) : x = msg ∨ x ∈ ls := by
  unfold putInOrder at h
  cases hins : insertFromRight BroadcastMsg.compare msg ls with
  | none =>
    rw [hins] at h
    exact Or.inr h
  | some ls' =>
    rw [hins] at h
    exact mem_cons.mp ((insertFromRight_perm hins).mem_iff.mp h)

theorem putInOrder_sorted (h : KeySorted BroadcastMsg.key ls) :
    KeySorted BroadcastMsg.key (putInOrder ls msg) := by
  unfold putInOrder
  cases hins : insertFromRight BroadcastMsg.compare msg ls with
  | none => exact h
  | some ls' => exact insertFromRight_sorted BroadcastMsg.compare_eq h hins

/-- A packet with a new place in the order is inserted. -/
theorem putInOrder_perm (h : ∀ x ∈ ls, x.key ≠ msg.key) : (putInOrder ls msg).Perm (msg :: ls) := by
  unfold putInOrder
  cases hins : insertFromRight BroadcastMsg.compare msg ls with
  | none =>
    rcases exists_of_insertFromRight_none BroadcastMsg.compare_eq hins with ⟨x, hx, hkey⟩
    exact absurd hkey (h x hx)
  | some ls' => exact insertFromRight_perm hins

/-- Running the log changes flags only. -/
theorem runLog_unexecuted (store : GroupStore) (log : List (BroadcastMsg n)) :
    (Node.runLog store log).2.map BroadcastMsg.unexecuted = log.map BroadcastMsg.unexecuted := by
  induction log generalizing store with
  | nil => rfl
  | cons m rest ih =>
    unfold Node.runLog
    split
    · exact congrArg (m.unexecuted :: ·) (ih store)
    · split
      · exact congrArg (m.unexecuted :: ·) (ih store)
      · rename_i store' _
        exact congrArg (m.unexecuted :: ·) (ih store')

theorem keySorted_unexecuted :
    KeySorted BroadcastMsg.key (ls.map BroadcastMsg.unexecuted) ↔
      KeySorted BroadcastMsg.key ls := by
  unfold KeySorted
  rw [pairwise_map]
  rfl

theorem runLog_sorted {store : GroupStore} {log : List (BroadcastMsg n)}
    (h : KeySorted BroadcastMsg.key log) :
    KeySorted BroadcastMsg.key (Node.runLog store log).2 := by
  rw [← keySorted_unexecuted, runLog_unexecuted, keySorted_unexecuted]
  exact h

theorem mem_runLog {store : GroupStore} {log : List (BroadcastMsg n)} {x : BroadcastMsg n}
    (h : x ∈ (Node.runLog store log).2) : ∃ y ∈ log, y.unexecuted = x.unexecuted := by
  have hmem : x.unexecuted ∈ (Node.runLog store log).2.map BroadcastMsg.unexecuted :=
    mem_map_of_mem h
  rw [runLog_unexecuted] at hmem
  exact mem_map.mp hmem

/-! ## The log of every node -/

/-- Every log is strictly in order. -/
theorem Moved.log_sorted {s s' : Cluster n} {m : Move n} (hmove : Moved s m s')
    (h : ∀ j, KeySorted BroadcastMsg.key (s.node j).log) (j : Fin n) :
    KeySorted BroadcastMsg.key (s'.node j).log := by
  cases hmove with
  | @quiet i node' events hquiet hevents =>
    rw [(quiet_put hquiet hevents j).1.log]
    exact h j
  | @broadcast i op store happly hstamp =>
    by_cases hj : j = i
    · subst hj
      rw [Cluster.put_node_self]
      exact putInOrder_sorted (h j)
    · rw [Cluster.put_node_of_ne _ _ hj]
      exact h j
  | @handle i msg hsent hseq =>
    by_cases hj : j = i
    · subst hj
      rw [Cluster.put_node_self]
      exact runLog_sorted (putInOrder_sorted (h j))
    · rw [Cluster.put_node_of_ne _ _ hj]
      exact h j
  | @ack i senderId ts seq seqVector tsVector hsent =>
    by_cases hj : j = i
    · subst hj
      rw [Cluster.put_node_self]
      exact (h j).sublist (dropWhile_sublist _)
    · rw [Cluster.put_node_of_ne _ _ hj]
      exact h j

theorem Reached.log_sorted {P : GroupStore → Operation → Prop} {s : Cluster n}
    (h : Reached P s) : ∀ j, KeySorted BroadcastMsg.key (s.node j).log := by
  refine Reached.induction (fun s => ∀ j, KeySorted BroadcastMsg.key (s.node j).log) ?_ ?_ h
  · intro start j
    exact List.Pairwise.nil
  · intro s m s' _ hinv _ hmove
    exact hmove.log_sorted hinv

end PittCs.Chat
