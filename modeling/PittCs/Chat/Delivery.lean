import PittCs.Chat.Moves

/-!
# Exactly-once FIFO delivery

A node handles the packets of every other node one after the other, in the
order in which they were broadcast, whatever the network does with them.
-/

namespace PittCs.Chat

open PittCs.Lib Function List

variable {n : Nat}

namespace Cluster

variable {s : Cluster n} {i j : Fin n}

/-! ## What a section adds to the histories -/

variable {α : Type} {f : Event n → List α} {r : Node n × List (Event n)}

theorem collect_put (f : Event n → List α) (s : Cluster n) (i j : Fin n)
    (r : Node n × List (Event n)) :
    (s.put i r).collect f j = s.collect f j ++ if i = j then r.2.flatMap f else [] := by
  unfold collect put
  rw [flatMap_append, flatMap_map]
  by_cases hij : i = j
  · simp [hij]
  · simp [hij]

theorem collect_put_of_nil (h : ∀ e ∈ r.2, f e = []) : (s.put i r).collect f j = s.collect f j := by
  have hnil : r.2.flatMap f = [] := flatMap_eq_nil_iff.mpr h
  rw [collect_put, hnil, ite_self, append_nil]

theorem collect_put_single {node' : Node n} {e : Event n} (h : f e = []) :
    (s.put i (node', [e])).collect f j = s.collect f j := by
  refine collect_put_of_nil ?_
  intro e' he'
  rw [mem_singleton.mp he']
  exact h

theorem collect_put_self {node' : Node n} {e : Event n} :
    (s.put i (node', [e])).collect f i = s.collect f i ++ f e := by
  rw [collect_put, if_pos rfl]
  simp

theorem collect_put_of_ne (h : j ≠ i) : (s.put i r).collect f j = s.collect f j := by
  rw [collect_put, if_neg h.symm, append_nil]

theorem mem_collect_put {x : α} :
    x ∈ (s.put i r).collect f j ↔ x ∈ s.collect f j ∨ j = i ∧ ∃ e ∈ r.2, x ∈ f e := by
  rw [collect_put, mem_append]
  by_cases hij : i = j
  · simp [hij]
  · simp [hij, Ne.symm hij]

theorem handled_put_broadcast (s : Cluster n) (i j : Fin n) (node' : Node n)
    (msg : BroadcastMsg n) : (s.put i (node', [.broadcast msg])).handled j = s.handled j :=
  collect_put_single rfl

theorem broadcasts_put_handlePacket (s : Cluster n) (i j : Fin n) (msg : BroadcastMsg n) :
    (s.put i ((s.node i).handlePacket msg)).broadcasts j = s.broadcasts j :=
  collect_put_single rfl

theorem handled_put_handlePacket (s : Cluster n) (i : Fin n) (msg : BroadcastMsg n) :
    (s.put i ((s.node i).handlePacket msg)).handled i = s.handled i ++ [msg] :=
  collect_put_self

/-- An ack adds nothing to what was broadcast or handled. -/
theorem history_put_handleAck (s : Cluster n) (i senderId : Fin n) (ts seq : Nat)
    (seqVector tsVector : Fin n → Nat) (j : Fin n) :
    (s.put i ((s.node i).handleAck senderId ts seq seqVector tsVector)).broadcasts j =
        s.broadcasts j ∧
      (s.put i ((s.node i).handleAck senderId ts seq seqVector tsVector)).handled j =
        s.handled j :=
  ⟨collect_put_single rfl, collect_put_single rfl⟩

theorem sent_put {pkt : Packet n} : (s.put i r).Sent j pkt ↔ s.Sent j pkt ∨ .send j pkt ∈ r.2 := by
  unfold Sent put
  constructor
  · rintro ⟨e, he, hsend⟩
    rcases mem_append.mp he with he | he
    · exact Or.inl ⟨e, he, hsend⟩
    · rcases mem_map.mp he with ⟨e', he', rfl⟩
      exact Or.inr (hsend ▸ he')
  · rintro (⟨e, he, hsend⟩ | he)
    · exact ⟨e, mem_append_left _ he, hsend⟩
    · exact ⟨(i, .send j pkt), mem_append_right _ (mem_map_of_mem he), rfl⟩

theorem mem_collect {x : α} : x ∈ s.collect f i ↔ ∃ e, (i, e) ∈ s.trace ∧ x ∈ f e := by
  unfold collect
  rw [mem_flatMap]
  constructor
  · rintro ⟨⟨k, e⟩, he, hx⟩
    split at hx
    · rename_i hk
      subst hk
      exact ⟨e, he, hx⟩
    · cases hx
  · rintro ⟨e, he, hx⟩
    refine ⟨_, he, ?_⟩
    rw [if_pos rfl]
    exact hx

theorem mem_handled {msg : BroadcastMsg n} :
    msg ∈ s.handled i ↔ (i, .handlePacket msg) ∈ s.trace := by
  unfold handled
  rw [mem_collect]
  constructor
  · rintro ⟨e, he, hmsg⟩
    cases e with
    | handlePacket msg' =>
      rw [mem_singleton.mp hmsg]
      exact he
    | _ => cases hmsg
  · intro he
    exact ⟨_, he, mem_singleton.mpr rfl⟩

theorem mem_broadcasts {msg : BroadcastMsg n} :
    msg ∈ s.broadcasts i ↔ (i, .broadcast msg) ∈ s.trace := by
  unfold broadcasts
  rw [mem_collect]
  constructor
  · rintro ⟨e, he, hmsg⟩
    cases e with
    | broadcast msg' =>
      rw [mem_singleton.mp hmsg]
      exact he
    | _ => cases hmsg
  · intro he
    exact ⟨_, he, mem_singleton.mpr rfl⟩

end Cluster

theorem Harmless.broadcasts {node : Node n} {e : Event n} (h : Harmless node e) :
    e.broadcasts = [] := by
  cases e with
  | broadcast msg => exact absurd h id
  | _ => rfl

theorem Harmless.handled {node : Node n} {e : Event n} (h : Harmless node e) :
    e.handled = [] := by
  cases e with
  | handlePacket msg => exact absurd h id
  | _ => rfl

theorem Harmless.purged {node : Node n} {e : Event n} (h : Harmless node e) :
    e.purged = [] := by
  cases e with
  | purge minTs fromBuf fromLog => exact absurd h id
  | _ => rfl

/-- What a quiet move at one node leaves as it is at every node. -/
theorem quiet_put {s : Cluster n} {i : Fin n} {node' : Node n} {events : List (Event n)}
    (hquiet : Quiet (s.node i) node') (hevents : ∀ e ∈ events, Harmless (s.node i) e)
    (j : Fin n) :
    Quiet (s.node j) ((s.put i (node', events)).node j) ∧
      (s.put i (node', events)).broadcasts j = s.broadcasts j ∧
      (s.put i (node', events)).handled j = s.handled j ∧
      (s.put i (node', events)).purged j = s.purged j := by
  refine ⟨?_, Cluster.collect_put_of_nil fun e he => (hevents e he).broadcasts,
    Cluster.collect_put_of_nil fun e he => (hevents e he).handled,
    Cluster.collect_put_of_nil fun e he => (hevents e he).purged⟩
  by_cases hj : j = i
  · subst hj
    rw [Cluster.put_node_self]
    exact hquiet
  · rw [Cluster.put_node_of_ne _ _ hj]
    exact Quiet.refl _

/-! ## The invariant -/

/-- The packets broadcast so far are numbered from 1, every packet in flight is
one of them, and each node has handled a first part of those of every other. -/
structure DeliveryInv (s : Cluster n) : Prop where
  id : ∀ i, (s.node i).id = i
  seqs : ∀ i, (s.broadcasts i).map BroadcastMsg.seq = List.range' 1 (s.node i).seq
  sender : ∀ i, ∀ msg ∈ s.broadcasts i, msg.senderId = i ∧ msg.executed = false
  own : ∀ i, (s.node i).highestSeqRcvd i = (s.node i).seq
  buf : ∀ i, ∀ msg ∈ (s.node i).buf, msg ∈ s.broadcasts i
  sent : ∀ i msg, s.Sent i (.data msg) → msg ∈ s.broadcasts msg.senderId
  handled : ∀ i j, j ≠ i →
    (s.handled i).filter (fun msg => msg.senderId = j) =
      (s.broadcasts j).take ((s.node i).highestSeqRcvd j)
  other : ∀ i, ∀ msg ∈ s.handled i, msg.senderId ≠ i
  bound : ∀ i j, (s.node i).highestSeqRcvd j ≤ (s.node j).seq

section Numbered

variable {l : List (BroadcastMsg n)} {m : Nat} {msg : BroadcastMsg n}

/-- In a numbered list a packet stands where its number says. -/
theorem getElem?_of_numbered (hl : l.map BroadcastMsg.seq = List.range' 1 m) (hmsg : msg ∈ l) :
    l[msg.seq - 1]? = some msg ∧ 1 ≤ msg.seq ∧ msg.seq ≤ m := by
  rcases List.getElem?_of_mem hmsg with ⟨k, hk⟩
  have hseq : (List.range' 1 m)[k]? = some msg.seq := by
    rw [← hl, List.getElem?_map, hk]
    rfl
  rcases List.getElem?_eq_some_iff.mp hseq with ⟨hlt, hval⟩
  rw [length_range'] at hlt
  have hval' : msg.seq = 1 + k := by
    rw [← hval]
    simp
  have hidx : msg.seq - 1 = k := by omega
  refine ⟨hidx ▸ hk, ?_, ?_⟩
  · omega
  · omega

theorem length_of_numbered (hl : l.map BroadcastMsg.seq = List.range' 1 m) : l.length = m := by
  have hlen := congrArg List.length hl
  simpa using hlen

/-- In a numbered list the number determines the packet. -/
theorem eq_of_numbered {msg' : BroadcastMsg n} (hl : l.map BroadcastMsg.seq = List.range' 1 m)
    (hmsg : msg ∈ l) (hmsg' : msg' ∈ l) (hseq : msg.seq = msg'.seq) : msg = msg' := by
  have h := (getElem?_of_numbered hl hmsg).1
  rw [hseq, (getElem?_of_numbered hl hmsg').1] at h
  injection h with h
  exact h.symm

end Numbered

namespace DeliveryInv

variable {s : Cluster n} {i : Fin n}

theorem init (start : Fin n → Nat) :
    DeliveryInv { node := fun i => Node.init i (start i), trace := [] } where
  id := fun _ => rfl
  seqs := fun _ => rfl
  sender := by
    intro i msg hmsg
    cases hmsg
  own := fun _ => rfl
  buf := by
    intro i msg hmsg
    cases hmsg
  sent := by
    rintro i msg ⟨e, he, _⟩
    cases he
  handled := fun _ _ _ => rfl
  other := by
    intro i msg hmsg
    cases hmsg
  bound := fun _ _ => Nat.le_refl 0

theorem quiet (h : DeliveryInv s) {node' : Node n} {events : List (Event n)}
    (hquiet : Quiet (s.node i) node') (hevents : ∀ e ∈ events, Harmless (s.node i) e) :
    DeliveryInv (s.put i (node', events)) := by
  have hnode := fun j => (quiet_put hquiet hevents j).1
  have hb := fun j => (quiet_put hquiet hevents j).2.1
  have hh := fun j => (quiet_put hquiet hevents j).2.2.1
  constructor
  case id =>
    intro j
    rw [(hnode j).id]
    exact h.id j
  case seqs =>
    intro j
    rw [hb, (hnode j).seq]
    exact h.seqs j
  case sender =>
    intro j msg hmsg
    rw [hb] at hmsg
    exact h.sender j msg hmsg
  case own =>
    intro j
    rw [(hnode j).highestSeqRcvd, (hnode j).seq]
    exact h.own j
  case buf =>
    intro j msg hmsg
    rw [(hnode j).buf] at hmsg
    rw [hb]
    exact h.buf j msg hmsg
  case sent =>
    intro j msg hsent
    rw [hb]
    rcases Cluster.sent_put.mp hsent with hsent | he
    · exact h.sent j msg hsent
    · -- a packet is sent from the buffer of its sender
      have hmem := h.buf i msg (hevents _ he)
      rw [(h.sender i msg hmem).1]
      exact hmem
  case handled =>
    intro j k hk
    rw [hh, hb, (hnode j).highestSeqRcvd]
    exact h.handled j k hk
  case other =>
    intro j msg hmsg
    rw [hh] at hmsg
    exact h.other j msg hmsg
  case bound =>
    intro j k
    rw [(hnode j).highestSeqRcvd, (hnode k).seq]
    exact h.bound j k

theorem broadcast (h : DeliveryInv s) (store : GroupStore) (op : Operation) :
    DeliveryInv (s.put i ((((s.node i).setStore store).enqueue op).1,
      [.broadcast (((s.node i).setStore store).enqueue op).2])) := by
  generalize hq : ((s.node i).setStore store).enqueue op = q
  have hid : q.1.id = (s.node i).id := by rw [← hq]; rfl
  have hseq : q.1.seq = (s.node i).seq + 1 := by rw [← hq]; rfl
  have hrcvd : q.1.highestSeqRcvd =
      Function.update (s.node i).highestSeqRcvd (s.node i).id q.1.seq := by
    rw [← hq]
    rfl
  rw [h.id i] at hrcvd
  have hbuf : q.1.buf = (s.node i).buf ++ [q.2] := by rw [← hq]; rfl
  have hmsg : q.2.senderId = (s.node i).id ∧ q.2.executed = false ∧
      q.2.seq = (s.node i).seq + 1 := by
    rw [← hq]
    exact ⟨rfl, rfl, rfl⟩
  rw [h.id i] at hmsg
  have hself : (s.put i (q.1, [.broadcast q.2])).broadcasts i = s.broadcasts i ++ [q.2] :=
    Cluster.collect_put_self
  have hne : ∀ j, j ≠ i → (s.put i (q.1, [.broadcast q.2])).broadcasts j = s.broadcasts j :=
    fun j hj => Cluster.collect_put_of_ne hj
  have hsub : ∀ j msg, msg ∈ s.broadcasts j →
      msg ∈ (s.put i (q.1, [.broadcast q.2])).broadcasts j := by
    intro j msg hmem
    by_cases hj : j = i
    · subst hj
      rw [hself]
      exact mem_append_left _ hmem
    · rw [hne j hj]
      exact hmem
  have hh := fun j => Cluster.handled_put_broadcast s i j q.1 q.2
  have hrcvd' : ∀ j k, k ≠ i →
      ((s.put i (q.1, [.broadcast q.2])).node j).highestSeqRcvd k =
        (s.node j).highestSeqRcvd k := by
    intro j k hk
    by_cases hj : j = i
    · subst hj
      rw [Cluster.put_node_self, hrcvd, update_of_ne hk]
    · rw [Cluster.put_node_of_ne _ _ hj]
  constructor
  case id =>
    intro j
    by_cases hj : j = i
    · subst hj
      rw [Cluster.put_node_self, hid]
      exact h.id j
    · rw [Cluster.put_node_of_ne _ _ hj]
      exact h.id j
  case seqs =>
    intro j
    by_cases hj : j = i
    · subst hj
      rw [Cluster.put_node_self, hself, hseq, map_append, h.seqs, range'_concat]
      simp [hmsg.2.2, Nat.add_comm]
    · rw [Cluster.put_node_of_ne _ _ hj, hne j hj]
      exact h.seqs j
  case sender =>
    intro j msg hmem
    by_cases hj : j = i
    · subst hj
      rw [hself] at hmem
      rcases mem_append.mp hmem with hmem | hmem
      · exact h.sender j msg hmem
      · rw [mem_singleton.mp hmem]
        exact ⟨hmsg.1, hmsg.2.1⟩
    · rw [hne j hj] at hmem
      exact h.sender j msg hmem
  case own =>
    intro j
    by_cases hj : j = i
    · subst hj
      rw [Cluster.put_node_self, hrcvd, update_self]
    · rw [Cluster.put_node_of_ne _ _ hj]
      exact h.own j
  case buf =>
    intro j msg hmem
    by_cases hj : j = i
    · subst hj
      rw [Cluster.put_node_self, hbuf] at hmem
      rw [hself]
      rcases mem_append.mp hmem with hmem | hmem
      · exact mem_append_left _ (h.buf j msg hmem)
      · exact mem_append_right _ hmem
    · rw [Cluster.put_node_of_ne _ _ hj] at hmem
      exact hsub j msg (h.buf j msg hmem)
  case sent =>
    intro j msg hsent
    rcases Cluster.sent_put.mp hsent with hsent | he
    · exact hsub _ msg (h.sent j msg hsent)
    · simp at he
  case handled =>
    intro j k hk
    rw [hh]
    by_cases hki : k = i
    · -- one more packet of `i`, which nobody has handled
      subst hki
      rw [Cluster.put_node_of_ne _ _ hk.symm, hself, h.handled j k hk, take_append_of_le_length]
      rw [length_of_numbered (h.seqs k)]
      exact h.bound j k
    · rw [hne k hki, hrcvd' j k hki]
      exact h.handled j k hk
  case other =>
    intro j msg hmem
    rw [hh] at hmem
    exact h.other j msg hmem
  case bound =>
    intro j k
    by_cases hk : k = i
    · subst hk
      rw [Cluster.put_node_self]
      by_cases hj : j = k
      · subst hj
        rw [Cluster.put_node_self, hrcvd, update_self]
      · rw [Cluster.put_node_of_ne _ _ hj, hseq]
        exact Nat.le_succ_of_le (h.bound j k)
    · rw [hrcvd' j k hk, Cluster.put_node_of_ne _ _ hk]
      exact h.bound j k

/-- The packet that is handled is the next one of another node. -/
theorem next_msg (h : DeliveryInv s) {msg : BroadcastMsg n} (hsent : s.Sent i (.data msg))
    (hseq : msg.seq = (s.node i).highestSeqRcvd msg.senderId + 1) :
    msg.senderId ≠ i ∧ msg ∈ s.broadcasts msg.senderId := by
  have hmem := h.sent i msg hsent
  refine ⟨?_, hmem⟩
  -- the node has every packet of its own already
  intro heq
  have hbound := (getElem?_of_numbered (h.seqs _) hmem).2.2
  rw [heq] at hbound hseq
  rw [h.own i] at hseq
  omega

/-- A packet whose number another node has reached was handled there. -/
theorem mem_handled_of_seq_le (h : DeliveryInv s) {j : Fin n} (hj : j ≠ i) {msg : BroadcastMsg n}
    (hmsg : msg ∈ s.broadcasts i) (hseq : msg.seq ≤ (s.node j).highestSeqRcvd i) :
    msg ∈ s.handled j := by
  rcases getElem?_of_numbered (h.seqs i) hmsg with ⟨hat, hpos, _⟩
  have htake : msg ∈ (s.broadcasts i).take ((s.node j).highestSeqRcvd i) := by
    refine mem_of_getElem? (i := msg.seq - 1) ?_
    rw [List.getElem?_take_of_lt (by omega)]
    exact hat
  rw [← h.handled j i hj.symm] at htake
  exact (mem_filter.mp htake).1

theorem handle (h : DeliveryInv s) {msg : BroadcastMsg n} (hsent : s.Sent i (.data msg))
    (hseq : msg.seq = (s.node i).highestSeqRcvd msg.senderId + 1) :
    DeliveryInv (s.put i ((s.node i).handlePacket msg)) := by
  rcases h.next_msg hsent hseq with ⟨hother, hmem⟩
  have hat := getElem?_of_numbered (h.seqs _) hmem
  have hb := fun j => Cluster.broadcasts_put_handlePacket s i j msg
  have hself := Cluster.handled_put_handlePacket s i msg
  generalize hr : (s.node i).handlePacket msg = r at hb hself
  have hid : r.1.id = (s.node i).id := by rw [← hr]; rfl
  have hseq' : r.1.seq = (s.node i).seq := by rw [← hr]; rfl
  have hbuf : r.1.buf = (s.node i).buf := by rw [← hr]; rfl
  have hrcvd : r.1.highestSeqRcvd =
      Function.update (s.node i).highestSeqRcvd msg.senderId msg.seq := by
    rw [← hr]
    rfl
  have hevents : r.2 = [.handlePacket msg] := by rw [← hr]; rfl
  have hne : ∀ j, j ≠ i → (s.put i r).handled j = s.handled j :=
    fun j hj => Cluster.collect_put_of_ne hj
  have hseqs : ∀ j, ((s.put i r).node j).seq = (s.node j).seq := by
    intro j
    by_cases hj : j = i
    · subst hj
      rw [Cluster.put_node_self, hseq']
    · rw [Cluster.put_node_of_ne _ _ hj]
  constructor
  case id =>
    intro j
    by_cases hj : j = i
    · subst hj
      rw [Cluster.put_node_self, hid]
      exact h.id j
    · rw [Cluster.put_node_of_ne _ _ hj]
      exact h.id j
  case seqs =>
    intro j
    rw [hb, hseqs]
    exact h.seqs j
  case sender =>
    intro j msg' hmem'
    rw [hb] at hmem'
    exact h.sender j msg' hmem'
  case own =>
    intro j
    rw [hseqs]
    by_cases hj : j = i
    · subst hj
      rw [Cluster.put_node_self, hrcvd, update_of_ne hother.symm]
      exact h.own j
    · rw [Cluster.put_node_of_ne _ _ hj]
      exact h.own j
  case buf =>
    intro j msg' hmem'
    rw [hb]
    by_cases hj : j = i
    · subst hj
      rw [Cluster.put_node_self, hbuf] at hmem'
      exact h.buf j msg' hmem'
    · rw [Cluster.put_node_of_ne _ _ hj] at hmem'
      exact h.buf j msg' hmem'
  case sent =>
    intro j msg' hsent'
    rw [hb]
    rcases Cluster.sent_put.mp hsent' with hsent' | he
    · exact h.sent j msg' hsent'
    · rw [hevents] at he
      simp at he
  case handled =>
    intro j k hk
    rw [hb]
    by_cases hj : j = i
    · subst hj
      rw [Cluster.put_node_self, hself, hrcvd, filter_append, h.handled j k hk]
      by_cases hks : k = msg.senderId
      · -- the packet is the one after those that were handled
        subst hks
        have hidx : msg.seq - 1 = (s.node j).highestSeqRcvd msg.senderId := by omega
        have hget := hat.1
        rw [hidx] at hget
        rw [update_self, hseq, take_add_one, hget]
        simp
      · rw [update_of_ne hks]
        simp [Ne.symm hks]
    · rw [Cluster.put_node_of_ne _ _ hj, hne j hj]
      exact h.handled j k hk
  case other =>
    intro j msg' hmem'
    by_cases hj : j = i
    · subst hj
      rw [hself] at hmem'
      rcases mem_append.mp hmem' with hmem' | hmem'
      · exact h.other j msg' hmem'
      · rw [mem_singleton.mp hmem']
        exact hother
    · rw [hne j hj] at hmem'
      exact h.other j msg' hmem'
  case bound =>
    intro j k
    rw [hseqs]
    by_cases hj : j = i
    · subst hj
      rw [Cluster.put_node_self, hrcvd]
      by_cases hks : k = msg.senderId
      · subst hks
        rw [update_self]
        exact hat.2.2
      · rw [update_of_ne hks]
        exact h.bound j k
    · rw [Cluster.put_node_of_ne _ _ hj]
      exact h.bound j k

theorem ack (h : DeliveryInv s) (senderId : Fin n) (ts seq : Nat)
    (seqVector tsVector : Fin n → Nat) :
    DeliveryInv (s.put i ((s.node i).handleAck senderId ts seq seqVector tsVector)) := by
  have hhistory := Cluster.history_put_handleAck s i senderId ts seq seqVector tsVector
  generalize hr : (s.node i).handleAck senderId ts seq seqVector tsVector = r at hhistory
  have hid : r.1.id = (s.node i).id := by rw [← hr]; rfl
  have hseq : r.1.seq = (s.node i).seq := by rw [← hr]; rfl
  have hrcvd : r.1.highestSeqRcvd = (s.node i).highestSeqRcvd := by rw [← hr]; rfl
  have hbuf : ∀ msg ∈ r.1.buf, msg ∈ (s.node i).buf := by
    intro msg hmsg
    rw [← hr] at hmsg
    exact (dropWhile_sublist _).subset hmsg
  have hb := fun j => (hhistory j).1
  have hh := fun j => (hhistory j).2
  have hnode : ∀ j, ((s.put i r).node j).id = (s.node j).id ∧
      ((s.put i r).node j).seq = (s.node j).seq ∧
      ((s.put i r).node j).highestSeqRcvd = (s.node j).highestSeqRcvd ∧
      ∀ msg ∈ ((s.put i r).node j).buf, msg ∈ (s.node j).buf := by
    intro j
    by_cases hj : j = i
    · subst hj
      rw [Cluster.put_node_self]
      exact ⟨hid, hseq, hrcvd, hbuf⟩
    · rw [Cluster.put_node_of_ne _ _ hj]
      exact ⟨rfl, rfl, rfl, fun _ hmsg => hmsg⟩
  constructor
  case id =>
    intro j
    rw [(hnode j).1]
    exact h.id j
  case seqs =>
    intro j
    rw [hb, (hnode j).2.1]
    exact h.seqs j
  case sender =>
    intro j msg hmsg
    rw [hb] at hmsg
    exact h.sender j msg hmsg
  case own =>
    intro j
    rw [(hnode j).2.2.1, (hnode j).2.1]
    exact h.own j
  case buf =>
    intro j msg hmsg
    rw [hb]
    exact h.buf j msg ((hnode j).2.2.2 msg hmsg)
  case sent =>
    intro j msg hsent
    rw [hb]
    rcases Cluster.sent_put.mp hsent with hsent | he
    · exact h.sent j msg hsent
    · rw [← hr] at he
      cases mem_singleton.mp he
  case handled =>
    intro j k hk
    rw [hh, hb, (hnode j).2.2.1]
    exact h.handled j k hk
  case other =>
    intro j msg hmsg
    rw [hh] at hmsg
    exact h.other j msg hmsg
  case bound =>
    intro j k
    rw [(hnode j).2.2.1, (hnode k).2.1]
    exact h.bound j k

theorem moved (h : DeliveryInv s) {m : Move n} {s' : Cluster n} (hmove : Moved s m s') :
    DeliveryInv s' := by
  cases hmove with
  | quiet hquiet hevents => exact h.quiet hquiet hevents
  | broadcast _ _ => exact h.broadcast _ _
  | handle hsent hseq => exact h.handle hsent hseq
  | ack _ => exact h.ack _ _ _ _ _

end DeliveryInv

theorem Reached.deliveryInv {P : GroupStore → Operation → Prop} {s : Cluster n}
    (h : Reached P s) : DeliveryInv s := by
  refine Reached.induction DeliveryInv DeliveryInv.init ?_ h
  intro s m s' _ hinv _ hmove
  exact hinv.moved hmove

theorem reached_of_run {t : System n} (h : (chatSystem n).Reachable t) :
    Reached (fun _ _ => True) t.cluster := by
  refine reached_of_reachable (TransitionSystem.ReachableBy.mono ?_ h)
  intro s a _
  unfold ReceiveGuard
  split
  · intro _
    trivial
  · trivial

/-- If node `i` has received `k` packets of `j`, it has handled exactly the packets
1 to `k` of `j`, each once and in that order. -/
theorem handled_exactly_once_in_order {t : System n} (h : (chatSystem n).Reachable t)
    {i j : Fin n} (hij : j ≠ i) :
    (t.cluster.handled i).filter (fun msg => msg.senderId = j) =
        (t.cluster.broadcasts j).take ((t.cluster.node i).highestSeqRcvd j) ∧
      ((t.cluster.handled i).filter (fun msg => msg.senderId = j)).map BroadcastMsg.seq =
        List.range' 1 ((t.cluster.node i).highestSeqRcvd j) := by
  have hinv := (reached_of_run h).deliveryInv
  refine ⟨hinv.handled i j hij, ?_⟩
  rw [hinv.handled i j hij, map_take, hinv.seqs j]
  exact take_range'_of_length_ge (hinv.bound i j)

/-- User `u` of server 0 creates group `g` and leaves it. The second packet arrives at
server 1 before the first, which comes twice, and once more after it. -/
def joinRun : List (Action 5) :=
  let create := Packet.data ⟨0, 1, 1, .createGroup "g" "u", false⟩
  let leave := Packet.data ⟨0, 2, 2, .leaveGroup "g" "u", false⟩
  [.connect 0 0, .setUsername 0 0 "u", .joinGroupLeave 0 0 "g", .joinGroupEnter 0 0,
    .joinGroupLeave 0 0 "h", .receive 1 leave 0, .receive 1 create 0, .receive 1 create 0,
    .receive 1 leave 0]

theorem handled_exactly_once_in_order_joinRun :
    ∃ t : System 5, (chatSystem 5).Reachable t ∧
      (t.cluster.node 1).highestSeqRcvd 0 = 2 ∧
      ((t.cluster.handled 1).filter (fun msg => msg.senderId = 0)).map BroadcastMsg.seq = [1, 2] := by
  have hrun : TransitionSystem.runMeets System.next (fun _ _ => true)
      (fun t => decide ((t.cluster.node 1).highestSeqRcvd 0 = 2)) joinRun
      (System.init fun _ => 0) = true := by
    decide +kernel
  rcases exists_reachable_of_run hrun with ⟨t, ht, hp⟩
  have hk := of_decide_eq_true hp
  have hseqs := (handled_exactly_once_in_order ht (i := 1) (j := 0) (by decide)).2
  rw [hk] at hseqs
  exact ⟨t, ht, hk, hseqs⟩

end PittCs.Chat
