import PittCs.Chat.Agreement
import PittCs.Chat.Purge

/-!
# Convergence of the replicas

The history of a replica is what it has purged from its log, followed by the
log. Replicas that have received the same packets have the same history, up to
the flags that tell which operations succeeded there. Where the flags agree the
groups agree. They need not agree: an operation that fails when its packet
arrives is tried again only when the next packet arrives, and may succeed then
although it did not elsewhere.
-/

namespace PittCs.Chat

open PittCs.Lib List

variable {n : Nat}

namespace Cluster

/-- All packets that `i` has broadcast or handled, in order, with their flags. -/
def history (s : Cluster n) (i : Fin n) : List (BroadcastMsg n) :=
  s.purged i ++ (s.node i).log

/-- The packets whose operation has not succeeded at `i`. -/
def failed (s : Cluster n) (i : Fin n) : List (BroadcastMsg n) :=
  (s.history i).filter fun msg => !msg.executed

end Cluster

/-- The operations of the packets marked as executed. -/
def executedOps (ls : List (BroadcastMsg n)) : List Operation :=
  (ls.filter fun msg => msg.executed).map BroadcastMsg.content

theorem executedOps_perm {ls ls' : List (BroadcastMsg n)} (h : ls.Perm ls') :
    (executedOps ls).Perm (executedOps ls') :=
  (h.filter _).map _

theorem executedOps_append (ls ls' : List (BroadcastMsg n)) :
    executedOps (ls ++ ls') = executedOps ls ++ executedOps ls' := by
  unfold executedOps
  rw [filter_append, map_append]

/-- Running the log runs the operations that get marked by it. -/
theorem runLog_executedOps (store : GroupStore) (log : List (BroadcastMsg n)) :
    ∃ ops, (executedOps (Node.runLog store log).2).Perm (executedOps log ++ ops) ∧
      store.applyAll ops = some (Node.runLog store log).1 := by
  induction log generalizing store with
  | nil => exact ⟨[], List.Perm.refl _, rfl⟩
  | cons m rest ih =>
    unfold Node.runLog
    split
    · -- an executed packet is passed over
      rename_i hexec
      rcases ih store with ⟨ops, hperm, happly⟩
      refine ⟨ops, ?_, happly⟩
      have hcons : ∀ ls : List (BroadcastMsg n),
          executedOps (m :: ls) = m.content :: executedOps ls := by
        intro ls
        simp [executedOps, hexec]
      rw [hcons, hcons]
      exact hperm.cons _
    · rename_i hexec
      have hskip : ∀ ls : List (BroadcastMsg n), executedOps (m :: ls) = executedOps ls := by
        intro ls
        simp [executedOps, hexec]
      split
      · rcases ih store with ⟨ops, hperm, happly⟩
        refine ⟨ops, ?_, happly⟩
        rw [hskip, hskip]
        exact hperm
      · -- the operation succeeds, and the packet is marked
        rename_i store' hsucc
        rcases ih store' with ⟨ops, hperm, happly⟩
        refine ⟨m.content :: ops, ?_, GroupStore.applyAll_cons.mpr ⟨store', hsucc, happly⟩⟩
        rw [hskip]
        have hmark : executedOps ({ m with executed := true } :: (Node.runLog store' rest).2) =
            m.content :: executedOps (Node.runLog store' rest).2 := by
          simp [executedOps]
        exact hmark ▸ (hperm.cons m.content).trans perm_middle.symm

/-! ## The history of a replica -/

structure HistoryInv (s : Cluster n) : Prop where
  sorted : ∀ i, KeySorted BroadcastMsg.key (s.history i)
  packets : ∀ i, ((s.history i).map BroadcastMsg.unexecuted).Perm
    (s.broadcasts i ++ s.handled i)
  effects : ∀ i, ∃ ops, ops.Perm (executedOps (s.history i)) ∧
    GroupStore.empty.applyAll ops = some (s.node i).store

namespace HistoryInv

variable {s : Cluster n} {i : Fin n}

theorem init (start : Fin n → Nat) :
    HistoryInv { node := fun i => Node.init i (start i), trace := [] } where
  sorted := fun _ => List.Pairwise.nil
  packets := fun _ => List.Perm.refl _
  effects := fun _ => ⟨[], List.Perm.refl _, rfl⟩

/-- The history of a node after a section that purges nothing. -/
theorem history_put {r : Node n × List (Event n)} (hpurged : ∀ e ∈ r.2, e.purged = []) (j : Fin n) :
    (s.put i r).history j = if j = i then s.purged i ++ r.1.log else s.history j := by
  unfold Cluster.history
  have hp : (s.put i r).purged j = s.purged j := Cluster.collect_put_of_nil hpurged
  rw [hp]
  by_cases hj : j = i
  · subst hj
    rw [if_pos rfl, Cluster.put_node_self]
  · rw [if_neg hj, Cluster.put_node_of_ne _ _ hj]

theorem history_quiet {node' : Node n} {events : List (Event n)} (hquiet : Quiet (s.node i) node')
    (hevents : ∀ e ∈ events, Harmless (s.node i) e) (j : Fin n) :
    (s.put i (node', events)).history j = s.history j := by
  rcases quiet_put hquiet hevents j with ⟨hnode, _, _, hpurged⟩
  unfold Cluster.history
  rw [hpurged, hnode.log]

/-- A purge moves the front of the log; the history stays as it is. -/
theorem history_ack (senderId : Fin n) (ts seq : Nat) (seqVector tsVector : Fin n → Nat)
    (j : Fin n) :
    (s.put i ((s.node i).handleAck senderId ts seq seqVector tsVector)).history j =
      s.history j := by
  unfold Cluster.history
  by_cases hj : j = i
  · subst hj
    unfold Cluster.purged
    rw [Cluster.put_node_self, Cluster.collect_put, if_pos rfl, append_assoc]
    congr 1
    show ([_].flatMap Event.purged) ++ _ = _
    rw [flatMap_singleton]
    exact takeWhile_append_dropWhile
  · unfold Cluster.purged
    rw [Cluster.collect_put_of_ne hj, Cluster.put_node_of_ne _ _ hj]

theorem quiet (h : HistoryInv s) {node' : Node n} {events : List (Event n)}
    (hquiet : Quiet (s.node i) node') (hevents : ∀ e ∈ events, Harmless (s.node i) e) :
    HistoryInv (s.put i (node', events)) := by
  have hnode := fun j => (quiet_put hquiet hevents j).1
  have hb := fun j => (quiet_put hquiet hevents j).2.1
  have hh := fun j => (quiet_put hquiet hevents j).2.2.1
  have hhist := history_quiet hquiet hevents
  constructor
  case sorted =>
    intro j
    rw [hhist]
    exact h.sorted j
  case packets =>
    intro j
    rw [hhist, hb, hh]
    exact h.packets j
  case effects =>
    intro j
    rw [hhist, (hnode j).store]
    exact h.effects j

/-- A packet of the history was broadcast by its sender. -/
theorem mem_broadcasts (h : HistoryInv s) (hd : DeliveryInv s) {x : BroadcastMsg n}
    (hx : x ∈ s.history i) :
    x.unexecuted ∈ s.broadcasts x.senderId ∧
      (x.unexecuted ∈ s.broadcasts i ∨ x.unexecuted ∈ s.handled i) := by
  have hmem : x.unexecuted ∈ (s.history i).map BroadcastMsg.unexecuted := mem_map_of_mem hx
  have hcase := mem_append.mp ((h.packets i).mem_iff.mp hmem)
  refine ⟨?_, hcase⟩
  rcases hcase with hb | hh
  · have hsender : x.senderId = i := (hd.sender i _ hb).1
    rw [hsender]
    exact hb
  · -- what was handled is the beginning of what its sender broadcast
    have hne : x.senderId ≠ i := hd.other i x.unexecuted hh
    have hfilter : x.unexecuted ∈ (s.handled i).filter (fun msg => msg.senderId = x.senderId) :=
      mem_filter.mpr ⟨hh, decide_eq_true rfl⟩
    rw [hd.handled i x.senderId hne] at hfilter
    exact mem_of_mem_take hfilter

/-- What is purged is below everything that is in the log or still to come. -/
theorem purged_lt (hp : PurgeInv s) {q : BroadcastMsg n} (hq : q ∈ s.purged i) :
    (∀ j, q.ts < (s.node i).highestTsRcvd j) ∧ ∀ x ∈ (s.node i).log, q.ts < x.ts := by
  rcases Cluster.mem_collect.mp hq with ⟨e, he, hqe⟩
  cases e with
  | purge minTs fromBuf fromLog =>
    rcases hp.floor i minTs fromBuf fromLog he with ⟨hfloor, hlog, hbelow⟩
    have hlt := hbelow q hqe
    exact ⟨fun j => hlt.trans_le (hfloor j), fun x hx => hlt.trans_le (hlog x hx)⟩
  | _ => cases hqe

/-- One more packet, with a new place in the order and above what was purged. -/
theorem insert (h : HistoryInv s) (hp : PurgeInv s) {msg : BroadcastMsg n}
    (hfresh : ∀ x ∈ s.history i, x.key ≠ msg.key)
    (habove : ∃ j, (s.node i).highestTsRcvd j < msg.ts) :
    KeySorted BroadcastMsg.key (s.purged i ++ putInOrder (s.node i).log msg) ∧
      (s.purged i ++ putInOrder (s.node i).log msg).Perm (msg :: s.history i) := by
  have hsorted := pairwise_append.mp (h.sorted i)
  constructor
  · refine pairwise_append.mpr ⟨hsorted.1, putInOrder_sorted hsorted.2.1, ?_⟩
    intro q hq x hx
    have hts : q.ts < x.ts := by
      rcases mem_putInOrder hx with rfl | hx
      · rcases habove with ⟨j, hj⟩
        exact ((purged_lt hp hq).1 j).trans hj
      · exact (purged_lt hp hq).2 x hx
    exact Prod.Lex.toLex_lt_toLex.mpr (Or.inl hts)
  · have hlog : (putInOrder (s.node i).log msg).Perm (msg :: (s.node i).log) := by
      refine putInOrder_perm ?_
      intro x hx
      exact hfresh x (mem_append_right _ hx)
    exact (hlog.append_left _).trans perm_middle

theorem broadcast (h : HistoryInv s) (hd : DeliveryInv s) (hc : ClockInv s) (hp : PurgeInv s)
    {store : GroupStore} {op : Operation} (happly : (s.node i).store.apply op = some store) :
    HistoryInv (s.put i ((((s.node i).setStore store).enqueue op).1,
      [.broadcast (((s.node i).setStore store).enqueue op).2])) := by
  generalize hq : ((s.node i).setStore store).enqueue op = q
  have hstore : q.1.store = store := by rw [← hq]; rfl
  generalize hexec : ({ q.2 with executed := true } : BroadcastMsg n) = exec
  have hlog : q.1.log = putInOrder (s.node i).log exec := by rw [← hexec, ← hq]; rfl
  have hunexec : exec.unexecuted = q.2 := by rw [← hexec, ← hq]; rfl
  have hts : exec.ts = (s.node i).timestamp + 1 := by rw [← hexec, ← hq]; rfl
  have hcontent : exec.content = op ∧ exec.executed = true := by rw [← hexec, ← hq]; exact ⟨rfl, rfl⟩
  have hfresh : ∀ x ∈ s.history i, x.key ≠ exec.key := by
    intro x hx hkey
    have hxts : x.ts = exec.ts := (BroadcastMsg.key_eq.mp hkey).1
    have hle : x.ts ≤ (s.node i).timestamp :=
      hc.seen i x.unexecuted (h.mem_broadcasts hd hx).2
    omega
  have habove : ∃ j, (s.node i).highestTsRcvd j < exec.ts := by
    refine ⟨i, ?_⟩
    rw [hc.own i, hts]
    exact Nat.lt_succ_self _
  rcases h.insert hp hfresh habove with ⟨hsorted, hperm⟩
  have hhist : ∀ j, (s.put i (q.1, [.broadcast q.2])).history j =
      if j = i then s.purged i ++ putInOrder (s.node i).log exec else s.history j := by
    intro j
    rw [history_put, hlog]
    intro e he
    rw [mem_singleton.mp he]
    rfl
  have hh := fun j => Cluster.handled_put_broadcast s i j q.1 q.2
  constructor
  case sorted =>
    intro j
    rw [hhist]
    split
    · exact hsorted
    · exact h.sorted j
  case packets =>
    intro j
    rw [hhist, hh]
    split
    · rename_i hj
      subst hj
      have hb : (s.put j (q.1, [.broadcast q.2])).broadcasts j = s.broadcasts j ++ [q.2] :=
        Cluster.collect_put_self
      rw [hb]
      refine (hperm.map _).trans ?_
      rw [map_cons, hunexec, append_assoc]
      exact ((h.packets j).cons q.2).trans perm_middle.symm
    · rename_i hj
      have hb : (s.put i (q.1, [.broadcast q.2])).broadcasts j = s.broadcasts j :=
        Cluster.collect_put_of_ne hj
      rw [hb]
      exact h.packets j
  case effects =>
    intro j
    rw [hhist]
    split
    · rename_i hj
      subst hj
      rcases h.effects j with ⟨ops, hops, hrun⟩
      rw [Cluster.put_node_self, hstore]
      refine ⟨ops ++ [op], ?_, ?_⟩
      · refine List.Perm.trans ?_ (executedOps_perm hperm).symm
        have hcons : executedOps (exec :: s.history j) = op :: executedOps (s.history j) := by
          simp [executedOps, hcontent.1, hcontent.2]
        rw [hcons]
        exact (perm_append_singleton op ops).trans (hops.cons op)
      · refine GroupStore.applyAll_append.mpr ⟨_, hrun, ?_⟩
        exact GroupStore.applyAll_cons.mpr ⟨store, happly, rfl⟩
    · rename_i hj
      rw [Cluster.put_node_of_ne _ _ hj]
      exact h.effects j

/-- The packet that is handled has a place of its own in the order. -/
theorem fresh (h : HistoryInv s) (hd : DeliveryInv s) (hc : ClockInv s) {msg : BroadcastMsg n}
    (hsent : s.Sent i (.data msg))
    (hseq : msg.seq = (s.node i).highestSeqRcvd msg.senderId + 1) :
    ∀ x ∈ s.history i, x.key ≠ msg.key := by
  rcases hd.next_msg hsent hseq with ⟨hother, hmem⟩
  intro x hx hkey
  rcases BroadcastMsg.key_eq.mp hkey with ⟨hts, hsender⟩
  rcases h.mem_broadcasts hd hx with ⟨hbroadcast, hseen⟩
  rw [hsender] at hbroadcast
  have heq : x.unexecuted = msg := hc.eq_of_ts hd hbroadcast hmem hts
  rw [heq] at hseen
  rcases hseen with hb | hh
  · exact hother (hd.sender i msg hb).1
  · -- the packet would have been handled before
    have hfilter : msg ∈ (s.handled i).filter (fun x => x.senderId = msg.senderId) :=
      mem_filter.mpr ⟨hh, decide_eq_true rfl⟩
    rw [hd.handled i msg.senderId hother] at hfilter
    have hseqs : msg.seq ∈ ((s.broadcasts msg.senderId).take
        ((s.node i).highestSeqRcvd msg.senderId)).map BroadcastMsg.seq :=
      mem_map_of_mem hfilter
    rw [map_take, hd.seqs, take_range'_of_length_ge (hd.bound i msg.senderId)] at hseqs
    have hlt := (mem_range'_1.mp hseqs).2
    omega

theorem handle (h : HistoryInv s) (hd : DeliveryInv s) (hc : ClockInv s) (hp : PurgeInv s)
    {msg : BroadcastMsg n} (hsent : s.Sent i (.data msg))
    (hseq : msg.seq = (s.node i).highestSeqRcvd msg.senderId + 1) :
    HistoryInv (s.put i ((s.node i).handlePacket msg)) := by
  rcases hd.next_msg hsent hseq with ⟨hother, hmem⟩
  have hexec : msg.executed = false := (hd.sender _ msg hmem).2
  have hunexec : msg.unexecuted = msg := by
    cases msg
    cases hexec
    rfl
  have hfresh := h.fresh hd hc hsent hseq
  have habove : ∃ j, (s.node i).highestTsRcvd j < msg.ts :=
    ⟨msg.senderId, hc.later i msg.senderId msg hmem (by omega)⟩
  rcases h.insert hp hfresh habove with ⟨hsorted, hperm⟩
  rcases runLog_executedOps (s.node i).store (putInOrder (s.node i).log msg) with
    ⟨ops', hops', hrun'⟩
  have hflags := runLog_unexecuted (s.node i).store (putInOrder (s.node i).log msg)
  have hb := fun j => Cluster.broadcasts_put_handlePacket s i j msg
  have hself := Cluster.handled_put_handlePacket s i msg
  generalize hr : (s.node i).handlePacket msg = r at hb hself
  have hstore : r.1.store = (Node.runLog (s.node i).store (putInOrder (s.node i).log msg)).1 := by
    rw [← hr]
    rfl
  have hlog : r.1.log = (Node.runLog (s.node i).store (putInOrder (s.node i).log msg)).2 := by
    rw [← hr]
    rfl
  have hevents : r.2 = [.handlePacket msg] := by rw [← hr]; rfl
  rw [← hlog] at hops' hflags
  rw [← hstore] at hrun'
  have hmap : (s.purged i ++ r.1.log).map BroadcastMsg.unexecuted =
      (s.purged i ++ putInOrder (s.node i).log msg).map BroadcastMsg.unexecuted := by
    rw [map_append, map_append, hflags]
  have hhist : ∀ j, (s.put i r).history j =
      if j = i then s.purged i ++ r.1.log else s.history j := by
    intro j
    refine history_put ?_ j
    intro e he
    rw [hevents] at he
    rw [mem_singleton.mp he]
    rfl
  constructor
  case sorted =>
    intro j
    rw [hhist]
    split
    · rw [← keySorted_unexecuted, hmap, keySorted_unexecuted]
      exact hsorted
    · exact h.sorted j
  case packets =>
    intro j
    rw [hhist, hb]
    split
    · rename_i hj
      subst hj
      rw [hself, hmap]
      refine (hperm.map _).trans ?_
      rw [map_cons, hunexec, ← append_assoc]
      exact ((h.packets j).cons msg).trans (perm_append_singleton msg _).symm
    · rename_i hj
      have hh : (s.put i r).handled j = s.handled j := Cluster.collect_put_of_ne hj
      rw [hh]
      exact h.packets j
  case effects =>
    intro j
    rw [hhist]
    split
    · rename_i hj
      subst hj
      rcases h.effects j with ⟨ops, hops, hrun⟩
      rw [Cluster.put_node_self]
      refine ⟨ops ++ ops', ?_, GroupStore.applyAll_append.mpr ⟨_, hrun, hrun'⟩⟩
      -- the new packet itself was not marked before the log was run
      have hsame : (executedOps (s.purged j ++ putInOrder (s.node j).log msg)).Perm
          (executedOps (s.history j)) := by
        refine (executedOps_perm hperm).trans ?_
        simp [executedOps, hexec]
      have hnew : (executedOps (s.purged j ++ r.1.log)).Perm
          (executedOps (s.purged j ++ putInOrder (s.node j).log msg) ++ ops') := by
        rw [executedOps_append, executedOps_append, append_assoc]
        exact hops'.append_left _
      exact ((hops.trans hsame.symm).append_right ops').trans hnew.symm
    · rename_i hj
      rw [Cluster.put_node_of_ne _ _ hj]
      exact h.effects j

theorem ack (h : HistoryInv s) (senderId : Fin n) (ts seq : Nat)
    (seqVector tsVector : Fin n → Nat) :
    HistoryInv (s.put i ((s.node i).handleAck senderId ts seq seqVector tsVector)) := by
  have hhist := history_ack (s := s) (i := i) senderId ts seq seqVector tsVector
  have hhistory := Cluster.history_put_handleAck s i senderId ts seq seqVector tsVector
  generalize hr : (s.node i).handleAck senderId ts seq seqVector tsVector = r at hhist hhistory
  have hstore : ∀ j, ((s.put i r).node j).store = (s.node j).store := by
    intro j
    by_cases hj : j = i
    · subst hj
      rw [Cluster.put_node_self, ← hr]
      rfl
    · rw [Cluster.put_node_of_ne _ _ hj]
  have hb := fun j => (hhistory j).1
  have hh := fun j => (hhistory j).2
  constructor
  case sorted =>
    intro j
    rw [hhist]
    exact h.sorted j
  case packets =>
    intro j
    rw [hhist, hb, hh]
    exact h.packets j
  case effects =>
    intro j
    rw [hhist, hstore]
    exact h.effects j

end HistoryInv

theorem Reached.historyInv {P : GroupStore → Operation → Prop} {s : Cluster n}
    (h : Reached P s) : HistoryInv s := by
  refine Reached.induction HistoryInv HistoryInv.init ?_ h
  intro s m s' hs hinv _ hmove
  cases hmove with
  | quiet hquiet hevents => exact hinv.quiet hquiet hevents
  | broadcast happly _ => exact hinv.broadcast hs.deliveryInv hs.clockInv hs.purgeInv happly
  | handle hsent hseq => exact hinv.handle hs.deliveryInv hs.clockInv hs.purgeInv hsent hseq
  | ack _ => exact hinv.ack _ _ _ _ _

/-! ## Replicas with the same packets -/

section Converge

variable {s : Cluster n} {i j : Fin n}

/-- The packets of a replica are the first ones of every server. -/
theorem DeliveryInv.mem_packets (hd : DeliveryInv s) {x : BroadcastMsg n} :
    x ∈ s.broadcasts i ++ s.handled i ↔
      ∃ k, x ∈ (s.broadcasts k).take ((s.node i).highestSeqRcvd k) := by
  have hown : (s.broadcasts i).take ((s.node i).highestSeqRcvd i) = s.broadcasts i := by
    rw [hd.own i, ← length_of_numbered (hd.seqs i), take_length]
  rw [mem_append]
  constructor
  · rintro (hb | hh)
    · exact ⟨i, hown.symm ▸ hb⟩
    · refine ⟨x.senderId, ?_⟩
      rw [← hd.handled i x.senderId (hd.other i x hh)]
      exact mem_filter.mpr ⟨hh, decide_eq_true rfl⟩
  · rintro ⟨k, hk⟩
    by_cases hki : k = i
    · subst hki
      rw [hown] at hk
      exact Or.inl hk
    · rw [← hd.handled i k hki] at hk
      exact Or.inr (mem_filter.mp hk).1

/-- Replicas with equal vectors have the same history, up to the flags. -/
theorem HistoryInv.same_packets (h : HistoryInv s) (hd : DeliveryInv s)
    (hvec : (s.node i).highestSeqRcvd = (s.node j).highestSeqRcvd) :
    (s.history i).map BroadcastMsg.unexecuted = (s.history j).map BroadcastMsg.unexecuted := by
  have hsorted := fun k => keySorted_unexecuted.mpr (h.sorted k)
  have hnodup : ∀ k, ((s.history k).map BroadcastMsg.unexecuted).Nodup := fun k =>
    (hsorted k).imp fun hab heq => hab.ne (congrArg BroadcastMsg.key heq)
  refine (hsorted i).eq_of_perm (hsorted j) ?_
  refine (perm_ext_iff_of_nodup (hnodup i) (hnodup j)).mpr ?_
  intro x
  rw [(h.packets i).mem_iff, (h.packets j).mem_iff, hd.mem_packets, hd.mem_packets, hvec]

theorem BroadcastMsg.eq_of_unexecuted {x y : BroadcastMsg n} (h : x.unexecuted = y.unexecuted)
    (hexec : x.executed = y.executed) : x = y := by
  cases x
  cases y
  simp only [BroadcastMsg.unexecuted, BroadcastMsg.mk.injEq] at h ⊢
  exact ⟨h.1, h.2.1, h.2.2.1, h.2.2.2.1, hexec⟩

/-- What two ordered lists have in common when they agree up to the flags and on the
packets that are not executed. -/
theorem mem_of_same_failed {ls ls' : List (BroadcastMsg n)} (hls : KeySorted BroadcastMsg.key ls)
    (hmap : ls.map BroadcastMsg.unexecuted = ls'.map BroadcastMsg.unexecuted)
    (hfailed : ∀ x, (x ∈ ls ∧ x.executed = false) ↔ (x ∈ ls' ∧ x.executed = false))
    {x : BroadcastMsg n} (hx : x ∈ ls) : x ∈ ls' := by
  cases hexec : x.executed with
  | false => exact ((hfailed x).mp ⟨hx, hexec⟩).1
  | true =>
    have hmem : x.unexecuted ∈ ls'.map BroadcastMsg.unexecuted := by
      rw [← hmap]
      exact mem_map_of_mem hx
    rcases mem_map.mp hmem with ⟨y, hy, hyx⟩
    have hyexec : y.executed = true := by
      by_contra hne
      -- then `y` would be in the place of `x`, not executed
      have hyfalse : y.executed = false := by simpa using hne
      have hyls := ((hfailed y).mpr ⟨hy, hyfalse⟩).1
      have hkey : y.unexecuted.key = x.unexecuted.key := by rw [hyx]
      have heq : y = x := hls.eq_of_key hyls hx hkey
      rw [heq, hexec] at hyfalse
      cases hyfalse
    have heq := BroadcastMsg.eq_of_unexecuted hyx (hyexec.trans hexec.symm)
    exact heq ▸ hy

/-- Replicas with equal vectors and the same failed packets agree. -/
theorem agree_of_same_failed (h : HistoryInv s) (hd : DeliveryInv s) (ho : OrderInv s)
    (hvec : (s.node i).highestSeqRcvd = (s.node j).highestSeqRcvd)
    (hfailed : ∀ x, x ∈ s.failed i ↔ x ∈ s.failed j) :
    Agree (s.node i).store (s.node j).store := by
  have hmap := h.same_packets hd hvec
  have hfailed' : ∀ x, (x ∈ s.history i ∧ x.executed = false) ↔
      (x ∈ s.history j ∧ x.executed = false) := by
    intro x
    have hx := hfailed x
    unfold Cluster.failed at hx
    rw [mem_filter, mem_filter] at hx
    simpa using hx
  have hnodup : ∀ k, (s.history k).Nodup := fun k =>
    (h.sorted k).imp fun hab heq => hab.ne (congrArg BroadcastMsg.key heq)
  have hhist : (s.history i).Perm (s.history j) := by
    refine (perm_ext_iff_of_nodup (hnodup i) (hnodup j)).mpr ?_
    intro x
    constructor
    · exact mem_of_same_failed (h.sorted i) hmap hfailed'
    · exact mem_of_same_failed (h.sorted j) hmap.symm fun x => (hfailed' x).symm
  rcases h.effects i with ⟨ops, hops, hrun⟩
  rcases h.effects j with ⟨ops', hops', hrun'⟩
  have hperm : ops.Perm ops' := (hops.trans (executedOps_perm hhist)).trans hops'.symm
  exact agree_of_perm hrun hrun' hperm (ho.sorted i) (ho.sorted j)

end Converge

/-! ## Runs in which every packet can be executed when it is handled -/

/-- The operation does not fail in this state. -/
def Succeeds (store : GroupStore) (op : Operation) : Prop :=
  store.apply op ≠ none

theorem runLog_of_executed (store : GroupStore) {log : List (BroadcastMsg n)}
    (h : ∀ x ∈ log, x.executed = true) : Node.runLog store log = (store, log) := by
  induction log with
  | nil => rfl
  | cons x log ih =>
    unfold Node.runLog
    rw [if_pos (h x mem_cons_self), ih fun y hy => h y (mem_cons_of_mem x hy)]

/-- One packet that can be executed, among packets that have been. -/
theorem runLog_executes {store : GroupStore} {l₁ l₂ : List (BroadcastMsg n)} {msg : BroadcastMsg n}
    (h₁ : ∀ x ∈ l₁, x.executed = true) (h₂ : ∀ x ∈ l₂, x.executed = true)
    (hmsg : Succeeds store msg.content) :
    ∀ x ∈ (Node.runLog store (l₁ ++ msg :: l₂)).2, x.executed = true := by
  induction l₁ with
  | nil =>
    rw [nil_append]
    unfold Node.runLog
    split
    · rename_i hexec
      rw [runLog_of_executed store h₂]
      intro x hx
      rcases mem_cons.mp hx with rfl | hx
      · exact hexec
      · exact h₂ x hx
    · cases happly : store.apply msg.content with
      | none => exact absurd happly hmsg
      | some store' =>
        dsimp only
        rw [runLog_of_executed store' h₂]
        intro x hx
        rcases mem_cons.mp hx with rfl | hx
        · rfl
        · exact h₂ x hx
  | cons y l₁ ih =>
    have hrest := ih fun x hx => h₁ x (mem_cons_of_mem y hx)
    have hy := h₁ y mem_cons_self
    rw [cons_append]
    unfold Node.runLog
    rw [if_pos hy]
    intro x hx
    rcases mem_cons.mp hx with rfl | hx
    · exact hy
    · exact hrest x hx

/-- Where every packet can be executed when it is handled, none fails. -/
theorem Reached.all_executed {s : Cluster n} (h : Reached Succeeds s) :
    ∀ i, ∀ x ∈ s.history i, x.executed = true := by
  refine Reached.induction (fun s => ∀ i, ∀ x ∈ s.history i, x.executed = true) ?_ ?_ h
  · intro start i x hx
    cases hx
  · intro s m s' hs hinv hguard hmove
    cases hmove with
    | quiet hquiet hevents =>
      intro j x hx
      rw [HistoryInv.history_quiet hquiet hevents] at hx
      exact hinv j x hx
    | @broadcast i op store happly _ =>
      intro j x hx
      rw [HistoryInv.history_put] at hx
      · split at hx
        · rename_i hj
          subst hj
          rcases mem_append.mp hx with hx | hx
          · exact hinv j x (mem_append_left _ hx)
          · rcases mem_putInOrder hx with rfl | hx
            · rfl
            · exact hinv j x (mem_append_right _ hx)
        · exact hinv j x hx
      · intro e he
        rw [mem_singleton.mp he]
        rfl
    | @handle i msg hsent hseq =>
      intro j x hx
      rw [HistoryInv.history_put] at hx
      · split at hx
        · rename_i hj
          subst hj
          rcases mem_append.mp hx with hx | hx
          · exact hinv j x (mem_append_left _ hx)
          · -- the packet stands among executed ones
            have hfresh := hs.historyInv.fresh hs.deliveryInv hs.clockInv hsent hseq
            have hperm : (putInOrder (s.node j).log msg).Perm (msg :: (s.node j).log) :=
              putInOrder_perm fun y hy => hfresh y (mem_append_right _ hy)
            rcases append_of_mem (hperm.mem_iff.mpr mem_cons_self) with
              ⟨l₁, l₂, hsplit⟩
            have hrest : (l₁ ++ l₂).Perm (s.node j).log := by
              refine List.Perm.cons_inv (a := msg) ?_
              refine perm_middle.symm.trans ?_
              rw [← hsplit]
              exact hperm
            have hexec : ∀ y ∈ l₁ ++ l₂, y.executed = true := fun y hy =>
              hinv j y (mem_append_right _ (hrest.mem_iff.mp hy))
            replace hx : x ∈ (Node.runLog (s.node j).store
              (putInOrder (s.node j).log msg)).2 := hx
            rw [hsplit] at hx
            exact runLog_executes (fun y hy => hexec y (mem_append_left _ hy))
              (fun y hy => hexec y (mem_append_right _ hy)) hguard x hx
        · exact hinv j x hx
      · intro e he
        rw [mem_singleton.mp he]
        rfl
    | ack hsent =>
      intro j x hx
      rw [HistoryInv.history_ack] at hx
      exact hinv j x hx

/-- Convergence. In the runs in which no operation fails at the moment its packet is
handled, replicas with equal vectors agree in every state. In any run, replicas with
equal vectors agree whenever the same packets have failed at both. -/
theorem replicas_agree (n : Nat) :
    (∀ t, (chatSystem n).ReachableBy (ReceiveGuard Succeeds) t → ∀ i j,
      (t.cluster.node i).highestSeqRcvd = (t.cluster.node j).highestSeqRcvd →
      Agree (t.cluster.node i).store (t.cluster.node j).store) ∧
    ∀ t, (chatSystem n).Reachable t → ∀ i j,
      (t.cluster.node i).highestSeqRcvd = (t.cluster.node j).highestSeqRcvd →
      (∀ x, x ∈ t.cluster.failed i ↔ x ∈ t.cluster.failed j) →
      Agree (t.cluster.node i).store (t.cluster.node j).store := by
  constructor
  · intro t ht i j hvec
    have h := reached_of_reachable ht
    have hnone : ∀ k x, x ∉ t.cluster.failed k := by
      intro k x hx
      rcases mem_filter.mp hx with ⟨hmem, hfalse⟩
      rw [h.all_executed k x hmem] at hfalse
      cases hfalse
    refine agree_of_same_failed h.historyInv h.deliveryInv h.orderInv hvec ?_
    intro x
    exact iff_of_false (hnone i x) (hnone j x)
  · intro t ht i j hvec hfailed
    have h := reached_of_run ht
    exact agree_of_same_failed h.historyInv h.deliveryInv h.orderInv hvec hfailed

/-- Decides the guard of the runs in which no operation fails. -/
def succeedsCheck (t : System n) : Action n → Bool
  | .receive i (.data msg) _ =>
    decide (msg.seq ≠ (t.cluster.node i).highestSeqRcvd msg.senderId + 1) ||
      ((t.cluster.node i).store.apply msg.content).isSome
  | _ => true

theorem receiveGuard_of_check {t : System n} {a : Action n} (h : succeedsCheck t a = true) :
    ReceiveGuard Succeeds t a := by
  cases a with
  | receive i pkt now =>
    cases pkt with
    | data msg =>
      intro hseq hnone
      simp [succeedsCheck, hseq, hnone] at h
    | _ => trivial
  | _ => trivial

theorem replicas_agree_twoMessagesRun :
    ∃ t : System 5, (chatSystem 5).ReachableBy (ReceiveGuard Succeeds) t ∧
      (t.cluster.node 0).highestSeqRcvd = (t.cluster.node 1).highestSeqRcvd ∧
      Agree (t.cluster.node 0).store (t.cluster.node 1).store := by
  have hinit : (chatSystem 5).ReachableBy (ReceiveGuard Succeeds) (System.init fun _ => 0) :=
    .init ⟨fun _ => 0, rfl⟩
  have hrun : TransitionSystem.runMeets System.next succeedsCheck
      (fun t => decide ((t.cluster.node 0).highestSeqRcvd = (t.cluster.node 1).highestSeqRcvd))
      twoMessagesRun (System.init fun _ => 0) = true := by
    decide +kernel
  rcases TransitionSystem.exists_of_runMeets (fun _ _ _ hnext => hnext)
    (fun _ _ hcheck => receiveGuard_of_check hcheck) hinit hrun with ⟨t, ht, hp⟩
  have hvec := of_decide_eq_true hp
  exact ⟨t, ht, hvec, (replicas_agree 5).1 t ht 0 1 hvec⟩

/-- Clients of servers 0 and 1 create the same group under the same username, so each
server fails to execute the packet of the other. After the user has left at server 1,
the next packet of server 0 makes server 1 try again, this time with success. -/
def retryRun : List (Action 5) :=
  [.connect 0 0, .setUsername 0 0 "u", .joinGroupLeave 0 0 "g", .joinGroupEnter 0 0,
    .connect 1 0, .setUsername 1 0 "u", .joinGroupLeave 1 0 "g", .joinGroupEnter 1 0,
    .receive 1 (.data ⟨0, 1, 1, .createGroup "g" "u", false⟩) 0,
    .receive 0 (.data ⟨1, 1, 1, .createGroup "g" "u", false⟩) 0,
    .disconnect 1 0,
    .receive 0 (.data ⟨1, 3, 2, .leaveGroup "g" "u", false⟩) 0,
    .connect 0 1, .setUsername 0 1 "v", .joinGroupLeave 0 1 "g", .joinGroupEnter 0 1,
    .receive 1 (.data ⟨0, 5, 2, .joinGroup "g" "v", false⟩) 0]

/-- Replicas with equal vectors do not agree in every state of every run. -/
theorem not_replicas_agree :
    ¬ ∀ t : System 5, (chatSystem 5).Reachable t → ∀ i j,
      (t.cluster.node i).highestSeqRcvd = (t.cluster.node j).highestSeqRcvd →
      Agree (t.cluster.node i).store (t.cluster.node j).store := by
  intro h
  have hrun : TransitionSystem.runMeets System.next (fun _ _ => true)
      (fun t => decide ((t.cluster.node 0).highestSeqRcvd = (t.cluster.node 1).highestSeqRcvd ∧
        (t.cluster.node 0).store.usersOf "g" = ["v"] ∧
        (t.cluster.node 1).store.usersOf "g" = ["u", "v"])) retryRun
      (System.init fun _ => 0) = true := by
    decide +kernel
  rcases exists_reachable_of_run hrun with ⟨t, ht, hp⟩
  rcases of_decide_eq_true hp with ⟨hvec, husers, husers'⟩
  have hperm := (h t ht 0 1 hvec).users "g"
  rw [husers, husers'] at hperm
  have hlen := hperm.length_eq
  simp at hlen

end PittCs.Chat
