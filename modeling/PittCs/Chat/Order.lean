import PittCs.Chat.GroupEffects
import PittCs.Chat.Clock

/-!
# One order of messages everywhere

A message gets the timestamp of the packet that carries it, so its id is unique.
Every replica keeps the messages of a group in the order of their ids, and a
broadcast has a larger timestamp than everything its node has seen before.
-/

namespace PittCs.Chat

open PittCs.Lib List

variable {n : Nat}

/-! ## Pairs in an ordered list -/

/-- Two elements of an ordered list stand in their order. -/
theorem pair_sublist_of_pairwise {α : Type} {r : α → α → Prop} (hasymm : ∀ a b, r a b → ¬ r b a)
    {l : List α} (hl : l.Pairwise r) {a b : α} (ha : a ∈ l) (hb : b ∈ l) (hab : r a b) :
    List.Sublist [a, b] l := by
  induction l with
  | nil => cases ha
  | cons x l ih =>
    rcases pairwise_cons.mp hl with ⟨hx, hl⟩
    rcases mem_cons.mp ha with hax | ha'
    · subst hax
      rcases mem_cons.mp hb with hbx | hb'
      · subst hbx
        exact absurd hab (hasymm _ _ hab)
      · exact (singleton_sublist.mpr hb').cons_cons _
    · rcases mem_cons.mp hb with hbx | hb'
      · subst hbx
        exact absurd (hx a ha') (hasymm _ _ hab)
      · exact (ih hl ha' hb').cons x

/-! ## Messages of a store -/

/-- The place in the order that an id gives. -/
def idKey (id : Nat × Nat) : Nat ×ₗ Nat := toLex (id.2, id.1)

theorem keySorted_ids {l : List Message} :
    KeySorted Message.key l ↔ (l.map Message.id).Pairwise fun a b => idKey a < idKey b := by
  unfold KeySorted
  rw [pairwise_map]
  rfl

theorem ids_of_cores {l l' : List Message} (h : l.map Message.core = l'.map Message.core) :
    l.map Message.id = l'.map Message.id := by
  have hids := congrArg (List.map Prod.fst) h
  rw [map_map, map_map] at hids
  exact hids

theorem mem_written {op : Operation} {g : String} {m : Message} :
    m.core ∈ op.written g ↔ op = .writeMessage g m.sender m.content m.id.2 m.id.1 := by
  cases op with
  | writeMessage g' u content ts serverId =>
    simp only [Operation.written, Message.core]
    by_cases hg : g' = g
    · rw [if_pos hg, mem_singleton]
      constructor
      · intro heq
        injection heq with hid heq
        injection heq with hcontent hsender
        rw [hg, hid, hcontent, hsender]
      · intro heq
        injection heq with _ husername hcontent hts hserver
        rw [husername, hcontent, hts, hserver]
    · rw [if_neg hg]
      refine iff_of_false not_mem_nil ?_
      intro heq
      injection heq with hg'
      exact hg hg'
  | _ => simp [Operation.written]

namespace GroupStore

theorem apply_sorted {store store' : GroupStore} {op : Operation}
    (h : store.apply op = some store')
    (hsorted : ∀ g, KeySorted Message.key (store.messagesOf g)) (g : String) :
    KeySorted Message.key (store'.messagesOf g) := by
  rcases apply_groups h with ⟨hchanges, hother⟩
  by_cases hg : g = op.groupName
  · subst hg
    cases op with
    | createGroup g' u | leaveGroup g' u =>
      rw [hchanges.2.2]
      exact hsorted _
    | joinGroup g' u =>
      rw [hchanges.2]
      exact hsorted _
    | writeMessage g' u content ts serverId =>
      exact insertFromRight_sorted compareMsg_eq (hsorted _) hchanges.2.2
    | addLike g' u ts serverId | removeLike g' u ts serverId =>
      rw [keySorted_ids, ids_of_cores (updateMessage_cores hchanges.2.2), ← keySorted_ids]
      exact hsorted _
  · rw [(hother g hg).2]
    exact hsorted g

/-- A message after an operation was there before, or the operation has written it. -/
theorem apply_messages {store store' : GroupStore} {op : Operation}
    (h : store.apply op = some store') {g : String} {m : Message} (hm : m ∈ store'.messagesOf g) :
    (∃ m' ∈ store.messagesOf g, m'.core = m.core) ∨ m.core ∈ op.written g := by
  have hmem : m.core ∈ (store'.messagesOf g).map Message.core := mem_map_of_mem hm
  rcases mem_append.mp ((cores_apply h g).mem_iff.mp hmem) with hw | hold
  · exact Or.inr hw
  · exact Or.inl (mem_map.mp hold)

end GroupStore

/-- What every operation of the log keeps, running the log keeps. -/
theorem runLog_keeps {Q : GroupStore → Prop} {log : List (BroadcastMsg n)}
    (happly : ∀ x ∈ log, ∀ st st', Q st → GroupStore.apply st x.content = some st' → Q st')
    {store : GroupStore} (hstore : Q store) : Q (Node.runLog store log).1 := by
  induction log generalizing store with
  | nil => exact hstore
  | cons x log ih =>
    have hrest : ∀ y ∈ log, ∀ st st', Q st → GroupStore.apply st y.content = some st' → Q st' :=
      fun y hy => happly y (mem_cons_of_mem x hy)
    unfold Node.runLog
    split
    · exact ih hrest hstore
    · split
      · exact ih hrest hstore
      · rename_i store' happly'
        exact ih hrest (happly x mem_cons_self _ _ hstore happly')

/-! ## The invariant -/

/-- A packet that a node broadcasts is above every packet it has seen before. -/
def Above (e e' : Fin n × Event n) : Prop :=
  ∀ i msg msg', e = (i, .handlePacket msg) ∨ e = (i, .broadcast msg) →
    e' = (i, .broadcast msg') → msg.ts < msg'.ts

structure OrderInv (s : Cluster n) : Prop where
  sorted : ∀ i g, KeySorted Message.key ((s.node i).store.messagesOf g)
  logged : ∀ i, ∀ x ∈ (s.node i).log, x.unexecuted ∈ s.broadcasts x.senderId
  stamped : ∀ k, ∀ msg ∈ s.broadcasts k, ∀ g u content ts serverId,
    msg.content = .writeMessage g u content ts serverId → ts = msg.ts ∧ serverId = k
  written : ∀ i g, ∀ m ∈ (s.node i).store.messagesOf g,
    ∃ k, ∃ msg ∈ s.broadcasts k, m.core ∈ msg.content.written g
  above : s.trace.Pairwise Above

namespace OrderInv

variable {s : Cluster n} {i : Fin n}

theorem init (start : Fin n → Nat) :
    OrderInv { node := fun i => Node.init i (start i), trace := [] } where
  sorted := fun _ _ => List.Pairwise.nil
  logged := by
    intro i x hx
    cases hx
  stamped := by
    intro k msg hmsg
    cases hmsg
  written := by
    intro i g m hm
    cases hm
  above := List.Pairwise.nil

/-- Events that are no broadcasts keep the order of broadcasts. -/
theorem above_put (h : OrderInv s) {r : Node n × List (Event n)}
    (hevents : ∀ msg, .broadcast msg ∉ r.2) : (s.put i r).trace.Pairwise Above := by
  refine pairwise_append.mpr ⟨h.above, ?_, ?_⟩
  · rw [pairwise_map]
    refine pairwise_of_forall_mem_list ?_
    intro e _ e' he' j msg msg' _ heq
    injection heq with _ heq
    exact absurd (heq ▸ he') (hevents msg')
  · intro e _ e' he' j msg msg' _ heq
    rcases mem_map.mp he' with ⟨e'', he'', rfl⟩
    injection heq with _ heq
    exact absurd (heq ▸ he'') (hevents msg')

theorem quiet (h : OrderInv s) {node' : Node n} {events : List (Event n)}
    (hquiet : Quiet (s.node i) node') (hevents : ∀ e ∈ events, Harmless (s.node i) e) :
    OrderInv (s.put i (node', events)) := by
  have hnode := fun j => (quiet_put hquiet hevents j).1
  have hb := fun j => (quiet_put hquiet hevents j).2.1
  constructor
  case sorted =>
    intro j g
    rw [(hnode j).store]
    exact h.sorted j g
  case logged =>
    intro j x hx
    rw [(hnode j).log] at hx
    rw [hb]
    exact h.logged j x hx
  case stamped =>
    intro k msg hmsg
    rw [hb] at hmsg
    exact h.stamped k msg hmsg
  case written =>
    intro j g m hm
    rw [(hnode j).store] at hm
    rcases h.written j g m hm with ⟨k, msg, hmsg, hw⟩
    exact ⟨k, msg, (hb k).symm ▸ hmsg, hw⟩
  case above => exact h.above_put fun msg he => hevents _ he

theorem broadcast (h : OrderInv s) (hd : DeliveryInv s) (hc : ClockInv s) {store : GroupStore}
    {op : Operation} (happly : (s.node i).store.apply op = some store)
    (hstamp : Stamped (s.node i) op) :
    OrderInv (s.put i ((((s.node i).setStore store).enqueue op).1,
      [.broadcast (((s.node i).setStore store).enqueue op).2])) := by
  generalize hq : ((s.node i).setStore store).enqueue op = q
  have hstore : q.1.store = store := by rw [← hq]; rfl
  have hsender : q.2.senderId = (s.node i).id := by rw [← hq]; rfl
  have hts : q.2.ts = (s.node i).timestamp + 1 := by rw [← hq]; rfl
  have hcontent : q.2.content = op := by rw [← hq]; rfl
  have hlog : ∀ x ∈ q.1.log, x.unexecuted = q.2 ∨ x ∈ (s.node i).log := by
    intro x hx
    rw [← hq] at hx ⊢
    rcases mem_putInOrder hx with rfl | hx
    · exact Or.inl rfl
    · exact Or.inr hx
  rw [hd.id i] at hsender
  have hold : ∀ k msg, msg ∈ s.broadcasts k →
      msg ∈ (s.put i (q.1, [.broadcast q.2])).broadcasts k :=
    fun k msg hmsg => Cluster.mem_collect_put.mpr (Or.inl hmsg)
  have hnew : q.2 ∈ (s.put i (q.1, [.broadcast q.2])).broadcasts i :=
    Cluster.mem_collect_put.mpr
      (Or.inr ⟨rfl, _, mem_singleton.mpr rfl, mem_singleton.mpr rfl⟩)
  constructor
  case sorted =>
    intro j g
    by_cases hj : j = i
    · subst hj
      rw [Cluster.put_node_self, hstore]
      exact GroupStore.apply_sorted happly (h.sorted j) g
    · rw [Cluster.put_node_of_ne _ _ hj]
      exact h.sorted j g
  case logged =>
    intro j x hx
    by_cases hj : j = i
    · subst hj
      rw [Cluster.put_node_self] at hx
      rcases hlog x hx with hx | hx
      · have hsender' : x.senderId = j := by
          rw [← hsender, ← hx]
          rfl
        rw [hx, hsender']
        exact hnew
      · exact hold _ _ (h.logged j x hx)
    · rw [Cluster.put_node_of_ne _ _ hj] at hx
      exact hold _ _ (h.logged j x hx)
  case stamped =>
    intro k msg hmsg g u content ts serverId hwrite
    rcases Cluster.mem_collect_put.mp hmsg with hmsg | ⟨rfl, e, he, hmsg⟩
    · exact h.stamped k msg hmsg g u content ts serverId hwrite
    · -- the message was written with the timestamp that the packet got
      rw [mem_singleton.mp he] at hmsg
      rw [mem_singleton.mp hmsg] at hwrite ⊢
      rw [hcontent] at hwrite
      subst hwrite
      rcases hstamp with ⟨rfl, rfl⟩
      exact ⟨hts.symm, congrArg Fin.val (hd.id k)⟩
  case written =>
    intro j g m hm
    have hcase : (∃ m' ∈ (s.node j).store.messagesOf g, m'.core = m.core) ∨
        m.core ∈ op.written g := by
      by_cases hj : j = i
      · subst hj
        rw [Cluster.put_node_self, hstore] at hm
        exact GroupStore.apply_messages happly hm
      · rw [Cluster.put_node_of_ne _ _ hj] at hm
        exact Or.inl ⟨m, hm, rfl⟩
    rcases hcase with ⟨m', hm', hcore⟩ | hw
    · rcases h.written j g m' hm' with ⟨k, msg, hmsg, hw⟩
      exact ⟨k, msg, hold k msg hmsg, hcore ▸ hw⟩
    · exact ⟨i, q.2, hnew, hcontent.symm ▸ hw⟩
  case above =>
    refine pairwise_append.mpr ⟨h.above, pairwise_singleton _ _, ?_⟩
    intro e he e' he' j msg msg' heq heq'
    rw [mem_singleton.mp he'] at heq'
    injection heq' with hij heq'
    injection heq' with heq'
    subst hij heq'
    have hseen : msg ∈ s.broadcasts i ∨ msg ∈ s.handled i := by
      rcases heq with heq | heq
      · exact Or.inr (Cluster.mem_handled.mpr (heq ▸ he))
      · exact Or.inl (Cluster.mem_broadcasts.mpr (heq ▸ he))
    rw [hts]
    exact Nat.lt_succ_of_le (hc.seen i msg hseen)

theorem handle (h : OrderInv s) (hd : DeliveryInv s) {msg : BroadcastMsg n}
    (hsent : s.Sent i (.data msg))
    (hseq : msg.seq = (s.node i).highestSeqRcvd msg.senderId + 1) :
    OrderInv (s.put i ((s.node i).handlePacket msg)) := by
  rcases hd.next_msg hsent hseq with ⟨_, hmem⟩
  have hmsg : msg.unexecuted = msg := by
    have hexec := (hd.sender _ msg hmem).2
    cases msg
    simp only at hexec
    subst hexec
    rfl
  -- every packet of the log that is run was broadcast
  have hlogged : ∀ x ∈ putInOrder (s.node i).log msg, x.unexecuted ∈ s.broadcasts x.senderId := by
    intro x hx
    rcases mem_putInOrder hx with rfl | hx
    · rw [hmsg]
      exact hmem
    · exact h.logged i x hx
  have hb := fun j => Cluster.broadcasts_put_handlePacket s i j msg
  generalize hr : (s.node i).handlePacket msg = r at hb
  have hrun : r.1.store = (Node.runLog (s.node i).store (putInOrder (s.node i).log msg)).1 := by
    rw [← hr]
    rfl
  have hlog : r.1.log = (Node.runLog (s.node i).store (putInOrder (s.node i).log msg)).2 := by
    rw [← hr]
    rfl
  have hevents : r.2 = [.handlePacket msg] := by rw [← hr]; rfl
  constructor
  case sorted =>
    intro j g
    by_cases hj : j = i
    · subst hj
      rw [Cluster.put_node_self, hrun]
      refine runLog_keeps (Q := fun st => ∀ g, KeySorted Message.key (st.messagesOf g)) ?_
        (h.sorted j) g
      intro x _ st st' hst happly
      exact GroupStore.apply_sorted happly hst
    · rw [Cluster.put_node_of_ne _ _ hj]
      exact h.sorted j g
  case logged =>
    intro j x hx
    rw [hb]
    by_cases hj : j = i
    · subst hj
      rw [Cluster.put_node_self, hlog] at hx
      rcases mem_runLog hx with ⟨y, hy, hyx⟩
      have hsender : y.unexecuted.senderId = x.unexecuted.senderId := by rw [hyx]
      have hlogged' := hlogged y hy
      rw [hyx] at hlogged'
      replace hsender : y.senderId = x.senderId := hsender
      rw [← hsender]
      exact hlogged'
    · rw [Cluster.put_node_of_ne _ _ hj] at hx
      exact h.logged j x hx
  case stamped =>
    intro k msg' hmsg'
    rw [hb] at hmsg'
    exact h.stamped k msg' hmsg'
  case written =>
    intro j g m hm
    by_cases hj : j = i
    · subst hj
      rw [Cluster.put_node_self, hrun] at hm
      refine runLog_keeps (Q := fun st => ∀ g, ∀ m ∈ st.messagesOf g,
        ∃ k, ∃ msg' ∈ (s.put j r).broadcasts k, m.core ∈ msg'.content.written g) ?_ ?_ g m hm
      · intro x hx st st' hst happly g m hm
        rcases GroupStore.apply_messages happly hm with ⟨m', hm', hcore⟩ | hw
        · rw [← hcore]
          exact hst g m' hm'
        · exact ⟨x.senderId, x.unexecuted, (hb _).symm ▸ hlogged x hx, hw⟩
      · intro g m hm
        rcases h.written j g m hm with ⟨k, msg', hmsg', hw⟩
        exact ⟨k, msg', (hb k).symm ▸ hmsg', hw⟩
    · rw [Cluster.put_node_of_ne _ _ hj] at hm
      rcases h.written j g m hm with ⟨k, msg', hmsg', hw⟩
      exact ⟨k, msg', (hb k).symm ▸ hmsg', hw⟩
  case above =>
    refine h.above_put ?_
    intro msg' he
    rw [hevents] at he
    cases mem_singleton.mp he

theorem ack (h : OrderInv s) (senderId : Fin n) (ts seq : Nat) (seqVector tsVector : Fin n → Nat) :
    OrderInv (s.put i ((s.node i).handleAck senderId ts seq seqVector tsVector)) := by
  have hhistory := Cluster.history_put_handleAck s i senderId ts seq seqVector tsVector
  generalize hr : (s.node i).handleAck senderId ts seq seqVector tsVector = r at hhistory
  have hstore : ∀ j, ((s.put i r).node j).store = (s.node j).store := by
    intro j
    by_cases hj : j = i
    · subst hj
      rw [Cluster.put_node_self, ← hr]
      rfl
    · rw [Cluster.put_node_of_ne _ _ hj]
  have hlog : ∀ j, ∀ x ∈ ((s.put i r).node j).log, x ∈ (s.node j).log := by
    intro j x hx
    by_cases hj : j = i
    · subst hj
      rw [Cluster.put_node_self, ← hr] at hx
      exact (dropWhile_sublist _).subset hx
    · rw [Cluster.put_node_of_ne _ _ hj] at hx
      exact hx
  have hb := fun j => (hhistory j).1
  constructor
  case sorted =>
    intro j g
    rw [hstore]
    exact h.sorted j g
  case logged =>
    intro j x hx
    rw [hb]
    exact h.logged j x (hlog j x hx)
  case stamped =>
    intro k msg hmsg
    rw [hb] at hmsg
    exact h.stamped k msg hmsg
  case written =>
    intro j g m hm
    rw [hstore] at hm
    rcases h.written j g m hm with ⟨k, msg, hmsg, hw⟩
    exact ⟨k, msg, (hb k).symm ▸ hmsg, hw⟩
  case above =>
    refine h.above_put ?_
    intro msg he
    rw [← hr] at he
    cases mem_singleton.mp he

end OrderInv

theorem Reached.orderInv {P : GroupStore → Operation → Prop} {s : Cluster n}
    (h : Reached P s) : OrderInv s := by
  refine Reached.induction OrderInv OrderInv.init ?_ h
  intro s m s' hs hinv _ hmove
  cases hmove with
  | quiet hquiet hevents => exact hinv.quiet hquiet hevents
  | broadcast happly hstamp => exact hinv.broadcast hs.deliveryInv hs.clockInv happly hstamp
  | handle hsent hseq => exact hinv.handle hs.deliveryInv hsent hseq
  | ack hsent => exact hinv.ack _ _ _ _ _

/-! ## Total and causal order -/

/-- Two packets that carry a message with the same id are the same packet. -/
theorem eq_of_message_id {P : GroupStore → Operation → Prop} {s : Cluster n} (h : Reached P s)
    {j k : Fin n} {msg msg' : BroadcastMsg n} (hmsg : msg ∈ s.broadcasts j)
    (hmsg' : msg' ∈ s.broadcasts k) {g g' : String} {m m' : Message}
    (hw : m.core ∈ msg.content.written g) (hw' : m'.core ∈ msg'.content.written g')
    (hid : m.id = m'.id) : msg = msg' := by
  rcases h.orderInv.stamped j msg hmsg _ _ _ _ _ (mem_written.mp hw) with ⟨hts, hserver⟩
  rcases h.orderInv.stamped k msg' hmsg' _ _ _ _ _ (mem_written.mp hw') with ⟨hts', hserver'⟩
  have hjk : j = k := by
    refine Fin.ext ?_
    rw [← hserver, ← hserver', hid]
  subst hjk
  refine h.clockInv.eq_of_ts h.deliveryInv hmsg hmsg' ?_
  rw [← hts, ← hts', hid]

/-- In every state of every run: the logs and the messages of each group are
strictly in order; messages with the same id, wherever they were written, are the
same message of the same group; a broadcast has a larger timestamp than all that its
node handled or broadcast before; and two replicas that both have two messages of a
group have them in the same order. -/
theorem messages_in_one_order {t : System n} (h : (chatSystem n).Reachable t) :
    (∀ i, KeySorted BroadcastMsg.key (t.cluster.node i).log) ∧
    (∀ i g group, (t.cluster.node i).store.groupDict.get? g = some group →
      KeySorted Message.key group.messages) ∧
    (∀ i j g g', ∀ m ∈ (t.cluster.node i).store.messagesOf g,
      ∀ m' ∈ (t.cluster.node j).store.messagesOf g', m.id = m'.id →
        g = g' ∧ m.content = m'.content ∧ m.sender = m'.sender) ∧
    (∀ i j, ∀ msg ∈ t.cluster.broadcasts i, ∀ msg' ∈ t.cluster.broadcasts j,
      ∀ g g' u u' c c' ts serverId, msg.content = .writeMessage g u c ts serverId →
        msg'.content = .writeMessage g' u' c' ts serverId → msg = msg') ∧
    (∀ pre post i msg, t.cluster.trace = pre ++ (i, .broadcast msg) :: post →
      ∀ msg', (i, .handlePacket msg') ∈ pre ∨ (i, .broadcast msg') ∈ pre → msg'.ts < msg.ts) ∧
    (∀ i j g a b,
      List.Sublist [a, b] (((t.cluster.node i).store.messagesOf g).map Message.id) →
      a ∈ ((t.cluster.node j).store.messagesOf g).map Message.id →
      b ∈ ((t.cluster.node j).store.messagesOf g).map Message.id →
      List.Sublist [a, b] (((t.cluster.node j).store.messagesOf g).map Message.id)) := by
  have hreached := reached_of_run h
  have hinv := hreached.orderInv
  refine ⟨hreached.log_sorted, ?_, ?_, ?_, ?_, ?_⟩
  · intro i g group hgroup
    have hsorted := hinv.sorted i g
    unfold GroupStore.messagesOf at hsorted
    rw [hgroup] at hsorted
    exact hsorted
  · intro i j g g' m hm m' hm' hid
    rcases hinv.written i g m hm with ⟨k, msg, hmsg, hw⟩
    rcases hinv.written j g' m' hm' with ⟨k', msg', hmsg', hw'⟩
    have heq := eq_of_message_id hreached hmsg hmsg' hw hw' hid
    subst heq
    have hop := (mem_written.mp hw).symm.trans (mem_written.mp hw')
    injection hop with hg hsender hcontent _ _
    exact ⟨hg, hcontent, hsender⟩
  · intro i j msg hmsg msg' hmsg' g g' u u' c c' ts serverId hop hop'
    have hw : Message.core ⟨(serverId, ts), c, u, []⟩ ∈ msg.content.written g := mem_written.mpr hop
    have hw' : Message.core ⟨(serverId, ts), c', u', []⟩ ∈ msg'.content.written g' :=
      mem_written.mpr hop'
    exact eq_of_message_id hreached hmsg hmsg' hw hw' rfl
  · intro pre post i msg htrace msg' hmsg'
    have habove := hinv.above
    rw [htrace] at habove
    have hcross := (pairwise_append.mp habove).2.2
    rcases hmsg' with hmsg' | hmsg'
    · exact hcross _ hmsg' _ mem_cons_self i msg' msg (Or.inl rfl) rfl
    · exact hcross _ hmsg' _ mem_cons_self i msg' msg (Or.inr rfl) rfl
  · intro i j g a b hab ha hb
    have hsorted := fun k => keySorted_ids.mp (hinv.sorted k g)
    refine pair_sublist_of_pairwise ?_ (hsorted j) ha hb (pairwise_iff_forall_sublist.mp (hsorted i) hab)
    intro x y hxy
    exact hxy.asymm

/-- Users `u` of server 0 and `v` of server 1 write a message each to group `g`, and
the two servers receive each other's packets. -/
def twoMessagesRun : List (Action 5) :=
  [.connect 0 0, .setUsername 0 0 "u", .joinGroupLeave 0 0 "g", .joinGroupEnter 0 0,
    .writeMessage 0 0 "a",
    .receive 1 (.data ⟨0, 1, 1, .createGroup "g" "u", false⟩) 0,
    .receive 1 (.data ⟨0, 2, 2, .writeMessage "g" "u" "a" 2 0, false⟩) 0,
    .connect 1 0, .setUsername 1 0 "v", .joinGroupLeave 1 0 "g", .joinGroupEnter 1 0,
    .writeMessage 1 0 "b",
    .receive 0 (.data ⟨1, 4, 1, .joinGroup "g" "v", false⟩) 0,
    .receive 0 (.data ⟨1, 5, 2, .writeMessage "g" "v" "b" 5 1, false⟩) 0]

theorem messages_in_one_order_twoMessagesRun :
    ∃ t : System 5, (chatSystem 5).Reachable t ∧
      List.Sublist [(0, 2), (1, 5)] (((t.cluster.node 0).store.messagesOf "g").map Message.id) ∧
      List.Sublist [(0, 2), (1, 5)] (((t.cluster.node 1).store.messagesOf "g").map Message.id) := by
  have hrun : TransitionSystem.runMeets System.next (fun _ _ => true)
      (fun t => decide (((t.cluster.node 0).store.messagesOf "g").map Message.id =
          [(0, 2), (1, 5)] ∧
        (0, 2) ∈ ((t.cluster.node 1).store.messagesOf "g").map Message.id ∧
        (1, 5) ∈ ((t.cluster.node 1).store.messagesOf "g").map Message.id)) twoMessagesRun
      (System.init fun _ => 0) = true := by
    decide +kernel
  rcases exists_reachable_of_run hrun with ⟨t, ht, hp⟩
  rcases of_decide_eq_true hp with ⟨hids, ha, hb⟩
  have hsub : List.Sublist [(0, 2), (1, 5)]
      (((t.cluster.node 0).store.messagesOf "g").map Message.id) := by
    rw [hids]
  exact ⟨t, ht, hsub, (messages_in_one_order ht).2.2.2.2.2 0 1 "g" _ _ hsub ha hb⟩

end PittCs.Chat
