import PittCs.Chat.Broadcast

/-!
# Moves of the protocol

A critical section is a sequence of moves at one node. In a quiet move the node
changes nothing that the protocol depends on and sends packets that agree with
its state; the other moves broadcast an operation, handle a packet and handle an
ack. The results about runs are proved move by move.
-/

namespace PittCs.Chat

open PittCs.Lib Function List Option

variable {n : Nat}

/-- A change of a node that leaves its part in the protocol as it is. A row of a
matrix may be set to the live vector it stands for. -/
structure Quiet (node node' : Node n) : Prop where
  id : node'.id = node.id
  timestamp : node'.timestamp = node.timestamp
  log : node'.log = node.log
  seq : node'.seq = node.seq
  buf : node'.buf = node.buf
  highestSeqRcvd : node'.highestSeqRcvd = node.highestSeqRcvd
  highestTsRcvd : node'.highestTsRcvd = node.highestTsRcvd
  store : node'.store = node.store
  seqMatrix : ∀ k, node'.seqMatrix k = node.seqMatrix k ∨
    k = node.id ∧ node'.seqMatrix k = node.highestSeqRcvd
  tsMatrix : ∀ k, node'.tsMatrix k = node.tsMatrix k ∨
    k = node.id ∧ node'.tsMatrix k = node.highestTsRcvd

/-- An event that agrees with the state of the node: a buffered packet is sent, or
an ack with the live vectors. -/
def Harmless (node : Node n) : Event n → Prop
  | .send _ (.data msg) => msg ∈ node.buf
  | .send target (.ack senderId ts seq seqVector tsVector) =>
    target ≠ node.id ∧ senderId = node.id ∧ ts = node.timestamp ∧ seq = node.seq ∧
      seqVector = node.highestSeqRcvd ∧ tsVector = node.highestTsRcvd
  | .send _ (.nack _ _ _) => True
  | .backup _ => True
  | .broadcast _ => False
  | .handlePacket _ => False
  | .purge _ _ _ => False

/-- A message is written with the timestamp of the packet that will carry it. -/
def Stamped (node : Node n) : Operation → Prop
  | .writeMessage _ _ _ ts serverId => ts = node.timestamp + 1 ∧ serverId = node.id
  | _ => True

inductive Move (n : Nat) where
  | quiet (i : Fin n)
  | broadcast (i : Fin n) (op : Operation)
  | handle (i : Fin n) (msg : BroadcastMsg n)
  | ack (i : Fin n)

/-- The moves of a cluster. -/
inductive Moved (s : Cluster n) : Move n → Cluster n → Prop where
  | quiet {i : Fin n} {node' : Node n} {events : List (Event n)} :
      Quiet (s.node i) node' → (∀ e ∈ events, Harmless (s.node i) e) →
      Moved s (.quiet i) (s.put i (node', events))
  | broadcast {i : Fin n} {op : Operation} {store : GroupStore} :
      (s.node i).store.apply op = some store → Stamped (s.node i) op →
      Moved s (.broadcast i op)
        (s.put i ((((s.node i).setStore store).enqueue op).1,
          [.broadcast (((s.node i).setStore store).enqueue op).2]))
  | handle {i : Fin n} {msg : BroadcastMsg n} :
      s.Sent i (.data msg) → msg.seq = (s.node i).highestSeqRcvd msg.senderId + 1 →
      Moved s (.handle i msg) (s.put i ((s.node i).handlePacket msg))
  | ack {i senderId : Fin n} {ts seq : Nat} {seqVector tsVector : Fin n → Nat} :
      s.Sent i (.ack senderId ts seq seqVector tsVector) →
      Moved s (.ack i) (s.put i ((s.node i).handleAck senderId ts seq seqVector tsVector))

/-- The protocol: any operation that succeeds at a node may be broadcast there. -/
def protocol (n : Nat) : TransitionSystem (Cluster n) (Move n) where
  Init s := ∃ start : Fin n → Nat, s = { node := fun i => Node.init i (start i), trace := [] }
  Next := Moved

/-- A condition on the operations of the packets that are handled. -/
def HandleGuard (P : GroupStore → Operation → Prop) (s : Cluster n) : Move n → Prop
  | .handle i msg => P (s.node i).store msg.content
  | _ => True

/-- The same condition on the steps of the whole system. -/
def ReceiveGuard (P : GroupStore → Operation → Prop) (s : System n) : Action n → Prop
  | .receive i (.data msg) _ =>
    msg.seq = (s.cluster.node i).highestSeqRcvd msg.senderId + 1 →
      P (s.cluster.node i).store msg.content
  | _ => True

/-! ## Sections are sequences of moves -/

theorem Quiet.refl (node : Node n) : Quiet node node where
  id := rfl
  timestamp := rfl
  log := rfl
  seq := rfl
  buf := rfl
  highestSeqRcvd := rfl
  highestTsRcvd := rfl
  store := rfl
  seqMatrix := fun _ => Or.inl rfl
  tsMatrix := fun _ => Or.inl rfl

namespace Cluster

@[simp]
theorem put_node_self (s : Cluster n) (i : Fin n) (r : Node n × List (Event n)) :
    (s.put i r).node i = r.1 := by
  unfold put
  exact update_self i r.1 s.node

theorem put_node_of_ne (s : Cluster n) {i j : Fin n} (r : Node n × List (Event n)) (h : j ≠ i) :
    (s.put i r).node j = s.node j := by
  unfold put
  exact update_of_ne h r.1 s.node

theorem put_put (s : Cluster n) (i : Fin n) (r r' : Node n × List (Event n)) :
    (s.put i r).put i r' = s.put i (r'.1, r.2 ++ r'.2) := by
  unfold put
  simp

end Cluster

section Reach

variable {P : GroupStore → Operation → Prop}

/-- The clusters reached by moves that meet the guard. -/
abbrev Reached (P : GroupStore → Operation → Prop) (s : Cluster n) : Prop :=
  (protocol n).ReachableBy (HandleGuard P) s

/-- Invariant induction over moves, with what holds in every reached cluster at hand. -/
theorem Reached.induction (Inv : Cluster n → Prop)
    (hinit : ∀ start : Fin n → Nat, Inv { node := fun i => Node.init i (start i), trace := [] })
    (hmoved : ∀ s m s', Reached P s → Inv s → HandleGuard P s m → Moved s m s' → Inv s')
    {s : Cluster n} (h : Reached P s) : Inv s := by
  induction h with
  | init hs =>
    rcases hs with ⟨start, rfl⟩
    exact hinit start
  | step hs hguard hmove ih => exact hmoved _ _ _ hs ih hguard hmove

variable {s : Cluster n} {i : Fin n}

theorem Reached.move {m : Move n} {s' : Cluster n} (h : Reached P s) (hmove : Moved s m s')
    (hguard : HandleGuard P s m) : Reached P s' :=
  TransitionSystem.ReachableBy.step h hguard hmove

theorem Reached.quiet {node' : Node n} {events : List (Event n)} (h : Reached P s)
    (hnode : Quiet (s.node i) node') (hevents : ∀ e ∈ events, Harmless (s.node i) e) :
    Reached P (s.put i (node', events)) :=
  h.move (Moved.quiet hnode hevents) trivial

/-- One section after another at the same node. -/
theorem Reached.andThen {r : Node n × List (Event n)} (hr : Reached P (s.put i r))
    (r' : Node n × List (Event n))
    (hstep : ∀ t : Cluster n, Reached P t → t.node i = r.1 → Reached P (t.put i r')) :
    Reached P (s.put i (r'.1, r.2 ++ r'.2)) := by
  rw [← Cluster.put_put]
  exact hstep _ hr (Cluster.put_node_self s i r)

theorem harmless_sendToOthers {node node' : Node n} {pkt : Packet n}
    (h : ∀ target, target ≠ node'.id → Harmless node (.send target pkt)) :
    ∀ e ∈ node'.sendToOthers pkt, Harmless node e := by
  intro e he
  rcases mem_map.mp he with ⟨target, htarget, rfl⟩
  have hne := (mem_filter.mp htarget).2
  exact h target (by simpa using hne)

theorem quiet_updateMatrices (node : Node n) : Quiet node node.updateMatrices where
  id := rfl
  timestamp := rfl
  log := rfl
  seq := rfl
  buf := rfl
  highestSeqRcvd := rfl
  highestTsRcvd := rfl
  store := rfl
  seqMatrix := by
    intro k
    by_cases hk : k = node.id
    · right
      subst hk
      exact ⟨rfl, update_self _ _ _⟩
    · left
      exact update_of_ne hk _ _
  tsMatrix := by
    intro k
    by_cases hk : k = node.id
    · right
      subst hk
      exact ⟨rfl, update_self _ _ _⟩
    · left
      exact update_of_ne hk _ _

theorem quiet_countPacket (node : Node n) : Quiet node node.countPacket.1 := by
  unfold Node.countPacket
  split
  · have hquiet := quiet_updateMatrices { node with pktsUntilAck := ackTime }
    exact { hquiet with }
  · exact { Quiet.refl node with }

theorem harmless_countPacket (node : Node n) : ∀ e ∈ node.countPacket.2, Harmless node e := by
  unfold Node.countPacket
  split
  · exact harmless_sendToOthers fun _ hne => ⟨hne, rfl, rfl, rfl, rfl, rfl⟩
  · intro e he
    cases he

/-- A section that only counts the packet. -/
theorem Reached.countPacket (h : Reached P s) : Reached P (s.put i (s.node i).countPacket) :=
  h.quiet (quiet_countPacket _) (harmless_countPacket _)

theorem Reached.backup (h : Reached P s) (state : Node n) :
    Reached P (s.put i (s.node i, [.backup state])) := by
  refine h.quiet (Quiet.refl _) ?_
  intro e he
  rw [mem_singleton.mp he]
  trivial

/-- A section in which nothing happens. -/
theorem Reached.idle (h : Reached P s) : Reached P (s.put i (s.node i, [])) := by
  refine h.quiet (Quiet.refl _) ?_
  intro e he
  cases he

theorem mem_buf_enqueue (node : Node n) (op : Operation) :
    (node.enqueue op).2 ∈ (node.enqueue op).1.buf :=
  mem_append_right _ mem_cons_self

/-- An operation that succeeds is run and broadcast. -/
theorem Reached.broadcast {op : Operation} {store : GroupStore} (h : Reached P s)
    (happly : (s.node i).store.apply op = some store) (hstamp : Stamped (s.node i) op) :
    Reached P (s.put i (((s.node i).setStore store).broadcast op)) := by
  have hmove : Reached P (s.put i ((((s.node i).setStore store).enqueue op).1,
      [.broadcast (((s.node i).setStore store).enqueue op).2])) :=
    h.move (Moved.broadcast happly hstamp) trivial
  generalize hq : ((s.node i).setStore store).enqueue op = q at hmove
  have hmem : q.2 ∈ q.1.buf := hq ▸ mem_buf_enqueue _ op
  have hcount := hmove.andThen q.1.countPacket fun t ht hnode => by
    rw [← hnode]
    exact ht.countPacket
  -- the backup, then the packet itself, which is in the buffer by now
  have hsend := hcount.andThen (q.1.countPacket.1, .backup q.1.countPacket.1 ::
      q.1.countPacket.1.sendToOthers (.data q.2)) fun t ht hnode => by
    refine ht.quiet ?_ ?_
    · rw [hnode]
      exact Quiet.refl _
    · intro e he
      rcases mem_cons.mp he with rfl | he
      · trivial
      · refine harmless_sendToOthers ?_ e he
        intro target _
        show q.2 ∈ (t.node i).buf
        rw [hnode, (quiet_countPacket q.1).buf]
        exact hmem
  unfold Node.broadcast
  rw [hq]
  simpa using hsend

/-- A section that runs one operation. -/
theorem Reached.perform (h : Reached P s) (op : Operation) (hstamp : Stamped (s.node i) op) :
    Reached P (s.put i ((s.node i).perform op)) := by
  unfold Node.perform Node.runOperation
  cases happly : (s.node i).store.apply op with
  | none => exact h.backup _
  | some store =>
    have hstep := (h.backup (i := i) ((s.node i).setStore store)).andThen
      (((s.node i).setStore store).broadcast op) fun t ht hnode => by
        have happly' : (t.node i).store.apply op = some store := by
          rw [hnode]
          exact happly
        have ht' := ht.broadcast happly' (by rw [hnode]; exact hstamp)
        rw [hnode] at ht'
        exact ht'
    exact hstep

/-- Changes to `active_users` and to the view are quiet. -/
theorem Reached.relabel {r : Node n × List (Event n)} {node' : Node n}
    (h : Reached P (s.put i r)) (hquiet : Quiet r.1 node') :
    Reached P (s.put i (node', r.2)) := by
  have hstep := h.andThen (node', []) fun t ht hnode => by
    refine ht.quiet ?_ ?_
    · rw [hnode]
      exact hquiet
    · intro e he
      cases he
  simpa using hstep

theorem Reached.leaveSection (h : Reached P s) (username oldGroup groupName : String) :
    Reached P (s.put i ((s.node i).leaveSection username oldGroup groupName)) := by
  have hleave := h.perform (i := i) (.leaveGroup oldGroup username) trivial
  exact hleave.relabel { Quiet.refl _ with }

theorem Reached.onDisconnect (h : Reached P s) (session : Session) :
    Reached P (s.put i ((s.node i).onDisconnect session)) := by
  unfold Node.onDisconnect
  split
  · exact h.leaveSection _ _ _
  · exact h.idle

theorem Reached.setUsername (h : Reached P s) (session : Session) (username : String) :
    Reached P (s.put i (((s.node i).setUsername session username).1,
      ((s.node i).setUsername session username).2.2)) := by
  unfold Node.setUsername
  split
  · split
    · exact h.leaveSection _ _ _
    · exact h.idle
  · exact h.idle

theorem Reached.joinGroupLeave (h : Reached P s) (session : Session) (newGroup : String) :
    Reached P (s.put i (((s.node i).joinGroupLeave session newGroup).1,
      ((s.node i).joinGroupLeave session newGroup).2.2)) := by
  unfold Node.joinGroupLeave
  split
  · exact h.idle
  · split
    · exact h.leaveSection _ _ _
    · exact h.idle

/-- An operation that is run after a quiet change of the node. -/
theorem Reached.runAfter {op : Operation} {node' : Node n} (h : Reached P s)
    (hquiet : Quiet (s.node i) node') (hstamp : Stamped node' op) :
    Reached P (s.put i (node'.perform op)) := by
  have hbefore : Reached P (s.put i (node', [])) := by
    refine h.quiet hquiet ?_
    intro e he
    cases he
  have hstep := hbefore.andThen (node'.perform op) fun t ht hnode => by
    have ht' := ht.perform (i := i) op
    rw [hnode] at ht'
    exact ht' hstamp
  simpa using hstep

/-- `active_users` is changed between an operation and its backup. -/
theorem backupAndBroadcast_active (node : Node n) (op : Operation) (users : List ActiveUser) :
    ({ (node.runOperation op).1 with
        activeUsers := (node.runOperation op).1.activeUsers ++ users }).backupAndBroadcast
      (node.runOperation op).2 =
      ({ node with activeUsers := node.activeUsers ++ users }).perform op := by
  unfold Node.perform Node.runOperation
  cases node.store.apply op with
  | none => rfl
  | some store => rfl

theorem Reached.joinGroupEnter (h : Reached P s) (session : Session) (newGroup : String) :
    Reached P (s.put i (((s.node i).joinGroupEnter session newGroup).1,
      ((s.node i).joinGroupEnter session newGroup).2.2)) := by
  unfold Node.joinGroupEnter
  by_cases hmem : newGroup ∈ (s.node i).store.groupDict.keys
  · simp only [hmem, if_true]
    rw [backupAndBroadcast_active]
    exact h.runAfter { Quiet.refl _ with } trivial
  · simp only [hmem, if_false]
    rw [backupAndBroadcast_active]
    exact h.runAfter { Quiet.refl _ with } trivial

theorem Reached.writeMessage (h : Reached P s) (session : Session) (message : String) :
    Reached P (s.put i ((s.node i).writeMessage session message)) := by
  unfold Node.writeMessage
  split
  · exact h.idle
  · exact h.perform _ ⟨rfl, rfl⟩

theorem Reached.addLike (h : Reached P s) (session : Session) (serverId ts : Nat) :
    Reached P (s.put i ((s.node i).addLike session serverId ts)) := by
  unfold Node.addLike
  split
  · exact h.idle
  · split
    · exact h.idle
    · split
      · exact h.idle
      · exact h.perform _ trivial

theorem Reached.removeLike (h : Reached P s) (session : Session) (serverId ts : Nat) :
    Reached P (s.put i ((s.node i).removeLike session serverId ts)) := by
  unfold Node.removeLike
  split
  · exact h.idle
  · split
    · exact h.idle
    · split
      · exact h.idle
      · exact h.perform _ trivial

theorem harmless_handleNack (node : Node n) (reqSeq : Nat) (target : Fin n) :
    ∀ e ∈ node.handleNack reqSeq target, Harmless node e := by
  intro e he
  unfold Node.handleNack at he
  split at he
  · cases he
  · split at he
    · cases he
    · rcases mem_map.mp he with ⟨msg, hmsg, rfl⟩
      exact mem_of_mem_drop hmsg

theorem Cluster.Sent.put {s : Cluster n} {i j : Fin n} {pkt : Packet n} (h : s.Sent i pkt)
    (r : Node n × List (Event n)) : (s.put j r).Sent i pkt := by
  rcases h with ⟨e, he, hsend⟩
  exact ⟨e, mem_append_left _ he, hsend⟩

theorem Reached.dispatch {pkt : Packet n} (h : Reached P s) (hsent : s.Sent i pkt)
    (hguard : ∀ msg, pkt = .data msg →
      msg.seq = (s.node i).highestSeqRcvd msg.senderId + 1 → P (s.node i).store msg.content) :
    Reached P (s.put i ((s.node i).dispatch pkt)) := by
  cases pkt with
  | nack senderId ts seq => exact h.quiet (Quiet.refl _) (harmless_handleNack _ seq senderId)
  | ack senderId ts seq seqVector tsVector => exact h.move (Moved.ack hsent) trivial
  | data msg =>
    simp only [Node.dispatch]
    by_cases hseq : msg.seq = (s.node i).highestSeqRcvd msg.senderId + 1
    · rw [if_pos hseq]
      exact h.move (Moved.handle hsent hseq) (hguard msg rfl hseq)
    · rw [if_neg hseq]
      refine h.quiet (Quiet.refl _) ?_
      intro e he
      rw [mem_singleton.mp he]
      trivial

theorem quiet_hear (node : Node n) (senderId : Fin n) (now : Nat) :
    Quiet node (node.hear senderId now) :=
  { Quiet.refl node with }

theorem Quiet.trans {node₁ node₂ node₃ : Node n} (h : Quiet node₁ node₂)
    (h' : Quiet node₂ node₃) : Quiet node₁ node₃ where
  id := h'.id.trans h.id
  timestamp := h'.timestamp.trans h.timestamp
  log := h'.log.trans h.log
  seq := h'.seq.trans h.seq
  buf := h'.buf.trans h.buf
  highestSeqRcvd := h'.highestSeqRcvd.trans h.highestSeqRcvd
  highestTsRcvd := h'.highestTsRcvd.trans h.highestTsRcvd
  store := h'.store.trans h.store
  seqMatrix := by
    intro k
    rcases h'.seqMatrix k with hk | ⟨hk, hrow⟩
    · rw [hk]
      exact h.seqMatrix k
    · exact Or.inr ⟨hk.trans h.id, hrow.trans h.highestSeqRcvd⟩
  tsMatrix := by
    intro k
    rcases h'.tsMatrix k with hk | ⟨hk, hrow⟩
    · rw [hk]
      exact h.tsMatrix k
    · exact Or.inr ⟨hk.trans h.id, hrow.trans h.highestTsRcvd⟩

theorem Reached.listen {pkt : Packet n} {now : Nat} (h : Reached P s) (hsent : s.Sent i pkt)
    (hguard : ∀ msg, pkt = .data msg →
      msg.seq = (s.node i).highestSeqRcvd msg.senderId + 1 → P (s.node i).store msg.content) :
    Reached P (s.put i ((s.node i).listen pkt now)) := by
  have hheard := quiet_hear (s.node i) pkt.senderId now
  generalize hr : ((s.node i).hear pkt.senderId now).countPacket = r
  have hquiet : Quiet (s.node i) r.1 := hr ▸ hheard.trans (quiet_countPacket _)
  have hevents : ∀ e ∈ r.2, Harmless (s.node i) e := hr ▸ harmless_countPacket _
  have hcount : Reached P (s.put i r) := h.quiet hquiet hevents
  -- the packet is still there, and the node still expects what it expected
  have hdispatch : Reached P ((s.put i r).put i (r.1.dispatch pkt)) := by
    have hstep := hcount.dispatch (hsent.put r) (i := i)
    rw [Cluster.put_node_self, hquiet.highestSeqRcvd, hquiet.store] at hstep
    exact hstep hguard
  rw [Cluster.put_put] at hdispatch
  have hbackup := hdispatch.andThen ((r.1.dispatch pkt).1, [.backup (r.1.dispatch pkt).1])
    fun t ht hnode => by
      have ht' := ht.backup (i := i) (t.node i)
      rw [hnode] at ht'
      exact ht'
  unfold Node.listen
  rw [hr]
  exact hbackup

theorem Reached.checkView (h : Reached P s) (now : Nat) :
    Reached P (s.put i ((s.node i).checkView now)) := by
  refine h.quiet { Quiet.refl _ with } ?_
  intro e he
  rw [mem_singleton.mp he]
  trivial

/-- Every step of the system is a sequence of moves. -/
theorem Reached.next {t t' : System n} {a : Action n} (h : Reached P t.cluster)
    (hguard : ReceiveGuard P t a) (hnext : t.next a = some t') : Reached P t'.cluster := by
  cases a with
  | connect i c =>
    simp only [System.next] at hnext
    split at hnext
    · injection hnext with hnext
      subst hnext
      exact h
    · cases hnext
  | disconnect i c =>
    rcases map_eq_some_iff.mp hnext with ⟨session, _, rfl⟩
    exact h.onDisconnect session
  | setUsername i c username =>
    rcases map_eq_some_iff.mp hnext with ⟨session, _, rfl⟩
    exact h.setUsername session username
  | joinGroupLeave i c newGroup =>
    rcases map_eq_some_iff.mp hnext with ⟨session, _, rfl⟩
    exact h.joinGroupLeave session newGroup
  | joinGroupEnter i c =>
    rcases bind_eq_some_iff.mp hnext with ⟨session, _, hnext⟩
    rcases map_eq_some_iff.mp hnext with ⟨newGroup, _, rfl⟩
    exact h.joinGroupEnter session newGroup
  | writeMessage i c message =>
    rcases map_eq_some_iff.mp hnext with ⟨session, _, rfl⟩
    exact h.writeMessage session message
  | addLike i c serverId ts =>
    rcases map_eq_some_iff.mp hnext with ⟨session, _, rfl⟩
    exact h.addLike session serverId ts
  | removeLike i c serverId ts =>
    rcases map_eq_some_iff.mp hnext with ⟨session, _, rfl⟩
    exact h.removeLike session serverId ts
  | receive i pkt now =>
    simp only [System.next] at hnext
    split at hnext
    · rename_i hsent
      injection hnext with hnext
      subst hnext
      refine h.listen hsent ?_
      intro msg hpkt
      subst hpkt
      exact hguard
    · cases hnext
  | nackTimeout i target =>
    simp only [System.next] at hnext
    split at hnext
    · injection hnext with hnext
      subst hnext
      refine h.quiet (Quiet.refl _) ?_
      intro e he
      rw [mem_singleton.mp he]
      trivial
    · cases hnext
  | checkView i now =>
    injection hnext with hnext
    subst hnext
    exact h.checkView now

/-- The clusters of the runs of the system are reached by moves. -/
theorem reached_of_reachable {t : System n}
    (h : (chatSystem n).ReachableBy (ReceiveGuard P) t) : Reached P t.cluster := by
  induction h with
  | init hinit =>
    rcases hinit with ⟨start, rfl⟩
    exact .init ⟨start, rfl⟩
  | step _ hguard hnext ih => exact ih.next hguard hnext

end Reach

end PittCs.Chat
