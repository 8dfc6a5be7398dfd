import PittCs.Chat.Backup
import PittCs.Chat.Order

/-!
# Crashes during a client operation

A server that crashes comes back with the state of its last backup. The section
of a client operation writes a backup after the change of the groups and another
one inside `broadcast`, when the packet is in the log and in the buffer. What a
server shows after a crash between the two will never be sent to the others.
-/

namespace PittCs.Chat

open PittCs.Lib List Option

variable {n : Nat}

/-- The operation that a client request runs, and the server it runs at. A request
without effect runs none. -/
def Action.operation (t : System n) : Action n → Option (Fin n × Operation)
  | .disconnect i c => do
    let session ← t.idle i c
    if session.username ≠ "" ∧ session.groupName ≠ "" ∧
        session.groupName ∈ (t.cluster.node i).store.groupDict.keys then
      some (i, .leaveGroup session.groupName session.username)
    else none
  | .setUsername i c _ => do
    let session ← t.idle i c
    if session.username ≠ "" ∧ session.groupName ≠ "" ∧
        session.groupName ∈ (t.cluster.node i).store.groupDict.keys then
      some (i, .leaveGroup session.groupName session.username)
    else none
  | .joinGroupLeave i c _ => do
    let session ← t.idle i c
    if session.username ≠ "" ∧
        session.groupName ∈ (t.cluster.node i).store.groupDict.keys then
      some (i, .leaveGroup session.groupName session.username)
    else none
  | .joinGroupEnter i c => do
    let session ← t.sessions i c
    let newGroup ← session.joining
    if newGroup ∈ (t.cluster.node i).store.groupDict.keys then
      some (i, .joinGroup newGroup session.username)
    else some (i, .createGroup newGroup session.username)
  | .writeMessage i c message => do
    let session ← t.idle i c
    let _ ← (t.cluster.node i).memberGroup session
    some (i, .writeMessage session.groupName session.username message
      ((t.cluster.node i).timestamp + 1) (t.cluster.node i).id)
  | .addLike i c serverId ts => do
    let session ← t.idle i c
    let group ← (t.cluster.node i).memberGroup session
    let m ← group.messages.find? fun m => m.id = (serverId, ts)
    if session.username ∈ m.likes then none
    else some (i, .addLike session.groupName session.username ts serverId)
  | .removeLike i c serverId ts => do
    let session ← t.idle i c
    let group ← (t.cluster.node i).memberGroup session
    let m ← group.messages.find? fun m => m.id = (serverId, ts)
    if session.username ∉ m.likes then none
    else some (i, .removeLike session.groupName session.username ts serverId)
  | _ => none

variable {op : Operation} {node : Node n}

/-- The events of the section are those of the operation, up to `active_users`. -/
theorem events_of_operation {t t' : System n} {a : Action n} {i : Fin n}
    (hnext : t.next a = some t') (hop : a.operation t = some (i, op)) :
    ∃ users, t'.cluster.trace = t.cluster.trace ++
      (({ t.cluster.node i with activeUsers := users }).perform op).2.map fun e => (i, e) := by
  cases a with
  | connect | receive | nackTimeout | checkView => cases hop
  | disconnect j c =>
    rcases map_eq_some_iff.mp hnext with ⟨session, hsession, rfl⟩
    simp only [Action.operation, hsession, bind_eq_bind, bind_some] at hop
    split at hop
    · rename_i hcond
      rcases Prod.mk.inj (some.inj hop) with ⟨rfl, rfl⟩
      refine ⟨(t.cluster.node j).activeUsers, ?_⟩
      have hdisconnect : (t.cluster.node j).onDisconnect session = _ := if_pos hcond
      simp only [System.put, System.setSession, Cluster.put, hdisconnect]
      rfl
    · cases hop
  | setUsername j c username =>
    rcases map_eq_some_iff.mp hnext with ⟨session, hsession, rfl⟩
    simp only [Action.operation, hsession, bind_eq_bind, bind_some] at hop
    split at hop
    · rename_i hcond
      rcases Prod.mk.inj (some.inj hop) with ⟨rfl, rfl⟩
      refine ⟨(t.cluster.node j).activeUsers, ?_⟩
      have hset : (t.cluster.node j).setUsername session username = _ :=
        (if_pos hcond.1).trans (if_pos hcond.2)
      simp only [System.request, System.put, System.setSession, Cluster.put, hset]
      rfl
    · cases hop
  | joinGroupLeave j c newGroup =>
    rcases map_eq_some_iff.mp hnext with ⟨session, hsession, rfl⟩
    simp only [Action.operation, hsession, bind_eq_bind, bind_some] at hop
    split at hop
    · rename_i hcond
      rcases Prod.mk.inj (some.inj hop) with ⟨rfl, rfl⟩
      refine ⟨(t.cluster.node j).activeUsers, ?_⟩
      have hleave : (t.cluster.node j).joinGroupLeave session newGroup = _ :=
        (if_neg hcond.1).trans (if_pos hcond.2)
      simp only [System.request, System.put, System.setSession, Cluster.put, hleave]
      rfl
    · cases hop
  | joinGroupEnter j c =>
    rcases bind_eq_some_iff.mp hnext with ⟨session, hsession, hnext⟩
    rcases map_eq_some_iff.mp hnext with ⟨newGroup, hnew, rfl⟩
    simp only [Action.operation, hsession, hnew, bind_eq_bind, bind_some] at hop
    split at hop
    · rename_i hmem
      rcases Prod.mk.inj (some.inj hop) with ⟨rfl, rfl⟩
      refine ⟨(t.cluster.node j).activeUsers ++ [ActiveUser.mk session.username newGroup], ?_⟩
      simp only [System.request, System.put, System.setSession, Cluster.put,
        Node.joinGroupEnter, hmem, if_true, backupAndBroadcast_active]
    · rename_i hmem
      rcases Prod.mk.inj (some.inj hop) with ⟨rfl, rfl⟩
      refine ⟨(t.cluster.node j).activeUsers ++ [ActiveUser.mk session.username newGroup], ?_⟩
      simp only [System.request, System.put, System.setSession, Cluster.put,
        Node.joinGroupEnter, hmem, if_false, backupAndBroadcast_active]
  | writeMessage j c message =>
    rcases map_eq_some_iff.mp hnext with ⟨session, hsession, rfl⟩
    simp only [Action.operation, hsession, bind_eq_bind, bind_some] at hop
    rcases bind_eq_some_iff.mp hop with ⟨group, hgroup, hop⟩
    rcases Prod.mk.inj (some.inj hop) with ⟨rfl, rfl⟩
    refine ⟨(t.cluster.node j).activeUsers, ?_⟩
    simp only [System.put, Cluster.put, Node.writeMessage, hgroup]
  | addLike j c serverId ts =>
    rcases map_eq_some_iff.mp hnext with ⟨session, hsession, rfl⟩
    simp only [Action.operation, hsession, bind_eq_bind, bind_some] at hop
    rcases bind_eq_some_iff.mp hop with ⟨group, hgroup, hop⟩
    rcases bind_eq_some_iff.mp hop with ⟨m, hm, hop⟩
    split at hop
    · cases hop
    · rename_i hlikes
      rcases Prod.mk.inj (some.inj hop) with ⟨rfl, rfl⟩
      refine ⟨(t.cluster.node j).activeUsers, ?_⟩
      simp only [System.put, Cluster.put, Node.addLike, hgroup, hm, hlikes, if_false]
  | removeLike j c serverId ts =>
    rcases map_eq_some_iff.mp hnext with ⟨session, hsession, rfl⟩
    simp only [Action.operation, hsession, bind_eq_bind, bind_some] at hop
    rcases bind_eq_some_iff.mp hop with ⟨group, hgroup, hop⟩
    rcases bind_eq_some_iff.mp hop with ⟨m, hm, hop⟩
    split at hop
    · cases hop
    · rename_i hlikes
      rcases Prod.mk.inj (some.inj hop) with ⟨rfl, rfl⟩
      refine ⟨(t.cluster.node j).activeUsers, ?_⟩
      simp only [System.put, Cluster.put, Node.removeLike, hgroup, hm, hlikes, if_false]

/-! ## The two backups of an operation -/

theorem backup_not_mem_countPacket (node b : Node n) : .backup b ∉ node.countPacket.2 := by
  unfold Node.countPacket
  split
  · intro hmem
    rcases mem_map.mp hmem with ⟨target, _, h⟩
    cases h
  · exact not_mem_nil

theorem backup_of_broadcast (node : Node n) (op : Operation) :
    .backup (node.enqueue op).1.countPacket.1 ∈ (node.broadcast op).2 :=
  mem_append_right _ mem_cons_self

theorem eq_of_backup_mem_broadcast {b : Node n} (h : .backup b ∈ (node.broadcast op).2) :
    b = (node.enqueue op).1.countPacket.1 := by
  rcases mem_append.mp h with h | h
  · rcases mem_cons.mp h with h | h
    · cases h
    · exact absurd h (backup_not_mem_countPacket _ b)
  · rcases mem_cons.mp h with h | h
    · exact Event.backup.inj h
    · rcases mem_map.mp h with ⟨target, _, h⟩
      cases h

theorem perform_of_apply (node : Node n) {store : GroupStore}
    (happly : node.store.apply op = some store) :
    (node.perform op).2 =
      .backup (node.setStore store) :: ((node.setStore store).broadcast op).2 := by
  simp only [Node.perform, Node.runOperation, happly, Node.backupAndBroadcast]

/-- The first backup is written before the operation is broadcast, and the only
later one when its packet is in the log and in the buffer. -/
theorem backup_of_perform {b : Node n} {pre post : List (Event n)}
    (h : (node.perform op).2 = pre ++ .backup b :: post) :
    (pre = [] ∧ b = (node.runOperation op).1) ∨
      (pre ≠ [] ∧ ∃ store, node.store.apply op = some store ∧
        b = ((node.setStore store).enqueue op).1.countPacket.1) := by
  cases happly : node.store.apply op with
  | none =>
    have hevents : (node.perform op).2 = [.backup node] := by
      simp only [Node.perform, Node.runOperation, happly, Node.backupAndBroadcast]
    rw [hevents] at h
    rcases cons_eq_append_iff.mp h with ⟨hpre, hb⟩ | ⟨rest, hpre, hrest⟩
    · injection hb with hb
      refine Or.inl ⟨hpre, ?_⟩
      simp only [Node.runOperation, happly]
      exact Event.backup.inj hb
    · exact absurd hrest (by simp)
  | some store =>
    rw [perform_of_apply node happly] at h
    rcases cons_eq_append_iff.mp h with ⟨hpre, hb⟩ | ⟨rest, hpre, hrest⟩
    · injection hb with hb
      refine Or.inl ⟨hpre, ?_⟩
      simp only [Node.runOperation, happly]
      exact Event.backup.inj hb
    · have hmem : .backup b ∈ ((node.setStore store).broadcast op).2 := by
        rw [hrest]
        exact mem_append_right _ mem_cons_self
      exact Or.inr ⟨by simp [hpre], store, rfl, eq_of_backup_mem_broadcast hmem⟩

/-! ## What a server comes back with -/

/-- The groups show the effect of the operation. -/
def ShowsEffect (node : Node n) (op : Operation) (r : Globals) : Prop :=
  ∃ store, node.store.apply op = some store ∧ r.groupDict = groupDictValue store.groupDict

/-- The state has the packet of the operation, so that it can be sent to the others. -/
structure HasPacket (node : Node n) (op : Operation) (r : Globals) : Prop where
  buf : ∃ buf : List (BroadcastMsg n), r.buf = .list (buf.map BroadcastMsg.value) ∧
    ⟨node.id, node.timestamp + 1, node.seq + 1, op, false⟩ ∈ buf
  log : ∃ log : List (BroadcastMsg n), r.log = .list (log.map BroadcastMsg.value) ∧
    ⟨node.id, node.timestamp + 1, node.seq + 1, op, true⟩ ∈ log
  seq : r.seq = .num (node.seq + 1)
  timestamp : r.timestamp = .num (node.timestamp + 1)

/-- A new packet is not in the log yet. -/
theorem Reached.fresh {P : GroupStore → Operation → Prop} {s : Cluster n} (h : Reached P s)
    (i : Fin n) : ∀ x ∈ (s.node i).log, x.ts = (s.node i).timestamp + 1 → x.senderId ≠ i := by
  intro x hx hts hsender
  have hmem := h.orderInv.logged i x hx
  rw [hsender] at hmem
  have hle := h.clockInv.seen i _ (Or.inl hmem)
  have hsame : x.unexecuted.ts = x.ts := rfl
  omega

/-- The second backup has the packet. -/
theorem hasPacket_of_broadcast {p r : Globals}
    (hfresh : ∀ x ∈ node.log, x.ts = node.timestamp + 1 → x.senderId ≠ node.id)
    (hload : loadState p (getState (node.enqueue op).1.countPacket.1.globals) = some r) :
    HasPacket node op r := by
  have hquiet := quiet_countPacket (node.enqueue op).1
  rw [loadState_getState] at hload
  rcases map_eq_some_iff.mp hload with ⟨groupDict, _, rfl⟩
  constructor
  case buf =>
    refine ⟨_, rfl, ?_⟩
    rw [hquiet.buf]
    exact mem_append_right _ mem_cons_self
  case log =>
    refine ⟨_, rfl, ?_⟩
    rw [hquiet.log]
    refine (putInOrder_perm ?_).mem_iff.mpr mem_cons_self
    intro x hx hkey
    rcases BroadcastMsg.key_eq.mp hkey with ⟨hts, hsender⟩
    exact hfresh x hx hts hsender
  case seq => exact congrArg Value.num hquiet.seq
  case timestamp => exact congrArg Value.num hquiet.timestamp

/-- The first backup shows the effect but does not have the packet, if it can be
loaded at all. -/
theorem not_hasPacket_of_setStore {p r : Globals} {store : GroupStore}
    (hload : loadState p (getState (node.setStore store).globals) = some r) :
    ¬ HasPacket node op r := by
  intro h
  rw [loadState_getState] at hload
  rcases map_eq_some_iff.mp hload with ⟨groupDict, _, rfl⟩
  have hseq : node.seq = node.seq + 1 := Value.num.inj h.seq
  omega

/-- The groups after an operation are read back exactly when no record key names a
group that was there or is created. -/
theorem roundTrips_apply {store store' : GroupStore} (h : store.apply op = some store') :
    RoundTrips (groupDictValue store'.groupDict) ↔
      ¬ ∃ g ∈ recordKeys, g ∈ store.groupDict.keys ∨ op.creates g = true := by
  rw [roundTrips_groupDict]
  constructor
  · rintro hkeys ⟨g, hrecord, hg⟩
    exact hkeys g ((GroupStore.mem_keys_apply h g).mpr hg) hrecord
  · intro hnone g hg hrecord
    exact hnone ⟨g, hrecord, (GroupStore.mem_keys_apply h g).mp hg⟩

/-- What a crash after a backup of the section leaves behind. -/
theorem perform_atomic_iff {b : Node n} {pre post : List (Event n)}
    (hevents : (node.perform op).2 = pre ++ .backup b :: post)
    (hfresh : ∀ x ∈ node.log, x.ts = node.timestamp + 1 → x.senderId ≠ node.id) (p : Globals) :
    (∀ r, loadState p (getState b.globals) = some r → ShowsEffect node op r →
        HasPacket node op r) ↔
      pre ≠ [] ∨ node.store.apply op = none ∨
        ∃ g ∈ recordKeys, g ∈ node.store.groupDict.keys ∨ op.creates g = true := by
  rcases backup_of_perform hevents with ⟨hpre, hb⟩ | ⟨hpre, store, happly, hb⟩
  · cases happly : node.store.apply op with
    | none =>
      refine iff_of_true ?_ (Or.inr (Or.inl rfl))
      rintro r _ ⟨store, hstore, _⟩
      rw [happly] at hstore
      cases hstore
    | some store =>
      have hstate : b = node.setStore store := by
        rw [hb]
        simp only [Node.runOperation, happly]
      subst hstate
      have hload := loadState_getState p (node.setStore store)
      constructor
      · intro hatomic
        refine Or.inr (Or.inr ?_)
        by_contra hkeys
        have htrip : decode (encode (groupDictValue store.groupDict)) = _ :=
          (roundTrips_apply happly).mpr hkeys
        have hload' : loadState p (getState (node.setStore store).globals) = some _ :=
          hload.trans (congrArg _ htrip)
        exact not_hasPacket_of_setStore hload' (hatomic _ hload' ⟨store, happly, rfl⟩)
      · rintro (h | h | hkeys) r hr ⟨store', hstore', heffect⟩
        · exact absurd hpre h
        · cases h
        · -- the groups are not read back, so the loaded state does not show them
          rw [happly] at hstore'
          injection hstore' with hstore'
          subst hstore'
          rw [hload] at hr
          rcases map_eq_some_iff.mp hr with ⟨groupDict, hdecode, rfl⟩
          have hsame : groupDict = groupDictValue store.groupDict := heffect
          rw [hsame] at hdecode
          exact absurd hkeys ((roundTrips_apply happly).mp hdecode)
  · refine iff_of_true ?_ (Or.inl hpre)
    intro r hr _
    subst hb
    have hfresh' : ∀ x ∈ (node.setStore store).log, x.ts = (node.setStore store).timestamp + 1 →
        x.senderId ≠ (node.setStore store).id := hfresh
    have hpacket := hasPacket_of_broadcast hfresh' hr
    exact ⟨hpacket.buf, hpacket.log, hpacket.seq, hpacket.timestamp⟩

/-- A server that crashes right after a backup of a client operation, and comes
back in a process with the globals `p`, shows the effect of the operation only with
its packet, exactly when the backup is not the first of the section, the operation
fails, or the groups cannot be loaded. -/
theorem crash_atomicity {t t' : System n} {a : Action n} {i : Fin n} {op : Operation}
    {pre post : List (Event n)} {b : Node n} (ht : (chatSystem n).Reachable t)
    (hnext : t.next a = some t') (hop : a.operation t = some (i, op))
    (hcrash : t'.cluster.trace =
      t.cluster.trace ++ (pre ++ .backup b :: post).map fun e => (i, e)) (p : Globals) :
    (∀ r, loadState p (getState b.globals) = some r → ShowsEffect (t.cluster.node i) op r →
        HasPacket (t.cluster.node i) op r) ↔
      pre ≠ [] ∨ (t.cluster.node i).store.apply op = none ∨
        ∃ g ∈ recordKeys, g ∈ (t.cluster.node i).store.groupDict.keys ∨ op.creates g = true := by
  rcases events_of_operation hnext hop with ⟨users, htrace⟩
  have hsame := append_cancel_left (htrace.symm.trans hcrash)
  have hevents := map_injective_iff.mpr (Prod.mk_right_injective i) hsame
  have hreached := reached_of_run ht
  have hid : (t.cluster.node i).id = i := hreached.deliveryInv.id i
  have hfresh : ∀ x ∈ (t.cluster.node i).log, x.ts = (t.cluster.node i).timestamp + 1 →
      x.senderId ≠ (t.cluster.node i).id := by
    rw [hid]
    exact hreached.fresh i
  -- the section runs in a node that differs in `active_users` only
  refine Iff.trans ?_ (perform_atomic_iff hevents hfresh p)
  refine forall_congr' fun r => imp_congr_right fun _ => imp_congr_right fun _ => ?_
  exact ⟨fun h => { h with }, fun h => { h with }⟩

/-- User `u` is about to enter group `g` at server 0. -/
def beforeEnterRun : List (Action 5) :=
  [.connect 0 0, .setUsername 0 0 "u", .joinGroupLeave 0 0 "g"]

/-- The user enters the group, and it is created. -/
theorem exists_enter :
    ∃ (t t' : System 5) (users : List ActiveUser) (store : GroupStore),
      (chatSystem 5).Reachable t ∧ t.next (.joinGroupEnter 0 0) = some t' ∧
      (Action.joinGroupEnter 0 0).operation t = some (0, .createGroup "g" "u") ∧
      t'.cluster.trace = t.cluster.trace ++
        (({ t.cluster.node 0 with activeUsers := users }).perform (.createGroup "g" "u")).2.map
          (fun e => (0, e)) ∧
      (t.cluster.node 0).store.apply (.createGroup "g" "u") = some store ∧
      store.groupDict.keys = ["g"] := by
  have hrun : TransitionSystem.runMeets System.next (fun _ _ => true)
      (fun t => decide (t.sessions 0 0 = some ⟨"u", "", some "g"⟩ ∧
        (t.cluster.node 0).store = GroupStore.empty)) beforeEnterRun
      (System.init fun _ => 0) = true := by
    decide +kernel
  rcases exists_reachable_of_run hrun with ⟨t, ht, hp⟩
  rcases of_decide_eq_true hp with ⟨hsession, hstore⟩
  have hnext : ∃ t', t.next (.joinGroupEnter 0 0) = some t' := by
    simp only [System.next, hsession, bind_some, map_some]
    exact ⟨_, rfl⟩
  rcases hnext with ⟨t', hnext⟩
  have hop : (Action.joinGroupEnter 0 0).operation t = some (0, .createGroup "g" "u") := by
    simp only [Action.operation, hsession, hstore, bind_eq_bind, bind_some]
    exact if_neg (by decide)
  rcases events_of_operation hnext hop with ⟨users, htrace⟩
  have hcreate : ∃ store, GroupStore.empty.apply (.createGroup "g" "u") = some store ∧
      store.groupDict.keys = ["g"] := ⟨_, rfl, rfl⟩
  rcases hcreate with ⟨store, happly, hkeys⟩
  rw [← hstore] at happly
  exact ⟨t, t', users, store, ht, hnext, hop, htrace, happly, hkeys⟩

/-- A server that crashes between the two backups shows a group that no other
server will ever hear of. -/
theorem not_crash_atomicity :
    ∃ (t t' : System 5) (b : Node 5) (post : List (Event 5)) (r : Globals),
      (chatSystem 5).Reachable t ∧ t.next (.joinGroupEnter 0 0) = some t' ∧
      (Action.joinGroupEnter 0 0).operation t = some (0, .createGroup "g" "u") ∧
      t'.cluster.trace = t.cluster.trace ++ (.backup b :: post).map (fun e => (0, e)) ∧
      loadState (Node.init (0 : Fin 5) 0).globals (getState b.globals) = some r ∧
      ShowsEffect (t.cluster.node 0) (.createGroup "g" "u") r ∧
      ¬ HasPacket (t.cluster.node 0) (.createGroup "g" "u") r := by
  rcases exists_enter with ⟨t, t', users, store, ht, hnext, hop, htrace, happly, hkeys⟩
  have hevents := perform_of_apply { t.cluster.node 0 with activeUsers := users } happly
  rw [hevents] at htrace
  have htrip : RoundTrips (groupDictValue store.groupDict) := by
    rw [roundTrips_groupDict, hkeys]
    decide
  have hload : loadState (Node.init (0 : Fin 5) 0).globals (getState
      ({ t.cluster.node 0 with activeUsers := users }.setStore store).globals) = some _ :=
    (loadState_getState _ _).trans (congrArg _ htrip)
  refine ⟨t, t', _, _, _, ht, hnext, hop, htrace, hload, ⟨store, happly, rfl⟩, ?_⟩
  intro h
  exact not_hasPacket_of_setStore hload ⟨h.buf, h.log, h.seq, h.timestamp⟩

theorem crash_atomicity_enter :
    ∃ (t t' : System 5) (b : Node 5) (pre post : List (Event 5)),
      (chatSystem 5).Reachable t ∧ t.next (.joinGroupEnter 0 0) = some t' ∧
      t'.cluster.trace = t.cluster.trace ++ (pre ++ .backup b :: post).map (fun e => (0, e)) ∧
      pre ≠ [] ∧ ∀ r, loadState (Node.init (0 : Fin 5) 0).globals (getState b.globals) = some r →
        ShowsEffect (t.cluster.node 0) (.createGroup "g" "u") r →
        HasPacket (t.cluster.node 0) (.createGroup "g" "u") r := by
  rcases exists_enter with ⟨t, t', users, store, ht, hnext, hop, htrace, happly, _⟩
  have hevents := perform_of_apply { t.cluster.node 0 with activeUsers := users } happly
  rw [hevents] at htrace
  have hbackup : .backup _ ∈ (Node.broadcast _ (.createGroup "g" "u")).2 :=
    backup_of_broadcast (({ t.cluster.node 0 with activeUsers := users }).setStore store) _
  rcases append_of_mem hbackup with ⟨pre, post, hbroadcast⟩
  rw [hbroadcast, ← cons_append] at htrace
  refine ⟨t, t', _, _, post, ht, hnext, htrace, cons_ne_nil _ _, ?_⟩
  exact (crash_atomicity ht hnext hop htrace _).mpr (Or.inl (cons_ne_nil _ _))

end PittCs.Chat
