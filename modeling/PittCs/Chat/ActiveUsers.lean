import PittCs.Chat.GroupEffects
import PittCs.Chat.Moves
import PittCs.Lib.Roster

/-!
# The active users of a server

`active_users` is meant to name each user who is in a group. A user who enters a
group is added, and taken out on leaving. Two of the three requests that leave a group
reset the name of the group first and then look for the entry under the empty name, so
the entry stays.
-/

namespace PittCs.Chat

open PittCs.Lib Function List Option

variable {n : Nat}

/-- The entry of a connection whose user is in a group. -/
def Session.entry (session : Session) : Option ActiveUser :=
  if session.groupName = "" then none else some ⟨session.username, session.groupName⟩

/-- The entries that the connections of a server should have. -/
def entries (sessions : Nat → Option Session) (c : Nat) : Option ActiveUser :=
  (sessions c).bind Session.entry

namespace System

/-- `active_users` of server `i` has one entry for each connection that is in a group,
and no other entry. -/
def ActiveUsersExact (i : Fin n) (s : System n) : Prop :=
  Roster (entries (s.sessions i)) (s.cluster.node i).activeUsers

/-- No user in a group sets a username or joins another group, and nobody joins the group
with the empty name. -/
def KeepsGroup (i : Fin n) (s : System n) : Action n → Prop
  | .setUsername j c _ => j = i → ∀ session ∈ s.idle i c, session.groupName = ""
  | .joinGroupLeave j c _ => j = i → ∀ session ∈ s.idle i c, session.groupName = ""
  | .joinGroupEnter j c => j = i → ∀ session ∈ s.sessions i c, session.joining ≠ some ""
  | _ => True

instance (i : Fin n) (s : System n) (a : Action n) : Decidable (s.KeepsGroup i a) := by
  cases a <;> unfold KeepsGroup <;> infer_instance

end System

/-! ## What the sections do to a server -/

namespace Node

/-- The groups are still there, and the list of active users is as it was. -/
structure Grows (node node' : Node n) : Prop where
  activeUsers : node'.activeUsers = node.activeUsers
  groups : ∀ g ∈ node.store.groupDict.keys, g ∈ node'.store.groupDict.keys

variable {node node' node'' : Node n} {session : Session}

theorem Grows.refl (node : Node n) : Grows node node := ⟨rfl, fun _ h => h⟩

theorem Grows.trans (h : Grows node node') (h' : Grows node' node'') : Grows node node'' where
  activeUsers := h'.activeUsers.trans h.activeUsers
  groups g hg := h'.groups g (h.groups g hg)

theorem Grows.of_eq (hactive : node'.activeUsers = node.activeUsers)
    (hstore : node'.store = node.store) : Grows node node' :=
  ⟨hactive, fun _ hg => hstore ▸ hg⟩

theorem grows_runOperation (node : Node n) (op : Operation) :
    Grows node (node.runOperation op).1 := by
  unfold runOperation
  cases h : node.store.apply op with
  | none => exact .refl node
  | some store =>
    refine ⟨rfl, fun g hg => ?_⟩
    exact (GroupStore.mem_keys_apply h g).mpr (.inl hg)

theorem grows_countPacket (node : Node n) : Grows node node.countPacket.1 := by
  unfold countPacket
  split
  · exact .of_eq rfl rfl
  · exact .of_eq rfl rfl

theorem grows_backupAndBroadcast (node : Node n) (op : Option Operation) :
    Grows node (node.backupAndBroadcast op).1 := by
  cases op with
  | none => exact .refl node
  | some op =>
    have henqueue : Grows node (node.enqueue op).1 := .of_eq rfl rfl
    exact henqueue.trans (grows_countPacket _)

theorem grows_perform (node : Node n) (op : Operation) : Grows node (node.perform op).1 :=
  (grows_runOperation node op).trans (grows_backupAndBroadcast _ _)

theorem grows_writeMessage (node : Node n) (session : Session) (message : String) :
    Grows node (node.writeMessage session message).1 := by
  unfold writeMessage
  split
  · exact .refl node
  · exact grows_perform node _

theorem grows_addLike (node : Node n) (session : Session) (serverId ts : Nat) :
    Grows node (node.addLike session serverId ts).1 := by
  unfold addLike
  split
  · exact .refl node
  · split
    · exact .refl node
    · split
      · exact .refl node
      · exact grows_perform node _

theorem grows_removeLike (node : Node n) (session : Session) (serverId ts : Nat) :
    Grows node (node.removeLike session serverId ts).1 := by
  unfold removeLike
  split
  · exact .refl node
  · split
    · exact .refl node
    · split
      · exact .refl node
      · exact grows_perform node _

theorem keys_runLog (log : List (BroadcastMsg n)) (store : GroupStore) {g : String}
    (hg : g ∈ store.groupDict.keys) : g ∈ (runLog store log).1.groupDict.keys := by
  induction log generalizing store with
  | nil => exact hg
  | cons m rest ih =>
    unfold runLog
    by_cases hexecuted : m.executed = true
    · rw [if_pos hexecuted]
      exact ih store hg
    · rw [if_neg hexecuted]
      cases happly : store.apply m.content with
      | none => exact ih store hg
      | some store' => exact ih store' ((GroupStore.mem_keys_apply happly g).mpr (.inl hg))

theorem grows_dispatch (node : Node n) (pkt : Packet n) : Grows node (node.dispatch pkt).1 := by
  cases pkt with
  | nack senderId ts seq => exact .refl node
  | ack senderId ts seq seqVector tsVector => exact .of_eq rfl rfl
  | data msg =>
    simp only [dispatch]
    split
    · exact ⟨rfl, fun g hg => keys_runLog _ node.store hg⟩
    · exact .refl node

theorem grows_listen (node : Node n) (pkt : Packet n) (now : Nat) :
    Grows node (node.listen pkt now).1 := by
  have hhear : Grows node (node.hear pkt.senderId now) := .of_eq rfl rfl
  exact (hhear.trans (grows_countPacket _)).trans (grows_dispatch _ pkt)

/-- Leaving a group takes out what is found under the given name. -/
theorem leaveSection_spec (node : Node n) (username oldGroup groupName : String) :
    (node.leaveSection username oldGroup groupName).1.activeUsers =
        node.activeUsers.erase ⟨username, groupName⟩ ∧
      ∀ g ∈ node.store.groupDict.keys,
        g ∈ (node.leaveSection username oldGroup groupName).1.store.groupDict.keys := by
  have hgrows := grows_perform node (.leaveGroup oldGroup username)
  unfold leaveSection removeActive
  refine ⟨?_, hgrows.groups⟩
  exact congrArg (fun users => users.erase ⟨username, groupName⟩) hgrows.activeUsers

theorem mem_keys_createGroup (node : Node n) {groupName : String}
    (h : groupName ∉ node.store.groupDict.keys) (username : String) :
    groupName ∈ (node.runOperation (.createGroup groupName username)).1.store.groupDict.keys := by
  have hnone : node.store.groupDict.get? groupName = none := by
    by_contra hsome
    exact h (Dict.mem_keys_iff.mpr (ne_none_iff_exists'.mp hsome))
  have happly : ∃ store, node.store.apply (.createGroup groupName username) = some store := by
    simp [GroupStore.apply, GroupStore.createGroup, hnone]
  rcases happly with ⟨store, happly⟩
  have hmem := (GroupStore.mem_keys_apply happly groupName).mpr
    (.inr (by simp [Operation.creates]))
  unfold runOperation
  rw [happly]
  exact hmem

/-- Entering a group adds an entry, and the group is there. -/
theorem joinGroupEnter_spec (node : Node n) (session : Session) (newGroup : String) :
    (node.joinGroupEnter session newGroup).1.activeUsers =
        node.activeUsers ++ [⟨session.username, newGroup⟩] ∧
      newGroup ∈ (node.joinGroupEnter session newGroup).1.store.groupDict.keys ∧
      ∀ g ∈ node.store.groupDict.keys,
        g ∈ (node.joinGroupEnter session newGroup).1.store.groupDict.keys := by
  let added : Node n :=
    { node with activeUsers := node.activeUsers ++ [ActiveUser.mk session.username newGroup] }
  by_cases hmem : newGroup ∈ node.store.groupDict.keys
  case pos =>
      have hgrows := grows_perform added (.joinGroup newGroup session.username)
      simp only [joinGroupEnter, hmem, if_true]
      rw [backupAndBroadcast_active]
      exact ⟨hgrows.activeUsers, hgrows.groups newGroup hmem, hgrows.groups⟩
  case neg =>
      have hgrows := grows_perform added (.createGroup newGroup session.username)
      have hnew : newGroup ∈ (added.perform
          (.createGroup newGroup session.username)).1.store.groupDict.keys :=
        (grows_backupAndBroadcast _ _).groups newGroup
          (added.mem_keys_createGroup hmem session.username)
      simp only [joinGroupEnter, hmem, if_false]
      rw [backupAndBroadcast_active]
      exact ⟨hgrows.activeUsers, hnew, hgrows.groups⟩

theorem onDisconnect_of_free (h : session.groupName = "") :
    node.onDisconnect session = (node, []) := by
  unfold onDisconnect
  rw [if_neg]
  simp [h]

theorem setUsername_of_free (h : session.groupName = "") (username : String) :
    node.setUsername session username = (node, { session with username, groupName := "" }, []) := by
  unfold setUsername
  split
  · rw [if_neg (by simp [h])]
  · rw [← h]

end Node

/-! ## The connections of one server -/

/-- A connection that is in a group has a username and the group exists; one that is about
to enter a group is in none. -/
structure Session.Ok (node : Node n) (session : Session) : Prop where
  member : session.groupName ≠ "" →
    session.username ≠ "" ∧ session.groupName ∈ node.store.groupDict.keys
  joining : session.joining ≠ none → session.username ≠ "" ∧ session.groupName = ""

/-- The list of active users is exact, and the connections are in order. -/
structure UsersOk (node : Node n) (sessions : Nat → Option Session) : Prop where
  exact : Roster (entries sessions) node.activeUsers
  sessions : ∀ c session, sessions c = some session → session.Ok node

namespace UsersOk

variable {node node' : Node n} {sessions : Nat → Option Session} {session : Session} {c : Nat}

theorem entries_update (sessions : Nat → Option Session) (c : Nat) (new : Option Session) :
    entries (Function.update sessions c new) =
      Function.update (entries sessions) c (new.bind Session.entry) := by
  funext c'
  by_cases h : c' = c
  · subst h
    simp [entries]
  · simp [entries, h]

theorem entry_of_free (hc : sessions c = some session) (hfree : session.groupName = "") :
    entries sessions c = none := by
  simp [entries, hc, Session.entry, hfree]

theorem entry_of_member (hc : sessions c = some session) (hmember : session.groupName ≠ "") :
    entries sessions c = some ⟨session.username, session.groupName⟩ := by
  simp [entries, hc, Session.entry, hmember]

/-- No entry has the empty name. -/
theorem erase_unnamed (h : UsersOk node sessions) (username : String) :
    node.activeUsers.erase ⟨username, ""⟩ = node.activeUsers := by
  refine erase_of_not_mem fun hmem => ?_
  rcases h.exact.mem_iff.mp hmem with ⟨c, hc⟩
  rcases bind_eq_some_iff.mp hc with ⟨session, -, hentry⟩
  unfold Session.entry at hentry
  split at hentry
  case isTrue => cases hentry
  case isFalse hne =>
      exact hne (ActiveUser.mk.inj (some.inj hentry)).2

/-- The groups grow. -/
theorem grows (h : UsersOk node sessions) (hgrows : node.Grows node') : UsersOk node' sessions where
  exact := hgrows.activeUsers ▸ h.exact
  sessions c session hc := by
    have hsession := h.sessions c session hc
    refine ⟨fun hmember => ?_, hsession.joining⟩
    exact ⟨(hsession.member hmember).1, hgrows.groups _ (hsession.member hmember).2⟩

/-- One connection changes, and with it the list. -/
theorem update (h : UsersOk node sessions) (new : Option Session)
    (hgroups : ∀ g ∈ node.store.groupDict.keys, g ∈ node'.store.groupDict.keys)
    (hexact : Roster (Function.update (entries sessions) c (new.bind Session.entry))
      node'.activeUsers)
    (hnew : ∀ session, new = some session → session.Ok node') :
    UsersOk node' (Function.update sessions c new) where
  exact := by
    rw [entries_update]
    exact hexact
  sessions c' session hc' := by
    by_cases heq : c' = c
    · subst heq
      rw [update_self] at hc'
      exact hnew session hc'
    · rw [update_of_ne heq] at hc'
      have hsession := h.sessions c' session hc'
      refine ⟨fun hmember => ?_, hsession.joining⟩
      exact ⟨(hsession.member hmember).1, hgroups _ (hsession.member hmember).2⟩

/-- A connection that is in no group, before and after. -/
theorem update_free (h : UsersOk node sessions) (hentry : entries sessions c = none)
    {new : Option Session} (hnew : new.bind Session.entry = none)
    (hok : ∀ session, new = some session → session.Ok node) :
    UsersOk node (Function.update sessions c new) := by
  refine h.update new (fun _ hg => hg) ?_ hok
  rw [hnew, ← hentry, update_eq_self]
  exact h.exact

theorem connect (h : UsersOk node sessions) (hc : sessions c = none) :
    UsersOk node (Function.update sessions c (some {})) := by
  refine h.update_free (by simp [entries, hc]) rfl ?_
  intro session hsession
  cases hsession
  exact ⟨fun hmember => absurd rfl hmember, fun hjoining => absurd rfl hjoining⟩

theorem onDisconnect (h : UsersOk node sessions) (hc : sessions c = some session) :
    UsersOk (node.onDisconnect session).1 (Function.update sessions c none) := by
  by_cases hfree : session.groupName = ""
  case pos =>
      rw [Node.onDisconnect_of_free hfree]
      refine h.update_free (entry_of_free hc hfree) rfl ?_
      intro session' hsession'
      cases hsession'
  case neg =>
      rcases (h.sessions c session hc).member hfree with ⟨hname, hgroup⟩
      have hspec := node.leaveSection_spec session.username session.groupName session.groupName
      have hleave : node.onDisconnect session = node.leaveSection session.username
          session.groupName session.groupName := if_pos ⟨hname, hfree, hgroup⟩
      rw [hleave]
      refine h.update none hspec.2 ?_ ?_
      · -- the one request that looks for the entry under its own name
        rw [hspec.1]
        exact h.exact.remove (entry_of_member hc hfree)
      · intro session' hsession'
        cases hsession'

theorem setUsername (h : UsersOk node sessions) (hc : sessions c = some session)
    (hidle : session.joining = none) (hfree : session.groupName = "") (username : String) :
    UsersOk (node.setUsername session username).1
      (Function.update sessions c (some (node.setUsername session username).2.1)) := by
  rw [Node.setUsername_of_free hfree]
  refine h.update_free (entry_of_free hc hfree) rfl ?_
  intro session' hsession'
  cases hsession'
  exact ⟨fun hmember => absurd rfl hmember, fun hjoining => absurd hidle hjoining⟩

theorem joinGroupLeave (h : UsersOk node sessions) (hc : sessions c = some session)
    (hfree : session.groupName = "") (newGroup : String) :
    UsersOk (node.joinGroupLeave session newGroup).1
      (Function.update sessions c (some (node.joinGroupLeave session newGroup).2.1)) := by
  have hentry := entry_of_free hc hfree
  unfold Node.joinGroupLeave
  split
  case isTrue hname =>
      -- without a username nothing happens
      refine h.update_free hentry ?_ ?_
      · simp [Session.entry, hfree]
      · intro session' hsession'
        cases hsession'
        exact h.sessions c session hc
  case isFalse hname =>
      split
      case isTrue hgroup =>
          -- the group with the empty name exists, and the user leaves it
          have hspec := node.leaveSection_spec session.username session.groupName ""
          refine h.update _ hspec.2 ?_ ?_
          · rw [hspec.1, h.erase_unnamed]
            have hsame : Function.update (entries sessions) c none = entries sessions := by
              rw [← hentry, update_eq_self]
            show Roster (Function.update (entries sessions) c none) node.activeUsers
            rw [hsame]
            exact h.exact
          · intro session' hsession'
            cases hsession'
            exact ⟨fun hmember => absurd rfl hmember, fun _ => ⟨hname, rfl⟩⟩
      case isFalse =>
          refine h.update_free hentry ?_ ?_
          · simp [Session.entry, hfree]
          · intro session' hsession'
            cases hsession'
            exact ⟨fun hmember => absurd hfree hmember, fun _ => ⟨hname, hfree⟩⟩

/-- A request that leaves a group looks for the entry under the empty name. -/
theorem not_exact_of_leave (h : UsersOk node sessions) (hc : sessions c = some session)
    (hmember : session.groupName ≠ "") (username : String)
    (hactive : node'.activeUsers = node.activeUsers.erase ⟨username, ""⟩) {session' : Session}
    (hfree : session'.groupName = "") :
    ¬ Roster (entries (Function.update sessions c (some session'))) node'.activeUsers := by
  rw [hactive, h.erase_unnamed, entries_update]
  have hentry : (some session').bind Session.entry = none := by
    simp [Session.entry, hfree]
  rw [hentry]
  exact h.exact.not_of_remove (entry_of_member hc hmember)

theorem setUsername_not_exact (h : UsersOk node sessions) (hc : sessions c = some session)
    (hmember : session.groupName ≠ "") (username : String) :
    ¬ Roster (entries (Function.update sessions c (some (node.setUsername session username).2.1)))
      (node.setUsername session username).1.activeUsers := by
  rcases (h.sessions c session hc).member hmember with ⟨hname, hgroup⟩
  have hleave : node.setUsername session username = _ :=
    (if_pos hname).trans (if_pos ⟨hmember, hgroup⟩)
  rw [hleave]
  exact h.not_exact_of_leave hc hmember session.username
    (node.leaveSection_spec session.username session.groupName "").1 rfl

theorem joinGroupLeave_not_exact (h : UsersOk node sessions) (hc : sessions c = some session)
    (hmember : session.groupName ≠ "") (newGroup : String) :
    ¬ Roster
      (entries (Function.update sessions c (some (node.joinGroupLeave session newGroup).2.1)))
      (node.joinGroupLeave session newGroup).1.activeUsers := by
  rcases (h.sessions c session hc).member hmember with ⟨hname, hgroup⟩
  have hleave : node.joinGroupLeave session newGroup = _ := (if_neg hname).trans (if_pos hgroup)
  rw [hleave]
  exact h.not_exact_of_leave hc hmember session.username
    (node.leaveSection_spec session.username session.groupName "").1 rfl

/-- Entering a group that has a name. -/
theorem joinGroupEnter (h : UsersOk node sessions) (hc : sessions c = some session)
    {newGroup : String} (hjoining : session.joining = some newGroup) (hne : newGroup ≠ "") :
    UsersOk (node.joinGroupEnter session newGroup).1
      (Function.update sessions c (some (node.joinGroupEnter session newGroup).2.1)) := by
  rcases node.joinGroupEnter_spec session newGroup with ⟨hactive, hgroup, hgroups⟩
  have hsession := (h.sessions c session hc).joining (by simp [hjoining])
  have hentry : (some (node.joinGroupEnter session newGroup).2.1).bind Session.entry =
      some ⟨session.username, newGroup⟩ := by
    simp [Node.joinGroupEnter, Session.entry, hne]
  refine h.update _ hgroups ?_ ?_
  · rw [hentry, hactive]
    exact (h.exact.insert (entry_of_free hc hsession.2)).of_perm (perm_append_singleton _ _)
  · intro session' hsession'
    cases hsession'
    exact ⟨fun _ => ⟨hsession.1, hgroup⟩, fun hj => absurd rfl hj⟩

/-- The group with the empty name is listed, but the connection counts as in no group. -/
theorem joinGroupEnter_not_exact (h : UsersOk node sessions) (hc : sessions c = some session)
    (hjoining : session.joining = some "") :
    ¬ Roster (entries (Function.update sessions c (some (node.joinGroupEnter session "").2.1)))
      (node.joinGroupEnter session "").1.activeUsers := by
  have hsession := (h.sessions c session hc).joining (by simp [hjoining])
  have hentry : (some (node.joinGroupEnter session "").2.1).bind Session.entry = none := by
    simp [Node.joinGroupEnter, Session.entry]
  rw [entries_update, hentry, (node.joinGroupEnter_spec session "").1]
  have hsame : Function.update (entries sessions) c none = entries sessions := by
    rw [← entry_of_free hc hsession.2, update_eq_self]
  rw [hsame]
  intro hexact
  have hlen := (h.exact.perm hexact).length_eq
  rw [length_append] at hlen
  simp at hlen

end UsersOk

/-! ## Runs -/

namespace System

variable {s s' : System n} {i j : Fin n} {c : Nat} {a : Action n}

/-- The state of server `i` and of its connections. -/
def UsersOkAt (i : Fin n) (s : System n) : Prop := UsersOk (s.cluster.node i) (s.sessions i)

theorem usersOkAt_put (h : s.UsersOkAt i) {r : Node n × List (Event n)}
    (hgrows : (s.cluster.node j).Grows r.1) : (s.put j r).UsersOkAt i := by
  unfold UsersOkAt put
  by_cases hj : i = j
  · subst hj
    rw [Cluster.put_node_self]
    exact h.grows hgrows
  · rw [Cluster.put_node_of_ne _ _ hj]
    exact h

/-- Another server. -/
theorem setSession_put_of_ne (hj : j ≠ i) (r : Node n × List (Event n)) (new : Option Session) :
    ((s.put j r).setSession j c new).cluster.node i = s.cluster.node i ∧
      ((s.put j r).setSession j c new).sessions i = s.sessions i :=
  ⟨Cluster.put_node_of_ne _ _ (Ne.symm hj), update_of_ne (Ne.symm hj) _ _⟩

theorem setSession_put_self (r : Node n × List (Event n)) (new : Option Session) :
    ((s.put i r).setSession i c new).cluster.node i = r.1 ∧
      ((s.put i r).setSession i c new).sessions i = Function.update (s.sessions i) c new :=
  ⟨Cluster.put_node_self _ _ _, update_self _ _ _⟩

theorem idle_eq_some {session : Session} (h : s.idle i c = some session) :
    s.sessions i c = some session ∧ session.joining = none := by
  simpa [idle] using filter_eq_some_iff.mp h

/-- A step keeps the list exact if it keeps the groups of the connections, and only then. -/
theorem usersOkAt_step (h : s.UsersOkAt i) (hnext : s.next a = some s') :
    (s.KeepsGroup i a → s'.UsersOkAt i) ∧ (¬ s.KeepsGroup i a → ¬ s'.ActiveUsersExact i) := by
  cases a with
  | connect j c =>
    refine ⟨fun _ => ?_, fun hkeeps => absurd trivial hkeeps⟩
    simp only [next] at hnext
    split at hnext
    case h_2 => cases hnext
    case h_1 hc =>
        cases hnext
        by_cases hj : j = i
        · subst hj
          have hsessions : (s.setSession j c (some {})).sessions j =
              Function.update (s.sessions j) c (some {}) := update_self _ _ _
          unfold UsersOkAt
          rw [hsessions]
          exact h.connect hc
        · have hsessions : (s.setSession j c (some {})).sessions i = s.sessions i :=
            update_of_ne (Ne.symm hj) _ _
          unfold UsersOkAt
          rw [hsessions]
          exact h
  | disconnect j c =>
    refine ⟨fun _ => ?_, fun hkeeps => absurd trivial hkeeps⟩
    rcases map_eq_some_iff.mp hnext with ⟨session, hsession, rfl⟩
    unfold UsersOkAt
    by_cases hj : j = i
    · subst hj
      rw [(setSession_put_self _ _).1, (setSession_put_self _ _).2]
      exact h.onDisconnect (idle_eq_some hsession).1
    · rw [(setSession_put_of_ne hj _ _).1, (setSession_put_of_ne hj _ _).2]
      exact h
  | setUsername j c username =>
    rcases map_eq_some_iff.mp hnext with ⟨session, hsession, rfl⟩
    unfold UsersOkAt ActiveUsersExact request
    by_cases hj : j = i
    case neg =>
        rw [(setSession_put_of_ne hj _ _).1, (setSession_put_of_ne hj _ _).2]
        exact ⟨fun _ => h, fun hkeeps => absurd (fun heq => absurd heq hj) hkeeps⟩
    case pos =>
        subst hj
        rcases idle_eq_some hsession with ⟨hc, hidle⟩
        have hkeeps : s.KeepsGroup j (.setUsername j c username) ↔ session.groupName = "" := by
          simp [KeepsGroup, hsession]
        rw [(setSession_put_self _ _).1, (setSession_put_self _ _).2, hkeeps]
        exact ⟨fun hfree => h.setUsername hc hidle hfree username,
          fun hmember => h.setUsername_not_exact hc hmember username⟩
  | joinGroupLeave j c newGroup =>
    rcases map_eq_some_iff.mp hnext with ⟨session, hsession, rfl⟩
    unfold UsersOkAt ActiveUsersExact request
    by_cases hj : j = i
    case neg =>
        rw [(setSession_put_of_ne hj _ _).1, (setSession_put_of_ne hj _ _).2]
        exact ⟨fun _ => h, fun hkeeps => absurd (fun heq => absurd heq hj) hkeeps⟩
    case pos =>
        subst hj
        have hkeeps : s.KeepsGroup j (.joinGroupLeave j c newGroup) ↔
            session.groupName = "" := by
          simp [KeepsGroup, hsession]
        rw [(setSession_put_self _ _).1, (setSession_put_self _ _).2, hkeeps]
        exact ⟨fun hfree => h.joinGroupLeave (idle_eq_some hsession).1 hfree newGroup,
          fun hmember => h.joinGroupLeave_not_exact (idle_eq_some hsession).1 hmember newGroup⟩
  | joinGroupEnter j c =>
    rcases bind_eq_some_iff.mp hnext with ⟨session, hsession, hnext⟩
    rcases map_eq_some_iff.mp hnext with ⟨newGroup, hnew, rfl⟩
    unfold UsersOkAt ActiveUsersExact request
    by_cases hj : j = i
    case neg =>
        rw [(setSession_put_of_ne hj _ _).1, (setSession_put_of_ne hj _ _).2]
        exact ⟨fun _ => h, fun hkeeps => absurd (fun heq => absurd heq hj) hkeeps⟩
    case pos =>
        subst hj
        have hkeeps : s.KeepsGroup j (.joinGroupEnter j c) ↔ newGroup ≠ "" := by
          simp [KeepsGroup, hsession, hnew]
        rw [(setSession_put_self _ _).1, (setSession_put_self _ _).2, hkeeps]
        refine ⟨fun hne => h.joinGroupEnter hsession hnew hne, fun hempty => ?_⟩
        rw [not_not] at hempty
        subst hempty
        exact h.joinGroupEnter_not_exact hsession hnew
  | writeMessage j c message =>
    refine ⟨fun _ => ?_, fun hkeeps => absurd trivial hkeeps⟩
    rcases map_eq_some_iff.mp hnext with ⟨session, hsession, rfl⟩
    exact usersOkAt_put h (Node.grows_writeMessage _ session message)
  | addLike j c serverId ts =>
    refine ⟨fun _ => ?_, fun hkeeps => absurd trivial hkeeps⟩
    rcases map_eq_some_iff.mp hnext with ⟨session, hsession, rfl⟩
    exact usersOkAt_put h (Node.grows_addLike _ session serverId ts)
  | removeLike j c serverId ts =>
    refine ⟨fun _ => ?_, fun hkeeps => absurd trivial hkeeps⟩
    rcases map_eq_some_iff.mp hnext with ⟨session, hsession, rfl⟩
    exact usersOkAt_put h (Node.grows_removeLike _ session serverId ts)
  | receive j pkt now =>
    refine ⟨fun _ => ?_, fun hkeeps => absurd trivial hkeeps⟩
    simp only [next] at hnext
    split at hnext
    case isTrue =>
        cases hnext
        exact usersOkAt_put h (Node.grows_listen _ pkt now)
    case isFalse => cases hnext
  | nackTimeout j target =>
    refine ⟨fun _ => ?_, fun hkeeps => absurd trivial hkeeps⟩
    simp only [next] at hnext
    split at hnext
    case isTrue =>
        cases hnext
        exact usersOkAt_put h (.refl _)
    case isFalse => cases hnext
  | checkView j now =>
    refine ⟨fun _ => ?_, fun hkeeps => absurd trivial hkeeps⟩
    cases hnext
    exact usersOkAt_put h (.of_eq rfl rfl)

theorem usersOkAt_init (start : Fin n → Nat) : (System.init start).UsersOkAt i where
  exact := Roster.nil
  sessions c session hc := by cases hc

theorem usersOkAt_of_reachableBy (h : (chatSystem n).ReachableBy (KeepsGroup i) s) :
    s.UsersOkAt i := by
  refine h.invariant (UsersOkAt i) ?_ ?_
  · rintro s ⟨start, rfl⟩
    exact usersOkAt_init start
  · intro s a s' hok hkeeps hnext
    exact (usersOkAt_step hok hnext).1 hkeeps

end System

/-- In every run whose steps keep the groups of the connections the list is exact, and the
first step that does not is followed by a list that is not. -/
theorem active_users_exact_iff {s : System n} {i : Fin n}
    (h : (chatSystem n).ReachableBy (System.KeepsGroup i) s) :
    s.ActiveUsersExact i ∧ ∀ a s', s.next a = some s' →
      (s'.ActiveUsersExact i ↔ s.KeepsGroup i a) := by
  have hok := System.usersOkAt_of_reachableBy h
  refine ⟨hok.exact, fun a s' hnext => ?_⟩
  rcases System.usersOkAt_step hok hnext with ⟨hkeep, hbreak⟩
  constructor
  · intro hexact
    by_contra hkeeps
    exact hbreak hkeeps hexact
  · intro hkeeps
    exact (hkeep hkeeps).exact

/-- User `u` is in group `g` at server 0. -/
def enterGroupRun : List (Action 5) :=
  [.connect 0 0, .setUsername 0 0 "u", .joinGroupLeave 0 0 "g", .joinGroupEnter 0 0]

/-- The run keeps the groups. -/
theorem exists_entered :
    ∃ s : System 5, (chatSystem 5).ReachableBy (System.KeepsGroup 0) s ∧
      s.sessions 0 0 = some ⟨"u", "g", none⟩ ∧ (s.cluster.node 0).activeUsers = [⟨"u", "g"⟩] := by
  have hrun : TransitionSystem.runMeets System.next (fun s a => decide (s.KeepsGroup 0 a))
      (fun s => decide (s.sessions 0 0 = some ⟨"u", "g", none⟩ ∧
        (s.cluster.node 0).activeUsers = [⟨"u", "g"⟩])) enterGroupRun (System.init fun _ => 0) =
      true := by
    decide +kernel
  rcases TransitionSystem.exists_of_runMeets (S := chatSystem 5) (fun _ _ _ hnext => hnext)
    (fun _ _ hcheck => of_decide_eq_true hcheck) (.init ⟨fun _ => 0, rfl⟩) hrun with ⟨s, hs, hp⟩
  exact ⟨s, hs, of_decide_eq_true hp⟩

/-- A user in a group who sets another name leaves an entry behind. -/
theorem not_active_users_exact :
    ¬ ∀ (s : System 5) (i : Fin 5), (chatSystem 5).Reachable s → s.ActiveUsersExact i := by
  intro hexact
  rcases exists_entered with ⟨s, hs, hsession, -⟩
  have hidle : s.idle 0 0 = some ⟨"u", "g", none⟩ := by
    simp [System.idle, hsession]
  have hnext : ∃ s', s.next (.setUsername 0 0 "v") = some s' := by
    simp [System.next, hidle]
  rcases hnext with ⟨s', hnext⟩
  have hkeeps : ¬ s.KeepsGroup 0 (.setUsername 0 0 "v") := by
    simp [System.KeepsGroup, hidle]
  have hreach : (chatSystem 5).Reachable s' := .step (hs.mono fun _ _ _ => trivial) trivial hnext
  exact (System.usersOkAt_step (System.usersOkAt_of_reachableBy hs) hnext).2 hkeeps
    (hexact s' 0 hreach)

/-- The user who has entered is in the list, which is exact. -/
theorem active_users_exact_entered :
    ∃ s : System 5, s.sessions 0 0 = some ⟨"u", "g", none⟩ ∧
      (s.cluster.node 0).activeUsers = [⟨"u", "g"⟩] ∧ s.ActiveUsersExact 0 := by
  rcases exists_entered with ⟨s, hs, hsession, hactive⟩
  exact ⟨s, hsession, hactive, (active_users_exact_iff hs).1⟩

end PittCs.Chat
