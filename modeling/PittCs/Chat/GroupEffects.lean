import Mathlib.Algebra.GroupWithZero.Nat
import Mathlib.Algebra.Ring.Int.Defs
import PittCs.Chat.Structs

/-!
# What the operations do to a group

Every operation that succeeds sets one group to a changed group. The change is
described once, by `Changes`; from it follow the effects that do not depend on
the order of operations: the number of times a user is in a group, the messages
of a group and the number of likes.
-/

namespace PittCs.Chat

open PittCs.Lib List Option

/-- The group that an operation is about. -/
def Operation.groupName : Operation → String
  | .createGroup groupName _ => groupName
  | .joinGroup groupName _ => groupName
  | .leaveGroup groupName _ => groupName
  | .writeMessage groupName _ _ _ _ => groupName
  | .addLike groupName _ _ _ => groupName
  | .removeLike groupName _ _ _ => groupName

namespace GroupStore

variable {store store' : GroupStore} {op : Operation} {g : String}

def usersOf (store : GroupStore) (g : String) : List String :=
  match store.groupDict.get? g with
  | some group => group.users
  | none => []

def messagesOf (store : GroupStore) (g : String) : List Message :=
  match store.groupDict.get? g with
  | some group => group.messages
  | none => []

/-- How an operation that succeeds changes the users and the messages of its group. -/
def Changes : Operation → List String → List Message → List String → List Message → Prop
  | .createGroup _ u, users, messages, users', messages' =>
    u ∉ users ∧ users' = users ++ [u] ∧ messages' = messages
  | .joinGroup _ u, users, messages, users', messages' =>
    users' = users ++ [u] ∧ messages' = messages
  | .leaveGroup _ u, users, messages, users', messages' =>
    u ∈ users ∧ users' = users.erase u ∧ messages' = messages
  | .writeMessage _ u content ts serverId, users, messages, users', messages' =>
    u ∈ users ∧ users' = users ∧
      insertFromRight compareMsg ⟨(serverId, ts), content, u, []⟩ messages = some messages'
  | .addLike _ u ts serverId, users, messages, users', messages' =>
    u ∈ users ∧ users' = users ∧
      updateMessage (serverId, ts)
        (fun likes => if u ∈ likes then none else some (likes ++ [u])) messages = some messages'
  | .removeLike _ u ts serverId, users, messages, users', messages' =>
    u ∈ users ∧ users' = users ∧
      updateMessage (serverId, ts)
        (fun likes => if u ∉ likes then none else some (likes.erase u)) messages = some messages'

theorem updateLikes_eq {groupName username : String} {ts serverId : Nat}
    {change : List String → Option (List String)}
    (h : store.updateLikes groupName username ts serverId change = some store') :
    ∃ group messages, store.groupDict.get? groupName = some group ∧ username ∈ group.users ∧
      updateMessage (serverId, ts) change group.messages = some messages ∧
      store'.groupDict = store.groupDict.set groupName { group with messages } := by
  cases hgroup : store.groupDict.get? groupName with
  | none =>
    simp only [updateLikes, hgroup] at h
    cases h
  | some group =>
    simp only [updateLikes, hgroup] at h
    by_cases hmem : username ∈ group.users
    · rw [if_neg (not_not.mpr hmem)] at h
      split at h
      · cases h
      · rename_i messages hupdate
        injection h with h
        subst h
        exact ⟨group, messages, rfl, hmem, hupdate, rfl⟩
    · rw [if_pos hmem] at h
      cases h

/-- Every operation that succeeds sets one group; only a missing group that is
created was not there before. -/
theorem apply_eq (h : store.apply op = some store') :
    ∃ group', store'.groupDict = store.groupDict.set op.groupName group' ∧
      Changes op (store.usersOf op.groupName) (store.messagesOf op.groupName) group'.users
        group'.messages ∧
      (store.groupDict.get? op.groupName = none → ∃ u, op = .createGroup op.groupName u) := by
  cases op with
  | createGroup groupName username =>
    cases hgroup : store.groupDict.get? groupName with
    | none =>
      simp only [apply, createGroup, hgroup] at h
      simp only [usersOf, messagesOf, Operation.groupName, hgroup]
      injection h with h
      subst h
      exact ⟨_, rfl, ⟨not_mem_nil, rfl, rfl⟩, fun _ => ⟨username, rfl⟩⟩
    | some group =>
      simp only [apply, createGroup, hgroup] at h
      simp only [usersOf, messagesOf, Operation.groupName, hgroup]
      by_cases hmem : username ∈ group.users
      · rw [if_neg (not_not.mpr hmem)] at h
        cases h
      · rw [if_pos hmem] at h
        injection h with h
        subst h
        exact ⟨_, rfl, ⟨hmem, rfl, rfl⟩, fun hnone => absurd hnone (some_ne_none _)⟩
  | joinGroup groupName username =>
    cases hgroup : store.groupDict.get? groupName with
    | none =>
      simp only [apply, joinGroup, hgroup] at h
      cases h
    | some group =>
      simp only [apply, joinGroup, hgroup] at h
      simp only [usersOf, messagesOf, Operation.groupName, hgroup]
      injection h with h
      subst h
      exact ⟨_, rfl, ⟨rfl, rfl⟩, fun hnone => absurd hnone (some_ne_none _)⟩
  | leaveGroup groupName username =>
    cases hgroup : store.groupDict.get? groupName with
    | none =>
      simp only [apply, leaveGroup, hgroup] at h
      cases h
    | some group =>
      simp only [apply, leaveGroup, hgroup] at h
      simp only [usersOf, messagesOf, Operation.groupName, hgroup]
      by_cases hmem : username ∈ group.users
      · rw [if_neg (not_not.mpr hmem)] at h
        injection h with h
        subst h
        exact ⟨_, rfl, ⟨hmem, rfl, rfl⟩, fun hnone => absurd hnone (some_ne_none _)⟩
      · rw [if_pos hmem] at h
        cases h
  | writeMessage groupName username content ts serverId =>
    cases hgroup : store.groupDict.get? groupName with
    | none =>
      simp only [apply, writeMessage, hgroup] at h
      cases h
    | some group =>
      simp only [apply, writeMessage, hgroup] at h
      simp only [usersOf, messagesOf, Operation.groupName, hgroup]
      by_cases hmem : username ∈ group.users
      · rw [if_neg (not_not.mpr hmem)] at h
        split at h
        · cases h
        · rename_i messages hinsert
          injection h with h
          subst h
          exact ⟨_, rfl, ⟨hmem, rfl, hinsert⟩, fun hnone => absurd hnone (some_ne_none _)⟩
      · rw [if_pos hmem] at h
        cases h
  | addLike groupName username ts serverId | removeLike groupName username ts serverId =>
    rcases updateLikes_eq h with ⟨group, messages, hgroup, hmem, hupdate, hset⟩
    simp only [usersOf, messagesOf, Operation.groupName, hgroup]
    exact ⟨_, hset, ⟨hmem, rfl, hupdate⟩, fun hnone => absurd hnone (some_ne_none _)⟩

/-- What an operation does to the users and the messages of every group. -/
theorem apply_groups (h : store.apply op = some store') :
    Changes op (store.usersOf op.groupName) (store.messagesOf op.groupName)
        (store'.usersOf op.groupName) (store'.messagesOf op.groupName) ∧
      ∀ g, g ≠ op.groupName →
        store'.usersOf g = store.usersOf g ∧ store'.messagesOf g = store.messagesOf g := by
  rcases apply_eq h with ⟨group', hset, hchanges, _⟩
  unfold usersOf messagesOf at *
  rw [hset]
  constructor
  · rw [Dict.get?_set_self]
    exact hchanges
  · intro g hg
    rw [Dict.get?_set_of_ne hg]
    exact ⟨rfl, rfl⟩

theorem updateMessage_eq {id : Nat × Nat} {change : List String → Option (List String)}
    {l l' : List Message} (h : updateMessage id change l = some l') :
    ∃ l₁ m likes l₂, l = l₁ ++ m :: l₂ ∧ m.id = id ∧ change m.likes = some likes ∧
      l' = l₁ ++ { m with likes } :: l₂ := by
  induction l generalizing l' with
  | nil => cases h
  | cons x l ih =>
    unfold updateMessage at h
    by_cases hx : x.id = id
    · rw [if_pos hx] at h
      rcases map_eq_some_iff.mp h with ⟨likes, hlikes, rfl⟩
      exact ⟨[], x, likes, l, rfl, hx, hlikes, rfl⟩
    · rw [if_neg hx] at h
      rcases map_eq_some_iff.mp h with ⟨l'', hl'', rfl⟩
      rcases ih hl'' with ⟨l₁, m, likes, l₂, rfl, hm, hlikes, rfl⟩
      exact ⟨x :: l₁, m, likes, l₂, rfl, hm, hlikes, rfl⟩

end GroupStore

/-! ## Effects that do not depend on the order -/

/-- What a message is, apart from its likes. -/
def Message.core (m : Message) : (Nat × Nat) × String × String := (m.id, m.content, m.sender)

/-- The number of likes of `u` on the messages with the given id. -/
def likeSum (messages : List Message) (id : Nat × Nat) (u : String) : Nat :=
  ((messages.filter fun m => m.id = id).map fun m => m.likes.count u).sum

namespace Operation

/-- By how much an operation changes the number of times that `u` is in `g`. -/
def userDelta (g u : String) : Operation → Int
  | .createGroup g' u' => if g' = g ∧ u' = u then 1 else 0
  | .joinGroup g' u' => if g' = g ∧ u' = u then 1 else 0
  | .leaveGroup g' u' => if g' = g ∧ u' = u then -1 else 0
  | _ => 0

/-- By how much an operation changes the number of likes of `u` on a message of `g`. -/
def likeDelta (g : String) (id : Nat × Nat) (u : String) : Operation → Int
  | .addLike g' u' ts serverId => if g' = g ∧ (serverId, ts) = id ∧ u' = u then 1 else 0
  | .removeLike g' u' ts serverId => if g' = g ∧ (serverId, ts) = id ∧ u' = u then -1 else 0
  | _ => 0

/-- The message that an operation adds to `g`. -/
def written (g : String) : Operation → List ((Nat × Nat) × String × String)
  | .writeMessage g' u content ts serverId => if g' = g then [((serverId, ts), content, u)] else []
  | _ => []

/-- The operation brings `g` into being. -/
def creates (g : String) : Operation → Bool
  | .createGroup g' _ => g' = g
  | _ => false

theorem delta_of_ne {g : String} {op : Operation} (h : g ≠ op.groupName) (id : Nat × Nat)
    (u : String) :
    op.userDelta g u = 0 ∧ op.likeDelta g id u = 0 ∧ op.written g = [] ∧ op.creates g = false := by
  cases op <;> simp [userDelta, likeDelta, written, creates, groupName] at h ⊢ <;>
    simp [Ne.symm h]

end Operation

namespace GroupStore

variable {store store' : GroupStore} {op : Operation}

theorem count_append_singleton (users : List String) (u v : String) :
    ((users ++ [v]).count u : Int) = users.count u + if v = u then 1 else 0 := by
  rw [count_append, count_singleton]
  by_cases hv : v = u
  · simp [hv]
  · simp [hv]

theorem count_erase_of_mem {users : List String} {v : String} (hv : v ∈ users) (u : String) :
    ((users.erase v).count u : Int) = users.count u + if v = u then -1 else 0 := by
  by_cases huv : v = u
  · subst huv
    have hpos : 0 < users.count v := count_pos_iff.mpr hv
    rw [count_erase_self, if_pos rfl]
    omega
  · rw [count_erase_of_ne (Ne.symm huv), if_neg huv, Int.add_zero]

/-- Each operation changes the number of times a user is in a group by its delta. -/
theorem count_usersOf_apply (h : store.apply op = some store') (g u : String) :
    ((store'.usersOf g).count u : Int) = (store.usersOf g).count u + op.userDelta g u := by
  rcases apply_groups h with ⟨hchanges, hother⟩
  by_cases hg : g = op.groupName
  · subst hg
    cases op with
    | createGroup g' u' =>
      rcases hchanges with ⟨_, husers, _⟩
      rw [husers, count_append_singleton]
      simp [Operation.userDelta, Operation.groupName]
    | joinGroup g' u' =>
      rcases hchanges with ⟨husers, _⟩
      rw [husers, count_append_singleton]
      simp [Operation.userDelta, Operation.groupName]
    | leaveGroup g' u' =>
      rcases hchanges with ⟨hmem, husers, _⟩
      rw [husers, count_erase_of_mem hmem]
      simp [Operation.userDelta, Operation.groupName]
    | writeMessage g' u' content ts serverId | addLike g' u' ts serverId
    | removeLike g' u' ts serverId => simp [hchanges.2.1, Operation.userDelta]
  · rw [(hother g hg).1, (Operation.delta_of_ne hg (0, 0) u).1, Int.add_zero]

theorem updateMessage_cores {id : Nat × Nat} {change : List String → Option (List String)}
    {l l' : List Message} (h : updateMessage id change l = some l') :
    l'.map Message.core = l.map Message.core := by
  rcases updateMessage_eq h with ⟨l₁, m, likes, l₂, rfl, _, _, rfl⟩
  simp [Message.core]

/-- Each operation adds the message it writes. -/
theorem cores_apply (h : store.apply op = some store') (g : String) :
    ((store'.messagesOf g).map Message.core).Perm
      (op.written g ++ (store.messagesOf g).map Message.core) := by
  rcases apply_groups h with ⟨hchanges, hother⟩
  by_cases hg : g = op.groupName
  · subst hg
    cases op with
    | createGroup g' u' | leaveGroup g' u' => simp [hchanges.2.2, Operation.written]
    | joinGroup g' u' => simp [hchanges.2, Operation.written]
    | writeMessage g' u' content ts serverId =>
      have hperm := (insertFromRight_perm hchanges.2.2).map Message.core
      simpa [Operation.written, Operation.groupName, Message.core] using hperm
    | addLike g' u' ts serverId | removeLike g' u' ts serverId =>
      simp [updateMessage_cores hchanges.2.2, Operation.written]
  · rw [(hother g hg).2, (Operation.delta_of_ne hg (0, 0) "").2.2.1, nil_append]

theorem likeSum_perm {l l' : List Message} (h : l.Perm l') (id : Nat × Nat) (u : String) :
    likeSum l id u = likeSum l' id u :=
  ((h.filter _).map _).sum_eq

theorem likeSum_cons (m : Message) (l : List Message) (id : Nat × Nat) (u : String) :
    likeSum (m :: l) id u = (if m.id = id then m.likes.count u else 0) + likeSum l id u := by
  unfold likeSum
  by_cases hm : m.id = id
  · simp [hm]
  · simp [hm]

/-- A change of the likes of one message changes the sum by the same amount. -/
theorem likeSum_updateMessage {id : Nat × Nat} {change : List String → Option (List String)}
    {l l' : List Message} {v : String} {d : Int} (h : updateMessage id change l = some l')
    (hchange : ∀ likes likes', change likes = some likes' → ∀ u,
      (likes'.count u : Int) = likes.count u + if v = u then d else 0)
    (id' : Nat × Nat) (u : String) :
    (likeSum l' id' u : Int) = likeSum l id' u + if id = id' ∧ v = u then d else 0 := by
  rcases updateMessage_eq h with ⟨l₁, m, likes, l₂, rfl, hm, hlikes, rfl⟩
  have hcount := hchange m.likes likes hlikes u
  rw [likeSum_perm perm_middle, likeSum_perm (perm_middle (a := m)), likeSum_cons,
    likeSum_cons]
  by_cases hid : m.id = id'
  · rw [if_pos hid, if_pos hid]
    have hid' : id = id' := hm.symm.trans hid
    by_cases hv : v = u
    · rw [if_pos hv] at hcount
      rw [if_pos ⟨hid', hv⟩]
      push_cast
      omega
    · rw [if_neg hv] at hcount
      rw [if_neg (fun hc => hv hc.2)]
      push_cast
      omega
  · have hid' : ¬ id = id' := fun hc => hid (hm.trans hc)
    rw [if_neg hid, if_neg hid, if_neg (fun hc => hid' hc.1), Int.add_zero]

/-- Each operation changes the number of likes by its delta. -/
theorem likeSum_apply (h : store.apply op = some store') (g : String) (id : Nat × Nat)
    (u : String) :
    (likeSum (store'.messagesOf g) id u : Int) =
      likeSum (store.messagesOf g) id u + op.likeDelta g id u := by
  rcases apply_groups h with ⟨hchanges, hother⟩
  by_cases hg : g = op.groupName
  · subst hg
    cases op with
    | createGroup g' u' | leaveGroup g' u' => simp [hchanges.2.2, Operation.likeDelta]
    | joinGroup g' u' => simp [hchanges.2, Operation.likeDelta]
    | writeMessage g' u' content ts serverId =>
      -- a new message has no likes
      rw [likeSum_perm (insertFromRight_perm hchanges.2.2), likeSum_cons]
      simp [Operation.likeDelta]
    | addLike g' u' ts serverId =>
      rw [likeSum_updateMessage (v := u') (d := 1) hchanges.2.2]
      · simp [Operation.likeDelta, Operation.groupName]
      · intro likes likes' hlikes w
        split at hlikes
        · cases hlikes
        · injection hlikes with hlikes
          rw [← hlikes, count_append_singleton]
    | removeLike g' u' ts serverId =>
      rw [likeSum_updateMessage (v := u') (d := -1) hchanges.2.2]
      · simp [Operation.likeDelta, Operation.groupName]
      · intro likes likes' hlikes w
        split at hlikes
        · cases hlikes
        · rename_i hmem
          injection hlikes with hlikes
          rw [← hlikes, count_erase_of_mem (not_not.mp hmem)]
  · rw [(hother g hg).2, (Operation.delta_of_ne hg id u).2.1, Int.add_zero]

/-- A group is there when it was there or has just been created. -/
theorem mem_keys_apply (h : store.apply op = some store') (g : String) :
    g ∈ store'.groupDict.keys ↔ g ∈ store.groupDict.keys ∨ op.creates g = true := by
  rcases apply_eq h with ⟨group', hset, _, hnone⟩
  rw [Dict.mem_keys_iff, Dict.mem_keys_iff, hset]
  by_cases hg : g = op.groupName
  · subst hg
    rw [Dict.get?_set_self]
    refine iff_of_true ⟨group', rfl⟩ ?_
    cases hget : store.groupDict.get? op.groupName with
    | some group => exact Or.inl ⟨group, rfl⟩
    | none =>
      rcases hnone hget with ⟨u, hop⟩
      right
      rw [hop]
      simp [Operation.creates, Operation.groupName]
  · rw [Dict.get?_set_of_ne hg, (Operation.delta_of_ne hg (0, 0) "").2.2.2]
    simp

end GroupStore

end PittCs.Chat
