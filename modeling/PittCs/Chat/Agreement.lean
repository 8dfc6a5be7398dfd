import PittCs.Chat.Order

/-!
# Stores built from the same operations agree

The users, messages and likes of a store are determined by which operations have
succeeded, whatever the order they were run in.
-/

namespace PittCs.Chat

open PittCs.Lib List

namespace GroupStore

variable {store store' : GroupStore} {ops : List Operation}

/-- Runs operations one after the other; all of them have to succeed. -/
def applyAll (store : GroupStore) (ops : List Operation) : Option GroupStore :=
  ops.foldlM apply store

theorem applyAll_cons {op : Operation} :
    store.applyAll (op :: ops) = some store' ↔
      ∃ st, store.apply op = some st ∧ st.applyAll ops = some store' := by
  unfold applyAll
  rw [foldlM_cons]
  exact Option.bind_eq_some_iff

theorem applyAll_append {ops' : List Operation} :
    store.applyAll (ops ++ ops') = some store' ↔
      ∃ st, store.applyAll ops = some st ∧ st.applyAll ops' = some store' := by
  unfold applyAll
  rw [foldlM_append]
  exact Option.bind_eq_some_iff

theorem count_usersOf_applyAll (h : store.applyAll ops = some store') (g u : String) :
    ((store'.usersOf g).count u : Int) =
      (store.usersOf g).count u + (ops.map (Operation.userDelta g u)).sum := by
  induction ops generalizing store with
  | nil =>
    injection h with h
    subst h
    simp
  | cons op ops ih =>
    rcases applyAll_cons.mp h with ⟨st, hop, hrest⟩
    rw [ih hrest, count_usersOf_apply hop, map_cons, sum_cons, Int.add_assoc]

theorem likeSum_applyAll (h : store.applyAll ops = some store') (g : String) (id : Nat × Nat)
    (u : String) :
    (likeSum (store'.messagesOf g) id u : Int) =
      likeSum (store.messagesOf g) id u + (ops.map (Operation.likeDelta g id u)).sum := by
  induction ops generalizing store with
  | nil =>
    injection h with h
    subst h
    simp
  | cons op ops ih =>
    rcases applyAll_cons.mp h with ⟨st, hop, hrest⟩
    rw [ih hrest, likeSum_apply hop, map_cons, sum_cons, Int.add_assoc]

theorem cores_applyAll (h : store.applyAll ops = some store') (g : String) :
    ((store'.messagesOf g).map Message.core).Perm
      (ops.flatMap (Operation.written g) ++ (store.messagesOf g).map Message.core) := by
  induction ops generalizing store with
  | nil =>
    injection h with h
    subst h
    exact List.Perm.refl _
  | cons op ops ih =>
    rcases applyAll_cons.mp h with ⟨st, hop, hrest⟩
    have hstep := (cores_apply hop g).append_left (ops.flatMap (Operation.written g))
    refine ((ih hrest).trans hstep).trans ?_
    rw [flatMap_cons, ← append_assoc]
    exact perm_append_comm.append_right _

theorem mem_keys_applyAll (h : store.applyAll ops = some store') (g : String) :
    g ∈ store'.groupDict.keys ↔
      g ∈ store.groupDict.keys ∨ ∃ op ∈ ops, op.creates g = true := by
  induction ops generalizing store with
  | nil =>
    injection h with h
    subst h
    simp
  | cons op ops ih =>
    rcases applyAll_cons.mp h with ⟨st, hop, hrest⟩
    rw [ih hrest, mem_keys_apply hop, exists_mem_cons_iff, or_assoc]

end GroupStore

/-- Two stores have the same groups, the same users in each group with the same
multiplicities, the same messages in the same order, and the same likes. -/
structure Agree (store store' : GroupStore) : Prop where
  groups : ∀ g, g ∈ store.groupDict.keys ↔ g ∈ store'.groupDict.keys
  users : ∀ g, (store.usersOf g).Perm (store'.usersOf g)
  messages : ∀ g, (store.messagesOf g).map Message.core = (store'.messagesOf g).map Message.core
  likes : ∀ g, ∀ m ∈ store.messagesOf g, ∀ m' ∈ store'.messagesOf g, m.id = m'.id →
    ∀ u, u ∈ m.likes ↔ u ∈ m'.likes

/-- In an ordered list of messages the sum counts the likes of the one message. -/
theorem likeSum_of_sorted {l : List Message} (hl : KeySorted Message.key l) {m : Message}
    (hm : m ∈ l) (u : String) : likeSum l m.id u = m.likes.count u := by
  have hfilter : l.filter (fun x => x.id = m.id) = [m] := by
    have hnodup : l.Nodup := hl.imp fun hab heq => hab.ne (congrArg Message.key heq)
    refine perm_singleton.mp ((perm_ext_iff_of_nodup (hnodup.filter _)
      (nodup_singleton m)).mpr ?_)
    intro x
    rw [mem_filter, mem_singleton, decide_eq_true_iff]
    constructor
    · rintro ⟨hx, hid⟩
      exact hl.eq_of_key hx hm (Message.key_eq.mpr hid)
    · intro hx
      subst hx
      exact ⟨hm, rfl⟩
  unfold likeSum
  rw [hfilter]
  simp

/-- Stores that were built from the same operations agree. -/
theorem agree_of_perm {ops ops' : List Operation} {store store' : GroupStore}
    (h : GroupStore.empty.applyAll ops = some store)
    (h' : GroupStore.empty.applyAll ops' = some store') (hperm : ops.Perm ops')
    (hsorted : ∀ g, KeySorted Message.key (store.messagesOf g))
    (hsorted' : ∀ g, KeySorted Message.key (store'.messagesOf g)) : Agree store store' := by
  constructor
  case groups =>
    intro g
    rw [GroupStore.mem_keys_applyAll h, GroupStore.mem_keys_applyAll h']
    constructor
    · rintro (hg | ⟨op, hop, hg⟩)
      · exact Or.inl hg
      · exact Or.inr ⟨op, hperm.mem_iff.mp hop, hg⟩
    · rintro (hg | ⟨op, hop, hg⟩)
      · exact Or.inl hg
      · exact Or.inr ⟨op, hperm.mem_iff.mpr hop, hg⟩
  case users =>
    intro g
    refine perm_iff_count.mpr ?_
    intro u
    have hcount := GroupStore.count_usersOf_applyAll h g u
    rw [(hperm.map _).sum_eq, ← GroupStore.count_usersOf_applyAll h' g u] at hcount
    exact_mod_cast hcount
  case messages =>
    intro g
    have hcores : ((store.messagesOf g).map Message.core).Perm
        ((store'.messagesOf g).map Message.core) := by
      refine (GroupStore.cores_applyAll h g).trans ?_
      refine List.Perm.trans ?_ (GroupStore.cores_applyAll h' g).symm
      exact (hperm.flatMap_right _).append_right _
    -- both lists are in the order of the ids
    have hcoreSorted : ∀ l : List Message, KeySorted Message.key l →
        KeySorted (fun c : (Nat × Nat) × String × String => idKey c.1) (l.map Message.core) := by
      intro l hl
      exact pairwise_map.mpr hl
    exact (hcoreSorted _ (hsorted g)).eq_of_perm (hcoreSorted _ (hsorted' g)) hcores
  case likes =>
    intro g m hm m' hm' hid u
    have hsum := GroupStore.likeSum_applyAll h g m.id u
    rw [(hperm.map _).sum_eq, ← GroupStore.likeSum_applyAll h' g m.id u,
      likeSum_of_sorted (hsorted g) hm, hid, likeSum_of_sorted (hsorted' g) hm'] at hsum
    have hcount : m.likes.count u = m'.likes.count u := by exact_mod_cast hsum
    rw [← count_pos_iff, ← count_pos_iff, hcount]

end PittCs.Chat
