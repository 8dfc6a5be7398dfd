import PittCs.Cs1501.BstHeap

/-!
# Copies and mirror images

`copy` puts the keys of a tree into a new tree in pre-order. The keys of a subtree lie
between bounds, so each key finds its way down to the subtree it came from, and the new
tree has the shape of the old one. `reverse` mirrors the nodes of such a copy.
-/

namespace PittCs.Cs1501

open List Option

variable {α : Type*}

namespace BTNode

/-- The keys in the order of `rec_copy`. -/
def preorder : BTNode α → List α
  | null => []
  | node key left right => key :: (left.preorder ++ right.preorder)

/-- The mirror image. -/
def mirror : BTNode α → BTNode α
  | null => null
  | node key left right => node key right.mirror left.mirror

theorem mem_preorder (t : BTNode α) (k : α) : k ∈ t.preorder ↔ k ∈ t.keys := by
  induction t with
  | null => rfl
  | node key left right ihl ihr =>
    rw [preorder, keys_node, mem_cons, mem_append, mem_append, mem_cons, ihl, ihr]
    tauto

theorem keys_mirror (t : BTNode α) : t.mirror.keys = t.keys.reverse := by
  induction t with
  | null => rfl
  | node key left right ihl ihr => simp [mirror, ihl, ihr]

theorem shape_mirror (t : BTNode (Nat × α)) : t.mirror.shape = t.shape.mirror := by
  induction t with
  | null => rfl
  | node x left right ihl ihr =>
    rw [mirror, shape_node, ihl, ihr]
    rfl

theorem addrs_mirror (t : BTNode (Nat × α)) : t.mirror.addrs = t.addrs.reverse := by
  rw [addrs, keys_mirror, map_reverse]
  rfl

theorem length_addrs (t : BTNode (Nat × α)) : t.addrs.length = t.shape.keys.length := by
  induction t with
  | null => rfl
  | node x left right ihl ihr =>
    rw [addrs_node, shape_node, keys_node, length_append, length_append, length_cons,
      length_cons, ihl, ihr]

section Order

variable [LinearOrder α]

/-- The tree after insertions in the order of a list. -/
def insertAll (t : BTNode α) (l : List α) : BTNode α := l.foldl (fun t k => t.insertRec k) t

theorem insertAll_append (t : BTNode α) (l m : List α) :
    t.insertAll (l ++ m) = (t.insertAll l).insertAll m := foldl_append

/-- Keys above a key go to its right. -/
theorem insertAll_right {key : α} {l : List α} (h : ∀ k ∈ l, key < k) (left right : BTNode α) :
    (node key left right).insertAll l = node key left (right.insertAll l) := by
  induction l generalizing right with
  | nil => rfl
  | cons k l ih =>
    have hstep : (node key left right).insertRec k = node key left (right.insertRec k) :=
      if_pos (h k mem_cons_self)
    change ((node key left right).insertRec k).insertAll l = _
    rw [hstep, ih fun x hx => h x (mem_cons_of_mem _ hx)]
    rfl

theorem insertAll_left {key : α} {l : List α} (h : ∀ k ∈ l, k < key) (left right : BTNode α) :
    (node key left right).insertAll l = node key (left.insertAll l) right := by
  induction l generalizing left with
  | nil => rfl
  | cons k l ih =>
    have hk : k < key := h k mem_cons_self
    have hstep : (node key left right).insertRec k = node key (left.insertRec k) right :=
      (if_neg hk.not_gt).trans (if_pos hk)
    change ((node key left right).insertRec k).insertAll l = _
    rw [hstep, ih fun x hx => h x (mem_cons_of_mem _ hx)]
    rfl

/-- The keys of a search tree in pre-order build the tree again. -/
theorem IsSearch.insertAll_preorder {t : BTNode α} (h : t.IsSearch) :
    null.insertAll t.preorder = t := by
  induction t with
  | null => rfl
  | node key left right ihl ihr =>
    rcases h with ⟨hl, hr, hsl, hsr⟩
    have hroot : (null : BTNode α).insertAll (node key left right).preorder =
        ((node key null null).insertAll left.preorder).insertAll right.preorder :=
      insertAll_append (node key null null) _ _
    rw [hroot, insertAll_left fun k hk => hl k ((mem_preorder left k).mp hk), ihl hsl,
      insertAll_right fun k hk => hr k ((mem_preorder right k).mp hk), ihr hsr]

end Order

end BTNode

namespace Heap

open BTNode

variable {h h' : Heap α} {p root : Ref} {t c c' : BTNode (Nat × α)}

/-- The pointers of a tree are swapped, and no other node is written. -/
theorem recReverse_spec {fuel : Nat} (hh : h.Holds p t) (hnodup : t.addrs.Nodup)
    (hfuel : t.addrs.length < fuel) :
    ∃ h', recReverse fuel h p = some h' ∧ h'.Holds p t.mirror ∧
      (∀ a ∉ t.addrs, h'[a]? = h[a]?) ∧ h'.length = h.length := by
  induction t generalizing h p fuel with
  | null =>
    obtain ⟨fuel, rfl⟩ : ∃ n, fuel = n + 1 := ⟨fuel - 1, by omega⟩
    cases hh
    exact ⟨h, rfl, rfl, fun _ _ => rfl, rfl⟩
  | node y l r ihl ihr =>
    rcases hh with ⟨rfl, pl, pr, hcell, hl, hr⟩
    rcases nodup_addrs_node.mp hnodup with ⟨hndl, hndr, hyl, hyr, hlr⟩
    obtain ⟨fuel, rfl⟩ : ∃ n, fuel = n + 1 := ⟨fuel - 1, by omega⟩
    have hsize : l.addrs.length < fuel ∧ r.addrs.length < fuel := by
      rw [addrs_node, length_append, length_cons] at hfuel
      omega
    rcases ihl hl hndl hsize.1 with ⟨h₁, hrun₁, hl₁, hsame₁, hlength₁⟩
    have hr₁ : h₁.Holds pr r := hr.congr fun a ha => hsame₁ a fun ha' => hlr a ha' ha
    rcases ihr hr₁ hndr hsize.2 with ⟨h₂, hrun₂, hr₂, hsame₂, hlength₂⟩
    have hcell₁ : h₁[y.1]? = some ⟨y.2, pl, pr⟩ := (hsame₁ _ hyl).trans hcell
    have hcell₂ : h₂[y.1]? = some ⟨y.2, pl, pr⟩ := (hsame₂ _ hyr).trans hcell₁
    have hleft : y.1 ∉ l.mirror.addrs := by rwa [addrs_mirror, mem_reverse]
    have hright : y.1 ∉ r.mirror.addrs := by rwa [addrs_mirror, mem_reverse]
    have hl₂ : h₂.Holds pl l.mirror := hl₁.congr fun a ha => by
      rw [addrs_mirror, mem_reverse] at ha
      exact hsame₂ a (hlr a ha)
    refine ⟨(h₂.setLeft y.1 pr).setRight y.1 pl, ?_, ?_, ?_, ?_⟩
    · unfold recReverse
      rw [hcell]
      dsimp only [bind_eq_bind, bind_some]
      rw [hrun₁, bind_some, hcell₁, bind_some, hrun₂, bind_some, hcell₂]
      rfl
    · refine .setRight (getElem?_setLeft hcell₂ pr) (hr₂.congr ?_) (hl₂.congr ?_) hright hleft
      · intro a ha
        have hne : y.1 ≠ a := fun heq => hright (heq ▸ ha)
        exact h₂.getElem?_setLeft_ne hne pr
      · intro a ha
        have hne : y.1 ≠ a := fun heq => hleft (heq ▸ ha)
        exact h₂.getElem?_setLeft_ne hne pr
    · intro a ha
      rw [addrs_node, mem_append, mem_cons, not_or, not_or] at ha
      rw [getElem?_setRight_ne _ (Ne.symm ha.2.1), getElem?_setLeft_ne _ (Ne.symm ha.2.1),
        hsame₂ a ha.2.2, hsame₁ a ha.1]
    · rw [length_setRight, length_setLeft, hlength₂, hlength₁]

section Methods

variable [LinearOrder α]

/-- `rec_copy` of one tree into another puts the keys in pre-order. -/
theorem recCopy_spec {fuel : Nat} (hh : h.Holds p t) (hc : h.Holds root c) (hnodup : c.addrs.Nodup)
    (hother : ∀ a ∈ t.addrs, a ∉ c.addrs) (hfuel : 2 * t.addrs.length + c.addrs.length < fuel) :
    ∃ h' root' c', recCopy fuel h root p = some (h', root') ∧ h'.Holds root' c' ∧
      c'.shape = c.shape.insertAll t.shape.preorder ∧ Frame h c h' c' ∧
      c'.addrs.length ≤ c.addrs.length + t.addrs.length := by
  induction t generalizing h p root c fuel with
  | null =>
    obtain ⟨fuel, rfl⟩ : ∃ n, fuel = n + 1 := ⟨fuel - 1, by omega⟩
    cases hh
    exact ⟨h, root, c, rfl, hc, rfl, .refl hnodup, Nat.le_refl _⟩
  | node y l r ihl ihr =>
    have hroot := hh
    rcases hh with ⟨rfl, pl, pr, hcell, hl, hr⟩
    obtain ⟨fuel, rfl⟩ : ∃ n, fuel = n + 1 := ⟨fuel - 1, by omega⟩
    rw [addrs_node, length_append, length_cons] at hfuel ⊢
    have hylt : y.1 < h.length := hroot.lt (mem_addrs_root y l r)
    have hless : c.addrs.length < fuel := by omega
    rcases put_spec y.2 hc hnodup hless with ⟨h₁, root₁, c₁, hrun₁, hc₁, hshape₁, hf₁, hsize₁⟩
    -- the tree that is copied stays apart from the tree that grows
    have apart {h' : Heap α} {c' : BTNode (Nat × α)} (hf : Frame h c h' c') :
        ∀ a ∈ (node y l r).addrs, a ∉ c'.addrs := by
      intro a ha ha'
      rcases hf.fresh a ha' with hin | hle
      · exact hother a ha hin
      · exact absurd (hroot.lt ha) (Nat.not_lt.mpr hle)
    have hl₁ := hl.frame hf₁ fun a ha => hother a (mem_addrs_of_left ha)
    have hless₁ : 2 * l.addrs.length + c₁.addrs.length < fuel := by omega
    rcases ihl hl₁ hc₁ hf₁.nodup (fun a ha => apart hf₁ a (mem_addrs_of_left ha)) hless₁ with
      ⟨h₂, root₂, c₂, hrun₂, hc₂, hshape₂, hf₂, hsize₂⟩
    have hf₁₂ := hf₁.trans hf₂
    have hr₂ := hr.frame hf₁₂ fun a ha => hother a (mem_addrs_of_right ha)
    have hless₂ : 2 * r.addrs.length + c₂.addrs.length < fuel := by omega
    rcases ihr hr₂ hc₂ hf₂.nodup (fun a ha => apart hf₁₂ a (mem_addrs_of_right ha)) hless₂ with
      ⟨h₃, root₃, c₃, hrun₃, hc₃, hshape₃, hf₃, hsize₃⟩
    have hy : y.1 ∉ c.addrs := hother y.1 (mem_addrs_root y l r)
    have hcell₁ := (hf₁.same _ hylt hy).trans hcell
    have hcell₂ := (hf₁₂.same _ hylt hy).trans hcell
    refine ⟨h₃, root₃, c₃, ?_, hc₃, ?_, hf₁₂.trans hf₃, by omega⟩
    · unfold recCopy
      rw [hcell]
      dsimp only [bind_eq_bind, bind_some]
      rw [hrun₁, bind_some, hcell₁, bind_some, hrun₂, bind_some, hcell₂]
      exact hrun₃
    · rw [hshape₃, hshape₂, hshape₁, shape_node, preorder, ← insertAll_append]
      rfl

/-- The copy of a search tree has new nodes and the same shape and keys. -/
theorem copy_spec {fuel : Nat} (hh : h.Holds root t) (hsearch : t.shape.IsSearch)
    (hfuel : 2 * t.addrs.length < fuel) :
    ∃ h' root' t', h.copy fuel root = some (h', root') ∧ h'.Holds root' t' ∧ t'.shape = t.shape ∧
      t'.addrs.Nodup ∧ (∀ a ∈ t'.addrs, h.length ≤ a) ∧ h <+: h' := by
  have hempty : h.Holds none null := rfl
  rcases recCopy_spec hh hempty nodup_nil (fun _ _ => not_mem_nil) (by simpa using hfuel) with
    ⟨h', root', t', hrun, ht', hshape, hf, -⟩
  refine ⟨h', root', t', hrun, ht', ?_, hf.nodup, ?_, ?_⟩
  · rw [hshape]
    exact hsearch.insertAll_preorder
  · intro a ha
    exact (hf.fresh a ha).resolve_left not_mem_nil
  · rw [prefix_iff_getElem?]
    intro a ha
    rw [hf.same a ha not_mem_nil, List.getElem?_eq_getElem ha]

/-- The reversed copy has new nodes and is the mirror image. -/
theorem reverse_spec {fuel : Nat} (hh : h.Holds root t) (hsearch : t.shape.IsSearch)
    (hfuel : 2 * t.addrs.length < fuel) :
    ∃ h' root' t', h.reverse fuel root = some (h', root') ∧ h'.Holds root' t' ∧
      t'.shape = t.shape.mirror ∧ (∀ a ∈ t'.addrs, h.length ≤ a) ∧ h <+: h' := by
  rcases copy_spec hh hsearch hfuel with ⟨h₁, root₁, t₁, hrun₁, ht₁, hshape₁, hnodup, hnew, hsame₁⟩
  have hsize : t₁.addrs.length < fuel := by
    rw [length_addrs] at hfuel ⊢
    rw [hshape₁]
    omega
  rcases recReverse_spec ht₁ hnodup hsize with ⟨h₂, hrun₂, ht₂, hsame₂, hlength₂⟩
  refine ⟨h₂, root₁, t₁.mirror, ?_, ht₂, by rw [shape_mirror, hshape₁], ?_, ?_⟩
  · unfold reverse
    rw [hrun₁]
    dsimp only [bind_eq_bind, bind_some]
    rw [hrun₂]
    rfl
  · intro a ha
    rw [addrs_mirror, mem_reverse] at ha
    exact hnew a ha
  · rw [prefix_iff_getElem?] at hsame₁ ⊢
    intro a ha
    rw [hsame₂ a fun ha' => absurd ha (Nat.not_lt.mpr (hnew a ha')), hsame₁ a ha]

/-! ## Runs -/

/-- One call on the nodes is the call on the tree. -/
theorem call_spec {fuel : Nat} (call : BstCall α) (hh : h.Holds root t) (hnodup : t.addrs.Nodup)
    (hfuel : t.addrs.length < fuel) :
    ∃ h' root' t', h.call fuel root call = some (h', root') ∧ h'.Holds root' t' ∧
      t'.addrs.Nodup ∧ t'.shape = call.run t.shape ∧ t'.addrs.length ≤ t.addrs.length + 1 := by
  cases call with
  | put key =>
    rcases put_spec key hh hnodup hfuel with ⟨h', root', t', hrun, ht', hshape, hf, hsize⟩
    exact ⟨h', root', t', hrun, ht', hf.nodup, hshape.trans (put_eq_insertRec key _).symm, hsize⟩
  | delete key =>
    rcases deleteRec_spec key hh hnodup hfuel with ⟨h', root', t', hrun, ht', hshape, hsub, -⟩
    exact ⟨h', root', t', hrun, ht', hsub.nodup hnodup, hshape,
      Nat.le_succ_of_le hsub.length_le⟩

theorem run_spec {fuel : Nat} (calls : List (BstCall α)) (hh : h.Holds root t)
    (hnodup : t.addrs.Nodup) (hfuel : t.addrs.length + calls.length < fuel) :
    ∃ h' root' t', run fuel h root calls = some (h', root') ∧ h'.Holds root' t' ∧
      t'.shape = calls.foldl BstCall.run t.shape ∧
      t'.addrs.length ≤ t.addrs.length + calls.length := by
  induction calls generalizing h root t with
  | nil => exact ⟨h, root, t, rfl, hh, rfl, Nat.le_refl _⟩
  | cons call calls ih =>
    rw [length_cons] at hfuel ⊢
    have hless : t.addrs.length < fuel := by omega
    rcases call_spec call hh hnodup hless with
      ⟨h₁, root₁, t₁, hrun₁, ht₁, hnodup₁, hshape₁, hsize₁⟩
    have hless₁ : t₁.addrs.length + calls.length < fuel := by omega
    rcases ih ht₁ hnodup₁ hless₁ with ⟨h₂, root₂, t₂, hrun₂, ht₂, hshape₂, hsize₂⟩
    refine ⟨h₂, root₂, t₂, ?_, ht₂, ?_, by omega⟩
    · unfold run
      rw [hrun₁]
      exact hrun₂
    · rw [hshape₂, hshape₁, foldl_cons]

/-- After any calls of `put` and `delete`, and with enough fuel, `copy` builds a tree of new
nodes with the shape and the keys of the tree, `reverse` builds its mirror image, and the
nodes that existed before are what they were. -/
theorem copy_reverse_correct (calls : List (BstCall α)) :
    ∃ enough, ∀ fuel ≥ enough, ∃ h root t, run fuel ([] : Heap α) none calls = some (h, root) ∧
      h.Holds root t ∧ t.shape = bstAfter calls ∧
      (∃ h' root' t', h.copy fuel root = some (h', root') ∧ h'.Holds root' t' ∧
        t'.shape = bstAfter calls ∧ (∀ a ∈ t'.addrs, h.length ≤ a) ∧ h <+: h' ∧ h'.Holds root t) ∧
      ∃ h' root' t', h.reverse fuel root = some (h', root') ∧ h'.Holds root' t' ∧
        t'.shape = (bstAfter calls).mirror ∧ t'.shape.keys = (bstAfter calls).keys.reverse ∧
        (∀ a ∈ t'.addrs, h.length ≤ a) ∧ h <+: h' ∧ h'.Holds root t := by
  refine ⟨2 * calls.length + 1, fun fuel hfuel => ?_⟩
  have hempty : Heap.Holds ([] : Heap α) none null := rfl
  have henough : (null : BTNode (Nat × α)).addrs.length + calls.length < fuel := by
    rw [addrs_null, length_nil]
    omega
  rcases run_spec calls hempty nodup_nil henough with ⟨h, root, t, hrun, ht, hshape, hsize⟩
  have hafter : t.shape = bstAfter calls := hshape
  have hsearch : t.shape.IsSearch := hafter ▸ (bstAfter_spec calls).1
  rw [addrs_null, length_nil, Nat.zero_add] at hsize
  have hless : 2 * t.addrs.length < fuel := by omega
  -- the nodes of the tree are among those that no method writes
  have kept {h' : Heap α} (hsame : h <+: h') : h'.Holds root t := ht.congr fun a ha => by
    rw [prefix_iff_getElem?.mp hsame a (ht.lt ha), List.getElem?_eq_getElem (ht.lt ha)]
  refine ⟨h, root, t, hrun, ht, hafter, ?_, ?_⟩
  · rcases copy_spec ht hsearch hless with ⟨h', root', t', hcopy, ht', hshape', -, hnew, hsame⟩
    exact ⟨h', root', t', hcopy, ht', hshape'.trans hafter, hnew, hsame, kept hsame⟩
  · rcases reverse_spec ht hsearch hless with ⟨h', root', t', hreverse, ht', hshape', hnew, hsame⟩
    rw [hafter] at hshape'
    exact ⟨h', root', t', hreverse, ht', hshape', by rw [hshape', keys_mirror], hnew, hsame,
      kept hsame⟩

end Methods

end Heap

end PittCs.Cs1501
