import Mathlib.Data.List.Perm.Basic

/-!
# The priority queue of the Java library

`offer` and `poll` of `java.util.PriorityQueue`: a binary heap in an array, with `siftUp` and
`siftDown`, for a comparison that need not be an order. What is proved holds for every
comparison: elements are neither lost nor made.
-/

namespace PittCs.Lib.PriorityQueue

open List

universe u

variable {E : Type u} (compareTo : E → E → Int)

/-- Moves the hole at `k` up to the place of `x`. -/
def siftUp (x : E) (k : Nat) (es : List E) : List E :=
  if 0 < k then
    match es[(k - 1) / 2]? with
    | some e =>
      if compareTo x e ≥ 0 then es.set k x else siftUp x ((k - 1) / 2) (es.set k e)
    | none => es.set k x
  else es.set k x
termination_by k
decreasing_by omega

/-- The child to which the hole at `k` may move. -/
def smallerChild (k : Nat) (es : List E) : Nat :=
  match es[2 * k + 1]?, es[2 * k + 2]? with
  | some c, some right => if compareTo c right > 0 then 2 * k + 2 else 2 * k + 1
  | _, _ => 2 * k + 1

theorem lt_smallerChild (k : Nat) (es : List E) : k < smallerChild compareTo k es := by
  unfold smallerChild
  split
  · split <;> omega
  · omega

/-- Moves the hole at `k` down to the place of `x`. -/
def siftDown (x : E) (k : Nat) (es : List E) : List E :=
  if k < es.length / 2 then
    match es[smallerChild compareTo k es]? with
    | some c =>
      if compareTo x c ≤ 0 then es.set k x
      else siftDown x (smallerChild compareTo k es) (es.set k c)
    | none => es.set k x
  else es.set k x
termination_by es.length - k
decreasing_by
  have hlt := lt_smallerChild compareTo k es
  rw [length_set]
  omega

def offer (e : E) (es : List E) : List E := siftUp compareTo e es.length (es ++ [e])

def poll : List E → Option (E × List E)
  | [] => none
  | result :: es =>
    match es.getLast? with
    | none => some (result, [])
    | some x => some (result, siftDown compareTo x 0 (result :: es.dropLast))

/-! ## What is in the queue -/

section

variable {compareTo} {x e : E} {k p : Nat} {es : List E}

/-- Moving an element into the hole moves the hole. -/
theorem perm_move (hk : k < es.length) (hp : es[p]? = some e) (hne : p ≠ k) :
    ((es.set k e).eraseIdx p).Perm (es.eraseIdx k) := by
  rcases List.getElem?_eq_some_iff.mp hp with ⟨hlt, heq⟩
  have hlt' : p < (es.set k e).length := by
    rw [length_set]
    exact hlt
  have hget : (es.set k e)[p] = e := by
    rw [List.getElem_set_ne hne.symm, heq]
  refine (perm_cons e).mp ?_
  calc
    (e :: (es.set k e).eraseIdx p).Perm (es.set k e) := by
      have hperm := List.getElem_cons_eraseIdx_perm hlt'
      rw [hget] at hperm
      exact hperm
    _ |>.Perm (e :: es.eraseIdx k) := set_perm_cons_eraseIdx hk e

variable (compareTo) in
theorem siftUp_perm (hk : k < es.length) : (siftUp compareTo x k es).Perm (x :: es.eraseIdx k) := by
  induction k, es using siftUp.induct compareTo x with
  | case1 k es hpos e he hle =>
    rw [siftUp, if_pos hpos, he]
    dsimp only
    rw [if_pos hle]
    exact set_perm_cons_eraseIdx hk x
  | case2 k es hpos e he hle ih =>
    rw [siftUp, if_pos hpos, he]
    dsimp only
    rw [if_neg hle]
    have hlt : (k - 1) / 2 < (es.set k e).length := by
      rw [length_set]
      omega
    exact (ih hlt).trans ((perm_move hk he (by omega)).cons x)
  | case3 k es hpos he =>
    rw [siftUp, if_pos hpos, he]
    exact set_perm_cons_eraseIdx hk x
  | case4 k es hpos =>
    rw [siftUp, if_neg hpos]
    exact set_perm_cons_eraseIdx hk x

variable (compareTo) in
theorem siftDown_perm (hk : k < es.length) :
    (siftDown compareTo x k es).Perm (x :: es.eraseIdx k) := by
  induction k, es using siftDown.induct compareTo x with
  | case1 k es hhalf c hc hle =>
    rw [siftDown, if_pos hhalf, hc]
    dsimp only
    rw [if_pos hle]
    exact set_perm_cons_eraseIdx hk x
  | case2 k es hhalf c hc hle ih =>
    rw [siftDown, if_pos hhalf, hc]
    dsimp only
    rw [if_neg hle]
    have hlt := (List.getElem?_eq_some_iff.mp hc).1
    have hlt' : smallerChild compareTo k es < (es.set k c).length := by
      rw [length_set]
      exact hlt
    have hne := Nat.ne_of_gt (lt_smallerChild compareTo k es)
    exact (ih hlt').trans ((perm_move hk hc hne).cons x)
  | case3 k es hhalf hc =>
    rw [siftDown, if_pos hhalf, hc]
    exact set_perm_cons_eraseIdx hk x
  | case4 k es hhalf =>
    rw [siftDown, if_neg hhalf]
    exact set_perm_cons_eraseIdx hk x

/-- An offer adds one element. -/
theorem offer_perm (e : E) (es : List E) : (offer compareTo e es).Perm (e :: es) := by
  unfold offer
  have hlt : es.length < (es ++ [e]).length := by
    rw [length_append, length_singleton]
    exact Nat.lt_succ_self _
  have hperm := siftUp_perm compareTo (x := e) hlt
  rw [eraseIdx_append_of_length_le (Nat.le_refl _), Nat.sub_self] at hperm
  have hnil : es ++ [e].eraseIdx 0 = es := append_nil es
  rw [hnil] at hperm
  exact hperm

/-- A poll takes one element. -/
theorem poll_perm {rest : List E} (h : poll compareTo es = some (e, rest)) : (e :: rest).Perm es := by
  cases es with
  | nil => cases h
  | cons result es =>
    rw [poll] at h
    rcases eq_nil_or_concat es with rfl | ⟨es, x, rfl⟩
    · cases h
      exact List.Perm.refl _
    · rw [concat_eq_append, getLast?_concat, dropLast_concat] at h
      cases h
      have hpos : 0 < (e :: es).length := Nat.succ_pos _
      have hperm := siftDown_perm compareTo (x := x) hpos
      rw [concat_eq_append]
      exact (hperm.trans (perm_append_singleton x es).symm).cons e

end

end PittCs.Lib.PriorityQueue
