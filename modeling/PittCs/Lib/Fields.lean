import Mathlib.Data.List.Basic

/-!
# Fields of a buffer

A buffer of fixed length is read and written by fields, each `n` elements from a place
`lo` on. A field that was written is read back, and fields that do not meet leave each
other alone.
-/

namespace PittCs.Lib.Fields

open List

universe u

variable {α : Type u} {buf vs : List α} {v : α} {lo lo' n j : Nat}

/-- The `n` elements from `lo` on. -/
def field (buf : List α) (lo n : Nat) : List α := (buf.drop lo).take n

/-- The buffer with `vs` from `lo` on. -/
def splice (buf : List α) (lo : Nat) (vs : List α) : List α :=
  buf.take lo ++ (vs ++ buf.drop (lo + vs.length))

theorem getElem?_field : (field buf lo n)[j]? = if j < n then buf[lo + j]? else none := by
  unfold field
  split
  case isTrue h => rw [List.getElem?_take_of_lt h, List.getElem?_drop]
  case isFalse h =>
    have hlen : ((buf.drop lo).take n).length ≤ n := length_take_le _ _
    exact List.getElem?_eq_none (Nat.le_trans hlen (Nat.le_of_not_lt h))

theorem length_field (h : lo + n ≤ buf.length) : (field buf lo n).length = n := by
  unfold field
  rw [length_take, length_drop]
  omega

@[simp] theorem field_zero : field buf lo 0 = [] := take_zero

theorem field_all : field buf 0 buf.length = buf := take_length

theorem length_splice (h : lo + vs.length ≤ buf.length) :
    (splice buf lo vs).length = buf.length := by
  unfold splice
  rw [length_append, length_append, length_take, length_drop]
  omega

theorem getElem?_splice (h : lo + vs.length ≤ buf.length) :
    (splice buf lo vs)[j]? = if lo ≤ j ∧ j < lo + vs.length then vs[j - lo]? else buf[j]? := by
  unfold splice
  have htake : (buf.take lo).length = lo := by
    rw [length_take]
    omega
  split
  case isTrue hin =>
    rw [List.getElem?_append_right (by omega), htake, List.getElem?_append_left (by omega)]
  case isFalse hout =>
    rcases Nat.lt_or_ge j lo with hlt | hge
    · rw [List.getElem?_append_left (by omega), List.getElem?_take_of_lt hlt]
    · rw [List.getElem?_append_right (by omega), htake, List.getElem?_append_right (by omega),
        List.getElem?_drop]
      congr 1
      omega

@[simp] theorem splice_nil : splice buf lo [] = buf := take_append_drop lo buf

theorem splice_singleton (h : lo < buf.length) : splice buf lo [v] = buf.set lo v := by
  have hlen : lo + [v].length ≤ buf.length := h
  refine ext_getElem? fun j => ?_
  rw [getElem?_splice hlen, List.getElem?_set]
  by_cases hj : lo = j
  · subst hj
    rw [if_pos ⟨Nat.le_refl _, Nat.lt_succ_self _⟩, if_pos rfl, if_pos h, Nat.sub_self]
    rfl
  · have hout : ¬ (lo ≤ j ∧ j < lo + [v].length) := by
      rw [length_singleton]
      omega
    rw [if_neg hout, if_neg hj]

/-! ## Reading what was written -/

theorem field_splice (h : lo + vs.length ≤ buf.length) :
    field (splice buf lo vs) lo vs.length = vs := by
  refine ext_getElem? fun j => ?_
  rw [getElem?_field, getElem?_splice h]
  split
  case isTrue hj => rw [if_pos (by omega), Nat.add_sub_cancel_left]
  case isFalse hj => exact (List.getElem?_eq_none (Nat.le_of_not_lt hj)).symm

/-- The elements before a value that stands at the end of its field are left alone. -/
theorem field_splice_right (hn : vs.length ≤ n) (h : lo + n ≤ buf.length) :
    field (splice buf (lo + (n - vs.length)) vs) lo n = field buf lo (n - vs.length) ++ vs := by
  have hsplice : lo + (n - vs.length) + vs.length ≤ buf.length := by omega
  have hlen : (field buf lo (n - vs.length)).length = n - vs.length := length_field (by omega)
  refine ext_getElem? fun j => ?_
  rw [getElem?_field, getElem?_splice hsplice]
  rcases Nat.lt_or_ge j (n - vs.length) with hlt | hge
  · rw [List.getElem?_append_left (by omega), getElem?_field, if_pos hlt, if_pos (by omega),
      if_neg (by omega)]
  · rw [List.getElem?_append_right (by omega), hlen]
    split
    case isTrue hj =>
      rw [if_pos (by omega)]
      congr 1
      omega
    case isFalse hj => exact (List.getElem?_eq_none (by omega)).symm

/-- A field that the write does not meet. -/
theorem field_splice_of_disjoint (h : lo + vs.length ≤ buf.length)
    (hdisjoint : lo' + n ≤ lo ∨ lo + vs.length ≤ lo') :
    field (splice buf lo vs) lo' n = field buf lo' n := by
  refine ext_getElem? fun j => ?_
  rw [getElem?_field, getElem?_field, getElem?_splice h]
  split
  case isTrue hj => exact if_neg (by omega)
  case isFalse => rfl

/-- A field of a buffer that holds one value everywhere. -/
theorem field_replicate (h : lo + n ≤ j) : field (List.replicate j v) lo n = List.replicate n v := by
  unfold field
  rw [drop_replicate, take_replicate]
  congr 1
  omega

/-- `buf'` is `buf` with `vs` from `lo` on, where there is room for it. -/
structure Written (buf : List α) (lo : Nat) (vs buf' : List α) : Prop where
  fits : lo + vs.length ≤ buf.length
  eq : buf' = splice buf lo vs

namespace Written

variable {buf' : List α}

theorem length (h : Written buf lo vs buf') : buf'.length = buf.length :=
  h.eq ▸ length_splice h.fits

theorem read (h : Written buf lo vs buf') : field buf' lo vs.length = vs :=
  h.eq ▸ field_splice h.fits

theorem read_other (h : Written buf lo vs buf') (hdisjoint : lo' + n ≤ lo ∨ lo + vs.length ≤ lo') :
    field buf' lo' n = field buf lo' n :=
  h.eq ▸ field_splice_of_disjoint h.fits hdisjoint

theorem get (h : Written buf lo [v] buf') : buf'[lo]? = some v := by
  rw [h.eq, getElem?_splice h.fits, if_pos ⟨Nat.le_refl _, Nat.lt_succ_self _⟩, Nat.sub_self]
  rfl

theorem get_other (h : Written buf lo vs buf') (hdisjoint : j < lo ∨ lo + vs.length ≤ j) :
    buf'[j]? = buf[j]? := by
  rw [h.eq, getElem?_splice h.fits, if_neg (by omega)]

end Written

/-! ## Writing one element after the other -/

/-- The next element of a field that is written from its start. -/
theorem set_splice (h : lo + vs.length < buf.length) :
    (splice buf lo vs).set (lo + vs.length) v = splice buf lo (vs ++ [v]) := by
  have hlen : lo + (vs ++ [v]).length ≤ buf.length := by
    rw [length_append, length_singleton]
    omega
  have hsplice : (splice buf lo vs).length = buf.length := length_splice (Nat.le_of_lt h)
  refine ext_getElem? fun j => ?_
  rw [List.getElem?_set, getElem?_splice (Nat.le_of_lt h), getElem?_splice hlen, hsplice,
    length_append, length_singleton]
  by_cases hj : lo + vs.length = j
  · subst hj
    rw [if_pos rfl, if_pos h, if_pos (by omega), Nat.add_sub_cancel_left,
      List.getElem?_append_right (Nat.le_refl _), Nat.sub_self]
    rfl
  · rw [if_neg hj]
    by_cases hin : lo ≤ j ∧ j < lo + vs.length
    · rw [if_pos hin, if_pos (by omega), List.getElem?_append_left (by omega)]
    · rw [if_neg hin, if_neg (by omega)]

/-- The next element of a field that is written from its end. -/
theorem set_splice_left (h : lo + 1 + vs.length ≤ buf.length) :
    (splice buf (lo + 1) vs).set lo v = splice buf lo (v :: vs) := by
  have hlen : lo + (v :: vs).length ≤ buf.length := by
    rw [length_cons]
    omega
  have hsplice := length_splice h
  refine ext_getElem? fun j => ?_
  rw [List.getElem?_set, getElem?_splice h, getElem?_splice hlen, hsplice, length_cons]
  by_cases hj : lo = j
  · subst hj
    rw [if_pos rfl, if_pos (by omega), if_pos (by omega), Nat.sub_self]
    rfl
  · rw [if_neg hj]
    by_cases hin : lo + 1 ≤ j ∧ j < lo + 1 + vs.length
    · have hsub : j - lo = j - (lo + 1) + 1 := by omega
      rw [if_pos hin, if_pos (by omega), hsub, List.getElem?_cons_succ]
    · rw [if_neg hin, if_neg (by omega)]

end PittCs.Lib.Fields
