import PittCs.Cs1501.IndirectedPq

/-!
# The table of a priority queue

Whatever order the values are in, the table of an `IndirectedPQ` gives the position of
each. `Indexed I q S` says that the queue holds the values of the map `S` at the positions
in its table; every call keeps that, also a `remove` that leaves the values out of order.
-/

namespace PittCs.Cs1501

open PittCs.Lib.ArrayHeap Function Option

variable {κ α π : Type*}

/-- The queue holds the values of `S`. -/
structure Indexed (I : KeyVal κ α π) (q : IndirectedPQ κ α) (S : κ → Option α) : Prop where
  consistent : Consistent I q.heap_length q
  holds : ∀ k v, S k = some v ↔ I.getKey v = k ∧ ∃ i < q.heap_length, q.heap i = v
  fits : q.heap_length ≤ q.arr_length
  arr_pos : 0 < q.arr_length

namespace Indexed

variable {I : KeyVal κ α π} {q : IndirectedPQ κ α} {S : κ → Option α}

theorem new [Inhabited α] : Indexed I (.new : IndirectedPQ κ α) fun _ => none where
  consistent k i := by simp [IndirectedPQ.new]
  holds k v := by simp [IndirectedPQ.new]
  fits := Nat.zero_le _
  arr_pos := Nat.zero_lt_succ 9

/-- Every key of the map has its position. -/
theorem table_eq_some (h : Indexed I q S) {k : κ} {v : α} (hk : S k = some v) :
    ∃ i < q.heap_length, q.table k = some i ∧ q.heap i = v := by
  rcases (h.holds k v).mp hk with ⟨hkey, i, hi, hv⟩
  exact ⟨i, hi, (h.consistent k i).mpr ⟨hi, by rw [hv, hkey]⟩, hv⟩

theorem eq_some_of_table (h : Indexed I q S) {k : κ} {i : Nat} (hk : q.table k = some i) :
    i < q.heap_length ∧ S k = some (q.heap i) := by
  rcases (h.consistent k i).mp hk with ⟨hi, hkey⟩
  exact ⟨hi, (h.holds k _).mpr ⟨hkey, i, hi, rfl⟩⟩

theorem table_eq_none (h : Indexed I q S) {k : κ} : q.table k = none ↔ S k = none := by
  cases hk : S k with
  | none =>
    cases ht : q.table k with
    | none => simp
    | some i =>
      have hsome := (h.eq_some_of_table ht).2
      rw [hk] at hsome
      cases hsome
  | some v =>
    rcases h.table_eq_some hk with ⟨i, _, ht, _⟩
    simp [ht]

theorem contains_eq (h : Indexed I q S) (k : κ) : q.contains k = (S k).isSome := by
  cases hk : S k with
  | none => simp [IndirectedPQ.contains, h.table_eq_none.mpr hk]
  | some v =>
    rcases h.table_eq_some hk with ⟨i, _, ht, _⟩
    simp [IndirectedPQ.contains, ht]

theorem get_eq (h : Indexed I q S) (k : κ) : q.get k = S k := by
  unfold IndirectedPQ.get
  cases ht : q.table k with
  | none => exact (h.table_eq_none.mp ht).symm
  | some i =>
    rcases h.eq_some_of_table ht with ⟨hi, hk⟩
    simp [hk, hi]

/-- A longer array with the same values. -/
theorem resize [Inhabited α] (h : Indexed I q S) : Indexed I q.resize S := by
  have heq : ∀ i, i < q.heap_length → q.resize.heap i = q.heap i := fun i hi => by
    simp [IndirectedPQ.resize, hi]
  have hdouble : q.arr_length ≤ 2 * q.arr_length := Nat.le_mul_of_pos_left _ Nat.two_pos
  refine ⟨fun k i => ?_, fun k v => ?_, h.fits.trans hdouble, h.arr_pos.trans_le hdouble⟩
  · show q.table k = some i ↔ i < q.heap_length ∧ _
    rw [h.consistent k i]
    exact and_congr_right fun hi => by rw [heq i hi]
  · rw [h.holds k v]
    refine and_congr_right fun _ => exists_congr fun i => and_congr_right fun hi => ?_
    rw [heq i hi]

/-- The queue after a rearrangement of its first `m` values. -/
theorem of_rearranged {m : Nat} {q' : IndirectedPQ κ α} (hre : Rearranged I m q q')
    (hcons : Consistent I m q)
    (hholds : ∀ k v, S k = some v ↔ I.getKey v = k ∧ ∃ i < m, q.heap i = v)
    (hfits : m ≤ q.arr_length) (hpos : 0 < q.arr_length) :
    Indexed I { q' with heap_length := m } S where
  consistent := hre.consistent m le_rfl hcons
  holds k v := by rw [hholds k v, ← hre.exists_heap_eq le_rfl]
  fits := hre.arr_length ▸ hfits
  arr_pos := hre.arr_length ▸ hpos

variable [DecidableEq κ]

/-- A new value behind the last one. -/
theorem consistent_push (h : Indexed I q S) {v : α} (hv : S (I.getKey v) = none) :
    Consistent I (q.heap_length + 1) { q with
      heap := Function.update q.heap q.heap_length v
      table := Function.update q.table (I.getKey v) (some q.heap_length) } := by
  intro k i
  dsimp only
  have hold : q.table (I.getKey v) = none := h.table_eq_none.mpr hv
  have hcons := h.consistent k i
  by_cases hi : i = q.heap_length
  · subst hi
    rw [update_self]
    by_cases hk : k = I.getKey v
    · simp [hk]
    · rw [update_of_ne hk, hcons]
      simp [Ne.symm hk]
  · have hlt : i < q.heap_length + 1 ↔ i < q.heap_length := by omega
    rw [update_of_ne hi, hlt]
    by_cases hk : k = I.getKey v
    · rw [hk, update_self]
      rw [hk, hold] at hcons
      simpa [Ne.symm hi] using hcons
    · rw [update_of_ne hk, hcons]

theorem holds_push (h : Indexed I q S) {v : α} (hv : S (I.getKey v) = none) (k : κ) (w : α) :
    Function.update S (I.getKey v) (some v) k = some w ↔
      I.getKey w = k ∧ ∃ i < q.heap_length + 1, Function.update q.heap q.heap_length v i = w := by
  have hsplit : (∃ i < q.heap_length + 1, Function.update q.heap q.heap_length v i = w) ↔
      w = v ∨ ∃ i < q.heap_length, q.heap i = w := by
    constructor
    · rintro ⟨i, hi, rfl⟩
      by_cases hin : i = q.heap_length
      · exact Or.inl (by rw [hin, update_self])
      · exact Or.inr ⟨i, by omega, by rw [update_of_ne hin]⟩
    · rintro (rfl | ⟨i, hi, rfl⟩)
      · exact ⟨q.heap_length, by omega, update_self _ _ _⟩
      · exact ⟨i, by omega, update_of_ne hi.ne _ _⟩
  rw [hsplit]
  by_cases hk : k = I.getKey v
  · subst hk
    rw [update_self]
    constructor
    · intro heq
      cases heq
      exact ⟨rfl, Or.inl rfl⟩
    · rintro ⟨hkey, rfl | hmem⟩
      · rfl
      · have hsome := (h.holds _ w).mpr ⟨hkey, hmem⟩
        rw [hv] at hsome
        cases hsome
  · rw [update_of_ne hk, h.holds k w]
    constructor
    · exact fun ⟨hkey, hmem⟩ => ⟨hkey, Or.inr hmem⟩
    · rintro ⟨hkey, rfl | hmem⟩
      · exact absurd hkey.symm hk
      · exact ⟨hkey, hmem⟩

omit [DecidableEq κ] in
/-- A value in the place of one with the same key. -/
theorem consistent_replace (h : Indexed I q S) {t : Nat} {w : α}
    (hw : I.getKey w = I.getKey (q.heap t)) :
    Consistent I q.heap_length { q with heap := Function.update q.heap t w } := by
  intro k i
  show q.table k = some i ↔ i < q.heap_length ∧ I.getKey (Function.update q.heap t w i) = k
  rw [h.consistent k i]
  by_cases hi : i = t
  · subst hi
    rw [update_self, hw]
  · rw [update_of_ne hi]

theorem holds_replace (h : Indexed I q S) {k : κ} {t : Nat} {w : α} (htable : q.table k = some t)
    (hw : I.getKey w = k) (k' : κ) (v : α) : Function.update S k (some w) k' = some v ↔
      I.getKey v = k' ∧ ∃ i < q.heap_length, Function.update q.heap t w i = v := by
  rcases (h.consistent k t).mp htable with ⟨ht, hkey⟩
  by_cases hkk : k' = k
  · subst hkk
    rw [update_self]
    constructor
    · intro heq
      cases heq
      exact ⟨hw, t, ht, update_self _ _ _⟩
    · rintro ⟨hkey', i, hi, rfl⟩
      by_cases hit : i = t
      · rw [hit, update_self]
      · rw [update_of_ne hit] at hkey'
        have hti := (h.consistent k' i).mpr ⟨hi, hkey'⟩
        rw [htable] at hti
        exact absurd (some_inj.mp hti).symm hit
  · rw [update_of_ne hkk, h.holds k' v]
    refine and_congr_right fun hkey' => exists_congr fun i => and_congr_right fun _ => ?_
    by_cases hit : i = t
    · subst hit
      rw [update_self]
      refine iff_of_false (fun he => hkk ?_) fun he => hkk ?_
      · rw [← hkey', ← he, hkey]
      · rw [← hkey', ← he, hw]
    · rw [update_of_ne hit]

end Indexed

/-! ## Sifting rearranges -/

section Order

variable [DecidableEq κ] [LinearOrder π] {I : KeyVal κ α π} {q : IndirectedPQ κ α}
  {S : κ → Option α}

theorem pullUpLoop_rearranged (fuel : Nat) {c l : Nat} (hc : c < l) :
    Rearranged I l q (q.pullUpLoop I fuel c) := by
  induction fuel generalizing q c with
  | zero => exact .refl l q
  | succ fuel ih =>
    have hparent : parent c < l := Nat.lt_of_le_of_lt (parent_le c) hc
    unfold IndirectedPQ.pullUpLoop
    dsimp only
    split
    · exact (rearranged_swap hparent hc).trans (ih hparent)
    · exact .refl l q

theorem pushDownLoop_rearranged (fuel c : Nat) :
    Rearranged I q.heap_length q (q.pushDownLoop I fuel c) := by
  induction fuel generalizing q c with
  | zero => exact .refl _ q
  | succ fuel ih =>
    unfold IndirectedPQ.pushDownLoop
    split
    case isTrue hless =>
      rcases smallestChild_spec hless with ⟨hpos, hlt, hparent, -, -⟩
      have hc : c < q.heap_length := by
        rw [← hparent]
        exact Nat.lt_of_le_of_lt (parent_le _) hlt
      have hrest := ih (q := q.swap I c (q.smallestChild I c)) (q.smallestChild I c)
      exact (rearranged_swap hc hlt).trans hrest
    case isFalse => exact .refl _ q

namespace IndirectedPQ

/-- `remove_min`. -/
def removeMin (I : KeyVal κ α π) (q : IndirectedPQ κ α) : Option α × IndirectedPQ κ α :=
  if q.heap_length = 0 then (none, q)
  else
    let (min_val, q) := q.removeAt I 0
    match min_val with
    | none => (none, q)
    | some v => (some v, { q with table := Function.update q.table (I.getKey v) none })

end IndirectedPQ

/-- The queue of `remove` before the sift. -/
def gapFilled (I : KeyVal κ α π) (t : Nat) (q : IndirectedPQ κ α) : IndirectedPQ κ α :=
  { q.swap I t (q.heap_length - 1) with heap_length := q.heap_length - 1 }

theorem removeAt_eq {t : Nat} (ht : t < q.heap_length) :
    q.removeAt I t = (some (q.heap t), (gapFilled I t q).pushDown I t) := by
  rw [IndirectedPQ.removeAt, if_neg (by omega)]
  rfl

theorem remove_eq {k : κ} {t : Nat} (htable : q.table k = some t) (ht : t < q.heap_length) :
    q.remove I k = (some (q.heap t), { (gapFilled I t q).pushDown I t with
      table := Function.update ((gapFilled I t q).pushDown I t).table k none }) := by
  unfold IndirectedPQ.remove
  rw [htable]
  dsimp only
  rw [removeAt_eq ht]

namespace Indexed

theorem add_of_some [Inhabited α] (h : Indexed I q S) {v w : α} (hv : S (I.getKey v) = some w) :
    q.add I v = q := by
  have hin : q.contains (I.getKey v) = true := by simp [h.contains_eq, hv]
  unfold IndirectedPQ.add
  exact if_pos hin

theorem add [Inhabited α] (h : Indexed I q S) {v : α} (hv : S (I.getKey v) = none) :
    Indexed I (q.add I v) (Function.update S (I.getKey v) (some v)) := by
  have hnot : ¬ q.contains (I.getKey v) = true := by simp [h.contains_eq, hv]
  -- the array has room for one more value
  have hroom : ∃ r, (if q.heap_length = q.arr_length then q.resize else q) = r ∧ Indexed I r S ∧
      r.heap_length + 1 ≤ r.arr_length := by
    split
    case isTrue hfull =>
      refine ⟨_, rfl, h.resize, ?_⟩
      show q.heap_length + 1 ≤ 2 * q.arr_length
      have hpos := h.arr_pos
      omega
    case isFalse hfull =>
      have hfits := h.fits
      exact ⟨_, rfl, h, by omega⟩
  rcases hroom with ⟨r, hr, hinv, hroom⟩
  have hre := pullUpLoop_rearranged (I := I) (q := { r with
    heap := Function.update r.heap r.heap_length v
    table := Function.update r.table (I.getKey v) (some r.heap_length) })
    r.heap_length (Nat.lt_succ_self r.heap_length)
  have hfinal := of_rearranged hre (hinv.consistent_push hv) (hinv.holds_push hv) hroom hinv.arr_pos
  have hlen := hre.heap_length
  dsimp only at hlen
  unfold IndirectedPQ.add
  rw [if_neg hnot]
  dsimp only
  rw [hr]
  unfold IndirectedPQ.pullUp
  rw [hlen]
  exact hfinal

theorem update (h : Indexed I q S) {k : κ} {v w : α} (hk : S k = some v) (hw : I.getKey w = k) :
    Indexed I (q.update I k w) (Function.update S k (some w)) := by
  rcases h.table_eq_some hk with ⟨t, ht, htable, htv⟩
  have hkey : I.getKey (q.heap t) = k := ((h.consistent k t).mp htable).2
  have hre : Rearranged I q.heap_length { q with heap := Function.update q.heap t w }
      (q.updateAt I t w) := by
    have hup : Rearranged I q.heap_length { q with heap := Function.update q.heap t w }
        (if IndirectedPQ.less I { q with heap := Function.update q.heap t w } t (parent t) then
          IndirectedPQ.pullUp I { q with heap := Function.update q.heap t w } t
        else { q with heap := Function.update q.heap t w }) := by
      split
      · exact pullUpLoop_rearranged t ht
      · exact .refl _ _
    have hlen := hup.heap_length
    unfold IndirectedPQ.updateAt
    rw [if_neg (by omega)]
    dsimp only
    generalize (if IndirectedPQ.less I { q with heap := Function.update q.heap t w } t (parent t) then
      IndirectedPQ.pullUp I { q with heap := Function.update q.heap t w } t
      else { q with heap := Function.update q.heap t w }) = r at hup hlen
    split
    · have hdown := pushDownLoop_rearranged (I := I) (q := r) r.heap_length t
      rw [hlen] at hdown
      unfold IndirectedPQ.pushDown
      rw [hlen]
      exact hup.trans hdown
    · exact hup
  have hfinal := of_rearranged hre (h.consistent_replace (hw.trans hkey.symm))
    (h.holds_replace htable hw) h.fits h.arr_pos
  have hlen : (q.updateAt I t w).heap_length = q.heap_length := hre.heap_length
  unfold IndirectedPQ.update
  rw [htable]
  dsimp only
  rw [if_pos hw]
  rw [← hlen] at hfinal
  exact hfinal

theorem update_of_not (h : Indexed I q S) {k : κ} {w : α}
    (hk : ¬ (I.getKey w = k ∧ (S k).isSome)) : q.update I k w = q := by
  unfold IndirectedPQ.update
  cases htable : q.table k with
  | none => rfl
  | some t =>
    have hsome := (h.eq_some_of_table htable).2
    exact if_neg fun hw => hk ⟨hw, by rw [hsome]; rfl⟩

/-- The victim stays behind the values that are sifted. -/
theorem remove (h : Indexed I q S) {k : κ} {v : α} (hk : S k = some v) :
    (q.remove I k).1 = some v ∧ Indexed I (q.remove I k).2 (Function.update S k none) := by
  rcases h.table_eq_some hk with ⟨t, ht, htable, rfl⟩
  have hkey : I.getKey (q.heap t) = k := ((h.consistent k t).mp htable).2
  have hswap : Rearranged I q.heap_length q (q.swap I t (q.heap_length - 1)) :=
    rearranged_swap ht (by omega)
  have hre : Rearranged I (q.heap_length - 1) (gapFilled I t q) ((gapFilled I t q).pushDown I t) :=
    pushDownLoop_rearranged (q := gapFilled I t q) (q.heap_length - 1) t
  have hcons : Consistent I q.heap_length ((gapFilled I t q).pushDown I t) :=
    hre.consistent _ (Nat.sub_le _ _) (hswap.consistent _ le_rfl h.consistent)
  have hend : ((gapFilled I t q).pushDown I t).heap (q.heap_length - 1) = q.heap t := by
    have heq := hre.heap_of_le (le_refl (q.heap_length - 1))
    exact heq.trans (exchange_right q.heap t (q.heap_length - 1))
  have hvalues : ∀ w, (∃ i < q.heap_length, ((gapFilled I t q).pushDown I t).heap i = w) ↔
      ∃ i < q.heap_length, q.heap i = w := fun w =>
    (hre.exists_heap_eq (Nat.sub_le _ _) w).trans (hswap.exists_heap_eq le_rfl w)
  have hlen : ((gapFilled I t q).pushDown I t).heap_length = q.heap_length - 1 := hre.heap_length
  have harr : ((gapFilled I t q).pushDown I t).arr_length = q.arr_length := hre.arr_length
  rw [remove_eq htable ht]
  generalize (gapFilled I t q).pushDown I t = r at hcons hend hvalues hlen harr ⊢
  -- only the last position holds the removed key
  have hposition : ∀ i, i < q.heap_length → (I.getKey (r.heap i) = k ↔ i = q.heap_length - 1) := by
    intro i hi
    have hti : r.table k = some (q.heap_length - 1) :=
      (hcons k _).mpr ⟨by omega, by rw [hend, hkey]⟩
    constructor
    · intro hki
      have hii := (hcons k i).mpr ⟨hi, hki⟩
      rw [hti] at hii
      exact (some_inj.mp hii).symm
    · rintro rfl
      rw [hend, hkey]
  refine ⟨rfl, ?_, ?_, ?_, ?_⟩
  · intro k' i
    show Function.update r.table k none k' = some i ↔ i < r.heap_length ∧ I.getKey (r.heap i) = k'
    rw [hlen]
    by_cases hkk : k' = k
    · subst hkk
      rw [update_self]
      refine iff_of_false (by intro heq; cases heq) fun hi => ?_
      have hilast := (hposition i (by omega)).mp hi.2
      omega
    · rw [update_of_ne hkk, hcons k' i]
      refine ⟨fun hi => ⟨?_, hi.2⟩, fun hi => ⟨by omega, hi.2⟩⟩
      have hne : i ≠ q.heap_length - 1 := fun he =>
        hkk (hi.2.symm.trans ((hposition i hi.1).mpr he))
      omega
  · intro k' w
    show _ ↔ I.getKey w = k' ∧ ∃ i < r.heap_length, r.heap i = w
    rw [hlen]
    by_cases hkk : k' = k
    · subst hkk
      rw [update_self]
      refine iff_of_false (by intro heq; cases heq) ?_
      rintro ⟨hw, i, hi, rfl⟩
      have hilast := (hposition i (by omega)).mp hw
      omega
    · rw [update_of_ne hkk, h.holds k' w, ← hvalues w]
      refine and_congr_right fun hw => exists_congr fun i => ?_
      refine ⟨fun hi => ⟨?_, hi.2⟩, fun hi => ⟨by omega, hi.2⟩⟩
      have hne : i ≠ q.heap_length - 1 := fun he =>
        hkk (hw.symm.trans (hi.2 ▸ (hposition i hi.1).mpr he))
      omega
  · show r.heap_length ≤ r.arr_length
    rw [hlen, harr]
    exact (Nat.sub_le _ _).trans h.fits
  · show 0 < r.arr_length
    rw [harr]
    exact h.arr_pos

theorem remove_of_none (h : Indexed I q S) {k : κ} (hk : S k = none) : q.remove I k = (none, q) := by
  unfold IndirectedPQ.remove
  rw [h.table_eq_none.mpr hk]

/-- `remove_min` removes the value in front by its key. -/
theorem removeMin_eq (h : Indexed I q S) (hpos : q.heap_length ≠ 0) :
    q.removeMin I = q.remove I (I.getKey (q.heap 0)) := by
  have hlt : 0 < q.heap_length := Nat.pos_of_ne_zero hpos
  have htable : q.table (I.getKey (q.heap 0)) = some 0 := (h.consistent _ 0).mpr ⟨hlt, rfl⟩
  unfold IndirectedPQ.removeMin
  rw [if_neg hpos, remove_eq htable hlt, removeAt_eq hlt]

end Indexed

/-! ## Runs -/

/-- The calls that change the queue. -/
inductive PqCall (κ α : Type*) where
  | add (target : α)
  | update (target : κ) (new_val : α)
  | remove (key : κ)
  | removeMin

/-- A queue, and for each key the last value added or updated for it that was not removed
since. -/
structure PqState (κ α : Type*) where
  queue : IndirectedPQ κ α
  last : κ → Option α

namespace PqState

/-- What a value that is returned by `remove` or `remove_min` leaves behind. -/
def forget (I : KeyVal κ α π) (last : κ → Option α) : Option α → κ → Option α
  | none => last
  | some v => Function.update last (I.getKey v) none

def step [Inhabited α] (I : KeyVal κ α π) (s : PqState κ α) : PqCall κ α → PqState κ α
  | .add v => ⟨s.queue.add I v,
      if (s.last (I.getKey v)).isSome then s.last else Function.update s.last (I.getKey v) (some v)⟩
  | .update k v => ⟨s.queue.update I k v,
      if I.getKey v = k ∧ (s.last k).isSome then Function.update s.last k (some v) else s.last⟩
  | .remove k => ⟨(s.queue.remove I k).2, Function.update s.last k none⟩
  | .removeMin => ⟨(s.queue.removeMin I).2, forget I s.last (s.queue.removeMin I).1⟩

/-- The state after some calls on a new queue. -/
def after [Inhabited α] (I : KeyVal κ α π) (calls : List (PqCall κ α)) : PqState κ α :=
  calls.foldl (step I) ⟨.new, fun _ => none⟩

theorem indexed_step [Inhabited α] {s : PqState κ α} (h : Indexed I s.queue s.last)
    (c : PqCall κ α) : Indexed I (s.step I c).queue (s.step I c).last := by
  cases c with
  | add v =>
    unfold step
    cases hv : s.last (I.getKey v) with
    | none =>
      have hno : ¬ (s.last (I.getKey v)).isSome = true := by
        rw [hv]
        exact Bool.false_ne_true
      dsimp only
      rw [if_neg hno]
      exact h.add hv
    | some w =>
      have hyes : (s.last (I.getKey v)).isSome = true := by
        rw [hv]
        rfl
      dsimp only
      rw [if_pos hyes, h.add_of_some hv]
      exact h
  | update k v =>
    unfold step
    dsimp only
    split
    case isTrue hk =>
      rcases isSome_iff_exists.mp hk.2 with ⟨w, hw⟩
      exact h.update hw hk.1
    case isFalse hk =>
      rw [h.update_of_not hk]
      exact h
  | remove k =>
    unfold step
    dsimp only
    cases hk : s.last k with
    | none =>
      rw [h.remove_of_none hk, ← hk, update_eq_self]
      exact h
    | some v => exact (h.remove hk).2
  | removeMin =>
    unfold step
    dsimp only
    by_cases hzero : s.queue.heap_length = 0
    · have hnone : s.queue.removeMin I = (none, s.queue) := if_pos hzero
      rw [hnone]
      exact h
    · have hfront := (h.holds _ (s.queue.heap 0)).mpr ⟨rfl, 0, Nat.pos_of_ne_zero hzero, rfl⟩
      rcases h.remove hfront with ⟨hvalue, hrest⟩
      rw [h.removeMin_eq hzero, hvalue]
      exact hrest

theorem indexed_after [Inhabited α] (I : KeyVal κ α π) (calls : List (PqCall κ α)) :
    Indexed I (after I calls).queue (after I calls).last := by
  have hfold : ∀ (calls : List (PqCall κ α)) (s : PqState κ α), Indexed I s.queue s.last →
      Indexed I (calls.foldl (step I) s).queue (calls.foldl (step I) s).last := by
    intro calls
    induction calls with
    | nil => exact fun _ h => h
    | cons c calls ih => exact fun s h => ih _ (indexed_step h c)
  exact hfold calls _ .new

/-- After any calls the table has the keys of the stored values with their positions, `get`
returns the last value of a key, and `remove` removes exactly that one. -/
theorem index_consistent [Inhabited α] (I : KeyVal κ α π) (calls : List (PqCall κ α)) :
    (∀ k i, (after I calls).queue.table k = some i ↔
      i < (after I calls).queue.heap_length ∧ I.getKey ((after I calls).queue.heap i) = k) ∧
    (∀ k, (after I calls).queue.get k = (after I calls).last k) ∧
    ∀ k, ((after I calls).queue.remove I k).1 = (after I calls).last k ∧
      ∀ k', ((after I calls).queue.remove I k).2.get k' =
        if k' = k then none else (after I calls).last k' := by
  have h := indexed_after I calls
  refine ⟨h.consistent, h.get_eq, ?_⟩
  intro k
  cases hk : (after I calls).last k with
  | none =>
    rw [h.remove_of_none hk]
    refine ⟨rfl, ?_⟩
    intro k'
    rw [h.get_eq]
    split
    case isTrue heq => rw [heq, hk]
    case isFalse => rfl
  | some v =>
    rcases h.remove hk with ⟨hvalue, hrest⟩
    refine ⟨hvalue, ?_⟩
    intro k'
    rw [hrest.get_eq]
    exact update_apply ..

end PqState

end Order

end PittCs.Cs1501
