import PittCs.Hefty.Division

/-!
# Equality

`equals` compares the pruned arrays. `prune` cuts leading zeros, but it keeps one in front
of a byte that is not zero, so an array that had no spare byte stays shorter than the
other arrays of the same integer.
-/

namespace PittCs.Hefty

open PittCs.Lib.Digits List

/-- What is cut off does not depend on the number of zeros. -/
theorem cutZeros_replicate (k : Nat) (l : List Byte) :
    cutZeros (List.replicate k 0 ++ 0 :: l) = cutZeros (0 :: l) := by
  induction k with
  | zero => rfl
  | succ k ih =>
    rw [replicate_succ, cons_append, ← ih]
    cases k with
    | zero | succ k => exact (if_pos ⟨rfl, rfl⟩)

/-- One zero is left of those in front. -/
theorem cutZeros_zero_cons (l : List Byte) : ∃ rest, cutZeros (0 :: l) = 0 :: rest := by
  induction l with
  | nil => exact ⟨[], rfl⟩
  | cons c l ih =>
    by_cases hc : c = 0
    · have hcut : cutZeros (0 :: c :: l) = cutZeros (c :: l) := if_pos ⟨rfl, hc⟩
      rw [hcut, hc]
      exact ih
    · exact ⟨c :: l, if_neg fun h => hc h.2⟩

theorem cutZeros_of_first_ne {c : Byte} (l : List Byte) (hc : c ≠ 0) :
    cutZeros (c :: l) = c :: l := by
  cases l with
  | nil => rfl
  | cons d l => exact if_neg fun h => hc h.1

/-- The arrays of a number that start with a zero are cut to the same array. -/
theorem cutZeros_eq_of_le {l m : List Byte} (hle : l.length ≤ m.length)
    (h : unsigned (0 :: l : List Byte) = unsigned (0 :: m : List Byte)) :
    cutZeros (0 :: l) = cutZeros (0 :: m) := by
  have hlonger : (0 :: l : List Byte).length ≤ (0 :: m : List Byte).length :=
    Nat.succ_le_succ hle
  rw [eq_replicate_append hlonger h]
  exact (cutZeros_replicate _ l).symm

theorem cutZeros_eq {l m : List Byte}
    (h : unsigned (0 :: l : List Byte) = unsigned (0 :: m : List Byte)) :
    cutZeros (0 :: l) = cutZeros (0 :: m) := by
  rcases Nat.le_total l.length m.length with hle | hle
  · exact cutZeros_eq_of_le hle h
  · exact (cutZeros_eq_of_le hle h.symm).symm

/-- Without a zero in front the number has one length. -/
theorem length_le_of_first_ne {c d : Byte} {l m : List Byte} (hc : c ≠ 0)
    (h : unsigned (c :: l) = unsigned (d :: m)) : l.length ≤ m.length := by
  have hlow : 2 ^ (8 * l.length) ≤ unsigned (c :: l) := Nat.not_lt.mp (mt unsigned_cons_lt_iff.mp hc)
  have hhigh : unsigned (d :: m) < 2 ^ (8 * (m.length + 1)) := unsigned_lt (d :: m)
  have hlt : 2 ^ (8 * l.length) < 2 ^ (8 * (m.length + 1)) := by omega
  have hexp := (Nat.pow_lt_pow_iff_right (by decide)).mp hlt
  omega

/-- Two arrays of a number are cut to the same array if both start with a zero or none does. -/
theorem cutZeros_eq_iff {c d : Byte} {l m : List Byte}
    (h : unsigned (c :: l) = unsigned (d :: m)) :
    cutZeros (c :: l) = cutZeros (d :: m) ↔ (c = 0 ↔ d = 0) := by
  by_cases hc : c = 0
  · by_cases hd : d = 0
    · subst hc hd
      exact iff_of_true (cutZeros_eq h) Iff.rfl
    · subst hc
      rcases cutZeros_zero_cons l with ⟨rest, hrest⟩
      rw [hrest, cutZeros_of_first_ne m hd]
      exact iff_of_false (fun heq => hd (List.cons.inj heq).1.symm) (fun hiff => hd (hiff.mp rfl))
  · by_cases hd : d = 0
    · subst hd
      rcases cutZeros_zero_cons m with ⟨rest, hrest⟩
      rw [hrest, cutZeros_of_first_ne l hc]
      exact iff_of_false (fun heq => hc (List.cons.inj heq).1) (fun hiff => hc (hiff.mpr rfl))
    · have hlength : l.length = m.length :=
        Nat.le_antisymm (length_le_of_first_ne hc h) (length_le_of_first_ne hd h.symm)
      have hsame : (c :: l).length = (d :: m).length := congrArg Nat.succ hlength
      rw [unsigned_inj hsame h]
      exact iff_of_true rfl ⟨fun h => absurd h hc, fun h => absurd h hd⟩

namespace HeftyInteger

variable {a b : HeftyInteger}

theorem ext_of_value (hlength : a.length = b.length) (h : a.value = b.value) : a = b := by
  cases a
  cases b
  congr 1
  exact signed_inj hlength h

/-- The absolute value leaves the first byte of its array zero. The least number of a
length has an absolute value of one byte more. -/
def SpareByte (a : HeftyInteger) : Prop :=
  |a.value| < 2 ^ (8 * (a.length - 1)) ∨ 2 * a.value = -2 ^ (8 * a.length)

theorem length_magnitude (a : HeftyInteger) :
    a.magnitude.length = if 2 * a.value = -2 ^ (8 * a.length) then a.length + 1 else a.length := by
  rcases a.fits with ⟨hlow, hhigh⟩
  have hpos : (0 : Int) < 2 ^ (8 * a.length) := by positivity
  by_cases hneg : a.value < 0
  · rcases negate_spec a with ⟨hvalue, hle, hfit⟩
    have hmagnitude : a.magnitude = a.negate := by
      unfold magnitude
      rw [(isNegative_iff a).mpr hneg, if_pos rfl]
    rw [hmagnitude]
    by_cases hmin : 2 * a.value = -2 ^ (8 * a.length)
    · -- the absolute value does not fit into the length
      rw [if_pos hmin]
      by_contra hne
      have hshort : Fits a.length a.negate.value := a.negate.fits.mono (by omega)
      have hhigh := hshort.2
      rw [hvalue] at hhigh
      omega
    · rw [if_neg hmin]
      exact hfit ⟨by omega, by omega⟩
  · rw [(magnitude_spec a).2.2.2 (by omega), if_neg (by omega)]

theorem first_magnitude_iff (a : HeftyInteger) : a.magnitude.first = 0 ↔ a.SpareByte := by
  have hlength : a.magnitude.length = a.magnitude.val.tail.length + 1 := by
    unfold length
    rw [a.magnitude.val_eq]
    rfl
  have hvalue : (unsigned a.magnitude.val : Int) = |a.value| := (magnitude_spec a).2.1
  have hiff : a.magnitude.first = 0 ↔ |a.value| < 2 ^ (8 * (a.magnitude.length - 1)) := by
    rw [hlength, Nat.add_sub_cancel, ← hvalue]
    have hcons : unsigned (a.magnitude.first :: a.magnitude.val.tail) <
        2 ^ (8 * a.magnitude.val.tail.length) ↔ a.magnitude.first = 0 := unsigned_cons_lt_iff
    rw [← a.magnitude.val_eq] at hcons
    refine hcons.symm.trans ?_
    norm_cast
  rw [hiff, length_magnitude]
  unfold SpareByte
  by_cases hmin : 2 * a.value = -2 ^ (8 * a.length)
  · have hpos : (0 : Int) < 2 ^ (8 * a.length) := by positivity
    rw [if_pos hmin, Nat.add_sub_cancel, abs_of_neg (by omega)]
    exact iff_of_true (by omega) (.inr hmin)
  · rw [if_neg hmin, or_iff_left hmin]

theorem cut_magnitude_eq_iff (h : a.value = b.value) :
    a.magnitude.cut = b.magnitude.cut ↔ (a.SpareByte ↔ b.SpareByte) := by
  have hvalue : unsigned a.magnitude.val = unsigned b.magnitude.val := by
    have ha := (magnitude_spec a).2.1
    have hb := (magnitude_spec b).2.1
    rw [h] at ha
    omega
  have hcut : a.magnitude.cut = b.magnitude.cut ↔
      cutZeros a.magnitude.val = cutZeros b.magnitude.val := HeftyInteger.mk.injEq _ _ _ _ ▸ Iff.rfl
  rw [hcut, ← first_magnitude_iff, ← first_magnitude_iff]
  rw [a.magnitude.val_eq, b.magnitude.val_eq] at hvalue ⊢
  exact cutZeros_eq_iff hvalue

theorem prune_eq_iff (h : a.value = b.value) : a.prune = b.prune ↔ (a.SpareByte ↔ b.SpareByte) := by
  rw [← cut_magnitude_eq_iff h]
  by_cases hneg : a.value < 0
  · rw [prune_of_neg hneg, prune_of_neg (h ▸ hneg)]
    refine ⟨fun heq => ext_of_value ?_ ?_, congrArg negate⟩
    · have hlength := congrArg length heq
      rwa [length_negate_of_nonneg, length_negate_of_nonneg] at hlength
      all_goals
        rw [value_cut_magnitude]
        exact abs_nonneg _
    · rw [value_cut_magnitude, value_cut_magnitude, h]
  · have hnonneg := Int.not_lt.mp hneg
    rw [prune_of_nonneg hnonneg, prune_of_nonneg (h ▸ hnonneg), (magnitude_spec a).2.2.2 hnonneg,
      (magnitude_spec b).2.2.2 (h ▸ hnonneg)]

/-- The loop of `equals` over two arrays of one length. -/
theorem all_zip_eq_iff {l m : List Byte} (hlength : l.length = m.length) :
    ((l.zip m).all fun (a, b) => a == b) = true ↔ l = m := by
  induction l generalizing m with
  | nil => simp [length_eq_zero_iff.mp hlength.symm]
  | cons c l ih =>
    cases m with
    | nil => cases hlength
    | cons d m =>
      rw [zip_cons_cons, all_cons, Bool.and_eq_true, ih (Nat.succ.inj hlength),
        beq_iff_eq, List.cons.injEq]

theorem equals_iff (a b : HeftyInteger) : a.equals b = true ↔ a.prune = b.prune := by
  unfold equals
  dsimp only
  rw [Bool.and_eq_true, beq_iff_eq]
  constructor
  · intro ⟨hlength, hall⟩
    have hval := (all_zip_eq_iff hlength).mp hall
    cases ha : a.prune
    cases hb : b.prune
    rw [ha, hb] at hval
    congr 1
  · intro h
    rw [h]
    exact ⟨rfl, (all_zip_eq_iff rfl).mpr rfl⟩

/-- What equality and pruning promise for two arrays. -/
structure EqualityCorrect (a b : HeftyInteger) : Prop where
  equals : a.equals b = true ↔ a.value = b.value
  value : a.prune.value = a.value
  canonical : a.value = b.value → a.prune = b.prune

/-- Equality is right unless one of two arrays of an integer has a spare byte and the other
has none. -/
theorem equality_correct_iff (a b : HeftyInteger) :
    EqualityCorrect a b ↔ (a.value = b.value → (a.SpareByte ↔ b.SpareByte)) := by
  constructor
  · intro hcorrect h
    exact (prune_eq_iff h).mp (hcorrect.canonical h)
  · intro hspare
    refine ⟨?_, value_prune a, fun h => (prune_eq_iff h).mpr (hspare h)⟩
    rw [equals_iff]
    constructor
    · intro hprune
      rw [← value_prune a, hprune, value_prune]
    · intro h
      exact (prune_eq_iff h).mpr (hspare h)

/-- Five in one byte and in two. -/
theorem not_equality_correct : ¬ ∀ a b : HeftyInteger, EqualityCorrect a b := by
  intro hall
  have hequals := (hall ⟨[5], cons_ne_nil _ _⟩ ⟨[0, 5], cons_ne_nil _ _⟩).equals
  revert hequals
  decide

end HeftyInteger

end PittCs.Hefty
