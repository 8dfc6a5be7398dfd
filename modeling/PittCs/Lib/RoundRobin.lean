import Mathlib.Algebra.Order.BigOperators.Group.List
import Mathlib.Algebra.Order.Group.Nat
import Mathlib.Data.List.Nodup
import Mathlib.Data.List.ReduceOption

/-!
# Round robin over finite sources

Each round takes the next item of every source; an item is a value or nothing.
`row k` holds the values of round `k`, `rows n` those of the first `n` rounds, and
`valuesOf` says what a sequence of values has of one source.
-/

namespace PittCs.Lib

open List

universe u v

/-- A source: its name and the items that are left of it. -/
structure Source (ι : Type u) (β : Type v) where
  name : ι
  items : List (Option β)

variable {ι : Type u} {β : Type v}

/-- The source after one round. -/
def Source.tail (s : Source ι β) : Source ι β :=
  { s with items := s.items.tail }

/-- The value of round `k`. -/
def Source.at (s : Source ι β) (k : Nat) : Option β := s.items[k]?.join

/-- The values of round `k`. -/
def row (sources : List (Source ι β)) (k : Nat) : List (ι × β) :=
  sources.filterMap fun s => (s.at k).map (s.name, ·)

/-- The values of the first `n` rounds. -/
def rows (sources : List (Source ι β)) (n : Nat) : List (ι × β) :=
  (List.range n).flatMap (row sources)

/-- The values that bear this name. -/
def valuesOf [DecidableEq ι] (name : ι) (values : List (ι × β)) : List β :=
  (values.filter fun x => x.1 = name).map Prod.snd

variable {sources : List (Source ι β)} {s : Source ι β} {k n : Nat}

@[simp] theorem row_map_tail (sources : List (Source ι β)) (k : Nat) :
    row (sources.map Source.tail) k = row sources (k + 1) := by
  simp [row, filterMap_map, Function.comp_def, Source.tail, Source.at]

/-- The first round, then those of what it leaves. -/
theorem rows_succ (sources : List (Source ι β)) (n : Nat) :
    rows sources (n + 1) = row sources 0 ++ rows (sources.map Source.tail) n := by
  rw [rows, range_succ_eq_map, flatMap_cons, flatMap_map]
  have htail : row (sources.map Source.tail) = fun k => row sources (k + 1) :=
    funext (row_map_tail sources)
  rw [rows, htail]

theorem row_ne_nil_iff : row sources k ≠ [] ↔ ∃ s ∈ sources, s.at k ≠ none := by
  simp [row, filterMap_eq_nil_iff]

theorem row_eq_nil_iff : row sources k = [] ↔ ∀ s ∈ sources, s.at k = none := by
  simp [row, filterMap_eq_nil_iff]

/-- There is nothing left in the end. -/
theorem exists_row_eq_nil (sources : List (Source ι β)) : ∃ n, row sources n = [] := by
  refine ⟨(sources.map fun s => s.items.length).sum, row_eq_nil_iff.mpr fun s hs => ?_⟩
  have hlen : s.items.length ≤ (sources.map fun s => s.items.length).sum :=
    le_sum_of_mem (mem_map_of_mem hs)
  simp [Source.at, List.getElem?_eq_none hlen]

section ValuesOf

variable [DecidableEq ι]

theorem valuesOf_append (name : ι) (xs ys : List (ι × β)) :
    valuesOf name (xs ++ ys) = valuesOf name xs ++ valuesOf name ys := by
  simp [valuesOf]

theorem valuesOf_row_of_not_mem {name : ι} (h : name ∉ sources.map Source.name) :
    valuesOf name (row sources k) = [] := by
  have hne : ∀ x ∈ row sources k, x.1 ≠ name := by
    intro x hx heq
    rcases mem_filterMap.mp hx with ⟨s, hs, hx⟩
    rcases Option.map_eq_some_iff.mp hx with ⟨b, -, rfl⟩
    exact h (heq ▸ mem_map_of_mem hs)
  simpa [valuesOf] using fun name' b hb => hne (name', b) hb

/-- A round has at most one value of each source. -/
theorem valuesOf_row (hnames : (sources.map Source.name).Nodup) (hs : s ∈ sources) :
    valuesOf s.name (row sources k) = (s.at k).toList := by
  induction sources with
  | nil => cases hs
  | cons t ts ih =>
    rw [map_cons, nodup_cons] at hnames
    have hcons : row (t :: ts) k = ((t.at k).map (t.name, ·)).toList ++ row ts k := by
      cases h : t.at k <;> simp [row, h]
    rw [hcons, valuesOf_append]
    rcases mem_cons.mp hs with rfl | hs
    case inl =>
        rw [valuesOf_row_of_not_mem hnames.1]
        cases s.at k <;> simp [valuesOf]
    case inr =>
        have hne : t.name ≠ s.name := fun heq => hnames.1 (heq ▸ mem_map_of_mem hs)
        rw [ih hnames.2 hs]
        cases t.at k <;> simp [valuesOf, hne]

/-- The first `n` rounds pass on the first `n` items of each source, in order. -/
theorem valuesOf_rows (hnames : (sources.map Source.name).Nodup) (hs : s ∈ sources) :
    valuesOf s.name (rows sources n) = (s.items.take n).reduceOption := by
  induction n with
  | zero => simp [rows, valuesOf]
  | succ n ih =>
    have hrows : rows sources (n + 1) = rows sources n ++ row sources n := by
      simp [rows, range_succ]
    have htake : s.items.take (n + 1) = s.items.take n ++ s.items[n]?.toList := take_add_one
    rw [hrows, valuesOf_append, ih, valuesOf_row hnames hs, htake, reduceOption_append]
    cases h : s.items[n]? with
    | none => simp [Source.at, h]
    | some item => cases item <;> simp [Source.at, h]

/-- Nothing of a source is missing exactly if no later round has a value of it. -/
theorem reduceOption_take_eq_iff {items : List (Option β)} :
    (items.take n).reduceOption = items.reduceOption ↔ ∀ k, n ≤ k → items[k]?.join = none := by
  have hsplit : items.reduceOption = (items.take n).reduceOption ++ (items.drop n).reduceOption := by
    rw [← reduceOption_append, take_append_drop]
  have hdrop : (items.take n).reduceOption = items.reduceOption ↔
      (items.drop n).reduceOption = [] := by
    rw [hsplit, self_eq_append_right]
  rw [hdrop, reduceOption_eq_nil_iff]
  constructor
  · rintro ⟨m, hm⟩ k hk
    have hitem : items[k]? = (items.drop n)[k - n]? := by
      rw [List.getElem?_drop, Nat.add_sub_cancel' hk]
    rw [hitem, hm, List.getElem?_replicate]
    split <;> rfl
  · intro h
    refine ⟨(items.drop n).length, eq_replicate_iff.mpr ⟨rfl, fun item hitem => ?_⟩⟩
    rcases mem_iff_getElem?.mp hitem with ⟨k, hk⟩
    rw [List.getElem?_drop] at hk
    simpa [hk] using h (n + k) (Nat.le_add_right n k)

/-- The first `n` rounds pass on everything exactly if all later rounds are empty. -/
theorem valuesOf_rows_eq_all_iff (hnames : (sources.map Source.name).Nodup) :
    (∀ s ∈ sources, valuesOf s.name (rows sources n) = s.items.reduceOption) ↔
      ∀ k, n ≤ k → row sources k = [] := by
  constructor
  · intro h k hk
    refine row_eq_nil_iff.mpr fun s hs => ?_
    have hall := h s hs
    rw [valuesOf_rows hnames hs] at hall
    exact reduceOption_take_eq_iff.mp hall k hk
  · intro h s hs
    rw [valuesOf_rows hnames hs]
    refine reduceOption_take_eq_iff.mpr fun k hk => ?_
    exact row_eq_nil_iff.mp (h k hk) s hs

end ValuesOf

end PittCs.Lib
