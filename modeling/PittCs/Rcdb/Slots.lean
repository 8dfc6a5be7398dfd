import PittCs.Lib.Dict
import PittCs.Rcdb.BlockInsert
import PittCs.Rcdb.Cells

/-!
# Records in slots

The slots of a table are the offsets of the records that were ever inserted, each
with the country of its block. A slot holds a record, or the id -1 where one was
deleted. `Stored` relates the slots and the primary key index to a finite map; it
says nothing about the blocks, so that it is kept by a move of slots as well as by
a change of one slot.
-/

namespace PittCs.Rcdb

open Std PittCs.Lib List

/-- A record as a user sees it, without its id. -/
structure Entry where
  coffeeName : Str
  intensity : Int
  countryOfOrigin : Str
deriving DecidableEq

/-- The id of a record and the texts and numbers in it. -/
def Record.view (r : Record) : Int × Entry :=
  (r.coffeeId, ⟨r.coffeeName.text, r.intensity, r.countryOfOrigin.text⟩)

/-! ## Rows -/

/-- The three columns of a slot. -/
structure Row where
  coffeeID : Int
  coffeeName : Chars8
  intensity : Int

namespace Cells

variable {F F' : Cells} {table : Str} {p : Nat} {r : Row}

/-- The row of a slot, if all of it is known. -/
def row (F : Cells) (table : Str) (p : Nat) : Option Row :=
  match F table .coffeeID p, F table .coffeeName p, F table .intensity p with
  | some (.int id), some (.chars name), some (.int intensity) => some ⟨id, name, intensity⟩
  | _, _, _ => none

theorem row_eq_some : F.row table p = some r ↔ F table .coffeeID p = some (.int r.coffeeID) ∧
    F table .coffeeName p = some (.chars r.coffeeName) ∧
    F table .intensity p = some (.int r.intensity) := by
  unfold row
  constructor
  · intro h
    split at h
    · rename_i hid hname hintensity
      cases h
      exact ⟨hid, hname, hintensity⟩
    · cases h
  · rintro ⟨hid, hname, hintensity⟩
    rw [hid, hname, hintensity]

/-- The row depends on the three columns only. -/
theorem row_congr {p' : Nat} (hid : F' table .coffeeID p' = F table .coffeeID p)
    (hname : F' table .coffeeName p' = F table .coffeeName p)
    (hintensity : F' table .intensity p' = F table .intensity p) :
    F'.row table p' = F.row table p := by
  unfold row
  rw [hid, hname, hintensity]

/-- The record in a slot of a block of the given country; nothing if it was deleted. -/
def entry (F : Cells) (table : Str) (slot : Nat × Str) : Option (Int × Entry) :=
  (F.row table slot.1).bind fun r =>
    if r.coffeeID = -1 then none
    else some (r.coffeeID, ⟨r.coffeeName.text, r.intensity, slot.2⟩)

theorem entry_of_row {c : Str} (hr : F.row table p = some r) :
    F.entry table (p, c) = if r.coffeeID = -1 then none
      else some (r.coffeeID, ⟨r.coffeeName.text, r.intensity, c⟩) := by
  unfold entry
  rw [hr]
  rfl

theorem entry_congr {p' : Nat} {c : Str} (h : F'.row table p' = F.row table p) :
    F'.entry table (p', c) = F.entry table (p, c) := by
  unfold entry
  rw [h]

theorem row_of_entry {slot : Nat × Str} {id : Int} {e : Entry}
    (h : F.entry table slot = some (id, e)) :
    id ≠ -1 ∧ ∃ name, F.row table slot.1 = some ⟨id, name, e.intensity⟩ ∧
      e = ⟨name.text, e.intensity, slot.2⟩ := by
  unfold entry at h
  rcases Option.bind_eq_some_iff.mp h with ⟨r, hr, h⟩
  split at h
  · cases h
  · rename_i hid
    cases h
    exact ⟨hid, r.coffeeName, hr, rfl⟩

/-- All three columns of a slot are set. -/
def setRow (F : Cells) (table : Str) (p : Nat) (r : Row) : Cells :=
  ((F.set table .coffeeID p (.int r.coffeeID)).set table .coffeeName p (.chars r.coffeeName)).set
    table .intensity p (.int r.intensity)

theorem row_setRow_self : (F.setRow table p r).row table p = some r := by
  refine row_eq_some.mpr ⟨?_, ?_, ?_⟩
  · unfold setRow
    rw [set_of_ne (by simp), set_of_ne (by simp), set_self]
  · unfold setRow
    rw [set_of_ne (by simp), set_self]
  · unfold setRow
    rw [set_self]

theorem setRow_of_ne {p' : Nat} (h : p' ≠ p) (c : Column) :
    F.setRow table p r table c p' = F table c p' := by
  unfold setRow
  rw [set_of_ne fun heq => h heq.2.2, set_of_ne fun heq => h heq.2.2,
    set_of_ne fun heq => h heq.2.2]

theorem row_setRow_of_ne {p' : Nat} (h : p' ≠ p) :
    (F.setRow table p r).row table p' = F.row table p' :=
  row_congr (setRow_of_ne h _) (setRow_of_ne h _) (setRow_of_ne h _)

theorem row_set_of_ne {p' : Nat} {c : Column} {v : Item} (h : p' ≠ p) :
    (F.set table c p v).row table p' = F.row table p' :=
  row_congr (set_of_ne fun heq => h heq.2.2) (set_of_ne fun heq => h heq.2.2)
    (set_of_ne fun heq => h heq.2.2)

theorem row_set_coffeeID (hr : F.row table p = some r) (id : Int) :
    (F.set table .coffeeID p (.int id)).row table p = some { r with coffeeID := id } := by
  rcases row_eq_some.mp hr with ⟨-, hname, hintensity⟩
  refine row_eq_some.mpr ⟨set_self .., ?_, ?_⟩
  · rw [set_of_ne (by simp)]
    exact hname
  · rw [set_of_ne (by simp)]
    exact hintensity

theorem row_set_intensity (hr : F.row table p = some r) (intensity : Int) :
    (F.set table .intensity p (.int intensity)).row table p =
      some { r with intensity := intensity } := by
  rcases row_eq_some.mp hr with ⟨hid, hname, -⟩
  refine row_eq_some.mpr ⟨?_, ?_, set_self ..⟩
  · rw [set_of_ne (by simp)]
    exact hid
  · rw [set_of_ne (by simp)]
    exact hname

/-- The rows of `n` slots are copied. -/
def copyRows (F : Cells) (table : Str) (o o' n : Nat) : Cells :=
  ((F.copy table .coffeeID o o' n).copy table .coffeeName o o' n).copy table .intensity o o' n

theorem row_copyRows_of_in {o o' n i : Nat} (hi : i < n)
    (hapart : o' + n ≤ o ∨ o + n ≤ o') :
    (F.copyRows table o o' n).row table (o' + i) = F.row table (o + i) := by
  have hout : ∀ c c' : Column, (F.copy table c o o' n) table c' (o + i) = F table c' (o + i) :=
    fun c c' => copy_of_out (by omega)
  refine row_congr ?_ ?_ ?_
  · unfold copyRows
    rw [copy_of_out (by simp), copy_of_out (by simp), copy_of_in hi]
  · unfold copyRows
    rw [copy_of_out (by simp), copy_of_in hi, hout]
  · unfold copyRows
    rw [copy_of_in hi, copy_of_out (by simp), hout]

theorem row_copyRows_of_out {o o' n : Nat} (hp : ¬ (o' ≤ p ∧ p < o' + n)) :
    (F.copyRows table o o' n).row table p = F.row table p := by
  have hout : ∀ c : Column, F.copyRows table o o' n table c p = F table c p := by
    intro c
    unfold copyRows
    rw [copy_of_out fun h => hp h.2.2, copy_of_out fun h => hp h.2.2,
      copy_of_out fun h => hp h.2.2]
  exact row_congr (hout _) (hout _) (hout _)

end Cells

/-! ## Slots of blocks -/

namespace BlockAllocator

/-- The slots of the used blocks, each with the country of its block. -/
def slotsOf (l : List (Nat × Node)) : List (Nat × Str) :=
  l.flatMap fun e => (blockSlots e).map fun p => (p, e.2.key.val.text)

theorem map_fst_slotsOf (l : List (Nat × Node)) : (slotsOf l).map Prod.fst = recordSlots l := by
  unfold slotsOf recordSlots
  rw [map_flatMap]
  congr 1
  funext e
  rw [map_map]
  exact map_id _

theorem slotsOf_perm {l l' : List (Nat × Node)} (h : l.Perm l') :
    (slotsOf l).Perm (slotsOf l') :=
  h.flatMap_right _

theorem mem_slotsOf {l : List (Nat × Node)} {p : Nat} {c : Str} :
    (p, c) ∈ slotsOf l ↔ ∃ e ∈ l, p ∈ blockSlots e ∧ e.2.key.val.text = c := by
  unfold slotsOf
  simp only [mem_flatMap, mem_map, Prod.mk.injEq]
  constructor
  · rintro ⟨e, he, q, hq, rfl, hc⟩
    exact ⟨e, he, hq, hc⟩
  · rintro ⟨e, he, hp, hc⟩
    exact ⟨e, he, p, hp, rfl, hc⟩

end BlockAllocator

/-! ## Slots that hold a finite map -/

/-- The slots hold the records of the map, and the index finds them. The index may
have an entry for the id -1 too, which belongs to no record. -/
structure Stored (F : Cells) (table : Str) (index : TreeMap Int Nat) (slots : List (Nat × Str))
    (m : Dict Int Entry) : Prop where
  nodup : (slots.map Prod.fst).Nodup
  rows : ∀ slot ∈ slots, ∃ r, F.row table slot.1 = some r
  contents : (slots.filterMap (F.entry table)).Perm m.entries
  index : ∀ id p, id ≠ -1 →
    (index[id]? = some p ↔ ∃ c r, (p, c) ∈ slots ∧ F.row table p = some r ∧ r.coffeeID = id)

namespace Stored

variable {F F' : Cells} {table : Str} {index index' : TreeMap Int Nat} {slots : List (Nat × Str)}
  {m : Dict Int Entry} {id : Int} {p : Nat} {c : Str} {r : Row}

theorem empty (F : Cells) (table : Str) : Stored F table ∅ [] Dict.empty where
  nodup := nodup_nil
  rows := by
    intro slot hslot
    cases hslot
  contents := List.Perm.refl _
  index := by
    intro id p _
    simp

theorem perm {slots' : List (Nat × Str)} (h : Stored F table index slots m)
    (hp : slots.Perm slots') : Stored F table index slots' m where
  nodup := (hp.map _).nodup_iff.mp h.nodup
  rows := fun slot hslot => h.rows slot (hp.mem_iff.mpr hslot)
  contents := (hp.symm.filterMap _).trans h.contents
  index := by
    intro id p hid
    rw [h.index id p hid]
    constructor
    · rintro ⟨c, r, hmem, hr⟩
      exact ⟨c, r, hp.mem_iff.mp hmem, hr⟩
    · rintro ⟨c, r, hmem, hr⟩
      exact ⟨c, r, hp.mem_iff.mpr hmem, hr⟩

/-- A slot that holds a record holds a record of the map. -/
theorem get?_of_row (h : Stored F table index slots m) (hmem : (p, c) ∈ slots)
    (hr : F.row table p = some r) (hid : r.coffeeID ≠ -1) :
    m.get? r.coffeeID = some ⟨r.coffeeName.text, r.intensity, c⟩ := by
  refine Dict.mem_entries_iff.mp (h.contents.mem_iff.mp ?_)
  refine mem_filterMap.mpr ⟨(p, c), hmem, ?_⟩
  rw [Cells.entry_of_row hr, if_neg hid]

theorem not_mem_index_iff (h : Stored F table index slots m) (hid : id ≠ -1) :
    index[id]? = none ↔ m.get? id = none := by
  constructor
  · intro hnone
    cases hget : m.get? id with
    | none => rfl
    | some e =>
      have hmem := h.contents.mem_iff.mpr (Dict.mem_entries_iff.mpr hget)
      rcases mem_filterMap.mp hmem with ⟨⟨q, c⟩, hslot, hentry⟩
      rcases Cells.row_of_entry hentry with ⟨-, name, hr, -⟩
      have hsome := (h.index id q hid).mpr ⟨c, _, hslot, hr, rfl⟩
      rw [hnone] at hsome
      cases hsome
  · intro hnone
    cases hget : index[id]? with
    | none => rfl
    | some q =>
      rcases (h.index id q hid).mp hget with ⟨c, r, hslot, hr, rfl⟩
      rw [h.get?_of_row hslot hr hid] at hnone
      cases hnone

/-- A slot and the others. -/
theorem split (h : Stored F table index slots m) (hmem : (p, c) ∈ slots)
    (hr : F.row table p = some r) (hid : r.coffeeID ≠ -1) :
    ∃ rest, slots.Perm ((p, c) :: rest) ∧ (∀ slot ∈ rest, slot.1 ≠ p) ∧
      (rest.filterMap (F.entry table)).Perm (m.erase r.coffeeID).entries := by
  have hperm := perm_cons_erase hmem
  refine ⟨slots.erase (p, c), hperm, ?_, ?_⟩
  · have hnodup := (hperm.map Prod.fst).nodup_iff.mp h.nodup
    rw [map_cons, nodup_cons] at hnodup
    intro slot hslot heq
    have hfst : slot.1 ∈ (slots.erase (p, c)).map Prod.fst := mem_map_of_mem hslot
    rw [heq] at hfst
    exact hnodup.1 hfst
  · have hcontents := (hperm.filterMap (F.entry table)).symm.trans h.contents
    rw [filterMap_cons_some ((Cells.entry_of_row hr).trans (if_neg hid))] at hcontents
    exact (hcontents.trans (Dict.entries_perm_of_get? (h.get?_of_row hmem hr hid))).cons_inv

/-- Only the row of one slot is changed. -/
theorem rows_of_change {r' : Row} (h : Stored F table index slots m)
    (hself : F'.row table p = some r') (hother : ∀ q, q ≠ p → F'.row table q = F.row table q) :
    ∀ slot ∈ slots, ∃ r, F'.row table slot.1 = some r := by
  intro slot hslot
  by_cases hq : slot.1 = p
  · rw [hq]
    exact ⟨_, hself⟩
  · rw [hother _ hq]
    exact h.rows slot hslot

theorem contents_of_change (h : Stored F table index slots m) (hmem : (p, c) ∈ slots)
    (hr : F.row table p = some r) (hid : r.coffeeID ≠ -1)
    (hother : ∀ q, q ≠ p → F'.row table q = F.row table q) :
    (slots.filterMap (F'.entry table)).Perm
      ((F'.entry table (p, c)).toList ++ (m.erase r.coffeeID).entries) := by
  rcases h.split hmem hr hid with ⟨rest, hperm, hne, hrest⟩
  have hsame : rest.filterMap (F'.entry table) = rest.filterMap (F.entry table) := by
    refine filterMap_congr ?_
    rintro ⟨q, c'⟩ hslot
    exact Cells.entry_congr (hother q (hne _ hslot))
  refine (hperm.filterMap _).trans ?_
  rw [filterMap_cons, hsame]
  cases F'.entry table (p, c) with
  | none => exact hrest
  | some e => exact hrest.cons e

/-- The intensity of a record is changed. -/
theorem update (h : Stored F table index slots m) (hmem : (p, c) ∈ slots)
    (hr : F.row table p = some r) (hid : r.coffeeID ≠ -1) (intensity : Int) :
    Stored (F.set table .intensity p (.int intensity)) table index slots
      (m.set r.coffeeID ⟨r.coffeeName.text, intensity, c⟩) := by
  have hself := Cells.row_set_intensity hr intensity
  have hother : ∀ q, q ≠ p →
      (F.set table .intensity p (.int intensity)).row table q = F.row table q :=
    fun q hq => Cells.row_set_of_ne hq
  constructor
  case nodup => exact h.nodup
  case rows => exact h.rows_of_change hself hother
  case contents =>
    have hchange := h.contents_of_change hmem hr hid hother
    rw [(Cells.entry_of_row hself).trans (if_neg hid)] at hchange
    exact hchange.trans Dict.entries_set_perm.symm
  case index =>
    intro id q hid'
    rw [h.index id q hid']
    refine exists_congr fun c' => ?_
    by_cases hq : q = p
    · -- the id of the row is as before
      subst hq
      constructor
      · rintro ⟨r', hslot, hr', hrid⟩
        rw [hr] at hr'
        cases hr'
        exact ⟨_, hslot, hself, hrid⟩
      · rintro ⟨r', hslot, hr', hrid⟩
        rw [hself] at hr'
        cases hr'
        exact ⟨r, hslot, hr, hrid⟩
    · rw [hother q hq]

/-- A record is deleted and taken out of the index. -/
theorem remove (h : Stored F table index slots m) (hmem : (p, c) ∈ slots)
    (hr : F.row table p = some r) (hid : r.coffeeID ≠ -1) :
    Stored (F.set table .coffeeID p (.int (-1))) table (index.erase r.coffeeID) slots
      (m.erase r.coffeeID) := by
  have hself := Cells.row_set_coffeeID hr (-1)
  have hother : ∀ q, q ≠ p → (F.set table .coffeeID p (.int (-1))).row table q = F.row table q :=
    fun q hq => Cells.row_set_of_ne hq
  constructor
  case nodup => exact h.nodup
  case rows => exact h.rows_of_change hself hother
  case contents =>
    have hchange := h.contents_of_change hmem hr hid hother
    rw [(Cells.entry_of_row hself).trans (if_pos rfl)] at hchange
    exact hchange
  case index =>
    intro id q hid'
    have hold := (h.index r.coffeeID p hid).mpr ⟨c, r, hmem, hr, rfl⟩
    rw [getElem?_erase_if]
    by_cases hsame : id = r.coffeeID
    · -- no other slot has this id
      subst hsame
      rw [if_pos rfl]
      refine iff_of_false (by simp) ?_
      rintro ⟨c', r', hslot, hr', hrid⟩
      by_cases hq : q = p
      · subst hq
        rw [hself] at hr'
        cases hr'
        exact hid hrid.symm
      · rw [hother q hq] at hr'
        have hthere := (h.index _ q hid').mpr ⟨c', r', hslot, hr', hrid⟩
        rw [hold] at hthere
        injection hthere with hpq
        exact hq hpq.symm
    · rw [if_neg hsame, h.index id q hid']
      refine exists_congr fun c' => ?_
      by_cases hq : q = p
      · subst hq
        constructor
        · rintro ⟨r', -, hr', hrid⟩
          rw [hr] at hr'
          cases hr'
          exact absurd hrid.symm hsame
        · rintro ⟨r', -, hr', hrid⟩
          rw [hself] at hr'
          cases hr'
          exact absurd hrid.symm hid'
      · rw [hother q hq]

/-- A record is put into a new slot. -/
theorem add (h : Stored F table index slots m) (hnew : ∀ slot ∈ slots, slot.1 ≠ p)
    (hid : r.coffeeID ≠ -1) (habsent : m.get? r.coffeeID = none) :
    Stored (F.setRow table p r) table (index.insert r.coffeeID p) ((p, c) :: slots)
      (m.set r.coffeeID ⟨r.coffeeName.text, r.intensity, c⟩) := by
  have hself : (F.setRow table p r).row table p = some r := Cells.row_setRow_self
  have hother : ∀ q, q ≠ p → (F.setRow table p r).row table q = F.row table q :=
    fun q hq => Cells.row_setRow_of_ne hq
  constructor
  case nodup =>
    rw [map_cons, nodup_cons]
    refine ⟨?_, h.nodup⟩
    intro hmem
    rcases mem_map.mp hmem with ⟨slot, hslot, heq⟩
    exact hnew slot hslot heq
  case rows =>
    intro slot hslot
    rcases mem_cons.mp hslot with rfl | hslot
    · exact ⟨r, hself⟩
    · rw [hother _ (hnew slot hslot)]
      exact h.rows slot hslot
  case contents =>
    have hsame : slots.filterMap ((F.setRow table p r).entry table) =
        slots.filterMap (F.entry table) := by
      refine filterMap_congr ?_
      rintro ⟨q, c'⟩ hslot
      exact Cells.entry_congr (hother q (hnew _ hslot))
    rw [filterMap_cons_some ((Cells.entry_of_row hself).trans (if_neg hid)), hsame]
    refine (h.contents.cons _).trans ?_
    refine List.Perm.trans ?_ Dict.entries_set_perm.symm
    rw [Dict.entries_erase_of_none habsent]
  case index =>
    intro id q hid'
    rw [getElem?_insert_if]
    by_cases hsame : id = r.coffeeID
    · subst hsame
      rw [if_pos rfl]
      constructor
      · intro heq
        injection heq with heq
        subst heq
        exact ⟨c, r, mem_cons_self, hself, rfl⟩
      · rintro ⟨c', r', hslot, hr', hrid⟩
        rcases mem_cons.mp hslot with heq | hslot
        · cases heq
          rfl
        · -- the id was not there before
          rw [hother q (hnew _ hslot)] at hr'
          have hget := h.get?_of_row hslot hr' (hrid ▸ hid)
          rw [hrid, habsent] at hget
          cases hget
    · rw [if_neg hsame, h.index id q hid']
      constructor
      · rintro ⟨c', r', hslot, hr', hrid⟩
        refine ⟨c', r', mem_cons_of_mem _ hslot, ?_, hrid⟩
        rw [hother q (hnew _ hslot)]
        exact hr'
      · rintro ⟨c', r', hslot, hr', hrid⟩
        rcases mem_cons.mp hslot with heq | hslot
        · cases heq
          rw [hself] at hr'
          cases hr'
          exact absurd hrid.symm hsame
        · rw [hother q (hnew _ hslot)] at hr'
          exact ⟨c', r', hslot, hr', hrid⟩

/-- The slots of one block are copied to another place, apart from the others. -/
theorem move {o o' n : Nat} {rest : List (Nat × Str)} {rows : Nat → Row}
    (h : Stored F table index ((List.range n).map (fun i => (o + i, c)) ++ rest) m)
    (hrows : ∀ i, i < n → F.row table (o + i) = some (rows i))
    (hapart : o' + n ≤ o ∨ o + n ≤ o') (hrest : ∀ slot ∈ rest, ¬ (o' ≤ slot.1 ∧ slot.1 < o' + n))
    (hindex : FileManager.Reindexed (fun i => .int (rows i).coffeeID) o' n index index') :
    Stored (F.copyRows table o o' n) table index'
      ((List.range n).map (fun i => (o' + i, c)) ++ rest) m := by
  have hmoved : ∀ i, i < n → (F.copyRows table o o' n).row table (o' + i) = some (rows i) := by
    intro i hi
    rw [Cells.row_copyRows_of_in hi hapart]
    exact hrows i hi
  have hother : ∀ slot ∈ rest, (F.copyRows table o o' n).row table slot.1 = F.row table slot.1 :=
    fun slot hslot => Cells.row_copyRows_of_out (hrest slot hslot)
  have hold : ∀ i, i < n → (o + i, c) ∈ (List.range n).map (fun i => (o + i, c)) ++ rest :=
    fun i hi => mem_append_left _ (mem_map.mpr ⟨i, mem_range.mpr hi, rfl⟩)
  have hnodup := h.nodup
  rw [map_append, nodup_append] at hnodup
  constructor
  case nodup =>
    rw [map_append, nodup_append]
    refine ⟨?_, hnodup.2.1, ?_⟩
    · rw [map_map]
      exact nodup_range.map fun i j hij => Nat.add_left_cancel hij
    · intro p hp q hq hpq
      rcases mem_map.mp hp with ⟨slot, hslot, rfl⟩
      rcases mem_map.mp hslot with ⟨i, hi, rfl⟩
      rcases mem_map.mp hq with ⟨slot', hslot', rfl⟩
      have hlt := mem_range.mp hi
      refine hrest slot' hslot' ?_
      rw [← hpq]
      dsimp only
      omega
  case rows =>
    intro slot hslot
    rcases mem_append.mp hslot with hslot | hslot
    · rcases mem_map.mp hslot with ⟨i, hi, rfl⟩
      exact ⟨_, hmoved i (mem_range.mp hi)⟩
    · rw [hother slot hslot]
      exact h.rows slot (mem_append_right _ hslot)
  case contents =>
    have hcontents := h.contents
    rw [filterMap_append, filterMap_map] at hcontents ⊢
    have hblock : (List.range n).filterMap
          ((F.copyRows table o o' n).entry table ∘ fun i => (o' + i, c)) =
        (List.range n).filterMap (F.entry table ∘ fun i => (o + i, c)) := by
      refine filterMap_congr ?_
      intro i hi
      exact Cells.entry_congr (Cells.row_copyRows_of_in (mem_range.mp hi) hapart)
    have hsame : rest.filterMap ((F.copyRows table o o' n).entry table) =
        rest.filterMap (F.entry table) := by
      refine filterMap_congr ?_
      rintro ⟨q, c'⟩ hslot
      exact Cells.entry_congr (hother _ hslot)
    rw [hblock, hsame]
    exact hcontents
  case index =>
    intro id q hid
    rcases hindex id with ⟨hnone, hsame⟩ | ⟨i, hi, hval, hplace⟩
    · -- the record is not in the block
      rw [hsame, h.index id q hid]
      constructor
      · rintro ⟨c', r', hslot, hr', hrid⟩
        rcases mem_append.mp hslot with hslot | hslot
        · rcases mem_map.mp hslot with ⟨j, hj, heq⟩
          cases heq
          rw [hrows j (mem_range.mp hj)] at hr'
          cases hr'
          exact absurd hrid (hnone j (mem_range.mp hj))
        · refine ⟨c', r', mem_append_right _ hslot, ?_, hrid⟩
          rw [hother _ hslot]
          exact hr'
      · rintro ⟨c', r', hslot, hr', hrid⟩
        rcases mem_append.mp hslot with hslot | hslot
        · rcases mem_map.mp hslot with ⟨j, hj, heq⟩
          cases heq
          rw [hmoved j (mem_range.mp hj)] at hr'
          cases hr'
          exact absurd hrid (hnone j (mem_range.mp hj))
        · rw [hother _ hslot] at hr'
          exact ⟨c', r', mem_append_right _ hslot, hr', hrid⟩
    · -- the record is the only one with its id, so it is this slot of the block
      have hval' : (rows i).coffeeID = id := hval
      have hthere := (h.index id (o + i) hid).mpr ⟨c, _, hold i hi, hrows i hi, hval'⟩
      rw [hplace]
      constructor
      · intro heq
        injection heq with heq
        subst heq
        refine ⟨c, rows i, mem_append_left _ ?_, hmoved i hi, hval'⟩
        exact mem_map.mpr ⟨i, mem_range.mpr hi, rfl⟩
      · rintro ⟨c', r', hslot, hr', hrid⟩
        rcases mem_append.mp hslot with hslot | hslot
        · rcases mem_map.mp hslot with ⟨j, hj, heq⟩
          cases heq
          have hj' := mem_range.mp hj
          rw [hmoved j hj'] at hr'
          cases hr'
          have hthere' := (h.index id (o + j) hid).mpr ⟨c, _, hold j hj', hrows j hj', hrid⟩
          rw [hthere] at hthere'
          injection hthere' with heq
          rw [Nat.add_left_cancel heq]
        · rw [hother _ hslot] at hr'
          have hmem := mem_append_right ((List.range n).map fun i => (o + i, c)) hslot
          have hthere' := (h.index id q hid).mpr ⟨c', r', hmem, hr', hrid⟩
          rw [hthere] at hthere'
          injection hthere' with heq
          refine absurd heq (hnodup.2.2 _ ?_ _ (mem_map_of_mem (f := Prod.fst) hslot))
          exact mem_map.mpr ⟨_, mem_map.mpr ⟨i, mem_range.mpr hi, rfl⟩, rfl⟩

end Stored

end PittCs.Rcdb
