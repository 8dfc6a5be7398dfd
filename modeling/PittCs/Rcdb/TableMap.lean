import PittCs.Rcdb.Slots

/-!
# Tables as finite maps

`Ok` is the invariant of a table: its slots hold a finite map, the Bloom filter
knows its keys and the histogram counts its intensities. `insert`, `update` and
the removal of a record change the map as they should, and nothing of any other
table.
-/

namespace PittCs.Rcdb

open Std PittCs.Lib BlockAllocator List

namespace Table

/-! ## The histogram -/

/-- The number a histogram has for an intensity. -/
def countOf (counts : TreeMap Int Int) (intensity : Int) : Int := counts[intensity]?.getD 0

theorem countByIntensity_eq (t : Table) (intensity : Int) :
    t.countByIntensity intensity = countOf t.intensityCounts intensity := by
  unfold countByIntensity countOf
  split
  · rename_i h
    rw [h]
    rfl
  · rename_i h
    rw [h]
    rfl

theorem countOf_insert (counts : TreeMap Int Int) (i j v : Int) :
    countOf (counts.insert i v) j = if j = i then v else countOf counts j := by
  unfold countOf
  rw [getElem?_insert_if]
  split <;> rfl

theorem countOf_countUp (counts : TreeMap Int Int) (i j : Int) :
    countOf (countUp counts i) j = countOf counts j + if j = i then 1 else 0 := by
  have hup : countUp counts i = counts.insert i (countOf counts i + 1) := by
    unfold countUp countOf
    split
    · rename_i h
      rw [h]
      rfl
    · rename_i h
      rw [h]
      rfl
  rw [hup, countOf_insert]
  by_cases hj : j = i
  · rw [if_pos hj, if_pos hj, hj]
  · rw [if_neg hj, if_neg hj, Int.add_zero]

/-- `at` does not throw for an intensity that is counted. -/
theorem countDown_spec {counts : TreeMap Int Int} {i : Int} (hpos : 0 < countOf counts i) :
    Returns (countDown counts i) fun counts' =>
      ∀ j, countOf counts' j = countOf counts j - if j = i then 1 else 0 := by
  unfold countDown
  cases hget : counts[i]? with
  | none =>
    unfold countOf at hpos
    rw [hget] at hpos
    exact absurd hpos (by simp)
  | some oldCount =>
    have hold : countOf counts i = oldCount := by
      unfold countOf
      rw [hget]
      rfl
    rw [hold] at hpos
    dsimp only
    rw [if_pos hpos]
    refine returns_ok fun j => ?_
    rw [countOf_insert]
    by_cases hj : j = i
    · rw [if_pos hj, if_pos hj, hj, hold]
    · rw [if_neg hj, if_neg hj, Int.sub_zero]

/-! ## The invariant -/

/-- The number of records of the map with an intensity. -/
def countIn (m : Dict Int Entry) (intensity : Int) : Nat :=
  m.entries.countP fun e => e.2.intensity = intensity

/-- The table over the store holds the map. `F` are the records the store is known
to have, of this table and of others. -/
structure Ok (t : Table) (s : Store) (F : Cells) (m : Dict Int Entry) : Prop where
  holds : s.Holds F
  fits : t.mem.Fits s.disk
  name_eq : t.mem.name = t.name
  inv : t.b.Inv
  stored : Stored F t.name t.mem.coffeeIdIndex (slotsOf t.b.used) m
  full : t.bf.Full
  bloom : ∀ id e, m.get? id = some e →
    BloomFilter.Hashable id ∧ t.bf.contains id = .ok true
  counts : ∀ i, countOf t.intensityCounts i = countIn m i

/-- Nothing of a table other than `name` has changed. -/
structure Frame (name : Str) (s : Store) (F : Cells) (s' : Store) (F' : Cells) : Prop where
  cells : ∀ tb, tb ≠ name → F' tb = F tb
  dirs : ∀ tb, tb ≠ name → Option.Rel TableDir.SameShape s.disk[tb]? s'.disk[tb]?

theorem Frame.refl (name : Str) (s : Store) (F : Cells) : Frame name s F s F :=
  ⟨fun _ _ => rfl, fun tb _ => Disk.SameShape.refl s.disk tb⟩

theorem Frame.trans {name : Str} {s s' s'' : Store} {F F' F'' : Cells} (h : Frame name s F s' F')
    (h' : Frame name s' F' s'' F'') : Frame name s F s'' F'' where
  cells := fun tb htb => (h'.cells tb htb).trans (h.cells tb htb)
  dirs := fun tb htb => Disk.sameShape_trans (h.dirs tb htb) (h'.dirs tb htb)

/-- A call at `t` returned `t'`, which holds the map `m'`; the other tables are as
they were. -/
def Leaves (t : Table) (s : Store) (F : Cells) (t' : Table) (s' : Store) (m' : Dict Int Entry) :
    Prop :=
  ∃ F', t'.Ok s' F' m' ∧ t'.name = t.name ∧ Frame t.name s F s' F'

variable {t : Table} {s : Store} {F : Cells} {m : Dict Int Entry} {id intensity : Int}

theorem Ok.leaves (h : t.Ok s F m) : t.Leaves s F t s m :=
  ⟨F, h, rfl, .refl t.name s F⟩

/-- A key of the map is found. -/
theorem Ok.find (h : t.Ok s F m) {e : Entry} (hget : m.get? id = some e) :
    ∃ p c r, t.mem.coffeeIdIndex[id]? = some p ∧ (p, c) ∈ slotsOf t.b.used ∧
      F.row t.name p = some r ∧ r.coffeeID = id ∧ id ≠ -1 ∧
      e = ⟨r.coffeeName.text, r.intensity, c⟩ := by
  have hmem := h.stored.contents.mem_iff.mpr (Dict.mem_entries_iff.mpr hget)
  rcases mem_filterMap.mp hmem with ⟨⟨p, c⟩, hslot, hentry⟩
  rcases Cells.row_of_entry hentry with ⟨hid, name, hr, he⟩
  have hindex := (h.stored.index id p hid).mpr ⟨c, _, hslot, hr, rfl⟩
  exact ⟨p, c, _, hindex, hslot, hr, rfl, hid, he⟩

/-- A key that is not in the map is not in the index. -/
theorem Ok.not_found (h : t.Ok s F m) (hid : 0 ≤ id) (hget : m.get? id = none) :
    t.mem.coffeeIdIndex[id]? = none :=
  (h.stored.not_mem_index_iff (by omega)).mpr hget

theorem countIn_set {e e' : Entry} (hget : m.get? id = some e) (i : Int) :
    (countIn (m.set id e') i : Int) = countIn m i - (if i = e.intensity then 1 else 0) +
      if i = e'.intensity then 1 else 0 := by
  unfold countIn
  rw [(Dict.entries_set_perm (d := m) (k := id) (v := e')).countP_eq,
    (Dict.entries_perm_of_get? hget).countP_eq, countP_cons, countP_cons]
  by_cases h1 : i = e.intensity <;> by_cases h2 : i = e'.intensity <;>
    simp [h1, h2, eq_comm]

theorem countIn_erase {e : Entry} (hget : m.get? id = some e) (i : Int) :
    (countIn (m.erase id) i : Int) = countIn m i - if i = e.intensity then 1 else 0 := by
  unfold countIn
  rw [(Dict.entries_perm_of_get? hget).countP_eq, countP_cons]
  by_cases h1 : i = e.intensity <;> simp [h1, eq_comm]

theorem countIn_add {e : Entry} (hget : m.get? id = none) (i : Int) :
    (countIn (m.set id e) i : Int) = countIn m i + if i = e.intensity then 1 else 0 := by
  unfold countIn
  rw [(Dict.entries_set_perm (d := m) (k := id) (v := e)).countP_eq,
    Dict.entries_erase_of_none hget, countP_cons]
  by_cases h1 : i = e.intensity <;> simp [h1, eq_comm]

/-- The intensity of a record is counted. -/
theorem Ok.count_pos (h : t.Ok s F m) {e : Entry} (hget : m.get? id = some e) :
    0 < countOf t.intensityCounts e.intensity := by
  rw [h.counts]
  have hpos : 0 < countIn m e.intensity :=
    countP_pos_iff.mpr ⟨(id, e), Dict.mem_entries_iff.mpr hget, decide_eq_true rfl⟩
  omega

/-! ## `update` -/

/-- Keys and Bloom filter stay as they are when a value is replaced. -/
theorem Ok.bloom_set (h : t.Ok s F m) {e : Entry} (hget : m.get? id = some e) (e' : Entry) :
    ∀ id' e'', (m.set id e').get? id' = some e'' →
      BloomFilter.Hashable id' ∧ t.bf.contains id' = .ok true := by
  intro id' e'' hget'
  by_cases hid : id' = id
  · subst hid
    exact h.bloom id' e hget
  · rw [Dict.get?_set_of_ne hid] at hget'
    exact h.bloom id' e'' hget'

theorem update_absent (h : t.Ok s F m) (hid : BloomFilter.Hashable id)
    (hget : m.get? id = none) : t.update s id intensity = .ok (t, s, -1) := by
  unfold update
  rw [BloomFilter.contains_eq h.full hid, h.not_found hid.1 hget]
  simp only [bind, Except.bind]
  split <;> rfl

theorem update_present (h : t.Ok s F m) {e : Entry} (hget : m.get? id = some e) :
    Returns (t.update s id intensity) fun r => r.2.2 = 0 ∧
      t.Leaves s F r.1 r.2.1 (m.set id { e with intensity := intensity }) := by
  rcases h.find hget with ⟨p, c, r, hindex, hslot, hr, rfl, hid, rfl⟩
  rcases Cells.row_eq_some.mp hr with ⟨-, -, hcell⟩
  rw [← h.name_eq] at hcell
  unfold update
  rw [(h.bloom _ _ hget).2, hindex]
  refine (FileManager.getItem_spec h.holds h.fits hcell).bind ?_
  rintro ⟨s₁, old⟩ ⟨rfl, hs₁, hshape₁⟩
  refine (FileManager.setItem_spec hs₁ (h.fits.of_sameShape hshape₁) .intensity p _).bind ?_
  rintro ⟨mem₂, s₂⟩ ⟨hs₂, hext₂, hindex₂⟩
  refine (countDown_spec (h.count_pos hget)).bind ?_
  intro counts hcounts
  rw [h.name_eq] at hs₂
  refine returns_ok ⟨rfl, F.set t.name .intensity p (.int intensity), ?_, rfl, ⟨?_, ?_⟩⟩
  · constructor
    case holds => exact hs₂
    case fits => exact hext₂.fits
    case name_eq => exact hext₂.name_eq.trans h.name_eq
    case inv => exact h.inv
    case stored =>
      have hstored := h.stored.update hslot hr hid intensity
      dsimp only at hindex₂ ⊢
      rw [hindex₂]
      exact hstored
    case full => exact h.full
    case bloom => exact h.bloom_set hget _
    case counts =>
      intro i
      dsimp only
      rw [countOf_countUp, hcounts, h.counts, countIn_set hget]
  · intro tb htb
    funext c' o
    exact Cells.set_of_ne fun heq => htb heq.1
  · intro tb htb
    have hothers := FileManager.Extends.trans (.of_sameShape h.fits hshape₁) hext₂
    exact hothers.others tb (h.name_eq ▸ htb)

/-! ## Removal of a record -/

/-- `delete_record` and the removal of the id from the index, as `abort` has them. -/
def remove (t : Table) (s : Store) (coffeeID : Int) : Except Err (Table × Store × Int) := do
  let (t, s, code) ← t.deleteRecord s coffeeID
  let mem := { t.mem with coffeeIdIndex := t.mem.coffeeIdIndex.erase coffeeID }
  return ({ t with mem }, s, code)

theorem remove_absent (h : t.Ok s F m) (hid : BloomFilter.Hashable id)
    (hget : m.get? id = none) :
    Returns (t.remove s id) fun r => r.2.2 = -1 ∧ t.Leaves s F r.1 r.2.1 m := by
  have hnone := h.not_found hid.1 hget
  have hdelete : t.deleteRecord s id = .ok (t, s, -1) := by
    unfold deleteRecord
    rw [BloomFilter.contains_eq h.full hid, hnone]
    simp only [bind, Except.bind]
    split <;> rfl
  unfold remove
  rw [hdelete]
  refine returns_ok ⟨rfl, F, ?_, rfl, .refl t.name s F⟩
  -- the id was not in the index
  have hlookup : ∀ x : Int, (t.mem.coffeeIdIndex.erase id)[x]? = t.mem.coffeeIdIndex[x]? := by
    intro x
    rw [getElem?_erase_if]
    split
    · rename_i hx
      rw [hx, hnone]
    · rfl
  have hstored := h.stored
  refine ⟨h.holds, ⟨h.fits.name_le, h.fits.dir⟩, h.name_eq, h.inv, ?_, h.full, h.bloom, h.counts⟩
  refine ⟨hstored.nodup, hstored.rows, hstored.contents, ?_⟩
  intro x p hx
  dsimp only
  rw [hlookup]
  exact hstored.index x p hx

theorem remove_present (h : t.Ok s F m) {e : Entry} (hget : m.get? id = some e) :
    Returns (t.remove s id) fun r => r.2.2 = 0 ∧ t.Leaves s F r.1 r.2.1 (m.erase id) := by
  rcases h.find hget with ⟨p, c, r, hindex, hslot, hr, rfl, hid, rfl⟩
  rcases Cells.row_eq_some.mp hr with ⟨-, -, hcell⟩
  rw [← h.name_eq] at hcell
  have hdelete : Returns (t.deleteRecord s r.coffeeID) fun x => x.2.2 = 0 ∧
      x.2.1.Holds (F.set t.name .coffeeID p (.int (-1))) ∧
      t.mem.Extends s.disk x.1.mem x.2.1.disk ∧ x.1.mem.coffeeIdIndex = t.mem.coffeeIdIndex ∧
      x.1.b = t.b ∧ x.1.name = t.name ∧ x.1.bf = t.bf ∧
      ∀ j, countOf x.1.intensityCounts j =
        countOf t.intensityCounts j - if j = r.intensity then 1 else 0 := by
    unfold deleteRecord
    rw [(h.bloom _ _ hget).2, hindex]
    refine (FileManager.getItem_spec h.holds h.fits hcell).bind ?_
    rintro ⟨s₁, old⟩ ⟨rfl, hs₁, hshape₁⟩
    refine (countDown_spec (h.count_pos hget)).bind ?_
    intro counts hcounts
    refine (FileManager.setItem_spec hs₁ (h.fits.of_sameShape hshape₁) .coffeeID p _).bind ?_
    rintro ⟨mem₂, s₂⟩ ⟨hs₂, hext₂, hindex₂⟩
    rw [h.name_eq] at hs₂
    exact returns_ok ⟨rfl, hs₂, .trans (.of_sameShape h.fits hshape₁) hext₂, hindex₂, rfl, rfl, rfl,
      hcounts⟩
  refine hdelete.bind ?_
  rintro ⟨t', s', code⟩ ⟨hcode, hs', hext, hindex', hb, hname, hbf, hcounts⟩
  dsimp only at hcode hs' hext hindex' hb hname hbf hcounts
  refine returns_ok ⟨hcode, F.set t.name .coffeeID p (.int (-1)), ?_, hname, ⟨?_, ?_⟩⟩
  · constructor
    case holds => exact hs'
    case fits => exact ⟨hext.fits.name_le, hext.fits.dir⟩
    case name_eq =>
      dsimp only
      rw [hext.name_eq, hname]
      exact h.name_eq
    case inv =>
      dsimp only
      rw [hb]
      exact h.inv
    case stored =>
      dsimp only
      rw [hindex', hb, hname]
      exact h.stored.remove hslot hr hid
    case full =>
      dsimp only
      rw [hbf]
      exact h.full
    case bloom =>
      dsimp only
      rw [hbf]
      intro id' e' hget'
      by_cases hid' : id' = r.coffeeID
      · rw [hid', Dict.get?_erase_self] at hget'
        cases hget'
      · rw [Dict.get?_erase_of_ne hid'] at hget'
        exact h.bloom id' e' hget'
    case counts =>
      intro i
      dsimp only
      rw [hcounts, h.counts, countIn_erase hget]
  · intro tb htb
    funext c' o
    exact Cells.set_of_ne fun heq => htb heq.1
  · intro tb htb
    exact hext.others tb (h.name_eq ▸ htb)

/-! ## `insert` -/

/-- The three columns of a moved block are copied. -/
theorem relocate_spec {mem : FileManager} (move : Relocation) (rows : Nat → Row) (hs : s.Holds F)
    (hm : mem.Fits s.disk) (hpos : 0 < move.count)
    (hrows : ∀ i, i < move.count → F.row mem.name (move.oldOffset + i) = some (rows i))
    (hapart : move.newOffset + move.count ≤ move.oldOffset ∨
      move.oldOffset + move.count ≤ move.newOffset) :
    Returns (relocate mem s move) fun r =>
      r.2.Holds (F.copyRows mem.name move.oldOffset move.newOffset move.count) ∧
      mem.Extends s.disk r.1 r.2.disk ∧
      FileManager.Reindexed (fun i => .int (rows i).coffeeID) move.newOffset move.count
        mem.coffeeIdIndex r.1.coffeeIdIndex := by
  unfold relocate
  refine (FileManager.copyRecords_spec (fun i => .int (rows i).coffeeID)
    hs hm hpos ?_ hapart).bind ?_
  · intro i hi
    exact (Cells.row_eq_some.mp (hrows i hi)).1
  rintro ⟨m₁, s₁⟩ ⟨hs₁, hext₁, hindex₁⟩
  refine (FileManager.copyRecords_spec (fun i => .chars (rows i).coffeeName)
    hs₁ hext₁.fits hpos ?_ hapart).bind ?_
  · intro i hi
    dsimp only
    rw [Cells.copy_of_out (by simp), hext₁.name_eq]
    exact (Cells.row_eq_some.mp (hrows i hi)).2.1
  rintro ⟨m₂, s₂⟩ ⟨hs₂, hext₂, hindex₂⟩
  have hname₂ : m₂.name = mem.name := hext₂.name_eq.trans hext₁.name_eq
  refine (FileManager.copyRecords_spec (fun i => .int (rows i).intensity)
    hs₂ hext₂.fits hpos ?_ hapart).mono ?_
  · intro i hi
    dsimp only
    rw [Cells.copy_of_out (by simp), Cells.copy_of_out (by simp), hname₂]
    exact (Cells.row_eq_some.mp (hrows i hi)).2.2
  rintro ⟨m₃, s₃⟩ ⟨hs₃, hext₃, hindex₃⟩
  refine ⟨?_, hext₁.trans (hext₂.trans hext₃), ?_⟩
  · unfold Cells.copyRows
    dsimp only at hs₃ hext₁ hname₂
    rw [hname₂, hext₁.name_eq] at hs₃
    exact hs₃
  · -- only the column of the ids changes the index
    have h₁ := (if_pos rfl : FileManager.IndexAfter .coffeeID _ _ _ _ _ = _).mp hindex₁
    have h₂ := (if_neg (by decide) : FileManager.IndexAfter .coffeeName _ _ _ _ _ = _).mp hindex₂
    have h₃ := (if_neg (by decide) : FileManager.IndexAfter .intensity _ _ _ _ _ = _).mp hindex₃
    dsimp only at h₁ h₂ h₃ ⊢
    rw [h₃, h₂]
    exact h₁

theorem slotsOf_cons (o : Nat) (n : Node) (rest : List (Nat × Node)) :
    slotsOf ((o, n) :: rest) =
      (List.range n.key.recordCount.toNat).map (fun i => (o + i, n.key.val.text)) ++
        slotsOf rest := by
  unfold slotsOf blockSlots
  rw [flatMap_cons, map_map]
  rfl

/-- The block with one more record has one more slot. -/
theorem slotsOf_succ {o : Nat} {n n' : Node} {rest : List (Nat × Node)} {c : Str}
    (hpos : 0 ≤ n.key.recordCount) (hcount : n'.key.recordCount = n.key.recordCount + 1)
    (hname' : n'.key.val.text = c) :
    (slotsOf ((o, n') :: rest)).Perm ((o + (n'.key.recordCount - 1).toNat, c) ::
      ((List.range n.key.recordCount.toNat).map (fun i => (o + i, c)) ++ slotsOf rest)) := by
  have hsucc : n'.key.recordCount.toNat = n.key.recordCount.toNat + 1 := by omega
  have hlast : (n'.key.recordCount - 1).toNat = n.key.recordCount.toNat := by omega
  rw [slotsOf_cons, hsucc, hlast, hname', range_succ, map_append, append_assoc]
  exact perm_middle

/-- The copies that `block_insert` asks for. -/
def moveBlock (mem : FileManager) (s : Store) :
    Option Relocation → Except Err (FileManager × Store)
  | none => pure (mem, s)
  | some move => relocate mem s move

/-- The records of the table after `block_insert`: in their old slots, or moved. -/
theorem Ok.blockInsert (h : t.Ok s F m) {c : Str} {a' : BlockAllocator} {slot : Nat}
    {move : Option Relocation} {rest : List (Nat × Node)} {o' : Nat} {n' : Node}
    (hins : Inserted c a' slot rest o' n') (hbefore : Before t.b c move rest o' n') :
    Returns (moveBlock t.mem s move) fun r =>
      ∃ F₁ slots, r.2.Holds F₁ ∧ t.mem.Extends s.disk r.1 r.2.disk ∧
        Stored F₁ t.name r.1.coffeeIdIndex slots m ∧
        (slotsOf a'.used).Perm ((slot, c) :: slots) ∧ ∀ tb, tb ≠ t.name → F₁ tb = F tb := by
  have hperm' := slotsOf_perm hins.used_perm
  have hslot := hins.slot_eq
  have hname' := hins.named.text
  cases hbefore with
  | fresh hnone hperm hcount =>
    refine returns_ok ⟨F, slotsOf t.b.used, h.holds, .refl h.fits, h.stored, ?_, fun _ _ => rfl⟩
    refine hperm'.trans ?_
    rw [slotsOf_cons, hslot, hcount, hname']
    exact (slotsOf_perm hperm).symm.cons _
  | @grown _ _ n _ hperm hname hcount =>
    have hmem := hperm.mem_iff.mpr mem_cons_self
    have hpos := (usedKey_of_mem h.inv.ordered hmem).1.2.1
    refine returns_ok ⟨F, slotsOf t.b.used, h.holds, .refl h.fits, h.stored, ?_, fun _ _ => rfl⟩
    refine hperm'.trans ?_
    rw [hslot]
    refine (slotsOf_succ (by omega) hcount hname').trans (List.Perm.cons _ ?_)
    have hold := slotsOf_perm hperm
    rw [slotsOf_cons, hname.text] at hold
    exact hold.symm
  | @moved _ o n _ _ hperm hname hcount hapart =>
    have hmem := hperm.mem_iff.mpr mem_cons_self
    have hused := (usedKey_of_mem h.inv.ordered hmem).1.2
    have hmem' := hins.used_perm.mem_iff.mpr mem_cons_self
    have hused' := (usedKey_of_mem hins.inv.ordered hmem').1.2
    have hold := slotsOf_perm hperm
    rw [slotsOf_cons, hname.text] at hold
    have hstored := h.stored.perm hold
    have hsize : n.size = n.key.blockSize := rfl
    have hsize' : n'.size = n'.key.blockSize := rfl
    have hexists : ∃ rows : Nat → Row, ∀ i, i < n.key.recordCount.toNat →
        F.row t.name (o + i) = some (rows i) := by
      refine ⟨fun i => (F.row t.name (o + i)).getD ⟨-1, strncpy8 emptyName, 0⟩, ?_⟩
      intro i hi
      have hslot : (o + i, c) ∈ (List.range n.key.recordCount.toNat).map (fun i => (o + i, c)) ++
          slotsOf rest :=
        mem_append_left _ (mem_map.mpr ⟨i, mem_range.mpr hi, rfl⟩)
      rcases hstored.rows _ hslot with ⟨r, hr⟩
      dsimp only at hr ⊢
      rw [hr]
      rfl
    rcases hexists with ⟨rows, hrows⟩
    have hnew := hperm'.trans (slotsOf_succ (by omega) hcount hname')
    refine (relocate_spec ⟨o, o', n.key.recordCount.toNat⟩ rows h.holds h.fits
      (by dsimp only; omega) (by rw [h.name_eq]; exact hrows) (by dsimp only; omega)).mono ?_
    rintro ⟨mem₁, s₁⟩ ⟨hs₁, hext₁, hindex₁⟩
    rw [h.name_eq] at hs₁
    refine ⟨F.copyRows t.name o o' n.key.recordCount.toNat,
      (List.range n.key.recordCount.toNat).map (fun i => (o' + i, c)) ++ slotsOf rest, hs₁, hext₁,
      hstored.move hrows (by omega) ?_ hindex₁, ?_, ?_⟩
    · -- the other blocks are not where the block moves to
      intro slot' hslot' hin
      have hnodup := hins.inv.ordered.nodup_recordSlots
      rw [← map_fst_slotsOf, (hnew.map Prod.fst).nodup_iff, map_cons, nodup_cons,
        map_append, nodup_append] at hnodup
      refine hnodup.2.2.2 slot'.1 ?_ slot'.1 (mem_map_of_mem hslot') rfl
      refine mem_map.mpr ⟨(slot'.1, c), mem_map.mpr ⟨slot'.1 - o', ?_, ?_⟩, rfl⟩
      · exact mem_range.mpr (by omega)
      · exact Prod.ext (by dsimp only; omega) rfl
    · rw [hslot]
      exact hnew
    · intro tb htb
      funext c' p
      unfold Cells.copyRows
      rw [Cells.copy_of_out fun heq => htb heq.1, Cells.copy_of_out fun heq => htb heq.1,
        Cells.copy_of_out fun heq => htb heq.1]

/-- The three columns of the new slot are set. -/
def setRow (mem : FileManager) (s : Store) (p : Nat) (r : Row) :
    Except Err (FileManager × Store) := do
  let (mem, s) ← mem.setItem s .coffeeID p (.int r.coffeeID)
  let (mem, s) ← mem.setItem s .coffeeName p (.chars r.coffeeName)
  mem.setItem s .intensity p (.int r.intensity)

theorem setRow_spec {mem : FileManager} (hs : s.Holds F) (hm : mem.Fits s.disk) (p : Nat)
    (r : Row) :
    Returns (setRow mem s p r) fun x => x.2.Holds (F.setRow mem.name p r) ∧ mem.Extends s.disk x.1 x.2.disk ∧
        x.1.coffeeIdIndex = mem.coffeeIdIndex := by
  refine (FileManager.setItem_spec hs hm .coffeeID p _).bind ?_
  rintro ⟨m₁, s₁⟩ ⟨hs₁, hext₁, hindex₁⟩
  refine (FileManager.setItem_spec hs₁ hext₁.fits .coffeeName p _).bind ?_
  rintro ⟨m₂, s₂⟩ ⟨hs₂, hext₂, hindex₂⟩
  refine (FileManager.setItem_spec hs₂ hext₂.fits .intensity p _).mono ?_
  rintro ⟨m₃, s₃⟩ ⟨hs₃, hext₃, hindex₃⟩
  dsimp only at hs₃ hindex₁ hindex₂ hindex₃ hext₁ hext₂
  refine ⟨?_, hext₁.trans (hext₂.trans hext₃), hindex₃.trans (hindex₂.trans hindex₁)⟩
  rw [hext₂.name_eq, hext₁.name_eq] at hs₃
  exact hs₃

theorem insertNew_eq {coffeeName c : Str} {a' : BlockAllocator} {slot : Nat}
    {move : Option Relocation} {bf' : BloomFilter}
    (hcall : t.b.blockInsert c = .ok (a', slot, move)) (hadd : t.bf.add id = .ok bf') :
    t.insertNew s id coffeeName intensity c =
      moveBlock t.mem s move >>= fun ms =>
        setRow ms.1 ms.2 slot ⟨id, strncpy8 coffeeName, intensity⟩ >>= fun ms' =>
          pure (⟨bf', t.name, { ms'.1 with coffeeIdIndex := ms'.1.coffeeIdIndex.insert id slot }, a',
            countUp t.intensityCounts intensity⟩, ms'.2, 0) := by
  unfold insertNew
  rw [hcall, hadd]
  cases move with
  | none | some move =>
    simp only [setRow, bind_assoc]
    rfl

theorem insertNew_spec (h : t.Ok s F m) {coffeeName c : Str}
    (hvalid : ValidArgs id coffeeName intensity c) (hid : BloomFilter.Hashable id)
    (hget : m.get? id = none) :
    Returns (t.insertNew s id coffeeName intensity c) fun r => r.2.2 = 0 ∧
      t.Leaves s F r.1 r.2.1 (m.set id ⟨coffeeName, intensity, c⟩) := by
  rcases blockInsert_spec h.inv hvalid.country.1 hvalid.country.2 with
    ⟨a', slot, move, rest, o', n', hcall, hins, hbefore⟩
  rcases BloomFilter.add_spec h.full hid with ⟨bf', hadd, hfull, hself, hkeep⟩
  rw [insertNew_eq hcall hadd]
  refine (h.blockInsert hins hbefore).bind ?_
  rintro ⟨mem₁, s₁⟩ ⟨F₁, slots, hs₁, hext₁, hstored₁, hperm, hframe⟩
  refine (setRow_spec hs₁ hext₁.fits slot ⟨id, strncpy8 coffeeName, intensity⟩).bind ?_
  rintro ⟨mem₂, s₂⟩ ⟨hs₂, hext₂, hindex₂⟩
  dsimp only at hs₁ hext₁ hstored₁ hs₂ hext₂ hindex₂
  have hname₁ : mem₁.name = t.name := hext₁.name_eq.trans h.name_eq
  rw [hname₁] at hs₂
  have hnodup := hins.inv.ordered.nodup_recordSlots
  rw [← map_fst_slotsOf, (hperm.map Prod.fst).nodup_iff, map_cons, nodup_cons] at hnodup
  have hnew : ∀ x ∈ slots, x.1 ≠ slot := by
    intro x hx heq
    have hfst : x.1 ∈ slots.map Prod.fst := mem_map_of_mem hx
    rw [heq] at hfst
    exact hnodup.1 hfst
  have hne : id ≠ -1 := by
    have hpos := hid.1
    omega
  have hstored := hstored₁.add (c := c) (r := ⟨id, strncpy8 coffeeName, intensity⟩) hnew hne hget
  dsimp only at hstored
  rw [text_strncpy8 hvalid.name.2] at hstored
  refine returns_ok ⟨rfl, F₁.setRow t.name slot ⟨id, strncpy8 coffeeName, intensity⟩, ?_, rfl,
    ⟨?_, ?_⟩⟩
  · constructor
    case holds => exact hs₂
    case fits => exact ⟨hext₂.fits.name_le, hext₂.fits.dir⟩
    case name_eq => exact hext₂.name_eq.trans hname₁
    case inv => exact hins.inv
    case stored =>
      dsimp only
      rw [hindex₂]
      exact hstored.perm hperm.symm
    case full => exact hfull
    case bloom =>
      intro id' e' hget'
      by_cases hid' : id' = id
      · rw [hid']
        exact ⟨hid, hself⟩
      · rw [Dict.get?_set_of_ne hid'] at hget'
        rcases h.bloom id' e' hget' with ⟨hhash, hcontains⟩
        exact ⟨hhash, hkeep id' hhash hcontains⟩
    case counts =>
      intro i
      dsimp only
      rw [countOf_countUp, h.counts, countIn_add hget]
  · intro tb htb
    rw [← hframe tb htb]
    funext c' p
    unfold Cells.setRow
    rw [Cells.set_of_ne fun heq => htb heq.1, Cells.set_of_ne fun heq => htb heq.1,
      Cells.set_of_ne fun heq => htb heq.1]
  · intro tb htb
    exact (hext₁.trans hext₂).others tb (h.name_eq ▸ htb)

end Table

end PittCs.Rcdb
