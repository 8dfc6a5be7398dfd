import PittCs.Lib.Outcome
import PittCs.Lib.TreeMap
import PittCs.Rcdb.Table

/-!
# Records of the column files

What a table relies on is not the contents of whole pages but of the records it
has written: a page may be read from a stale copy or past the end of what was
ever set. `Holds` says which records the store is known to have, in the column
buffer or on disk. Every operation of the file manager keeps the records of all
tables but the ones it sets.
-/

namespace PittCs.Rcdb

open Std PittCs.Lib

/-! ## The place of a record -/

namespace Column

theorem pageIndex_lt_iff (column : Column) (offset pages : Nat) :
    column.pageIndex offset < pages ↔ offset < pages * PAGE_SIZE / column.recordSize := by
  cases column <;> simp only [pageIndex, recordSize, PAGE_SIZE] <;> omega

theorem fileLen_eq (column : Column) (pages : Nat) :
    pages * (PAGE_SIZE / column.recordSize) = pages * PAGE_SIZE / column.recordSize := by
  cases column <;> simp only [recordSize, PAGE_SIZE] <;> omega

/-- Different records are at different places. -/
theorem eq_of_place {column : Column} {offset offset' : Nat}
    (hpage : column.pageIndex offset = column.pageIndex offset')
    (hrecord : column.recordIndex offset = column.recordIndex offset') : offset = offset' := by
  cases column <;> simp only [pageIndex, recordIndex, recordSize, PAGE_SIZE] at hpage hrecord <;>
    omega

theorem pageIndex_lt_requiredPages (column : Column) {offset len : Nat} (h : offset < len) :
    column.pageIndex offset < FileManager.requiredPages column len := by
  have hle : column.recordSize * len ≤ FileManager.requiredPages column len * PAGE_SIZE := by
    unfold FileManager.requiredPages
    dsimp only
    split
    · unfold PAGE_SIZE
      omega
    · omega
  cases column <;> simp only [pageIndex, recordSize, PAGE_SIZE] at hle ⊢ <;> omega

end Column

theorem Disk.sameShape_trans {x y z : Option TableDir} (h : Option.Rel TableDir.SameShape x y)
    (h' : Option.Rel TableDir.SameShape y z) : Option.Rel TableDir.SameShape x z := by
  cases h with
  | none =>
    cases h' with
    | none => exact .none
  | some hxy =>
    cases h' with
    | some hyz => exact .some (hxy.trans hyz)

/-! ## Known records -/

/-- The records known, by table, column and offset. -/
abbrev Cells := Str → Column → Nat → Option Item

/-- One more record. -/
def Cells.set (F : Cells) (table : Str) (column : Column) (offset : Nat) (v : Item) : Cells :=
  fun tb c o => if tb = table ∧ c = column ∧ o = offset then some v else F tb c o

theorem Cells.set_self (F : Cells) (table : Str) (column : Column) (offset : Nat) (v : Item) :
    F.set table column offset v table column offset = some v :=
  if_pos ⟨rfl, rfl, rfl⟩

theorem Cells.set_of_ne {F : Cells} {table tb : Str} {column c : Column} {offset o : Nat} {v : Item}
    (h : ¬ (tb = table ∧ c = column ∧ o = offset)) :
    F.set table column offset v tb c o = F tb c o :=
  if_neg h

/-- The first `n` records of a column from `endOffset` on are those from `startOffset` on. -/
def Cells.copy (F : Cells) (table : Str) (column : Column) (startOffset endOffset n : Nat) :
    Cells :=
  fun tb c o =>
    if tb = table ∧ c = column ∧ endOffset ≤ o ∧ o < endOffset + n then
      F table column (startOffset + (o - endOffset))
    else F tb c o

theorem Cells.copy_zero (F : Cells) (table : Str) (column : Column) (startOffset endOffset : Nat) :
    F.copy table column startOffset endOffset 0 = F := by
  funext tb c o
  exact if_neg (by omega)

theorem Cells.copy_of_out {F : Cells} {table tb : Str} {column c : Column}
    {startOffset endOffset n o : Nat}
    (h : ¬ (tb = table ∧ c = column ∧ endOffset ≤ o ∧ o < endOffset + n)) :
    F.copy table column startOffset endOffset n tb c o = F tb c o :=
  if_neg h

theorem Cells.copy_of_in {F : Cells} {table : Str} {column : Column}
    {startOffset endOffset n i : Nat} (h : i < n) :
    F.copy table column startOffset endOffset n table column (endOffset + i) =
      F table column (startOffset + i) := by
  unfold Cells.copy
  rw [if_pos ⟨rfl, rfl, by omega, by omega⟩, Nat.add_sub_cancel_left]

/-- One record more is copied. -/
theorem Cells.copy_succ {F : Cells} {table : Str} {column : Column}
    {startOffset endOffset n : Nat} {v : Item} (hv : F table column (startOffset + n) = some v) :
    (F.copy table column startOffset endOffset n).set table column (endOffset + n) v =
      F.copy table column startOffset endOffset (n + 1) := by
  funext tb c o
  by_cases hlast : tb = table ∧ c = column ∧ o = endOffset + n
  · rcases hlast with ⟨rfl, rfl, rfl⟩
    rw [Cells.set_self, Cells.copy_of_in (Nat.lt_succ_self n), hv]
  · rw [Cells.set_of_ne hlast]
    unfold Cells.copy
    refine if_congr ?_ rfl rfl
    constructor
    · rintro ⟨htb, hc, hle, hlt⟩
      exact ⟨htb, hc, hle, by omega⟩
    · rintro ⟨htb, hc, hle, hlt⟩
      have hne : o ≠ endOffset + n := fun ho => hlast ⟨htb, hc, ho⟩
      exact ⟨htb, hc, hle, by omega⟩

/-- The store has these records. -/
structure Store.Holds (s : Store) (F : Cells) : Prop where
  wf : ColumnBuffer.WF s.buf s.disk
  sat : ∀ tb c o v, F tb c o = some v →
    ColumnBuffer.Sat s.buf s.disk ⟨tb, c, c.pageIndex o⟩ fun p => p (c.recordIndex o) = v

namespace Store.Holds

variable {s : Store} {F : Cells}

/-- A known record is in a page of its file. -/
theorem page (h : s.Holds F) {tb : Str} {c : Column} {o : Nat} {v : Item}
    (hv : F tb c o = some v) : (s.disk.page? ⟨tb, c, c.pageIndex o⟩).isSome := by
  have hsat := h.sat tb c o v hv
  have hclean : (∀ d, s.buf.colBufIndex[(⟨tb, c, c.pageIndex o⟩ : PageInfo)]? = some d →
      d.dirty = false) → (s.disk.page? ⟨tb, c, c.pageIndex o⟩).isSome := by
    intro hall
    rcases hsat.2 hall with ⟨p, hp, -⟩
    rw [hp]
    rfl
  cases hentry : s.buf.colBufIndex[(⟨tb, c, c.pageIndex o⟩ : PageInfo)]? with
  | none =>
    refine hclean fun d hd => ?_
    rw [hentry] at hd
    cases hd
  | some d =>
    cases hdirty : d.dirty with
    | true => exact h.wf.dirty_page _ d hentry hdirty
    | false =>
      refine hclean fun d' hd' => ?_
      rw [hentry] at hd'
      cases hd'
      exact hdirty

end Store.Holds

/-! ## File managers and their files -/

namespace FileManager

/-- The file manager knows how long its files are. -/
structure Fits (m : FileManager) (d : Disk) : Prop where
  name_le : m.name.length ≤ 32
  dir : ∃ dir, d[m.name]? = some dir ∧ ∀ c, (dir.columns c).length = m.pagesPerFile c

variable {m m' : FileManager} {s : Store} {d d' : Disk} {F : Cells} {column : Column}

theorem Fits.isSome_page? (h : m.Fits d) (c : Column) (i : Nat) :
    (d.page? ⟨m.name, c, i⟩).isSome = true ↔ i < m.pagesPerFile c := by
  rcases h.dir with ⟨dir, hdir, hlen⟩
  simp [Disk.page?, hdir, hlen]

theorem Fits.of_sameShape (h : m.Fits d) (hshape : Disk.SameShape d d') : m.Fits d' := by
  refine ⟨h.name_le, ?_⟩
  rcases h.dir with ⟨dir, hdir, hlen⟩
  have hrel := hshape m.name
  rw [hdir] at hrel
  generalize hdir' : d'[m.name]? = r at hrel
  cases hrel with
  | some hsame => exact ⟨_, rfl, fun c => (hsame.1 c).trans (hlen c)⟩

/-- The record is in the file. -/
theorem Fits.pageIndex_lt (h : m.Fits s.disk) (hs : s.Holds F) {o : Nat} {v : Item}
    (hv : F m.name column o = some v) : column.pageIndex o < m.pagesPerFile column :=
  (h.isSome_page? column _).mp (hs.page hv)

/-- What an operation of `m` that may make its files longer does to the files. -/
structure Extends (m : FileManager) (d : Disk) (m' : FileManager) (d' : Disk) : Prop where
  name_eq : m'.name = m.name
  fits : m'.Fits d'
  le : ∀ c, m.pagesPerFile c ≤ m'.pagesPerFile c
  others : ∀ tb, tb ≠ m.name → Option.Rel TableDir.SameShape d[tb]? d'[tb]?

theorem Extends.of_sameShape (h : m.Fits d) (hshape : Disk.SameShape d d') : m.Extends d m d' :=
  ⟨rfl, h.of_sameShape hshape, fun _ => Nat.le_refl _, fun tb _ => hshape tb⟩

theorem Extends.refl (h : m.Fits d) : m.Extends d m d := .of_sameShape h (.refl d)

theorem Extends.trans {m'' : FileManager} {d'' : Disk} (h : m.Extends d m' d')
    (h' : m'.Extends d' m'' d'') : m.Extends d m'' d'' where
  name_eq := h'.name_eq.trans h.name_eq
  fits := h'.fits
  le := fun c => (h.le c).trans (h'.le c)
  others := fun tb htb =>
    Disk.sameShape_trans (h.others tb htb) (h'.others tb (h.name_eq ▸ htb))

/-! ## Pages -/

theorem loadPage_spec (hs : s.Holds F) (hm : m.Fits s.disk) {pageNumber : Nat}
    (hlt : pageNumber < m.pagesPerFile column) :
    Returns (m.loadPage s column pageNumber) fun r => r.1.Holds F ∧
      Disk.SameShape s.disk r.1.disk ∧
      ∀ o v, column.pageIndex o = pageNumber → F m.name column o = some v →
        r.2 (column.recordIndex o) = v := by
  have hpage := (hm.isSome_page? column pageNumber).mpr hlt
  rcases ColumnBuffer.access_spec hs.wf (zeroPage column) .read hm.name_le hpage with
    ⟨b, d, p, haccess, hdone⟩
  refine ⟨(⟨b, d⟩, p), ?_, ⟨hdone.wf, ?_⟩, hdone.shape, ?_⟩
  · unfold loadPage Store.access
    rw [if_neg (by omega), haccess]
    rfl
  · intro tb c o v hv
    exact hdone.keep _ _ (.inl rfl) (hs.sat tb c o v hv)
  · intro o v ho hv
    have hsat := hs.sat m.name column o v hv
    rw [ho] at hsat
    exact hdone.read rfl _ hsat

theorem storePage_spec {F' : Cells} (hs : s.Holds F) (hm : m.Fits s.disk) {pageNumber : Nat}
    (hlt : pageNumber < m.pagesPerFile column) {target : Page}
    (hpage : ∀ o v, column.pageIndex o = pageNumber → F' m.name column o = some v →
      target (column.recordIndex o) = v)
    (hother : ∀ tb c o v, ¬ (tb = m.name ∧ c = column ∧ c.pageIndex o = pageNumber) →
      F' tb c o = some v → F tb c o = some v) :
    Returns (m.storePage s column pageNumber target) fun s' => s'.Holds F' ∧
      Disk.SameShape s.disk s'.disk := by
  have hfile := (hm.isSome_page? column pageNumber).mpr hlt
  rcases ColumnBuffer.access_spec hs.wf target .write hm.name_le hfile with
    ⟨b, d, p, haccess, hdone⟩
  refine ⟨⟨b, d⟩, ?_, ⟨hdone.wf, ?_⟩, hdone.shape⟩
  · unfold storePage Store.access
    rw [if_neg (by omega), haccess]
    rfl
  · intro tb c o v hv
    by_cases hsame : tb = m.name ∧ c = column ∧ c.pageIndex o = pageNumber
    · rcases hsame with ⟨rfl, rfl, ho⟩
      rw [ho]
      refine (hdone.write rfl).imp ?_
      rintro q rfl
      exact hpage o v ho hv
    · refine hdone.keep _ _ (.inr ?_) (hs.sat tb c o v (hother tb c o v hsame hv))
      intro heq
      injection heq with htb hc ho
      exact hsame ⟨htb, hc, ho⟩

/-- The file gets `numPages` more pages and keeps what it has. -/
theorem appendPages_spec (hs : s.Holds F) (hm : m.Fits s.disk) (column : Column) (numPages : Nat) :
    Returns (m.appendPages s column numPages) fun r => r.2.Holds F ∧
      m.Extends s.disk r.1 r.2.disk ∧ r.1.coffeeIdIndex = m.coffeeIdIndex ∧
      r.1.pagesPerFile column = m.pagesPerFile column + numPages := by
  rcases hm.dir with ⟨dir, hdir, hlen⟩
  have hpages : ∀ k : PageInfo, (s.disk.page? k).isSome →
      Disk.page? (s.disk.insert m.name (dir.setColumn column
        (dir.columns column ++ List.replicate numPages (zeroPage column)))) k = s.disk.page? k := by
    intro k hk
    rw [Disk.page?_setColumn hdir]
    split
    · rename_i hsame
      have hlt : k.pageNum < (dir.columns column).length := by
        rcases k with ⟨tb, c, i⟩
        rcases hsame with ⟨rfl, rfl⟩
        simpa [Disk.page?, hdir] using hk
      rw [List.getElem?_append_left hlt]
      simp [Disk.page?, hsame.1, hsame.2, hdir]
    · rfl
  unfold appendPages
  rw [hdir]
  refine returns_ok ⟨⟨?_, ?_⟩, ⟨rfl, ⟨hm.name_le, ?_⟩, ?_, ?_⟩, rfl, if_pos rfl⟩
  · -- dirty pages stay in their files
    refine ⟨hs.wf.allocated_le, hs.wf.index_lt, hs.wf.index_inj, hs.wf.full_nonempty, ?_⟩
    intro k c hc hdirty
    have hk := hs.wf.dirty_page k c hc hdirty
    dsimp only
    rw [hpages k hk]
    exact hk
  · intro tb c o v hv
    exact (hs.sat tb c o v hv).congr rfl (fun _ _ => rfl) (hpages _ (hs.page hv))
  · refine ⟨_, TreeMap.getElem?_insert_self, ?_⟩
    intro c
    by_cases hc : c = column
    · subst hc
      simp [TableDir.setColumn, hlen]
    · simp [TableDir.setColumn, hc, hlen]
  · intro c
    dsimp only
    split
    · rename_i hc
      rw [hc]
      exact Nat.le_add_right _ _
    · exact Nat.le_refl _
  · intro tb htb
    dsimp only
    rw [TreeMap.getElem?_insert]
    have hne : ¬ compare m.name tb = .eq := by
      rw [LawfulEqOrd.compare_eq_iff_eq]
      exact htb.symm
    rw [if_neg hne]
    exact Disk.SameShape.refl s.disk tb

theorem padColumn_spec (hs : s.Holds F) (hm : m.Fits s.disk) (column : Column) (len : Nat) :
    Returns (m.padColumn s column len) fun r => r.2.Holds F ∧ m.Extends s.disk r.1 r.2.disk ∧
      r.1.coffeeIdIndex = m.coffeeIdIndex ∧
      ∀ o, o < len → column.pageIndex o < r.1.pagesPerFile column := by
  unfold padColumn
  split
  · rename_i hshort
    refine (appendPages_spec hs hm column _).mono ?_
    rintro ⟨m', s'⟩ ⟨hholds, hext, hindex, hlen⟩
    refine ⟨hholds, hext, hindex, ?_⟩
    intro o ho
    have hlt := column.pageIndex_lt_requiredPages ho
    dsimp only at hlen ⊢
    omega
  · rename_i hlong
    refine returns_ok ⟨hs, .refl hm, rfl, ?_⟩
    intro o ho
    have hlt := column.pageIndex_lt_requiredPages ho
    dsimp only
    omega

/-! ## Single records -/

theorem getItem_spec (hs : s.Holds F) (hm : m.Fits s.disk) {offset : Nat} {v : Item}
    (hv : F m.name column offset = some v) :
    Returns (m.getItem s column offset) fun r => r.2 = v ∧ r.1.Holds F ∧
      Disk.SameShape s.disk r.1.disk := by
  have hlt := hm.pageIndex_lt hs hv
  unfold getItem
  rw [if_neg (Nat.not_le.mpr ((column.pageIndex_lt_iff _ _).mp hlt))]
  refine (loadPage_spec hs hm hlt).bind ?_
  rintro ⟨s', p⟩ ⟨hholds, hshape, hrecords⟩
  exact returns_ok ⟨hrecords offset v rfl hv, hholds, hshape⟩

/-- Load a page and store it with one record changed. -/
theorem setRecord_spec (hs : s.Holds F) (hm : m.Fits s.disk) {offset : Nat} {v : Item} {p : Page}
    (hlt : column.pageIndex offset < m.pagesPerFile column)
    (hp : ∀ o w, column.pageIndex o = column.pageIndex offset → F m.name column o = some w →
      p (column.recordIndex o) = w) :
    Returns (m.storePage s column (column.pageIndex offset)
        (p.setRecord (column.recordIndex offset) v)) fun s' =>
      s'.Holds (F.set m.name column offset v) ∧ Disk.SameShape s.disk s'.disk := by
  refine storePage_spec hs hm hlt ?_ ?_
  · intro o w ho hw
    unfold Page.setRecord
    by_cases heq : o = offset
    · subst heq
      rw [Cells.set_self] at hw
      injection hw with hw
      rw [if_pos rfl, hw]
    · rw [Cells.set_of_ne fun h => heq h.2.2] at hw
      rw [if_neg fun hrecord => heq (Column.eq_of_place ho hrecord)]
      exact hp o w ho hw
  · intro tb c o w hne hw
    rw [Cells.set_of_ne] at hw
    · exact hw
    · rintro ⟨htb, hc, ho⟩
      refine hne ⟨htb, hc, ?_⟩
      rw [hc, ho]

theorem setItem_spec (hs : s.Holds F) (hm : m.Fits s.disk) (column : Column) (offset : Nat)
    (v : Item) :
    Returns (m.setItem s column offset v) fun r => r.2.Holds (F.set m.name column offset v) ∧
      m.Extends s.disk r.1 r.2.disk ∧ r.1.coffeeIdIndex = m.coffeeIdIndex := by
  have hpad : Returns (if offset ≥ m.pagesPerFile column * PAGE_SIZE / column.recordSize then
        m.padColumn s column (offset + 1) else pure (m, s)) fun r => r.2.Holds F ∧
      m.Extends s.disk r.1 r.2.disk ∧ r.1.coffeeIdIndex = m.coffeeIdIndex ∧
      column.pageIndex offset < r.1.pagesPerFile column := by
    split
    · refine (padColumn_spec hs hm column (offset + 1)).mono ?_
      rintro ⟨m', s'⟩ ⟨hholds, hext, hindex, hlt⟩
      exact ⟨hholds, hext, hindex, hlt offset (Nat.lt_succ_self _)⟩
    · rename_i hin
      exact returns_ok ⟨hs, .refl hm, rfl, (column.pageIndex_lt_iff _ _).mpr (Nat.not_le.mp hin)⟩
  have hset : m.setItem s column offset v =
      (if offset ≥ m.pagesPerFile column * PAGE_SIZE / column.recordSize then
        m.padColumn s column (offset + 1) else pure (m, s)) >>= fun ms => do
        let page ← ms.1.loadPage ms.2 column (column.pageIndex offset)
        let s ← ms.1.storePage page.1 column (column.pageIndex offset)
          (page.2.setRecord (column.recordIndex offset) v)
        return (ms.1, s) := by
    unfold setItem
    split <;> rfl
  rw [hset]
  refine hpad.bind ?_
  rintro ⟨m', s'⟩ ⟨hholds, hext, hindex, hlt⟩
  refine (loadPage_spec hholds hext.fits hlt).bind ?_
  rintro ⟨s₁, p⟩ ⟨hholds₁, hshape₁, hrecords⟩
  have hfits₁ := hext.fits.of_sameShape hshape₁
  refine (setRecord_spec hholds₁ hfits₁ hlt hrecords).bind ?_
  rintro s₂ ⟨hholds₂, hshape₂⟩
  refine returns_ok ⟨?_, ?_, hindex⟩
  · rw [← hext.name_eq]
    exact hholds₂
  · exact hext.trans (.of_sameShape hext.fits (hshape₁.trans hshape₂))

/-! ## Copies of records -/

/-- Where the primary key index finds the copied records: under each id of a copied
record the place of a copy, and nothing else is changed. -/
def Reindexed (vals : Nat → Item) (endOffset n : Nat) (index index' : TreeMap Int Nat) : Prop :=
  ∀ id, ((∀ i, i < n → (vals i).toInt ≠ id) ∧ index'[id]? = index[id]?) ∨
    ∃ i, i < n ∧ (vals i).toInt = id ∧ index'[id]? = some (endOffset + i)

theorem reindexed_zero (vals : Nat → Item) (endOffset : Nat) (index : TreeMap Int Nat) :
    Reindexed vals endOffset 0 index index := by
  intro id
  refine .inl ⟨?_, rfl⟩
  intro i hi
  omega

theorem Reindexed.succ {vals : Nat → Item} {endOffset n : Nat} {index index' : TreeMap Int Nat}
    (h : Reindexed vals endOffset n index index') :
    Reindexed vals endOffset (n + 1) index
      (index'.insert (vals n).toInt (endOffset + n)) := by
  intro id
  rw [getElem?_insert_if]
  by_cases hid : id = (vals n).toInt
  · rw [if_pos hid]
    exact .inr ⟨n, Nat.lt_succ_self n, hid.symm, rfl⟩
  · rw [if_neg hid]
    rcases h id with ⟨hnone, hsame⟩ | ⟨i, hi, hval, hplace⟩
    · refine .inl ⟨?_, hsame⟩
      intro i hi hval
      by_cases hlast : i = n
      · subst hlast
        exact hid hval.symm
      · exact hnone i (by omega) hval
    · exact .inr ⟨i, by omega, hval, hplace⟩

/-- What `copy_records` does to the index. -/
def IndexAfter (column : Column) (vals : Nat → Item) (endOffset n : Nat)
    (index index' : TreeMap Int Nat) : Prop :=
  if column = .coffeeID then Reindexed vals endOffset n index index' else index' = index

theorem copyRecord_spec {vals : Nat → Item} {startOffset endOffset i : Nat} (hs : s.Holds F)
    (hm : m.Fits s.disk) (hv : F m.name column (startOffset + i) = some (vals i))
    (hlt : column.pageIndex (endOffset + i) < m.pagesPerFile column) :
    Returns (copyRecord column startOffset endOffset (m, s) i) fun r =>
      r.2.Holds (F.set m.name column (endOffset + i) (vals i)) ∧ m.Extends s.disk r.1 r.2.disk ∧
      r.1.coffeeIdIndex = if column = .coffeeID then
          m.coffeeIdIndex.insert (vals i).toInt (endOffset + i)
        else m.coffeeIdIndex := by
  unfold copyRecord
  refine (loadPage_spec hs hm (hm.pageIndex_lt hs hv)).bind ?_
  rintro ⟨s₁, fromPage⟩ ⟨hs₁, hshape₁, hfrom⟩
  have hm₁ := hm.of_sameShape hshape₁
  refine (loadPage_spec hs₁ hm₁ hlt).bind ?_
  rintro ⟨s₂, toPage⟩ ⟨hs₂, hshape₂, hto⟩
  have hm₂ := hm₁.of_sameShape hshape₂
  have hval : fromPage (column.recordIndex (startOffset + i)) = vals i := hfrom _ _ rfl hv
  dsimp only
  rw [hval]
  -- the index does not matter for the files
  generalize hm' : (if column = Column.coffeeID then
      { m with coffeeIdIndex := m.coffeeIdIndex.insert (vals i).toInt (endOffset + i) }
    else m) = m'
  have hname : m'.name = m.name := by
    rw [← hm']
    split <;> rfl
  have hpages : m'.pagesPerFile = m.pagesPerFile := by
    rw [← hm']
    split <;> rfl
  have hfits : ∀ d, m.Fits d → m'.Fits d := by
    intro d h
    exact ⟨hname ▸ h.name_le, by rw [hname, hpages]; exact h.dir⟩
  have hindex : m'.coffeeIdIndex = if column = .coffeeID then
      m.coffeeIdIndex.insert (vals i).toInt (endOffset + i) else m.coffeeIdIndex := by
    rw [← hm']
    split <;> rfl
  refine (setRecord_spec hs₂ (hfits _ hm₂) (by rw [hpages]; exact hlt) ?_).bind ?_
  · intro o w ho hw
    rw [hname] at hw
    exact hto o w ho hw
  · rintro s₃ ⟨hs₃, hshape₃⟩
    rw [hname] at hs₃
    have hshape := (hshape₁.trans hshape₂).trans hshape₃
    refine returns_ok ⟨hs₃, ⟨hname, hfits _ (hm.of_sameShape hshape), ?_, ?_⟩, hindex⟩
    · intro c
      rw [hpages]
    · intro tb _
      exact hshape tb

/-- Records are copied to a range apart from their own. -/
theorem copyRecords_spec (vals : Nat → Item) {startOffset endOffset n : Nat} (hs : s.Holds F)
    (hm : m.Fits s.disk) (hpos : 0 < n)
    (hvals : ∀ i, i < n → F m.name column (startOffset + i) = some (vals i))
    (hapart : endOffset + n ≤ startOffset ∨ startOffset + n ≤ endOffset) :
    Returns (m.copyRecords s column startOffset endOffset n) fun r =>
      r.2.Holds (F.copy m.name column startOffset endOffset n) ∧ m.Extends s.disk r.1 r.2.disk ∧
      IndexAfter column vals endOffset n m.coffeeIdIndex r.1.coffeeIdIndex := by
  have hlast := (column.pageIndex_lt_iff _ _).mp
    (hm.pageIndex_lt hs (hvals (n - 1) (by omega)))
  have hlen := column.fileLen_eq (m.pagesPerFile column)
  have hpad : Returns (if endOffset + n ≥ m.pagesPerFile column * (PAGE_SIZE / column.recordSize)
        then m.padColumn s column (endOffset + n) else pure (m, s)) fun r => r.2.Holds F ∧
      m.Extends s.disk r.1 r.2.disk ∧ r.1.coffeeIdIndex = m.coffeeIdIndex ∧
      ∀ o, o < endOffset + n → column.pageIndex o < r.1.pagesPerFile column := by
    split
    · exact padColumn_spec hs hm column (endOffset + n)
    · rename_i hin
      refine returns_ok ⟨hs, .refl hm, rfl, ?_⟩
      intro o ho
      refine (column.pageIndex_lt_iff _ _).mpr ?_
      dsimp only
      omega
  have hcopy : m.copyRecords s column startOffset endOffset n =
      (if endOffset + n ≥ m.pagesPerFile column * (PAGE_SIZE / column.recordSize)
        then m.padColumn s column (endOffset + n) else pure (m, s)) >>= fun ms =>
        (List.range n).foldlM (copyRecord column startOffset endOffset) ms := by
    unfold copyRecords
    dsimp only
    rw [if_neg (by omega)]
    split <;> rfl
  rw [hcopy]
  refine hpad.bind ?_
  rintro ⟨m₀, s₀⟩ ⟨hs₀, hext₀, hindex₀, hpages₀⟩
  refine (Returns.foldlM_range (fun i (r : FileManager × Store) =>
    r.2.Holds (F.copy m.name column startOffset endOffset i) ∧ m.Extends s.disk r.1 r.2.disk ∧
      IndexAfter column vals endOffset i m.coffeeIdIndex r.1.coffeeIdIndex ∧
      ∀ o, o < endOffset + n → column.pageIndex o < r.1.pagesPerFile column) ?_ ?_).mono ?_
  · rw [Cells.copy_zero]
    refine ⟨hs₀, hext₀, ?_, hpages₀⟩
    rw [hindex₀]
    unfold IndexAfter
    split
    · exact reindexed_zero vals endOffset _
    · rfl
  · rintro i hi ⟨m₁, s₁⟩ ⟨hs₁, hext₁, hindex₁, hpages₁⟩
    -- the record to copy is not in the range copied to
    have hv : F.copy m.name column startOffset endOffset i m₁.name column (startOffset + i) =
        some (vals i) := by
      rw [hext₁.name_eq, Cells.copy_of_out (by omega)]
      exact hvals i hi
    refine (copyRecord_spec hs₁ hext₁.fits hv (hpages₁ _ (by omega))).mono ?_
    rintro ⟨m₂, s₂⟩ ⟨hs₂, hext₂, hindex₂⟩
    rw [hext₁.name_eq, Cells.copy_succ (hvals i hi)] at hs₂
    refine ⟨hs₂, hext₁.trans hext₂, ?_, fun o ho => (hpages₁ o ho).trans_le (hext₂.le column)⟩
    dsimp only at hindex₁ hindex₂ ⊢
    rw [hindex₂]
    unfold IndexAfter at hindex₁ ⊢
    split
    · rename_i hc
      rw [if_pos hc] at hindex₁
      exact hindex₁.succ
    · rename_i hc
      rw [if_neg hc] at hindex₁
      exact hindex₁
  · rintro ⟨m₁, s₁⟩ ⟨hs₁, hext₁, hindex₁, -⟩
    exact ⟨hs₁, hext₁, hindex₁⟩

end FileManager

end PittCs.Rcdb
