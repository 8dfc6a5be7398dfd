import PittCs.Rcdb.Basic

/-!
# The `tables/` directory

A table is a directory with four column files and two small ones. Every access
to a column file moves whole records at record-aligned positions, and the record
sizes (4, 8, 4 and 16 bytes) divide `PAGE_SIZE`, so a page is modelled by the
records it holds and a column file by its list of pages.
-/

namespace PittCs.Rcdb

open Std

def PAGE_SIZE : Nat := 512
def COL_BUFFER_SIZE : Nat := 16
def MIN_BLOCK_SIZE : Nat := 16

/-- The four columns, in the order of `COL_NAMES`. -/
inductive Column where
  | coffeeID
  | coffeeName
  | intensity
  | countryOfOrigin
deriving DecidableEq

namespace Column

/-- The column's number. -/
def num : Column → Nat
  | coffeeID => 0
  | coffeeName => 1
  | intensity => 2
  | countryOfOrigin => 3

theorem num_injective {c c' : Column} (h : c.num = c'.num) : c = c' := by
  cases c <;> cases c' <;> first | rfl | exact absurd h (by decide)

/-- `COL_NAMES`. -/
def name : Column → String
  | coffeeID => "coffeeID.bin"
  | coffeeName => "coffeeName.bin"
  | intensity => "intensity.bin"
  | countryOfOrigin => "countryOfOrigin.bin"

/-- `COL_RECORD_SIZES`. -/
def recordSize : Column → Nat
  | coffeeID => 4
  | coffeeName => 8
  | intensity => 4
  | countryOfOrigin => 16

end Column

/-- `struct country_of_origin`, the header of a block of records. -/
structure CountryOfOrigin where
  val : Chars8
  blockSize : Nat
  recordCount : Int
deriving DecidableEq

/-- One record of a column file. -/
inductive Item where
  | int (v : Int)
  | chars (v : Chars8)
  | header (v : CountryOfOrigin)
deriving DecidableEq

namespace Item

/-- The record read back into an `int`. -/
def toInt : Item → Int
  | int v => v
  | _ => 0

/-- The record read back into a `char[8]`. -/
def toChars : Item → Chars8
  | chars v => v
  | _ => strncpy8 (Str.ofBytes [])

/-- The record read back into a `country_of_origin`. -/
def toHeader : Item → CountryOfOrigin
  | header v => v
  | _ => ⟨strncpy8 (Str.ofBytes []), 0, 0⟩

/-- A record of zero bytes. -/
def zero : Column → Item
  | .coffeeID => int 0
  | .coffeeName => chars (strncpy8 (Str.ofBytes []))
  | .intensity => int 0
  | .countryOfOrigin => header ⟨strncpy8 (Str.ofBytes []), 0, 0⟩

end Item

/-- A page, by the number of the record in it. -/
abbrev Page := Nat → Item

/-- A page of zero bytes. -/
def zeroPage (column : Column) : Page := fun _ => Item.zero column

/-- What `Table::close` writes to `{name}.txt`: the number of pages of each
column file and the number of blocks. -/
structure TableText where
  pagesPerFile : Column → Nat
  blocksAllocated : Nat

/-- The directory of a table. -/
structure TableDir where
  columns : Column → List Page
  text : TreeMap Str TableText
  bloomfilter : Option (List (BitVec 8))

/-- The directory with one column file replaced. -/
def TableDir.setColumn (dir : TableDir) (column : Column) (file : List Page) :
    TableDir :=
  { dir with columns := fun c => if c = column then file else dir.columns c }

/-- Same lengths of the column files and the same small files. -/
def TableDir.SameShape (x y : TableDir) : Prop :=
  (∀ c, (y.columns c).length = (x.columns c).length) ∧ y.text = x.text ∧
    y.bloomfilter = x.bloomfilter

theorem TableDir.SameShape.refl (x : TableDir) : x.SameShape x := ⟨fun _ => rfl, rfl, rfl⟩

theorem TableDir.SameShape.trans {x y z : TableDir} (h : x.SameShape y) (h' : y.SameShape z) :
    x.SameShape z :=
  ⟨fun c => (h'.1 c).trans (h.1 c), h'.2.1.trans h.2.1, h'.2.2.trans h.2.2⟩

/-- The `tables/` directory, by the names of its subdirectories. -/
abbrev Disk := TreeMap Str TableDir

/-- A page of a column file of a table (`struct page_info`). -/
structure PageInfo where
  tableName : Str
  colNum : Column
  pageNum : Nat
deriving DecidableEq

namespace PageInfo

@[ext] theorem ext {x y : PageInfo} (h1 : x.tableName = y.tableName) (h2 : x.colNum = y.colNum)
    (h3 : x.pageNum = y.pageNum) : x = y := by
  cases x
  cases y
  simp_all

/-- `operator<` on `page_info`: by table, column and page. -/
def cmp : PageInfo → PageInfo → Ordering :=
  compareLex (compareOn tableName)
    (compareLex (compareOn fun p => p.colNum.num) (compareOn pageNum))

instance : Ord PageInfo := ⟨cmp⟩

instance : TransOrd PageInfo :=
  inferInstanceAs (TransCmp (compareLex (compareOn tableName)
    (compareLex (compareOn fun p => p.colNum.num) (compareOn pageNum))))

instance : LawfulEqOrd PageInfo where
  compare_self := ReflOrd.compare_self (α := PageInfo)
  eq_of_compare {a b} h := by
    have h' : compareLex (compareOn tableName)
        (compareLex (compareOn fun p => p.colNum.num) (compareOn pageNum)) a b = .eq := h
    simp only [compareLex_eq_eq, compareOn, LawfulEqOrd.compare_eq_iff_eq] at h'
    exact PageInfo.ext h'.1 (Column.num_injective h'.2.1) h'.2.2

end PageInfo

namespace Disk

/-- The page, if its file has it. -/
def page? (d : Disk) (k : PageInfo) : Option Page :=
  d[k.tableName]?.bind fun dir => (dir.columns k.colNum)[k.pageNum]?

/-- `fopen(…, "r")`, `fseek`, `fread` into `target`: nothing is read past the end
of the file. -/
def readPage (d : Disk) (k : PageInfo) (target : Page) : Except Err Page :=
  match d[k.tableName]? with
  | none => .error (.openFailed k.tableName k.colNum.name)
  | some dir => .ok (((dir.columns k.colNum)[k.pageNum]?).getD target)

/-- The file after a write of one page; a write past the end leaves a hole of zeros. -/
def writeFile (column : Column) (file : List Page) (pageNum : Nat) (p : Page) : List Page :=
  if pageNum < file.length then file.set pageNum p
  else file ++ List.replicate (pageNum - file.length) (zeroPage column) ++ [p]

/-- `fopen(…, "r+")`, `fseek`, `fwrite`. -/
def writePage (d : Disk) (k : PageInfo) (p : Page) : Except Err Disk :=
  match d[k.tableName]? with
  | none => .error (.openFailed k.tableName k.colNum.name)
  | some dir =>
    .ok (d.insert k.tableName
      (dir.setColumn k.colNum (writeFile k.colNum (dir.columns k.colNum) k.pageNum p)))

theorem page?_setColumn {d : Disk} {t : Str} {dir : TableDir} (hdir : d[t]? = some dir)
    (column : Column) (file : List Page) (k : PageInfo) :
    page? (d.insert t (dir.setColumn column file)) k =
      if k.tableName = t ∧ k.colNum = column then file[k.pageNum]? else d.page? k := by
  simp only [page?, TreeMap.getElem?_insert, LawfulEqOrd.compare_eq_iff_eq, TableDir.setColumn]
  by_cases ht : t = k.tableName
  · subst ht
    by_cases hc : k.colNum = column <;> simp [hc, hdir]
  · simp [ht, Ne.symm ht]

/-- Same files with the same lengths, and the same small files. -/
def SameShape (d d' : Disk) : Prop :=
  ∀ t : Str, Option.Rel TableDir.SameShape d[t]? d'[t]?

theorem SameShape.refl (d : Disk) : SameShape d d := by
  intro t
  cases d[t]? with
  | none => exact .none
  | some dir => exact .some (TableDir.SameShape.refl dir)

theorem SameShape.trans {d d' d'' : Disk} (h : SameShape d d') (h' : SameShape d' d'') :
    SameShape d d'' := by
  intro t
  have ht := h t
  have ht' := h' t
  cases hd : d'[t]? with
  | none =>
    rw [hd] at ht ht'
    cases hd0 : d[t]? with
    | none => rwa [hd0] at *
    | some x => rw [hd0] at ht; cases ht
  | some y =>
    rw [hd] at ht ht'
    generalize d[t]? = a at ht
    generalize d''[t]? = b at ht'
    cases ht with
    | some h1 =>
      cases ht' with
      | some h2 => exact .some (h1.trans h2)

theorem SameShape.isSome_page? {d d' : Disk} (h : SameShape d d') (k : PageInfo) :
    (d'.page? k).isSome = (d.page? k).isSome := by
  have ht := h k.tableName
  simp only [page?]
  generalize d[k.tableName]? = a at ht
  generalize d'[k.tableName]? = b at ht
  cases ht with
  | none => rfl
  | some hs =>
    rw [Bool.eq_iff_iff]
    simp [hs.1 k.colNum]

/-- Writing a page that its file has changes that page only. -/
theorem writePage_spec {d : Disk} {k : PageInfo} (h : (d.page? k).isSome) (p : Page) :
    ∃ d', d.writePage k p = .ok d' ∧ SameShape d d' ∧
      ∀ k', d'.page? k' = if k' = k then some p else d.page? k' := by
  cases hdir : d[k.tableName]? with
  | none => simp [page?, hdir] at h
  | some dir =>
    have hlt : k.pageNum < (dir.columns k.colNum).length := by
      simpa [page?, hdir] using h
    refine ⟨_, by simp only [writePage, hdir]; rfl, ?_, ?_⟩
    · intro t
      rw [TreeMap.getElem?_insert]
      by_cases ht : k.tableName = t
      · subst ht
        simp only [compare_self, if_true, hdir]
        refine .some ⟨fun c => ?_, rfl, rfl⟩
        by_cases hc : c = k.colNum
        · subst hc
          simp [TableDir.setColumn, writeFile, hlt]
        · simp [TableDir.setColumn, hc]
      · simp only [LawfulEqOrd.compare_eq_iff_eq, ht, if_false]
        exact SameShape.refl d t
    · intro k'
      rw [page?_setColumn hdir]
      by_cases hk : k' = k
      · subst hk
        simp [writeFile, hlt]
      · rw [if_neg hk]
        split
        · next hsame =>
            have hne : k.pageNum ≠ k'.pageNum := by
              intro he
              exact hk (PageInfo.ext hsame.1 hsame.2 he.symm)
            simp only [writeFile, hlt, if_true, List.getElem?_set_ne hne, page?, hsame.1,
              hsame.2, hdir, Option.bind_some]
        · rfl

/-- Reading a page that its file has. -/
theorem readPage_eq {d : Disk} {k : PageInfo} {p : Page} (h : d.page? k = some p) (target : Page) :
    d.readPage k target = .ok p := by
  cases hdir : d[k.tableName]? with
  | none => simp [page?, hdir] at h
  | some dir =>
    have hp : (dir.columns k.colNum)[k.pageNum]? = some p := by simpa [page?, hdir] using h
    simp [readPage, hdir, hp]

end Disk

end PittCs.Rcdb
