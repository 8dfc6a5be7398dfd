import PittCs.Rcdb.ColumnBuffer
import PittCs.Rcdb.BlockAllocator
import PittCs.Rcdb.BloomFilter

/-!
# The file manager

`FileManager` of `DiskManager.cpp`: single records of the column files of one
table, read and written through the column buffer, and the primary key index.
-/

namespace PittCs.Rcdb

open Std List

/-- The column buffer and the `tables/` directory under it. -/
structure Store where
  buf : ColumnBuffer
  disk : Disk

/-- `col_cache->access`. -/
def Store.access (s : Store) (table : Str) (column : Column) (pageNumber : Nat) (target : Page)
    (op : CacheOp) : Except Err (Store × Page) := do
  let (b, d, p) ← s.buf.access s.disk table column pageNumber target op
  return (⟨b, d⟩, p)

/-- The page that holds a record of a column. -/
def Column.pageIndex (column : Column) (offset : Nat) : Nat :=
  offset * column.recordSize / PAGE_SIZE

/-- The place of a record in its page. -/
def Column.recordIndex (column : Column) (offset : Nat) : Nat :=
  offset * column.recordSize % PAGE_SIZE / column.recordSize

/-- `memcpy(&target.bytes[byte_offset], bytes, record_size)`. -/
def Page.setRecord (p : Page) (i : Nat) (v : Item) : Page := fun j => if j = i then v else p j

/-- `class FileManager`. -/
structure FileManager where
  name : Str
  pagesPerFile : Column → Nat
  coffeeIdIndex : TreeMap Int Nat

namespace FileManager

/-- `FileManager::init` of a new object. -/
def init (val : Str) : FileManager := ⟨val, fun _ => 0, ∅⟩

/-- `FileManager::append_pages`. -/
def appendPages (m : FileManager) (s : Store) (column : Column) (numPages : Nat) :
    Except Err (FileManager × Store) :=
  match s.disk[m.name]? with
  | none => .error (.undefinedBehaviour "fwrite to a null FILE")
  | some dir =>
    let file := dir.columns column ++ List.replicate numPages (zeroPage column)
    .ok ({ m with
        pagesPerFile := fun c =>
          if c = column then m.pagesPerFile column + numPages else m.pagesPerFile c },
      { s with disk := s.disk.insert m.name (dir.setColumn column file) })

/-- The pages that hold `len` records, as `pad_column` computes them. -/
def requiredPages (column : Column) (len : Nat) : Nat :=
  let pages := column.recordSize * len / PAGE_SIZE
  if pages * PAGE_SIZE < column.recordSize * len then pages + 1 else pages

/-- `FileManager::pad_column`. -/
def padColumn (m : FileManager) (s : Store) (column : Column) (len : Nat) :
    Except Err (FileManager × Store) :=
  if requiredPages column len > m.pagesPerFile column then
    m.appendPages s column (requiredPages column len - m.pagesPerFile column)
  else .ok (m, s)

/-- `FileManager::load_page`. The page is a local variable of the callers; a page
of the file is read over all of it. -/
def loadPage (m : FileManager) (s : Store) (column : Column) (pageNumber : Nat) :
    Except Err (Store × Page) := do
  if pageNumber ≥ m.pagesPerFile column then throw (.invalidArgument "page_number out of bounds")
  s.access m.name column pageNumber (zeroPage column) .read

/-- `FileManager::store_page`. -/
def storePage (m : FileManager) (s : Store) (column : Column) (pageNumber : Nat) (target : Page) :
    Except Err Store := do
  if pageNumber ≥ m.pagesPerFile column then throw (.invalidArgument "page_number out of bounds")
  let (s, _) ← s.access m.name column pageNumber target .write
  return s

/-- `FileManager::get_item`. -/
def getItem (m : FileManager) (s : Store) (column : Column) (offset : Nat) :
    Except Err (Store × Item) := do
  if offset ≥ m.pagesPerFile column * PAGE_SIZE / column.recordSize then
    throw (.invalidArgument "offset out of bounds")
  let (s, target) ← m.loadPage s column (column.pageIndex offset)
  return (s, target (column.recordIndex offset))

/-- `FileManager::set_item`. -/
def setItem (m : FileManager) (s : Store) (column : Column) (offset : Nat) (v : Item) :
    Except Err (FileManager × Store) := do
  let (m, s) ←
    if offset ≥ m.pagesPerFile column * PAGE_SIZE / column.recordSize then
      m.padColumn s column (offset + 1)
    else pure (m, s)
  let (s, target) ← m.loadPage s column (column.pageIndex offset)
  let s ← m.storePage s column (column.pageIndex offset)
    (target.setRecord (column.recordIndex offset) v)
  return (m, s)

/-- One turn of the loop of `copy_records`. -/
def copyRecord (column : Column) (startOffset endOffset : Nat) (ms : FileManager × Store)
    (i : Nat) : Except Err (FileManager × Store) := do
  let (m, s) := ms
  let (s, fromPage) ← m.loadPage s column (column.pageIndex (startOffset + i))
  let (s, toPage) ← m.loadPage s column (column.pageIndex (endOffset + i))
  let v := fromPage (column.recordIndex (startOffset + i))
  -- update primary key index
  let m :=
    if column = .coffeeID then
      { m with coffeeIdIndex := m.coffeeIdIndex.insert v.toInt (endOffset + i) }
    else m
  let s ← m.storePage s column (column.pageIndex (endOffset + i))
    (toPage.setRecord (column.recordIndex (endOffset + i)) v)
  return (m, s)

/-- `FileManager::copy_records`. -/
def copyRecords (m : FileManager) (s : Store) (column : Column)
    (startOffset endOffset numRecords : Nat) : Except Err (FileManager × Store) := do
  let fileLen := m.pagesPerFile column * (PAGE_SIZE / column.recordSize)
  if startOffset + numRecords > fileLen then throw (.invalidArgument "offset out of bounds")
  let ms ←
    if endOffset + numRecords ≥ fileLen then m.padColumn s column (endOffset + numRecords)
    else pure (m, s)
  (List.range numRecords).foldlM (copyRecord column startOffset endOffset) ms

/-- `FileManager::commit_cache`. -/
def commitCache (m : FileManager) (s : Store) : Except Err Store := do
  let (b, d) ← s.buf.flush s.disk m.name
  return ⟨b, d⟩

/-- `FileManager::mark_invalid`. -/
def markInvalid (m : FileManager) (s : Store) : Store :=
  { s with buf := s.buf.deleteFromCache m.name }

end FileManager

/-!
## Tables

`TableManager.cpp`. A table keeps its records in the column files, grouped into
blocks by country of origin, with a primary key index, a histogram of the
intensities and a Bloom filter over the keys in memory.
-/

/-- `record`. -/
structure Record where
  coffeeId : Int
  coffeeName : Chars8
  intensity : Int
  countryOfOrigin : Chars8
deriving DecidableEq

/-- `class Table`. -/
structure Table where
  bf : BloomFilter
  name : Str
  mem : FileManager
  b : BlockAllocator
  intensityCounts : TreeMap Int Int

theorem length_strncpyOver (dst : Chars8) (s : Str) :
    ((s.chars ++ dst.bytes.drop s.length).take 8).length = 8 := by
  have h := dst.length_eq
  simp only [Str.length, length_take, length_append, length_drop]
  omega

/-- `strncpy(dst, s, s.length())` into eight characters that hold `dst`. -/
def strncpyOver (dst : Chars8) (s : Str) : Chars8 where
  bytes := (s.chars ++ dst.bytes.drop s.length).take 8
  length_eq := length_strncpyOver dst s

namespace Table

/-- `new Table`, before `open` or `create`. -/
def init (val : Str) : Table := ⟨.init, val, .init val, .init, ∅⟩

/-- The intensity histogram with one more record. -/
def countUp (counts : TreeMap Int Int) (intensity : Int) : TreeMap Int Int :=
  match counts[intensity]? with
  | none => counts.insert intensity 1
  | some oldCount => counts.insert intensity (oldCount + 1)

/-- The intensity histogram with one record less; `at` throws on a missing key. -/
def countDown (counts : TreeMap Int Int) (intensity : Int) : Except Err (TreeMap Int Int) :=
  match counts[intensity]? with
  | none => .error .outOfRange
  | some oldCount => .ok (if oldCount > 0 then counts.insert intensity (oldCount - 1) else counts)

/-- `mem.append_pages` of one page to each column file. -/
def appendFirstPages (mem : FileManager) (s : Store) : Except Err (FileManager × Store) := do
  let (mem, s) ← mem.appendPages s .coffeeID 1
  let (mem, s) ← mem.appendPages s .coffeeName 1
  let (mem, s) ← mem.appendPages s .intensity 1
  mem.appendPages s .countryOfOrigin 1

/-- `Table::create`. The directory `tables/` itself is there, so `mkdir` of an
empty name fails as well. -/
def create (s : Store) (val : Str) : Except Err (Table × Store) := do
  if val.length > 32 then
    throw (.invalidArgument "table name must be less than 32 characters long")
  if val.length = 0 ∨ val ∈ s.disk then
    throw (.runtimeError "failed to create table directory")
  let s := { s with disk := s.disk.insert val ⟨fun _ => [], ∅, none⟩ }
  let t := Table.init val
  let (mem, s) ← appendFirstPages t.mem s
  return ({ t with mem }, s)

/-- One turn of the loop of `close` over the blocks. -/
def closeBlock (ms : FileManager × Store) (e : Nat × Node) : Except Err (FileManager × Store) :=
  ms.1.setItem ms.2 .countryOfOrigin e.1 (.header e.2.key)

/-- The small files that `close` writes. -/
def writeSmallFiles (d : Disk) (name : Str) (bf : BloomFilter) (text : Option TableText) : Disk :=
  match d[name]? with
  | none => d
  | some dir =>
    d.insert name { dir with
      bloomfilter := some bf.bitVector
      text := match text with
        | none => dir.text
        | some text => dir.text.insert name text }

/-- `Table::close`. -/
def close (t : Table) (s : Store) : Except Err Store := do
  let s := { s with disk := writeSmallFiles s.disk t.name t.bf none }
  let indexed := (List.range t.b.nodes.length).zip t.b.nodes
  let (mem, s) ← indexed.foldlM closeBlock (t.mem, s)
  let text : TableText := ⟨mem.pagesPerFile, t.b.len⟩
  let s := { s with disk := writeSmallFiles s.disk t.name t.bf (some text) }
  mem.commitCache s

/-- The four bytes of an `int` in memory. -/
def intBytes (v : Int) : List UInt8 :=
  let n := (v % 4294967296).toNat
  [n.toUInt8, (n / 256).toUInt8, (n / 65536).toUInt8, (n / 16777216).toUInt8]

/-- `block_id = block.val`: the C string that starts at `val`. A name of eight
characters has no terminator, so the string runs on into `block_size` and
`record_count`, and past them out of the struct. -/
def blockId (block : CountryOfOrigin) : Except Err Str :=
  let bytes := block.val.bytes ++ intBytes block.blockSize ++ intBytes block.recordCount
  if 0 ∈ bytes then .ok (Str.ofBytes bytes)
  else .error (.undefinedBehaviour "block name without a terminator")

/-- The running state of the loop of `open` over the block headers. -/
structure LoadState where
  s : Store
  b : BlockAllocator
  offset : Nat

/-- One turn of the loop of `open` over the block headers. -/
def loadBlock (mem : FileManager) (l : LoadState) (i : Nat) : Except Err LoadState := do
  let (s, item) ← mem.getItem l.s .countryOfOrigin i
  let block := item.toHeader
  let id ← blockId block
  let (b, node) := l.b.insertTail block
  return ⟨s, { b with blockMap := b.blockMap.insert id ⟨l.offset, node⟩ },
    l.offset + block.blockSize⟩

/-- What `open` rebuilds: the store, the file manager with its index, and the
histogram. -/
structure IndexState where
  s : Store
  mem : FileManager
  intensityCounts : TreeMap Int Int

/-- One record of the loop of `open` that rebuilds index and histogram. -/
def indexRecord (st : IndexState) (offset : Nat) : Except Err IndexState := do
  let (s, idItem) ← st.mem.getItem st.s .coffeeID offset
  let (s, intensityItem) ← st.mem.getItem s .intensity offset
  let coffeeID := idItem.toInt
  let intensity := intensityItem.toInt
  if coffeeID = -1 then return { st with s }
  else if coffeeID ∈ st.mem.coffeeIdIndex then return { st with s }
  else
    return ⟨s, { st.mem with coffeeIdIndex := st.mem.coffeeIdIndex.insert coffeeID offset },
      countUp st.intensityCounts intensity⟩

/-- One block of the loop of `open` that rebuilds index and histogram. -/
def indexBlock (st : IndexState × Nat) (n : Node) : Except Err (IndexState × Nat) := do
  let (st, offset) := st
  if BlockAllocator.isFree n.key then return (st, offset + n.size)
  let offsets := (List.range n.key.recordCount.toNat).map (offset + ·)
  let st ← offsets.foldlM indexRecord st
  return (st, offset + n.size)

/-- `BloomFilter(string)`: an unreadable file leaves an empty bit vector. -/
def loadBloomFilter (d : Disk) (name : Str) : BloomFilter :=
  match d[name]? with
  | none => ⟨[]⟩
  | some dir => ⟨dir.bloomfilter.getD []⟩

/-- `Table::open`. -/
def «open» (s : Store) (val : Str) : Except Err (Table × Store) := do
  if val.length > 32 ∨ val.length ≤ 0 then
    throw (.invalidArgument "table name must be between 1 and 32 characters long")
  match s.disk[val]?.bind fun dir => dir.text[val]? with
  | none => throw (.invalidArgument "table of this name does not exist")
  | some text =>
    let mem : FileManager := { FileManager.init val with pagesPerFile := text.pagesPerFile }
    let l ← (List.range text.blocksAllocated).foldlM (loadBlock mem) ⟨s, .init, 0⟩
    let bf := loadBloomFilter l.s.disk val
    let (st, _) ← l.b.nodes.foldlM indexBlock (⟨l.s, mem, ∅⟩, 0)
    return (⟨bf, val, st.mem, l.b, st.intensityCounts⟩, st.s)

/-- `Table::drop`. -/
def drop (t : Table) (s : Store) : Store × Int :=
  let s := t.mem.markInvalid s
  if t.name ∈ s.disk then ({ s with disk := s.disk.erase t.name }, 0) else (s, -1)

/-- The three columns that a moved block copies. -/
def relocate (mem : FileManager) (s : Store) (move : Relocation) :
    Except Err (FileManager × Store) := do
  let (mem, s) ← mem.copyRecords s .coffeeID move.oldOffset move.newOffset move.count
  let (mem, s) ← mem.copyRecords s .coffeeName move.oldOffset move.newOffset move.count
  mem.copyRecords s .intensity move.oldOffset move.newOffset move.count

/-- `Table::insert`. -/
def insert (t : Table) (s : Store) (coffeeID : Int) (coffeeName : Str) (intensity : Int)
    (countryOfOrigin : Str) : Except Err (Table × Store × Int) := do
  if coffeeID < 0 then return (t, s, -1)
  if coffeeName.length ≤ 0 ∨ coffeeName.length > 8 then return (t, s, -1)
  if intensity < 0 then return (t, s, -1)
  if countryOfOrigin.length ≤ 0 ∨ countryOfOrigin.length > 8 then return (t, s, -1)
  let maybe ← t.bf.contains coffeeID
  if maybe ∧ coffeeID ∈ t.mem.coffeeIdIndex then return (t, s, -1)
  let (b, offset, move) ← t.b.blockInsert countryOfOrigin
  let (mem, s) ← match move with
    | none => pure (t.mem, s)
    | some move => relocate t.mem s move
  let (mem, s) ← mem.setItem s .coffeeID offset (.int coffeeID)
  let (mem, s) ← mem.setItem s .coffeeName offset (.chars (strncpy8 coffeeName))
  let (mem, s) ← mem.setItem s .intensity offset (.int intensity)
  let mem := { mem with coffeeIdIndex := mem.coffeeIdIndex.insert coffeeID offset }
  let bf ← t.bf.add coffeeID
  return ({ t with mem, b, bf, intensityCounts := countUp t.intensityCounts intensity }, s, 0)

/-- `Table::update`. -/
def update (t : Table) (s : Store) (coffeeID intensity : Int) :
    Except Err (Table × Store × Int) := do
  let maybe ← t.bf.contains coffeeID
  if ¬ maybe then return (t, s, -1)
  match t.mem.coffeeIdIndex[coffeeID]? with
  | none => return (t, s, -1)
  | some offset =>
    let (s, old) ← t.mem.getItem s .intensity offset
    let (mem, s) ← t.mem.setItem s .intensity offset (.int intensity)
    let counts ← countDown t.intensityCounts old.toInt
    return ({ t with mem, intensityCounts := countUp counts intensity }, s, 0)

/-- `BlockAllocator::get_block_from_offset`. -/
def getBlockFromOffset (offset : Nat) : List Node → Nat → Option CountryOfOrigin
  | [], _ => none
  | n :: rest, running =>
    if running ≤ offset ∧ offset < running + n.size then some n.key
    else getBlockFromOffset offset rest (running + n.size)

/-- The three columns of a record. -/
def readRecord (t : Table) (s : Store) (offset : Nat) : Except Err (Store × Int × Chars8 × Int) := do
  let (s, idItem) ← t.mem.getItem s .coffeeID offset
  let (s, nameItem) ← t.mem.getItem s .coffeeName offset
  let (s, intensityItem) ← t.mem.getItem s .intensity offset
  return (s, idItem.toInt, nameItem.toChars, intensityItem.toInt)

/-- `Table::retrieve`; the code is -1 when there is no record. -/
def retrieve (t : Table) (s : Store) (coffeeID : Int) : Except Err (Store × Option Record) := do
  let maybe ← t.bf.contains coffeeID
  if ¬ maybe then return (s, none)
  match t.mem.coffeeIdIndex[coffeeID]? with
  | none => return (s, none)
  | some offset =>
    let (s, id, name, intensity) ← t.readRecord s offset
    match getBlockFromOffset offset t.b.nodes 0 with
    | none => return (s, none)
    | some block => return (s, some ⟨id, name, intensity, strncpy8 block.val.text⟩)

/-- `Table::delete_record`. -/
def deleteRecord (t : Table) (s : Store) (coffeeID : Int) : Except Err (Table × Store × Int) := do
  let maybe ← t.bf.contains coffeeID
  if ¬ maybe then return (t, s, -1)
  match t.mem.coffeeIdIndex[coffeeID]? with
  | none => return (t, s, -1)
  | some offset =>
    let (s, old) ← t.mem.getItem s .intensity offset
    let counts ← countDown t.intensityCounts old.toInt
    let (mem, s) ← t.mem.setItem s .coffeeID offset (.int (-1))
    return ({ t with mem, intensityCounts := counts }, s, 0)

/-- The records of `count` slots from `offset` on, deleted ones left out. -/
def readBlock (t : Table) (s : Store) (offset count : Nat) (country : Chars8) :
    Except Err (Store × List Record) :=
  ((List.range count).map (offset + ·)).foldlM (fun (acc : Store × List Record) slot => do
    let (s, id, name, intensity) ← t.readRecord acc.1 slot
    if id = -1 then return (s, acc.2)
    return (s, acc.2 ++ [⟨id, name, intensity, country⟩])) (s, [])

/-- `Table::retrieve_by_country`. The record it fills is a local variable that is
not initialised: `garbage` is what its country field holds before. -/
def retrieveByCountry (t : Table) (s : Store) (garbage : Chars8) (countryOfOrigin : Str) :
    Except Err (Store × List Record) :=
  match t.b.blockMap[countryOfOrigin]? with
  | none => .ok (s, [])
  | some block =>
    if countryOfOrigin.length > 8 then
      .error (.undefinedBehaviour "strncpy past country_of_origin")
    else
      match t.b.node? block.loc with
      | none => .error (.undefinedBehaviour "block_map points to a deleted node")
      | some node =>
        t.readBlock s block.offset node.key.recordCount.toNat (strncpyOver garbage countryOfOrigin)

/-- One block of `retrieve_all`. -/
def retrieveBlock (t : Table) (acc : Store × List Record × Nat) (n : Node) :
    Except Err (Store × List Record × Nat) := do
  let (s, records, offset) := acc
  if BlockAllocator.isFree n.key then return (s, records, offset + n.size)
  let (s, found) ← t.readBlock s offset n.key.recordCount.toNat (strncpy8 n.key.val.text)
  return (s, records ++ found, offset + n.size)

/-- `Table::retrieve_all`. -/
def retrieveAll (t : Table) (s : Store) : Except Err (Store × List Record) := do
  let (s, records, _) ← t.b.nodes.foldlM (retrieveBlock t) (s, [], 0)
  return (s, records)

/-- `Table::count_by_intensity`. -/
def countByIntensity (t : Table) (intensity : Int) : Int :=
  match t.intensityCounts[intensity]? with
  | none => 0
  | some count => count

/-! ## The two halves of `insert` -/

/-- The arguments `insert` admits. -/
structure ValidArgs (coffeeID : Int) (coffeeName : Str) (intensity : Int) (countryOfOrigin : Str) :
    Prop where
  id : 0 ≤ coffeeID
  name : 0 < coffeeName.length ∧ coffeeName.length ≤ 8
  intensity : 0 ≤ intensity
  country : 0 < countryOfOrigin.length ∧ countryOfOrigin.length ≤ 8

/-- `insert` after its checks. -/
def insertNew (t : Table) (s : Store) (coffeeID : Int) (coffeeName : Str) (intensity : Int)
    (countryOfOrigin : Str) : Except Err (Table × Store × Int) := do
  let (b, offset, move) ← t.b.blockInsert countryOfOrigin
  let (mem, s) ← match move with
    | none => pure (t.mem, s)
    | some move => relocate t.mem s move
  let (mem, s) ← mem.setItem s .coffeeID offset (.int coffeeID)
  let (mem, s) ← mem.setItem s .coffeeName offset (.chars (strncpy8 coffeeName))
  let (mem, s) ← mem.setItem s .intensity offset (.int intensity)
  let mem := { mem with coffeeIdIndex := mem.coffeeIdIndex.insert coffeeID offset }
  let bf ← t.bf.add coffeeID
  return ({ t with mem, b, bf, intensityCounts := countUp t.intensityCounts intensity }, s, 0)

theorem insert_of_not_valid {t : Table} {s : Store} {coffeeID intensity : Int}
    {coffeeName countryOfOrigin : Str}
    (h : ¬ ValidArgs coffeeID coffeeName intensity countryOfOrigin) :
    t.insert s coffeeID coffeeName intensity countryOfOrigin = .ok (t, s, -1) := by
  unfold insert
  by_cases h1 : coffeeID < 0
  · rw [if_pos h1]
    rfl
  rw [if_neg h1]
  by_cases h2 : coffeeName.length ≤ 0 ∨ coffeeName.length > 8
  · rw [if_pos h2]
    rfl
  rw [if_neg h2]
  by_cases h3 : intensity < 0
  · rw [if_pos h3]
    rfl
  rw [if_neg h3]
  by_cases h4 : countryOfOrigin.length ≤ 0 ∨ countryOfOrigin.length > 8
  · rw [if_pos h4]
    rfl
  exfalso
  exact h ⟨by omega, by omega, by omega, by omega⟩

theorem insert_of_valid {t : Table} {s : Store} {coffeeID intensity : Int}
    {coffeeName countryOfOrigin : Str}
    (h : ValidArgs coffeeID coffeeName intensity countryOfOrigin) :
    t.insert s coffeeID coffeeName intensity countryOfOrigin = (do
      let maybe ← t.bf.contains coffeeID
      if maybe ∧ coffeeID ∈ t.mem.coffeeIdIndex then return (t, s, -1)
      t.insertNew s coffeeID coffeeName intensity countryOfOrigin) := by
  rcases h with ⟨h1, h2, h3, h4⟩
  unfold insert insertNew
  rw [if_neg (by omega), if_neg (by omega), if_neg (by omega), if_neg (by omega)]

end Table

end PittCs.Rcdb
