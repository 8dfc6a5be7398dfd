import PittCs.Lib.TreeMap
import PittCs.Rcdb.Transaction

/-!
# Which tables there are

Pages are only written to directories that exist, so the operations on records
change no directory. Tables come and go with `create`, `drop` and the renaming of
dropped tables alone.
-/

namespace PittCs.Rcdb

open Std PittCs.Lib

/-- The same directories. -/
def Disk.SameNames (d d' : Disk) : Prop := ∀ tb : Str, tb ∈ d' ↔ tb ∈ d

namespace Disk.SameNames

theorem refl (d : Disk) : SameNames d d := fun _ => Iff.rfl

theorem trans {d d' d'' : Disk} (h : SameNames d d') (h' : SameNames d' d'') : SameNames d d'' :=
  fun tb => (h' tb).trans (h tb)

end Disk.SameNames

theorem Disk.sameNames_insert {d : Disk} {tb : Str} {dir : TableDir} (h : d[tb]? = some dir)
    (dir' : TableDir) : SameNames d (d.insert tb dir') := by
  intro tb'
  rw [TreeMap.mem_insert]
  constructor
  · rintro (heq | hmem)
    · rw [← LawfulEqOrd.compare_eq_iff_eq.mp heq]
      exact TreeMap.mem_iff_isSome_getElem?.mpr (by rw [h]; rfl)
    · exact hmem
  · exact .inr

theorem Disk.writePage_sameNames {d d' : Disk} {k : PageInfo} {p : Page}
    (h : d.writePage k p = .ok d') : SameNames d d' := by
  unfold writePage at h
  split at h
  · cases h
  case h_2 dir hdir =>
    cases h
    exact sameNames_insert hdir _

theorem ColumnBuffer.access_sameNames {b b' : ColumnBuffer} {d d' : Disk} {table : Str}
    {column : Column} {pageNumber : Nat} {target p : Page} {op : CacheOp}
    (h : b.access d table column pageNumber target op = .ok (b', d', p)) : Disk.SameNames d d' := by
  unfold access at h
  rcases guard_eq_ok h with ⟨-, h⟩
  dsimp only at h
  split at h
  · -- a hit does not touch the disk
    cases op with
    | read | write =>
      cases h
      exact .refl d
  · split at h
    · rcases bind_eq_ok.mp h with ⟨_, -, h⟩
      cases h
      exact .refl d
    · split at h
      · cases h
      · -- the victim is written back
        rcases bind_eq_ok.mp h with ⟨d₁, hback, h⟩
        rcases bind_eq_ok.mp h with ⟨_, -, h⟩
        cases h
        unfold writeBack at hback
        split at hback
        · exact Disk.writePage_sameNames hback
        · cases hback
          exact .refl d

theorem ColumnBuffer.flushLoop_sameNames {table : Str} {l : List (PageInfo × CacheData)}
    {b b' : ColumnBuffer} {d d' : Disk} (h : flushLoop table l b d = .ok (b', d')) :
    Disk.SameNames d d' := by
  induction l generalizing b d with
  | nil =>
    cases h
    exact .refl _
  | cons e l ih =>
    unfold flushLoop at h
    split at h
    · rcases bind_eq_ok.mp h with ⟨d₁, hwrite, h⟩
      exact (Disk.writePage_sameNames hwrite).trans (ih h)
    · exact ih h

/-! ## The file manager -/

/-- The same directories under the column buffer. -/
def Store.SameNames (s s' : Store) : Prop := Disk.SameNames s.disk s'.disk

namespace FileManager

variable {m m' : FileManager} {s s' : Store} {column : Column}

theorem loadPage_sameNames {pageNumber : Nat} {p : Page}
    (h : m.loadPage s column pageNumber = .ok (s', p)) : s.SameNames s' := by
  unfold loadPage at h
  rcases guard_eq_ok h with ⟨-, h⟩
  rcases bind_eq_ok.mp h with ⟨⟨b, d, p'⟩, haccess, h⟩
  cases h
  exact ColumnBuffer.access_sameNames haccess

theorem storePage_sameNames {pageNumber : Nat} {p : Page}
    (h : m.storePage s column pageNumber p = .ok s') : s.SameNames s' := by
  unfold storePage at h
  rcases guard_eq_ok h with ⟨-, h⟩
  rcases bind_eq_ok.mp h with ⟨⟨s₁, p'⟩, hstore, h⟩
  cases h
  rcases bind_eq_ok.mp hstore with ⟨⟨b, d, p''⟩, haccess, hstore⟩
  cases hstore
  exact ColumnBuffer.access_sameNames haccess

theorem appendPages_sameNames {numPages : Nat}
    (h : m.appendPages s column numPages = .ok (m', s')) : s.SameNames s' := by
  unfold appendPages at h
  split at h
  · cases h
  case h_2 dir hdir =>
    cases h
    exact Disk.sameNames_insert hdir _

theorem padColumn_sameNames {len : Nat} (h : m.padColumn s column len = .ok (m', s')) :
    s.SameNames s' := by
  unfold padColumn at h
  split at h
  · exact appendPages_sameNames h
  · cases h
    exact .refl s.disk

/-- The file is padded where it is too short. -/
theorem padOr_sameNames {c : Prop} [Decidable c] {len : Nat}
    (h : (if c then m.padColumn s column len else pure (m, s)) = .ok (m', s')) :
    s.SameNames s' := by
  split at h
  · exact padColumn_sameNames h
  · cases h
    exact .refl s.disk

theorem getItem_sameNames {offset : Nat} {v : Item}
    (h : m.getItem s column offset = .ok (s', v)) : s.SameNames s' := by
  unfold getItem at h
  rcases guard_eq_ok h with ⟨-, h⟩
  rcases bind_eq_ok.mp h with ⟨⟨s₁, p⟩, hload, h⟩
  cases h
  exact loadPage_sameNames hload

theorem setItem_sameNames {offset : Nat} {v : Item}
    (h : m.setItem s column offset v = .ok (m', s')) : s.SameNames s' := by
  unfold setItem at h
  rcases ite_bind_eq_ok h with ⟨⟨m₁, s₁⟩, hpad, h⟩
  rcases bind_eq_ok.mp h with ⟨⟨s₂, p⟩, hload, h⟩
  rcases bind_eq_ok.mp h with ⟨s₃, hstore, h⟩
  cases h
  exact (padOr_sameNames hpad).trans ((loadPage_sameNames hload).trans (storePage_sameNames hstore))

theorem copyRecord_sameNames {startOffset endOffset i : Nat}
    (h : copyRecord column startOffset endOffset (m, s) i = .ok (m', s')) : s.SameNames s' := by
  unfold copyRecord at h
  rcases bind_eq_ok.mp h with ⟨⟨s₁, p⟩, hfrom, h⟩
  rcases bind_eq_ok.mp h with ⟨⟨s₂, q⟩, hto, h⟩
  rcases bind_eq_ok.mp h with ⟨s₃, hstore, h⟩
  cases h
  exact (loadPage_sameNames hfrom).trans ((loadPage_sameNames hto).trans (storePage_sameNames hstore))

theorem copyRecords_sameNames {startOffset endOffset numRecords : Nat}
    (h : m.copyRecords s column startOffset endOffset numRecords = .ok (m', s')) :
    s.SameNames s' := by
  unfold copyRecords at h
  rcases guard_eq_ok h with ⟨-, h⟩
  rcases ite_bind_eq_ok h with ⟨⟨m₁, s₁⟩, hpad, h⟩
  refine foldlM_eq_ok (motive := fun ms => s.SameNames ms.2) h (padOr_sameNames hpad) ?_
  intro ms i _ hms ms' hcopy
  exact hms.trans (copyRecord_sameNames hcopy)

theorem commitCache_sameNames (h : m.commitCache s = .ok s') : s.SameNames s' := by
  unfold commitCache at h
  rcases bind_eq_ok.mp h with ⟨⟨b, d⟩, hflush, h⟩
  cases h
  exact ColumnBuffer.flushLoop_sameNames hflush

end FileManager

/-! ## Tables -/

namespace Table

variable {t t' : Table} {s s' : Store}

theorem readRecord_sameNames {offset : Nat} {r : Int × Chars8 × Int}
    (h : t.readRecord s offset = .ok (s', r)) : s.SameNames s' := by
  unfold readRecord at h
  rcases bind_eq_ok.mp h with ⟨⟨s₁, _⟩, h1, h⟩
  rcases bind_eq_ok.mp h with ⟨⟨s₂, _⟩, h2, h⟩
  rcases bind_eq_ok.mp h with ⟨⟨s₃, _⟩, h3, h⟩
  cases h
  exact (FileManager.getItem_sameNames h1).trans
    ((FileManager.getItem_sameNames h2).trans (FileManager.getItem_sameNames h3))

theorem retrieve_sameNames {coffeeID : Int} {r : Option Record}
    (h : t.retrieve s coffeeID = .ok (s', r)) : s.SameNames s' := by
  unfold retrieve at h
  rcases bind_eq_ok.mp h with ⟨maybe, -, h⟩
  split at h
  · cases h
    exact .refl s.disk
  dsimp only [pure_bind] at h
  split at h
  · cases h
    exact .refl s.disk
  · rcases bind_eq_ok.mp h with ⟨⟨s₁, _⟩, hread, h⟩
    dsimp only at h
    split at h <;> cases h <;> exact readRecord_sameNames hread

theorem readBlock_sameNames {offset count : Nat} {country : Chars8} {l : List Record}
    (h : t.readBlock s offset count country = .ok (s', l)) : s.SameNames s' := by
  unfold readBlock at h
  refine foldlM_eq_ok (motive := fun acc : Store × List Record => s.SameNames acc.1) h
    (.refl s.disk) ?_
  intro acc slot _ hacc acc' h
  rcases bind_eq_ok.mp h with ⟨⟨s₁, _⟩, hread, h⟩
  dsimp only at h
  split at h <;> cases h <;> exact hacc.trans (readRecord_sameNames hread)

theorem retrieveByCountry_sameNames {garbage : Chars8} {country : Str} {l : List Record}
    (h : t.retrieveByCountry s garbage country = .ok (s', l)) : s.SameNames s' := by
  unfold retrieveByCountry at h
  split at h
  · cases h
    exact .refl s.disk
  · split at h
    · cases h
    · split at h
      · cases h
      · exact readBlock_sameNames h

theorem retrieveAll_sameNames {l : List Record} (h : t.retrieveAll s = .ok (s', l)) :
    s.SameNames s' := by
  unfold retrieveAll at h
  rcases bind_eq_ok.mp h with ⟨⟨s₁, records, offset⟩, hloop, h⟩
  cases h
  refine foldlM_eq_ok (motive := fun acc : Store × List Record × Nat => s.SameNames acc.1) hloop
    (.refl s.disk) ?_
  rintro ⟨s₂, records₂, offset₂⟩ n _ hacc acc' h
  unfold retrieveBlock at h
  dsimp only at h
  split at h
  · cases h
    exact hacc
  · rcases bind_eq_ok.mp h with ⟨⟨s₃, found⟩, hread, h⟩
    cases h
    exact hacc.trans (readBlock_sameNames hread)

theorem relocate_sameNames {mem mem' : FileManager} {move : Relocation}
    (h : relocate mem s move = .ok (mem', s')) : s.SameNames s' := by
  unfold relocate at h
  rcases bind_eq_ok.mp h with ⟨⟨m₁, s₁⟩, h1, h⟩
  rcases bind_eq_ok.mp h with ⟨⟨m₂, s₂⟩, h2, h⟩
  exact (FileManager.copyRecords_sameNames h1).trans
    ((FileManager.copyRecords_sameNames h2).trans (FileManager.copyRecords_sameNames h))

theorem insertNew_sameNames {coffeeID intensity code : Int} {coffeeName country : Str}
    (h : t.insertNew s coffeeID coffeeName intensity country = .ok (t', s', code)) :
    s.SameNames s' ∧ t'.name = t.name := by
  unfold insertNew at h
  rcases bind_eq_ok.mp h with ⟨⟨b, offset, move⟩, -, h⟩
  have htail : ∀ {mem₁ : FileManager} {s₁ : Store}, s.SameNames s₁ → (do
      let ms₂ ← mem₁.setItem s₁ .coffeeID offset (.int coffeeID)
      let ms₃ ← ms₂.1.setItem ms₂.2 .coffeeName offset (.chars (strncpy8 coffeeName))
      let ms₄ ← ms₃.1.setItem ms₃.2 .intensity offset (.int intensity)
      let mem := { ms₄.1 with coffeeIdIndex := ms₄.1.coffeeIdIndex.insert coffeeID offset }
      let bf ← t.bf.add coffeeID
      return (({ t with mem, b, bf, intensityCounts := countUp t.intensityCounts intensity } : Table),
        ms₄.2, (0 : Int))) = Except.ok (t', s', code) → s.SameNames s' ∧ t'.name = t.name := by
    intro mem₁ s₁ hs₁ h
    rcases bind_eq_ok.mp h with ⟨⟨m₂, s₂⟩, hid, h⟩
    rcases bind_eq_ok.mp h with ⟨⟨m₃, s₃⟩, hname, h⟩
    rcases bind_eq_ok.mp h with ⟨⟨m₄, s₄⟩, hintensity, h⟩
    rcases bind_eq_ok.mp h with ⟨bf, -, h⟩
    cases h
    refine ⟨hs₁.trans ?_, rfl⟩
    exact (FileManager.setItem_sameNames hid).trans
      ((FileManager.setItem_sameNames hname).trans (FileManager.setItem_sameNames hintensity))
  cases move with
  | none => exact htail (.refl s.disk) h
  | some move =>
    rcases bind_eq_ok.mp h with ⟨⟨m₁, s₁⟩, hmove, h⟩
    exact htail (relocate_sameNames hmove) h

theorem insert_sameNames {coffeeID intensity code : Int} {coffeeName country : Str}
    (h : t.insert s coffeeID coffeeName intensity country = .ok (t', s', code)) :
    s.SameNames s' ∧ t'.name = t.name := by
  by_cases hvalid : ValidArgs coffeeID coffeeName intensity country
  · rw [insert_of_valid hvalid] at h
    rcases bind_eq_ok.mp h with ⟨maybe, -, h⟩
    split at h
    · cases h
      exact ⟨.refl s.disk, rfl⟩
    · exact insertNew_sameNames h
  · rw [insert_of_not_valid hvalid] at h
    cases h
    exact ⟨.refl s.disk, rfl⟩

theorem update_sameNames {coffeeID intensity code : Int}
    (h : t.update s coffeeID intensity = .ok (t', s', code)) :
    s.SameNames s' ∧ t'.name = t.name := by
  unfold update at h
  rcases bind_eq_ok.mp h with ⟨maybe, -, h⟩
  split at h
  · cases h
    exact ⟨.refl s.disk, rfl⟩
  dsimp only [pure_bind] at h
  split at h
  · cases h
    exact ⟨.refl s.disk, rfl⟩
  · rcases bind_eq_ok.mp h with ⟨⟨s₁, old⟩, hget, h⟩
    rcases bind_eq_ok.mp h with ⟨⟨m₁, s₂⟩, hset, h⟩
    rcases bind_eq_ok.mp h with ⟨counts, -, h⟩
    cases h
    exact ⟨(FileManager.getItem_sameNames hget).trans (FileManager.setItem_sameNames hset), rfl⟩

theorem deleteRecord_sameNames {coffeeID code : Int}
    (h : t.deleteRecord s coffeeID = .ok (t', s', code)) : s.SameNames s' ∧ t'.name = t.name := by
  unfold deleteRecord at h
  rcases bind_eq_ok.mp h with ⟨maybe, -, h⟩
  split at h
  · cases h
    exact ⟨.refl s.disk, rfl⟩
  dsimp only [pure_bind] at h
  split at h
  · cases h
    exact ⟨.refl s.disk, rfl⟩
  · rcases bind_eq_ok.mp h with ⟨⟨s₁, old⟩, hget, h⟩
    rcases bind_eq_ok.mp h with ⟨counts, -, h⟩
    rcases bind_eq_ok.mp h with ⟨⟨m₁, s₂⟩, hset, h⟩
    cases h
    exact ⟨(FileManager.getItem_sameNames hget).trans (FileManager.setItem_sameNames hset), rfl⟩

theorem indexRecord_sameNames {st st' : IndexState} {offset : Nat}
    (h : indexRecord st offset = .ok st') : st.s.SameNames st'.s := by
  unfold indexRecord at h
  rcases bind_eq_ok.mp h with ⟨⟨s₁, _⟩, h1, h⟩
  rcases bind_eq_ok.mp h with ⟨⟨s₂, _⟩, h2, h⟩
  have hs₂ : st.s.SameNames s₂ :=
    (FileManager.getItem_sameNames h1).trans (FileManager.getItem_sameNames h2)
  dsimp only at h
  split at h
  · cases h
    exact hs₂
  · split at h
    · cases h
      exact hs₂
    · cases h
      exact hs₂

theorem open_sameNames {val : Str} (h : Table.open s val = .ok (t, s')) :
    s.SameNames s' ∧ t.name = val := by
  unfold Table.open at h
  rcases guard_eq_ok h with ⟨-, h⟩
  split at h
  · cases h
  case h_2 text _ =>
    rcases bind_eq_ok.mp h with ⟨l, hload, h⟩
    rcases bind_eq_ok.mp h with ⟨⟨st, offset⟩, hindex, h⟩
    cases h
    have hl : s.SameNames l.s := by
      refine foldlM_eq_ok (motive := fun l : LoadState => s.SameNames l.s) hload (.refl s.disk) ?_
      intro l i _ hl l' h
      unfold loadBlock at h
      rcases bind_eq_ok.mp h with ⟨⟨s₁, item⟩, hget, h⟩
      rcases bind_eq_ok.mp h with ⟨id, -, h⟩
      cases h
      exact hl.trans (FileManager.getItem_sameNames hget)
    refine ⟨?_, rfl⟩
    refine foldlM_eq_ok (motive := fun st : IndexState × Nat => s.SameNames st.1.s) hindex hl ?_
    rintro ⟨st, offset⟩ n _ hst st' h
    unfold indexBlock at h
    dsimp only at h
    split at h
    · cases h
      exact hst
    · rcases bind_eq_ok.mp h with ⟨st₁, hrecords, h⟩
      cases h
      refine foldlM_eq_ok (motive := fun st : IndexState => s.SameNames st.s) hrecords hst ?_
      intro st₂ slot _ hst₂ st₃ h
      exact hst₂.trans (indexRecord_sameNames h)

theorem create_names {val : Str} (h : create s val = .ok (t, s')) :
    (∀ tb, tb ∈ s'.disk ↔ tb = val ∨ tb ∈ s.disk) ∧ t.name = val := by
  unfold create at h
  rcases guard_eq_ok h with ⟨-, h⟩
  rcases guard_eq_ok h with ⟨-, h⟩
  rcases bind_eq_ok.mp h with ⟨⟨mem, s₁⟩, happend, h⟩
  cases h
  refine ⟨?_, rfl⟩
  unfold appendFirstPages at happend
  rcases bind_eq_ok.mp happend with ⟨⟨m₁, s₁⟩, h1, happend⟩
  rcases bind_eq_ok.mp happend with ⟨⟨m₂, s₂⟩, h2, happend⟩
  rcases bind_eq_ok.mp happend with ⟨⟨m₃, s₃⟩, h3, h4⟩
  have hsame := (FileManager.appendPages_sameNames h1).trans ((FileManager.appendPages_sameNames
    h2).trans ((FileManager.appendPages_sameNames h3).trans (FileManager.appendPages_sameNames h4)))
  intro tb
  rw [hsame tb]
  dsimp only
  rw [TreeMap.mem_insert, LawfulEqOrd.compare_eq_iff_eq, eq_comm]

theorem close_sameNames (h : t.close s = .ok s') : s.SameNames s' := by
  have hsmall : ∀ (d : Disk) (text : Option TableText),
      Disk.SameNames d (writeSmallFiles d t.name t.bf text) := by
    intro d text
    unfold writeSmallFiles
    split
    · exact .refl d
    case h_2 dir hdir => exact Disk.sameNames_insert hdir _
  unfold close at h
  rcases bind_eq_ok.mp h with ⟨⟨mem, s₁⟩, hloop, h⟩
  have hs₁ : s.SameNames s₁ := by
    refine foldlM_eq_ok (motive := fun ms : FileManager × Store => s.SameNames ms.2) hloop
      (hsmall s.disk none) ?_
    intro ms e _ hms ms' hset
    exact hms.trans (FileManager.setItem_sameNames hset)
  exact (hs₁.trans (hsmall s₁.disk _)).trans (FileManager.commitCache_sameNames h)

theorem drop_names (t : Table) (s : Store) (tb : Str) :
    tb ∈ (t.drop s).1.disk ↔ tb ≠ t.name ∧ tb ∈ s.disk := by
  unfold drop FileManager.markInvalid
  dsimp only
  split
  · rw [TreeMap.mem_erase, Ne, LawfulEqOrd.compare_eq_iff_eq, @eq_comm _ t.name tb]
  case isFalse hnot =>
    constructor
    · intro hmem
      exact ⟨fun heq => hnot (heq ▸ hmem), hmem⟩
    · exact And.right

end Table

/-! ## Transactions -/

/-- Every open table is filed under its name. -/
def Database.NamesOk (db : Database) : Prop :=
  ∀ (k : Str) (t : Table), db.openTables[k]? = some t → t.name = k

/-- Table `tb` is there after as before. -/
def Database.SameTable (db db' : Database) (tb : Str) : Prop :=
  tb ∈ db'.store.disk ↔ tb ∈ db.store.disk

namespace Database.NamesOk

theorem insert {db : Database} (h : db.NamesOk) {k : Str} {t : Table} (ht : t.name = k)
    (store : Store) : NamesOk ⟨store, db.openTables.insert k t⟩ := by
  intro k' t' hk'
  dsimp only at hk'
  rw [getElem?_insert_if] at hk'
  split at hk'
  case isTrue heq =>
    cases hk'
    rw [heq]
    exact ht
  case isFalse => exact h k' t' hk'

theorem erase {db : Database} (h : db.NamesOk) (k : Str) (store : Store) :
    NamesOk ⟨store, db.openTables.erase k⟩ := by
  intro k' t' hk'
  dsimp only at hk'
  rw [getElem?_erase_if] at hk'
  split at hk'
  · cases hk'
  · exact h k' t' hk'

end Database.NamesOk

theorem Disk.rename_names {d : Disk} {source target tb : Str} (hs : tb ≠ source)
    (ht : tb ≠ target) : tb ∈ Disk.rename d source target ↔ tb ∈ d := by
  unfold Disk.rename
  split
  · rfl
  · split
    · rfl
    · rw [TreeMap.mem_insert, TreeMap.mem_erase]
      simp [Ne.symm hs, Ne.symm ht]

/-- A renaming makes its target appear, if anything. -/
theorem Disk.rename_target {d : Disk} {source target : Str} (h : target ∈ d) :
    target ∈ Disk.rename d source target := by
  unfold Disk.rename
  split
  · exact h
  · rw [if_pos h]
    exact h

namespace Transaction

variable {x x' : Transaction} {db db' : Database} {table : Str}

theorem findTable_names {t : Table} {store : Store} (hnames : db.NamesOk)
    (h : findTable db table = .ok (some (t, store))) :
    db.store.SameNames store ∧ t.name = table := by
  unfold findTable at h
  split at h
  case h_1 t' ht' =>
    cases h
    exact ⟨.refl _, hnames _ _ ht'⟩
  case h_2 =>
    split at h
    · rcases bind_eq_ok.mp h with ⟨⟨t', store'⟩, hopen, h⟩
      cases h
      exact Table.open_sameNames hopen
    · cases h

theorem findTable_none (h : findTable db table = .ok none) : table ∉ db.store.disk := by
  unfold findTable at h
  split at h
  · cases h
  · split at h
    · rcases bind_eq_ok.mp h with ⟨_, -, h⟩
      cases h
    case isFalse hnot => exact hnot

theorem reading_names {α : Type} {none_ : α} {f : Table → Store → Except Err (Store × α)} {a : α}
    (hf : ∀ t s s' a, f t s = .ok (s', a) → s.SameNames s') (hnames : db.NamesOk)
    (h : reading db table none_ f = .ok (db', a)) :
    db'.NamesOk ∧ ∀ tb, db.SameTable db' tb := by
  unfold reading at h
  rcases bind_eq_ok.mp h with ⟨found, hfound, h⟩
  cases found with
  | none =>
    cases h
    exact ⟨hnames, fun _ => Iff.rfl⟩
  | some ts =>
    rcases ts with ⟨t, store⟩
    rcases findTable_names hnames hfound with ⟨hsame, hname⟩
    rcases bind_eq_ok.mp h with ⟨⟨store', a'⟩, hcall, h⟩
    cases h
    exact ⟨hnames.insert hname store', hsame.trans (hf _ _ _ _ hcall)⟩

/-- The tables a transaction has created or dropped. -/
def changed (x : Transaction) (tb : Str) : Prop := tb ∈ x.newTables ∨ tb ∈ x.droppedTables

theorem update_names {coffeeID intensity code : Int} (hnames : db.NamesOk)
    (h : x.update db table coffeeID intensity = .ok (x', db', code)) :
    db'.NamesOk ∧ (∀ tb, db.SameTable db' tb) ∧ ∀ tb, x'.changed tb ↔ x.changed tb := by
  unfold update at h
  rcases bind_eq_ok.mp h with ⟨_, -, h⟩
  rcases bind_eq_ok.mp h with ⟨_, -, h⟩
  rcases bind_eq_ok.mp h with ⟨_, -, h⟩
  rcases bind_eq_ok.mp h with ⟨found, hfound, h⟩
  cases found with
  | none =>
    cases h
    exact ⟨hnames, fun _ => Iff.rfl, fun _ => Iff.rfl⟩
  | some ts =>
    rcases ts with ⟨t, store⟩
    rcases findTable_names hnames hfound with ⟨hsame, hname⟩
    dsimp only at h
    split at h
    · rcases bind_eq_ok.mp h with ⟨⟨t₁, s₁, code₁⟩, hupdate, h⟩
      cases h
      rcases Table.update_sameNames hupdate with ⟨hs₁, ht₁⟩
      exact ⟨hnames.insert (ht₁.trans hname) _, hsame.trans hs₁, fun _ => Iff.rfl⟩
    · rcases bind_eq_ok.mp h with ⟨⟨s₀, old⟩, hretrieve, h⟩
      have hs₀ := hsame.trans (Table.retrieve_sameNames hretrieve)
      cases old with
      | none =>
        cases h
        exact ⟨hnames.insert hname _, hs₀, fun _ => Iff.rfl⟩
      | some r =>
        rcases bind_eq_ok.mp h with ⟨⟨t₁, s₁, code₁⟩, hupdate, h⟩
        rcases Table.update_sameNames hupdate with ⟨hs₁, ht₁⟩
        split at h
        · cases h
          exact ⟨hnames.insert (ht₁.trans hname) _, hs₀.trans hs₁, fun _ => Iff.rfl⟩
        · cases h
          exact ⟨hnames.insert (ht₁.trans hname) _, hs₀.trans hs₁, fun _ => Iff.rfl⟩

/-- `insert` changes no table but the one it creates. -/
theorem insert_names {coffeeID intensity : Int} {coffeeName country : Str} (hnames : db.NamesOk)
    (h : x.insert db table coffeeID coffeeName intensity country = .ok (x', db')) :
    db'.NamesOk ∧ (∀ tb, db.SameTable db' tb ∨ tb = table ∧ table ∉ db.store.disk) ∧
      ∀ tb, x'.changed tb → x.changed tb ∨ tb = table ∧ table ∉ db.store.disk := by
  unfold insert at h
  rcases bind_eq_ok.mp h with ⟨_, -, h⟩
  rcases bind_eq_ok.mp h with ⟨_, -, h⟩
  rcases bind_eq_ok.mp h with ⟨_, -, h⟩
  rcases bind_eq_ok.mp h with ⟨_, -, h⟩
  rcases bind_eq_ok.mp h with ⟨_, -, h⟩
  rcases bind_eq_ok.mp h with ⟨found, hfound, h⟩
  cases found with
  | some ts =>
    rcases ts with ⟨t, store⟩
    rcases findTable_names hnames hfound with ⟨hsame, hname⟩
    rcases bind_eq_ok.mp h with ⟨_, hpure, h⟩
    cases hpure
    rcases bind_eq_ok.mp h with ⟨⟨t', store', code⟩, hinsert, h⟩
    cases h
    rcases Table.insert_sameNames hinsert with ⟨hs', ht'⟩
    refine ⟨hnames.insert (ht'.trans hname) _, fun tb => .inl (hsame.trans hs' tb), ?_⟩
    intro tb htb
    left
    split at htb <;> exact htb
  | none =>
    have hnot := findTable_none hfound
    rcases bind_eq_ok.mp h with ⟨⟨t, store⟩, hcreate, h⟩
    rcases bind_eq_ok.mp h with ⟨_, hpure, h⟩
    cases hpure
    rcases bind_eq_ok.mp h with ⟨⟨t', store', code⟩, hinsert, h⟩
    cases h
    rcases Table.create_names hcreate with ⟨hcreated, hname⟩
    rcases Table.insert_sameNames hinsert with ⟨hs', ht'⟩
    refine ⟨hnames.insert (ht'.trans hname) _, ?_, ?_⟩
    · intro tb
      by_cases heq : tb = table
      · exact .inr ⟨heq, hnot⟩
      · left
        refine (hs' tb).trans ((hcreated tb).trans ?_)
        exact ⟨fun hor => hor.resolve_left heq, .inr⟩
    · intro tb htb
      have htb : tb ∈ x.newTables.insert table ∨ tb ∈ x.droppedTables := by
        split at htb <;> exact htb
      rcases htb with htb | htb
      · rcases TreeSet.mem_insert.mp htb with heq | htb
        · exact .inr ⟨(LawfulEqOrd.compare_eq_iff_eq.mp heq).symm, hnot⟩
        · exact .inl (.inl htb)
      · exact .inl (.inr htb)

/-- `drop_table` changes the table and the directory it moves to. -/
theorem dropTable_names {code : Int} (hnames : db.NamesOk)
    (h : x.dropTable db table = .ok (x', db', code)) :
    db'.NamesOk ∧ (∀ tb, tb ≠ table → tb ≠ deletedDir table → db.SameTable db' tb) ∧
      (deletedDir table ∈ db.store.disk → deletedDir table ≠ table →
        deletedDir table ∈ db'.store.disk) ∧
      ∀ tb, x'.changed tb → x.changed tb ∨ tb = table := by
  unfold dropTable at h
  rcases bind_eq_ok.mp h with ⟨_, -, h⟩
  rcases bind_eq_ok.mp h with ⟨found, hfound, h⟩
  cases found with
  | none =>
    cases h
    exact ⟨hnames, fun _ _ _ => Iff.rfl, fun hmem _ => hmem, fun _ => .inl⟩
  | some ts =>
    rcases ts with ⟨t, store⟩
    rcases findTable_names hnames hfound with ⟨hsame, hname⟩
    have hdrop : ∀ tb, tb ≠ table → (tb ∈ (t.drop store).1.disk ↔ tb ∈ db.store.disk) := by
      intro tb htb
      rw [Table.drop_names, hname]
      exact ⟨fun h => (hsame tb).mp h.2, fun h => ⟨htb, (hsame tb).mpr h⟩⟩
    dsimp only at h
    by_cases hdropped : table ∈ x.droppedTables
    · rw [if_pos hdropped] at h
      cases h
      exact ⟨hnames.erase _ _, fun tb htb _ => hdrop tb htb,
        fun hmem hne => (hdrop _ hne).mpr hmem, fun _ => .inl⟩
    rw [if_neg hdropped] at h
    by_cases hnew : table ∈ x.newTables
    · rw [if_pos hnew] at h
      cases h
      exact ⟨hnames.erase _ _, fun tb htb _ => hdrop tb htb,
        fun hmem hne => (hdrop _ hne).mpr hmem, fun _ => .inl⟩
    rw [if_neg hnew] at h
    rcases bind_eq_ok.mp h with ⟨store', hclose, h⟩
    cases h
    have hs' := hsame.trans (Table.close_sameNames hclose)
    refine ⟨hnames.erase _ _, ?_, ?_, ?_⟩
    · intro tb h1 h2
      exact (Disk.rename_names h1 h2).trans (hs' tb)
    · intro hmem _
      exact Disk.rename_target ((hs' _).mpr hmem)
    · intro tb htb
      rcases htb with htb | htb
      · exact .inl (.inl htb)
      · rcases TreeSet.mem_insert.mp htb with heq | htb
        · exact .inr (LawfulEqOrd.compare_eq_iff_eq.mp heq).symm
        · exact .inl (.inr htb)

theorem dropNew_names (hnames : db.NamesOk) (name : Str) :
    (dropNew db name).NamesOk ∧ ∀ tb, tb ≠ name → db.SameTable (dropNew db name) tb := by
  unfold dropNew
  split
  · exact ⟨hnames, fun _ _ => Iff.rfl⟩
  case h_2 t ht =>
    refine ⟨hnames.erase _ _, ?_⟩
    intro tb htb
    unfold Database.SameTable
    rw [Table.drop_names, hnames _ _ ht]
    exact ⟨And.right, fun hmem => ⟨htb, hmem⟩⟩

theorem restore_names {name : Str} (hnames : db.NamesOk) (h : restore db name = .ok db') :
    db'.NamesOk ∧ ∀ tb, tb ≠ name → tb ≠ deletedDir name → db.SameTable db' tb := by
  unfold restore at h
  rcases bind_eq_ok.mp h with ⟨⟨t, store⟩, hopen, h⟩
  cases h
  rcases Table.open_sameNames hopen with ⟨hsame, hname⟩
  refine ⟨hnames.insert hname store, ?_⟩
  intro tb h1 h2
  exact (hsame tb).trans (Disk.rename_names h2 h1)

theorem undoInsert_names {r : RecordId} (hnames : db.NamesOk) (h : undoInsert x db r = .ok db') :
    db'.NamesOk ∧ ∀ tb, db.SameTable db' tb := by
  unfold undoInsert at h
  split at h
  · cases h
    exact ⟨hnames, fun _ => Iff.rfl⟩
  · split at h
    · cases h
    case h_2 t ht =>
      rcases bind_eq_ok.mp h with ⟨⟨t', store, code⟩, hdelete, h⟩
      cases h
      rcases Table.deleteRecord_sameNames hdelete with ⟨hsame, hname⟩
      refine ⟨.insert hnames ?_ store, hsame⟩
      exact hname.trans (hnames _ _ ht)

theorem undoUpdate_names {e : RecordId × Int} (hnames : db.NamesOk)
    (h : undoUpdate x db e = .ok db') : db'.NamesOk ∧ ∀ tb, db.SameTable db' tb := by
  unfold undoUpdate at h
  split at h
  · cases h
    exact ⟨hnames, fun _ => Iff.rfl⟩
  · split at h
    · cases h
      exact ⟨hnames, fun _ => Iff.rfl⟩
    · split at h
      · cases h
      case h_2 t ht =>
        rcases bind_eq_ok.mp h with ⟨⟨t', store, code⟩, hupdate, h⟩
        cases h
        rcases Table.update_sameNames hupdate with ⟨hsame, hname⟩
        exact ⟨hnames.insert (hname.trans (hnames _ _ ht)) store, hsame⟩

/-- The tables that `abort` may take away or bring back. -/
def touches (x : Transaction) (tb : Str) : Prop :=
  x.changed tb ∨ ∃ name ∈ x.droppedTables, tb = deletedDir name

theorem abort_names (hnames : db.NamesOk) (h : x.abort db = .ok (x', db')) :
    db'.NamesOk ∧ ∀ tb, ¬ x.touches tb → db.SameTable db' tb := by
  unfold abort at h
  rcases guard_eq_ok h with ⟨-, h⟩
  rcases bind_eq_ok.mp h with ⟨db₂, hrestore, h⟩
  rcases bind_eq_ok.mp h with ⟨db₃, hinserts, h⟩
  rcases bind_eq_ok.mp h with ⟨db₄, hupdates, h⟩
  cases h
  have h1 : (x.newTables.toList.foldl dropNew db).NamesOk ∧
      ∀ tb, ¬ x.touches tb → db.SameTable (x.newTables.toList.foldl dropNew db) tb := by
    refine List.foldlRecOn (motive := fun db' : Database => db'.NamesOk ∧
      ∀ tb, ¬ x.touches tb → db.SameTable db' tb) _ _ ⟨hnames, fun _ _ => Iff.rfl⟩ ?_
    rintro db' ⟨hnames', hsame⟩ name hname
    rcases dropNew_names hnames' name with ⟨hnames'', hsame'⟩
    refine ⟨hnames'', fun tb htb => (hsame' tb ?_).trans (hsame tb htb)⟩
    rintro rfl
    exact htb (.inl (.inl (TreeSet.mem_toList.mp hname)))
  have h2 : db₂.NamesOk ∧ ∀ tb, ¬ x.touches tb → db.SameTable db₂ tb := by
    refine foldlM_eq_ok (motive := fun db' : Database => db'.NamesOk ∧
      ∀ tb, ¬ x.touches tb → db.SameTable db' tb) hrestore h1 ?_
    rintro db' name hname ⟨hnames', hsame⟩ db'' hcall
    rcases restore_names hnames' hcall with ⟨hnames'', hsame'⟩
    have hmem := TreeSet.mem_toList.mp hname
    refine ⟨hnames'', fun tb htb => (hsame' tb ?_ ?_).trans (hsame tb htb)⟩
    · rintro rfl
      exact htb (.inl (.inr hmem))
    · rintro rfl
      exact htb (.inr ⟨name, hmem, rfl⟩)
  have h3 : db₃.NamesOk ∧ ∀ tb, ¬ x.touches tb → db.SameTable db₃ tb := by
    refine foldlM_eq_ok (motive := fun db' : Database => db'.NamesOk ∧
      ∀ tb, ¬ x.touches tb → db.SameTable db' tb) hinserts h2 ?_
    rintro db' r _ ⟨hnames', hsame⟩ db'' hcall
    rcases undoInsert_names hnames' hcall with ⟨hnames'', hsame'⟩
    exact ⟨hnames'', fun tb htb => (hsame' tb).trans (hsame tb htb)⟩
  refine foldlM_eq_ok (motive := fun db' : Database => db'.NamesOk ∧
    ∀ tb, ¬ x.touches tb → db.SameTable db' tb) hupdates h3 ?_
  rintro db' e _ ⟨hnames', hsame⟩ db'' hcall
  rcases undoUpdate_names hnames' hcall with ⟨hnames'', hsame'⟩
  exact ⟨hnames'', fun tb htb => (hsame' tb).trans (hsame tb htb)⟩

theorem commit_names (hnames : db.NamesOk) (h : x.commit db = .ok (x', db')) : db'.NamesOk := by
  unfold commit at h
  rcases guard_eq_ok h with ⟨-, h⟩
  cases h
  exact hnames

end Transaction

end PittCs.Rcdb
