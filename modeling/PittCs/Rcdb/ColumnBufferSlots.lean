import Mathlib.Data.Finset.Card
import PittCs.Lib.Outcome
import PittCs.Lib.TransitionSystem
import PittCs.Lib.TreeMap
import PittCs.Rcdb.ColumnBuffer

/-!
# The slots of the column buffer

Every slot handed out belongs to one entry of the index. Reading, writing and
flushing keep it so. `delete_from_cache` renames the pages of a table to one name
for all dropped tables, and a slot is lost for every page whose new key is taken.
The disk may change in any way between two calls; an exception ends the program.
-/

namespace PittCs.Rcdb

open Std PittCs.Lib List

namespace ColumnBuffer

/-! ## Calls -/

/-- The calls on a column buffer, with the disk they find. -/
inductive CacheCall where
  | access (d : Disk) (table : Str) (column : Column) (pageNumber : Nat) (target : Page)
      (op : CacheOp)
  | flush (d : Disk) (table : Str)
  | deleteFromCache (table : Str)

def call (b : ColumnBuffer) : CacheCall → Except Err ColumnBuffer
  | .access d table column pageNumber target op => do
    let (b, _, _) ← b.access d table column pageNumber target op
    return b
  | .flush d table => do
    let (b, _) ← b.flush d table
    return b
  | .deleteFromCache table => .ok (b.deleteFromCache table)

/-- A column buffer under any calls. -/
def bufferSystem : TransitionSystem ColumnBuffer CacheCall where
  Init b := b = init
  Next b c b' := b.call c = .ok b'

/-- No slot is lost: the entries have distinct slots, and as many as were handed out. -/
structure Accounted (b : ColumnBuffer) : Prop where
  allocated_le : b.pagesAllocated ≤ COL_BUFFER_SIZE
  slot_lt : ∀ (k : PageInfo) (c : CacheData), b.colBufIndex[k]? = some c →
    c.index < b.pagesAllocated
  slot_inj : ∀ (k k' : PageInfo) (c c' : CacheData), b.colBufIndex[k]? = some c →
    b.colBufIndex[k']? = some c' → c.index = c'.index → k = k'
  count : b.colBufIndex.size = b.pagesAllocated

/-- The page under the name of the dropped tables. -/
def renamed (k : PageInfo) : PageInfo := { k with tableName := deletedName }

/-- No dropped table has left a page where one of this table would go. -/
def KeysFree (b : ColumnBuffer) (table : Str) : Prop :=
  table ≠ deletedName → ∀ k ∈ b.colBufIndex.keys, k.tableName = table →
    renamed k ∉ b.colBufIndex.keys

instance (b : ColumnBuffer) (table : Str) : Decidable (b.KeysFree table) :=
  inferInstanceAs (Decidable (_ → ∀ k ∈ b.colBufIndex.keys, _))

/-- What a call needs. -/
def Guard (b : ColumnBuffer) : CacheCall → Prop
  | .deleteFromCache table => b.KeysFree table
  | _ => True

/-! ## Accesses and flushes -/

theorem accounted_init : init.Accounted := by
  constructor
  · exact Nat.zero_le _
  · intro k c hc
    simp [init] at hc
  · intro k k' c c' hc
    simp [init] at hc
  · rfl

/-- A full buffer that has lost no slot has a page to evict. -/
theorem Accounted.victim {b : ColumnBuffer} (h : b.Accounted)
    (hfull : b.pagesAllocated = COL_BUFFER_SIZE) : ∃ e, b.lruPage = some e := by
  apply lruPage_isSome
  intro hnil
  have hlen : b.colBufIndex.toList.length = b.colBufIndex.size := TreeMap.length_toList
  rw [hnil, h.count, hfull] at hlen
  cases hlen

section Insert

variable {b b' : ColumnBuffer} {k : PageInfo} {c : CacheData} {n : Nat}

/-- An entry changes, but not its slot. -/
theorem Accounted.update (h : b.Accounted) (hk : b.colBufIndex[k]? = some c) (c' : CacheData)
    (hslot : c'.index = c.index) (hindex : b'.colBufIndex = b.colBufIndex.insert k c')
    (hn : b'.pagesAllocated = b.pagesAllocated) : b'.Accounted := by
  have hlookup : ∀ (k' : PageInfo) (e : CacheData), b'.colBufIndex[k']? = some e →
      ∃ e', b.colBufIndex[k']? = some e' ∧ e.index = e'.index := by
    intro k' e he
    rw [hindex, getElem?_insert_if] at he
    split at he
    case isTrue hkk =>
      cases he
      exact ⟨c, hkk ▸ hk, hslot⟩
    case isFalse => exact ⟨e, he, rfl⟩
  constructor
  · rw [hn]
    exact h.allocated_le
  · intro k' e he
    rcases hlookup k' e he with ⟨e', he', heq⟩
    rw [hn, heq]
    exact h.slot_lt k' e' he'
  · intro k₁ k₂ e₁ e₂ h₁ h₂ heq
    rcases hlookup k₁ e₁ h₁ with ⟨e₁', h₁', heq₁⟩
    rcases hlookup k₂ e₂ h₂ with ⟨e₂', h₂', heq₂⟩
    exact h.slot_inj k₁ k₂ e₁' e₂' h₁' h₂' (by rw [← heq₁, ← heq₂, heq])
  · have hmem : b.colBufIndex.contains k = true :=
      TreeMap.contains_iff_mem.mpr (TreeMap.mem_iff_isSome_getElem?.mpr (hk ▸ rfl))
    rw [hindex, TreeMap.size_insert, hn, h.count]
    exact if_pos hmem

/-- A page comes into a slot that no entry has. -/
theorem Accounted.fill (hk : b.colBufIndex[k]? = none) (hn : n ≤ COL_BUFFER_SIZE)
    (hlt : ∀ (k' : PageInfo) (e : CacheData), b.colBufIndex[k']? = some e →
      e.index < n ∧ e.index ≠ c.index)
    (hinj : ∀ (k₁ k₂ : PageInfo) (e₁ e₂ : CacheData), b.colBufIndex[k₁]? = some e₁ →
      b.colBufIndex[k₂]? = some e₂ → e₁.index = e₂.index → k₁ = k₂)
    (hcount : b.colBufIndex.size + 1 = n) (hslot : c.index < n)
    (hindex : b'.colBufIndex = b.colBufIndex.insert k c) (hb' : b'.pagesAllocated = n) :
    b'.Accounted := by
  constructor
  · rw [hb']
    exact hn
  · intro k' e he
    rw [hb']
    rw [hindex, getElem?_insert_if] at he
    split at he
    · cases he
      exact hslot
    · exact (hlt k' e he).1
  · intro k₁ k₂ e₁ e₂ h₁ h₂ heq
    rw [hindex, getElem?_insert_if] at h₁ h₂
    split at h₁
    case isTrue hk₁ =>
      split at h₂
      case isTrue hk₂ => rw [hk₁, hk₂]
      case isFalse =>
        cases h₁
        exact absurd heq.symm (hlt k₂ e₂ h₂).2
    case isFalse =>
      split at h₂
      case isTrue =>
        cases h₂
        exact absurd heq (hlt k₁ e₁ h₁).2
      case isFalse => exact hinj k₁ k₂ e₁ e₂ h₁ h₂ heq
  · have hnot : ¬ b.colBufIndex.contains k = true := by
      rw [TreeMap.contains_iff_mem, TreeMap.mem_iff_isSome_getElem?, hk]
      simp
    rw [hindex, TreeMap.size_insert, hb', ← hcount]
    exact if_neg hnot

end Insert

/-- A miss puts one entry into the index. -/
theorem fill_ok {b b' : ColumnBuffer} {d : Disk} {k : PageInfo} {i : Nat} {target out : Page}
    {op : CacheOp} (h : b.fill d k i target op = .ok (b', out)) :
    ∃ c, c.index = i ∧ b'.colBufIndex = b.colBufIndex.insert k c ∧
      b'.pagesAllocated = b.pagesAllocated := by
  unfold fill at h
  cases op with
  | read =>
    rcases bind_eq_ok.mp h with ⟨p, -, h⟩
    cases h
    exact ⟨_, rfl, rfl, rfl⟩
  | write =>
    cases h
    exact ⟨_, rfl, rfl, rfl⟩

theorem Accounted.countOp {b : ColumnBuffer} (h : b.Accounted) (op : CacheOp) :
    (b.countOp op).Accounted := by
  cases op with
  | read | write => exact ⟨h.allocated_le, h.slot_lt, h.slot_inj, h.count⟩

variable {table : Str} {l : List (PageInfo × CacheData)}

/-- Every access keeps the account, whether it hits, takes a new slot or evicts. -/
theorem Accounted.access {b b' : ColumnBuffer} {d d' : Disk} {column : Column} {pageNumber : Nat}
    {target out : Page} {op : CacheOp} (h : b.Accounted)
    (hcall : b.access d table column pageNumber target op = .ok (b', d', out)) : b'.Accounted := by
  have h₁ := h.countOp op
  unfold ColumnBuffer.access at hcall
  dsimp only at hcall
  generalize b.countOp op = b₁ at h₁ hcall
  rcases guard_eq_ok hcall with ⟨-, hcall⟩
  generalize (⟨table, column, pageNumber⟩ : PageInfo) = k at hcall
  split at hcall
  case h_1 hit hk =>
    -- hit
    cases op with
    | read =>
      cases hcall
      exact h₁.update hk ⟨hit.index, b₁.time, hit.dirty⟩ rfl rfl rfl
    | write =>
      cases hcall
      exact h₁.update hk ⟨hit.index, b₁.time, true⟩ rfl rfl rfl
  case h_2 hk =>
    split at hcall
    case isTrue hlt =>
      -- the next slot
      rcases bind_eq_ok.mp hcall with ⟨⟨b₂, p⟩, hfill, hcall⟩
      cases hcall
      rcases fill_ok hfill with ⟨c, hslot, hindex, -⟩
      refine .fill (c := c) hk hlt ?_ h₁.slot_inj (by rw [h₁.count]) (by omega) hindex rfl
      intro k' e he
      have hslot' := h₁.slot_lt k' e he
      omega
    case isFalse hfull =>
      split at hcall
      case h_1 => cases hcall
      case h_2 lruKey evict hlru =>
        rcases bind_eq_ok.mp hcall with ⟨d₂, -, hcall⟩
        rcases bind_eq_ok.mp hcall with ⟨⟨b₂, p⟩, hfill, hcall⟩
        cases hcall
        have hvictim := lruPage_mem hlru
        rcases fill_ok hfill with ⟨c, hslot, hindex, hn⟩
        -- the slot of the victim is free once the victim is erased
        have herase : ∀ (k' : PageInfo) (e : CacheData),
            (b₁.colBufIndex.erase lruKey)[k']? = some e →
              k' ≠ lruKey ∧ b₁.colBufIndex[k']? = some e := by
          intro k' e he
          rw [getElem?_erase_if] at he
          split at he
          · cases he
          case isFalse hne => exact ⟨hne, he⟩
        have hmem : b₁.colBufIndex.contains lruKey = true :=
          TreeMap.contains_iff_mem.mpr (TreeMap.mem_iff_isSome_getElem?.mpr (hvictim ▸ rfl))
        have hsize : (b₁.colBufIndex.erase lruKey).size + 1 = b₁.pagesAllocated := by
          have hpos := h₁.slot_lt lruKey evict hvictim
          rw [TreeMap.size_erase, if_pos hmem, h₁.count]
          omega
        refine .fill (b := { b₁ with colBufIndex := b₁.colBufIndex.erase lruKey }) (c := c) ?_
          h₁.allocated_le ?_ ?_ hsize ?_ hindex hn
        · dsimp only
          rw [getElem?_erase_if, hk]
          split
          · rfl
          · rfl
        · intro k' e he
          rcases herase k' e he with ⟨hne, he⟩
          refine ⟨h₁.slot_lt k' e he, fun heq => hne ?_⟩
          exact h₁.slot_inj k' lruKey e evict he hvictim (heq.trans hslot)
        · intro k₁ k₂ e₁ e₂ he₁ he₂ heq
          exact h₁.slot_inj k₁ k₂ e₁ e₂ (herase k₁ e₁ he₁).2 (herase k₂ e₂ he₂).2 heq
        · rw [hslot]
          exact h₁.slot_lt lruKey evict hvictim

/-- A flush cleans entries where they are. -/
theorem Accounted.flushLoop {b b' : ColumnBuffer} {d d' : Disk} (h : b.Accounted)
    (hl : ∀ e ∈ l, ∃ c, b.colBufIndex[e.1]? = some c ∧ c.index = e.2.index)
    (hcall : flushLoop table l b d = .ok (b', d')) : b'.Accounted := by
  induction l generalizing b d with
  | nil =>
    cases hcall
    exact h
  | cons e rest ih =>
    rcases e with ⟨k, c⟩
    have hrest : ∀ e ∈ rest, ∃ c, b.colBufIndex[e.1]? = some c ∧ c.index = e.2.index :=
      fun e he => hl e (mem_cons_of_mem _ he)
    unfold ColumnBuffer.flushLoop at hcall
    split at hcall
    case isTrue =>
      rcases bind_eq_ok.mp hcall with ⟨d₁, -, hcall⟩
      rcases hl (k, c) (mem_cons_self ..) with ⟨c₀, hk, hslot⟩
      have hclean : Accounted { b with
          colBufIndex := b.colBufIndex.insert k { c with dirty := false } } :=
        h.update hk { c with dirty := false } hslot.symm rfl rfl
      refine ih hclean ?_ hcall
      intro e he
      rcases hrest e he with ⟨c₁, hc₁, hslot₁⟩
      dsimp only
      rw [getElem?_insert_if]
      split
      case isTrue heq =>
        rw [heq, hk] at hc₁
        cases hc₁
        exact ⟨_, rfl, hslot.symm.trans hslot₁⟩
      case isFalse => exact ⟨c₁, hc₁, hslot₁⟩
    case isFalse => exact ih h hrest hcall

theorem Accounted.flush {b b' : ColumnBuffer} {d d' : Disk} (h : b.Accounted)
    (hcall : b.flush d table = .ok (b', d')) : b'.Accounted := by
  refine h.flushLoop ?_ hcall
  intro e he
  exact ⟨e.2, TreeMap.mem_toList_iff_getElem?_eq_some.mp he, rfl⟩

/-! ## Dropping a table -/

/-- Where `delete_from_cache` puts a page. -/
def moved (table : Str) (k : PageInfo) : PageInfo :=
  if k.tableName ≠ table then k else renamed k

theorem mem_deleteFromCacheLoop {next : TreeMap PageInfo CacheData} {k : PageInfo} :
    k ∈ deleteFromCacheLoop table l next ↔ k ∈ next ∨ ∃ e ∈ l, k = moved table e.1 := by
  induction l generalizing next with
  | nil => simp [deleteFromCacheLoop]
  | cons e rest ih =>
    rcases e with ⟨k₀, c₀⟩
    have hinsert : ∀ (k₁ : PageInfo) (c₁ : CacheData), k ∈ next.insert k₁ c₁ ↔ k = k₁ ∨ k ∈ next := by
      intro k₁ c₁
      rw [TreeMap.mem_insert, Std.compare_eq_iff_eq, eq_comm]
    unfold deleteFromCacheLoop
    split
    case isTrue hne =>
      rw [ih, hinsert]
      simp only [mem_cons, exists_eq_or_imp, moved, if_pos hne]
      tauto
    case isFalse heq =>
      rw [ih, hinsert]
      simp only [mem_cons, exists_eq_or_imp, moved, if_neg heq, renamed]
      tauto

/-- A moved page keeps its slot. -/
theorem lookup_deleteFromCacheLoop {next : TreeMap PageInfo CacheData} {k : PageInfo}
    {c : CacheData} (h : (deleteFromCacheLoop table l next)[k]? = some c) :
    next[k]? = some c ∨ ∃ e ∈ l, k = moved table e.1 ∧ c.index = e.2.index := by
  induction l generalizing next with
  | nil => exact .inl h
  | cons e rest ih =>
    rcases e with ⟨k₀, c₀⟩
    have hrest : ∀ e ∈ rest, k = moved table e.1 ∧ c.index = e.2.index →
        ∃ e ∈ (k₀, c₀) :: rest, k = moved table e.1 ∧ c.index = e.2.index :=
      fun e he hmoved => ⟨e, mem_cons_of_mem _ he, hmoved⟩
    unfold deleteFromCacheLoop at h
    split at h
    case isTrue hne =>
      rcases ih h with hnext | ⟨e, he, hmoved⟩
      · rw [getElem?_insert_if] at hnext
        split at hnext
        case isTrue heq =>
          cases hnext
          exact .inr ⟨_, mem_cons_self .., by rw [moved, if_pos hne, heq], rfl⟩
        case isFalse => exact .inl hnext
      · exact .inr (hrest e he hmoved)
    case isFalse hsame =>
      rcases ih h with hnext | ⟨e, he, hmoved⟩
      · rw [getElem?_insert_if] at hnext
        split at hnext
        case isTrue heq =>
          cases hnext
          exact .inr ⟨_, mem_cons_self .., by rw [moved, if_neg hsame, heq, renamed], rfl⟩
        case isFalse => exact .inl hnext
      · exact .inr (hrest e he hmoved)

/-- The pages in the buffer. -/
def pages (b : ColumnBuffer) : Finset PageInfo := b.colBufIndex.keys.toFinset

theorem mem_pages {b : ColumnBuffer} {k : PageInfo} : k ∈ b.pages ↔ k ∈ b.colBufIndex := by
  unfold pages
  rw [List.mem_toFinset, TreeMap.mem_keys]

theorem card_pages (b : ColumnBuffer) : b.pages.card = b.colBufIndex.size := by
  unfold pages
  rw [toFinset_card_of_nodup TreeMap.nodup_keys, TreeMap.length_keys]

theorem pages_deleteFromCache (b : ColumnBuffer) (table : Str) :
    (b.deleteFromCache table).pages = b.pages.image (moved table) := by
  ext k
  rw [mem_pages, Finset.mem_image]
  unfold deleteFromCache
  dsimp only
  rw [mem_deleteFromCacheLoop]
  constructor
  · rintro (hnone | ⟨e, he, rfl⟩)
    · simp at hnone
    · refine ⟨e.1, mem_pages.mpr ?_, rfl⟩
      rw [TreeMap.mem_iff_isSome_getElem?, TreeMap.mem_toList_iff_getElem?_eq_some.mp he]
      rfl
  · rintro ⟨k₀, hk₀, rfl⟩
    rcases Option.isSome_iff_exists.mp (TreeMap.mem_iff_isSome_getElem?.mp (mem_pages.mp hk₀)) with
      ⟨c, hc⟩
    exact .inr ⟨(k₀, c), TreeMap.mem_toList_iff_getElem?_eq_some.mpr hc, rfl⟩

/-- Two pages are moved to one key when the key of one is already there. -/
theorem injOn_moved_iff (b : ColumnBuffer) (table : Str) :
    Set.InjOn (moved table) (b.pages : Set PageInfo) ↔ b.KeysFree table := by
  have hkeys : ∀ k : PageInfo, k ∈ b.colBufIndex.keys ↔ k ∈ (b.pages : Set PageInfo) := by
    intro k
    rw [Finset.mem_coe, mem_pages, TreeMap.mem_keys]
  constructor
  · intro hinj hname k hk htable htaken
    have hne : (renamed k).tableName ≠ table := Ne.symm hname
    have hsame : moved table k = moved table (renamed k) := by
      unfold moved
      rw [if_neg (not_not.mpr htable), if_pos hne]
    have heq := hinj ((hkeys _).mp hk) ((hkeys _).mp htaken) hsame
    apply hname
    rw [← htable, heq]
    rfl
  · intro hfree k₁ h₁ k₂ h₂ heq
    -- a key that is moved is not moved to one that stays
    have hstay : ∀ {k k' : PageInfo}, k ∈ (b.pages : Set PageInfo) → k' ∈ (b.pages : Set PageInfo) →
        k.tableName = table → k'.tableName ≠ table → renamed k ≠ k' := by
      rintro k k' hk hk' htable hne rfl
      have hname : table ≠ deletedName := fun h => hne h.symm
      exact hfree hname k ((hkeys k).mpr hk) htable ((hkeys _).mpr hk')
    unfold moved at heq
    split at heq
    case isTrue hne₁ =>
      split at heq
      case isTrue => exact heq
      case isFalse htable₂ => exact absurd heq.symm (hstay h₂ h₁ (not_not.mp htable₂) hne₁)
    case isFalse htable₁ =>
      split at heq
      case isTrue hne₂ => exact absurd heq (hstay h₁ h₂ (not_not.mp htable₁) hne₂)
      case isFalse htable₂ =>
        unfold renamed at heq
        injection heq with _ hcol hpage
        exact PageInfo.ext ((not_not.mp htable₁).trans (not_not.mp htable₂).symm) hcol hpage

/-- Dropping a table loses a slot for every key that is taken. -/
theorem deleteFromCache_accounted_iff {b : ColumnBuffer} (h : b.Accounted) (table : Str) :
    (b.deleteFromCache table).Accounted ↔ b.KeysFree table := by
  have hsize : (b.deleteFromCache table).colBufIndex.size = b.colBufIndex.size ↔
      b.KeysFree table := by
    rw [← card_pages, ← card_pages, pages_deleteFromCache, Finset.card_image_iff, injOn_moved_iff]
  have hlookup : ∀ (k : PageInfo) (c : CacheData),
      (b.deleteFromCache table).colBufIndex[k]? = some c →
        ∃ k₀ c₀, b.colBufIndex[k₀]? = some c₀ ∧ k = moved table k₀ ∧ c.index = c₀.index := by
    intro k c hc
    rcases lookup_deleteFromCacheLoop hc with hnone | ⟨e, he, hmoved, hslot⟩
    · simp at hnone
    · exact ⟨e.1, e.2, TreeMap.mem_toList_iff_getElem?_eq_some.mp he, hmoved, hslot⟩
  constructor
  · intro hafter
    exact hsize.mp (hafter.count.trans h.count.symm)
  · intro hfree
    constructor
    · exact h.allocated_le
    · intro k c hc
      rcases hlookup k c hc with ⟨k₀, c₀, hc₀, -, hslot⟩
      rw [hslot]
      exact h.slot_lt k₀ c₀ hc₀
    · intro k₁ k₂ c₁ c₂ hc₁ hc₂ heq
      rcases hlookup k₁ c₁ hc₁ with ⟨k₁', c₁', hc₁', hk₁, hslot₁⟩
      rcases hlookup k₂ c₂ hc₂ with ⟨k₂', c₂', hc₂', hk₂, hslot₂⟩
      rw [hk₁, hk₂, h.slot_inj k₁' k₂' c₁' c₂' hc₁' hc₂' (by rw [← hslot₁, ← hslot₂, heq])]
    · exact (hsize.mpr hfree).trans h.count

/-! ## Every run -/

theorem accounted_call {b b' : ColumnBuffer} {c : CacheCall} (h : b.Accounted)
    (hguard : b.Guard c) (hcall : b.call c = .ok b') : b'.Accounted := by
  cases c with
  | access d table column pageNumber target op =>
    rcases bind_eq_ok.mp hcall with ⟨⟨b₁, d₁, out⟩, haccess, hcall⟩
    cases hcall
    exact h.access haccess
  | flush d table =>
    rcases bind_eq_ok.mp hcall with ⟨⟨b₁, d₁⟩, hflush, hcall⟩
    cases hcall
    exact h.flush hflush
  | deleteFromCache table =>
    cases hcall
    exact (deleteFromCache_accounted_iff h table).mpr hguard

/-- In every run that drops no table onto pages left by another, no slot is lost and
an eviction has a victim; and dropping one where a key is taken does lose a slot. -/
theorem accounted_of_reachable {b : ColumnBuffer} (h : bufferSystem.ReachableBy Guard b) :
    b.Accounted ∧ (b.pagesAllocated = COL_BUFFER_SIZE → ∃ e, b.lruPage = some e) ∧
      ∀ table, (b.deleteFromCache table).Accounted ↔ b.KeysFree table := by
  have haccounted : b.Accounted := by
    refine h.invariant Accounted ?_ ?_
    · rintro b rfl
      exact accounted_init
    · intro b c b' hb hguard hcall
      exact accounted_call hb hguard hcall
  exact ⟨haccounted, haccounted.victim, deleteFromCache_accounted_iff haccounted⟩

/-- The first page of a table is written. -/
def firstWrite (table : String) : CacheCall :=
  .access ∅ (Str.ofString table) .coffeeID 0 (zeroPage .coffeeID) .write

/-- A table with a cached page is dropped. -/
theorem accounted_of_reachable_drop :
    ∃ b, bufferSystem.ReachableBy Guard b ∧ b.pagesAllocated = 1 ∧ b.Accounted ∧
      (b.pagesAllocated = COL_BUFFER_SIZE → ∃ e, b.lruPage = some e) ∧
      ∀ table, (b.deleteFromCache table).Accounted ↔ b.KeysFree table := by
  have hmeets : TransitionSystem.runMeets (fun b c => (call b c).toOption)
      (fun b c => match c with | .deleteFromCache table => decide (b.KeysFree table) | _ => true)
      (fun b => decide (b.pagesAllocated = 1))
      [firstWrite "A", .deleteFromCache (Str.ofString "A")] init = true := by
    decide +kernel
  have hcheck : ∀ (b : ColumnBuffer) (c : CacheCall),
      (match c with | .deleteFromCache table => decide (b.KeysFree table) | _ => true) = true →
        b.Guard c := by
    intro b c hc
    cases c with
    | access d table column pageNumber target op | flush d table => trivial
    | deleteFromCache table =>
      change b.KeysFree table
      exact of_decide_eq_true hc
  rcases TransitionSystem.exists_of_runMeets (S := bufferSystem)
    (fun _ _ _ hcall => ok_of_toOption hcall) hcheck (.init rfl) hmeets with ⟨b, hb, hone⟩
  exact ⟨b, hb, of_decide_eq_true hone, accounted_of_reachable hb⟩

/-- Two tables with a cached page each are dropped. -/
theorem slot_lost : ¬ ∀ b, bufferSystem.Reachable b → b.Accounted := by
  intro hall
  have hmeets : TransitionSystem.runMeets (fun b c => (call b c).toOption) (fun _ _ => true)
      (fun b => decide (b.colBufIndex.size ≠ b.pagesAllocated))
      [firstWrite "A", firstWrite "B", .deleteFromCache (Str.ofString "A"),
        .deleteFromCache (Str.ofString "B")] init = true := by
    decide +kernel
  rcases TransitionSystem.exists_of_runMeets (S := bufferSystem)
    (fun _ _ _ hcall => ok_of_toOption hcall) (fun _ _ _ => trivial) (.init rfl) hmeets with
    ⟨b, hb, hlost⟩
  exact of_decide_eq_true hlost (hall b hb).count

end ColumnBuffer

end PittCs.Rcdb
