import PittCs.Rcdb.Disk

/-!
# The column buffer

`ColumnBuffer` of `DiskManager.cpp`: sixteen page slots, an index from pages to
slots with time stamps and dirty bits, eviction of the least recently used page
and write-back of dirty pages.

`Sat` is the assertion the layers above work with: a predicate on a page that
holds of the cached copy and, unless that copy is dirty, of the copy on disk. It
is stable under every access to another page and under every read, whatever is
evicted on the way (`access_spec`), and it does not ask that a clean copy equals
the disk, which fails for a table directory that was moved away under the buffer.
-/

namespace PittCs.Rcdb

open Std List

/-- `struct cache_data`. -/
structure CacheData where
  index : Nat
  lastUsed : Int
  dirty : Bool
deriving DecidableEq

/-- `CACHE_READ` and `CACHE_WRITE`. -/
inductive CacheOp where
  | read
  | write
deriving DecidableEq

/-- `class ColumnBuffer`. -/
structure ColumnBuffer where
  pagesAllocated : Nat
  time : Int
  readOps : Nat
  writeOps : Nat
  colBuf : Nat → Page
  colBufIndex : TreeMap PageInfo CacheData

namespace ColumnBuffer

/-- `ColumnBuffer::ColumnBuffer`. -/
def init : ColumnBuffer where
  pagesAllocated := 0
  time := 0
  readOps := 0
  writeOps := 0
  colBuf := fun _ => zeroPage .coffeeID
  colBufIndex := ∅

/-- Put a page into slot `i` under the key `k`, stamped with the current time. -/
def store (b : ColumnBuffer) (k : PageInfo) (i : Nat) (p : Page) (dirty : Bool) : ColumnBuffer :=
  { b with
    colBuf := fun j => if j = i then p else b.colBuf j
    colBufIndex := b.colBufIndex.insert k ⟨i, b.time, dirty⟩
    time := b.time + 1 }

/-- The scan for the least recently used entry: the first one of the smallest
time stamp in the order of the index. -/
def lruPage (b : ColumnBuffer) : Option (PageInfo × CacheData) :=
  match b.colBufIndex.toList with
  | [] => none
  | e :: es => some (es.foldl (fun lru it => if lru.2.lastUsed > it.2.lastUsed then it else lru) e)

/-- Write the page of an evicted or flushed entry back. -/
def writeBack (b : ColumnBuffer) (d : Disk) (k : PageInfo) (c : CacheData) : Except Err Disk :=
  if c.dirty then d.writePage k (b.colBuf c.index) else .ok d

/-- A miss: load or store the page in slot `i`. -/
def fill (b : ColumnBuffer) (d : Disk) (k : PageInfo) (i : Nat) (target : Page) (op : CacheOp) :
    Except Err (ColumnBuffer × Page) :=
  match op with
  | .read => do
      let p ← d.readPage k target
      return (b.store k i p false, p)
  | .write => return (b.store k i target true, target)

/-- The operation counters. -/
def countOp (b : ColumnBuffer) : CacheOp → ColumnBuffer
  | .read => { b with readOps := b.readOps + 1 }
  | .write => { b with writeOps := b.writeOps + 1 }

/-- `ColumnBuffer::access`: the buffer and the disk afterwards and the page in
`target`. -/
def access (b : ColumnBuffer) (d : Disk) (table : Str) (column : Column) (pageNumber : Nat)
    (target : Page) (op : CacheOp) : Except Err (ColumnBuffer × Disk × Page) := do
  let b := b.countOp op
  if table.length > 32 then
    throw (.invalidArgument "table name must be less than 32 characters long")
  let k : PageInfo := ⟨table, column, pageNumber⟩
  match b.colBufIndex[k]? with
  | some hit =>
    -- cache hit
    match op with
    | .read => return (b.store k hit.index (b.colBuf hit.index) hit.dirty, d, b.colBuf hit.index)
    | .write => return (b.store k hit.index target true, d, target)
  | none =>
    if b.pagesAllocated < COL_BUFFER_SIZE then
      -- below capacity: the next empty slot
      let (b', p) ← b.fill d k b.pagesAllocated target op
      return ({ b' with pagesAllocated := b.pagesAllocated + 1 }, d, p)
    else
      -- at capacity: evict the least recently used page
      match b.lruPage with
      | none => throw (.undefinedBehaviour "begin() of an empty column buffer index")
      | some (lruKey, evict) =>
        let d' ← b.writeBack d lruKey evict
        let b' := { b with colBufIndex := b.colBufIndex.erase lruKey }
        let (b'', p) ← b'.fill d' k evict.index target op
        return (b'', d', p)

/-- `ColumnBuffer::flush`: the loop over the index. -/
def flushLoop (table : Str) :
    List (PageInfo × CacheData) → ColumnBuffer → Disk → Except Err (ColumnBuffer × Disk)
  | [], b, d => .ok (b, d)
  | (k, c) :: rest, b, d =>
    if c.dirty ∧ k.tableName = table then do
      let d' ← d.writePage k (b.colBuf c.index)
      let b' := { b with colBufIndex := b.colBufIndex.insert k { c with dirty := false } }
      flushLoop table rest b' d'
    else flushLoop table rest b d

/-- `ColumnBuffer::flush`. -/
def flush (b : ColumnBuffer) (d : Disk) (table : Str) : Except Err (ColumnBuffer × Disk) :=
  flushLoop table b.colBufIndex.toList b d

/-- The name under which `delete_from_cache` keeps invalidated pages. -/
def deletedName : Str := Str.ofString "_deleted"

/-- `ColumnBuffer::delete_from_cache`: the loop that rebuilds the index. -/
def deleteFromCacheLoop (table : Str) :
    List (PageInfo × CacheData) → TreeMap PageInfo CacheData → TreeMap PageInfo CacheData
  | [], next => next
  | (k, c) :: rest, next =>
    if k.tableName ≠ table then deleteFromCacheLoop table rest (next.insert k c)
    else
      deleteFromCacheLoop table rest
        (next.insert { k with tableName := deletedName } ⟨c.index, -1, false⟩)

/-- `ColumnBuffer::delete_from_cache`. -/
def deleteFromCache (b : ColumnBuffer) (table : Str) : ColumnBuffer :=
  { b with colBufIndex := deleteFromCacheLoop table b.colBufIndex.toList ∅ }

/-! ## Well-formed buffers and the page assertion -/

/-- The slots of the entries are in use and distinct, a full buffer has an entry
to evict, and dirty pages have a place on disk. -/
structure WF (b : ColumnBuffer) (d : Disk) : Prop where
  allocated_le : b.pagesAllocated ≤ COL_BUFFER_SIZE
  index_lt : ∀ (k : PageInfo) (c : CacheData), b.colBufIndex[k]? = some c → c.index < b.pagesAllocated
  index_inj : ∀ (k k' : PageInfo) (c c' : CacheData), b.colBufIndex[k]? = some c →
    b.colBufIndex[k']? = some c' → c.index = c'.index → k = k'
  full_nonempty : b.pagesAllocated = COL_BUFFER_SIZE → b.colBufIndex.toList ≠ []
  dirty_page : ∀ (k : PageInfo) (c : CacheData), b.colBufIndex[k]? = some c → c.dirty = true → (d.page? k).isSome

/-- `P` holds of the cached copy of page `k` and, unless that copy is dirty, of
the copy on disk. -/
def Sat (b : ColumnBuffer) (d : Disk) (k : PageInfo) (P : Page → Prop) : Prop :=
  (∀ c, b.colBufIndex[k]? = some c → P (b.colBuf c.index)) ∧
  ((∀ c, b.colBufIndex[k]? = some c → c.dirty = false) → ∃ p, d.page? k = some p ∧ P p)

theorem init_wf (d : Disk) : WF init d where
  allocated_le := by simp [init]
  index_lt := by simp [init]
  index_inj := by simp [init]
  full_nonempty := by simp [init, COL_BUFFER_SIZE]
  dirty_page := by simp [init]

variable {b : ColumnBuffer} {d : Disk} {k : PageInfo} {P : Page → Prop} {c : CacheData}

/-- With an empty index the assertion is about the disk. -/
theorem sat_of_not_cached {p : Page} (hk : b.colBufIndex[k]? = none) (hp : d.page? k = some p)
    (hP : P p) : Sat b d k P := by
  refine ⟨fun c hc => ?_, fun _ => ⟨p, hp, hP⟩⟩
  rw [hk] at hc
  cases hc

theorem Sat.imp {Q : Page → Prop} (h : Sat b d k P) (hPQ : ∀ p, P p → Q p) : Sat b d k Q := by
  refine ⟨fun c hc => hPQ _ (h.1 c hc), fun hclean => ?_⟩
  obtain ⟨p, hp, hP⟩ := h.2 hclean
  exact ⟨p, hp, hPQ p hP⟩

/-- The assertion depends on the pages of its own key only. -/
theorem Sat.congr {b' : ColumnBuffer} {d' : Disk} (h : Sat b d k P)
    (hindex : b'.colBufIndex[k]? = b.colBufIndex[k]?)
    (hbuf : ∀ c, b.colBufIndex[k]? = some c → b'.colBuf c.index = b.colBuf c.index)
    (hdisk : d'.page? k = d.page? k) : Sat b' d' k P := by
  refine ⟨fun c hc => ?_, fun hclean => ?_⟩
  · rw [hindex] at hc
    rw [hbuf c hc]
    exact h.1 c hc
  · rw [hdisk]
    exact h.2 fun c hc => hclean c (hindex ▸ hc)

/-! ### Storing a page in a slot -/

/-- Slot `i` belongs to no page but `k`. -/
def SlotFor (b : ColumnBuffer) (k : PageInfo) (i : Nat) : Prop :=
  ∀ (k' : PageInfo) (c : CacheData), b.colBufIndex[k']? = some c → c.index = i → k' = k

theorem store_sat_ne {k' : PageInfo} {i : Nat} {p : Page} {dirty : Bool} (hslot : b.SlotFor k i)
    (hne : k' ≠ k) (h : Sat b d k' P) : Sat (b.store k i p dirty) d k' P := by
  refine h.congr ?_ ?_ rfl
  · simp [store, TreeMap.getElem?_insert, Ne.symm hne]
  · intro c hc
    have hi : c.index ≠ i := fun he => hne (hslot k' c hc he)
    simp [store, hi]

theorem store_sat_self {i : Nat} {p : Page} {dirty : Bool} (hP : P p)
    (hdisk : dirty = false → ∃ q, d.page? k = some q ∧ P q) : Sat (b.store k i p dirty) d k P := by
  have hget : (b.store k i p dirty).colBufIndex[k]? = some ⟨i, b.time, dirty⟩ := by
    simp [store]
  constructor
  · intro c hc
    rw [hget] at hc
    cases hc
    simpa [store] using hP
  · intro hclean
    exact hdisk (hclean _ hget)

theorem store_wf {i n : Nat} {p : Page} {dirty : Bool} (hslot : b.SlotFor k i)
    (hn : n ≤ COL_BUFFER_SIZE) (hi : i < n)
    (hlt : ∀ (k' : PageInfo) (c : CacheData), b.colBufIndex[k']? = some c → c.index < n)
    (hinj : ∀ (k₁ k₂ : PageInfo) (c₁ c₂ : CacheData), b.colBufIndex[k₁]? = some c₁ → b.colBufIndex[k₂]? = some c₂ → c₁.index = c₂.index → k₁ = k₂)
    (hdirty : ∀ (k' : PageInfo) (c : CacheData), b.colBufIndex[k']? = some c → c.dirty = true → (d.page? k').isSome)
    (hpage : (d.page? k).isSome) :
    WF { b.store k i p dirty with pagesAllocated := n } d where
  allocated_le := hn
  index_lt := by
    intro k' c hc
    simp only [store, TreeMap.getElem?_insert, LawfulEqOrd.compare_eq_iff_eq] at hc
    split at hc
    · cases hc
      exact hi
    · exact hlt k' c hc
  index_inj := by
    intro k₁ k₂ c₁ c₂ h₁ h₂ he
    simp only [store, TreeMap.getElem?_insert, LawfulEqOrd.compare_eq_iff_eq] at h₁ h₂
    split at h₁ <;> split at h₂
    · next e₁ e₂ => exact e₁.symm.trans e₂
    · next e₁ _ =>
        cases h₁
        exact (e₁.symm.trans (hslot k₂ c₂ h₂ he.symm).symm)
    · next _ e₂ =>
        cases h₂
        exact (hslot k₁ c₁ h₁ he).trans e₂
    · exact hinj k₁ k₂ c₁ c₂ h₁ h₂ he
  full_nonempty := by
    intro _ hnil
    have hmem : (k, (⟨i, b.time, dirty⟩ : CacheData)) ∈ (b.store k i p dirty).colBufIndex.toList :=
      TreeMap.mem_toList_iff_getElem?_eq_some.mpr (by simp [store])
    have hnil' : (b.store k i p dirty).colBufIndex.toList = [] := hnil
    rw [hnil'] at hmem
    cases hmem
  dirty_page := by
    intro k' c hc hd
    simp only [store, TreeMap.getElem?_insert, LawfulEqOrd.compare_eq_iff_eq] at hc
    split at hc
    · next e => exact e ▸ hpage
    · exact hdirty k' c hc hd

/-! ### Eviction -/

/-- A scan that keeps one of two elements ends with an element of the list. -/
theorem foldl_pick_mem {α : Type} (pick : α → α → α) (hpick : ∀ x y, pick x y = x ∨ pick x y = y) :
    ∀ (l : List α) (a : α), l.foldl pick a = a ∨ l.foldl pick a ∈ l
  | [], _ => .inl rfl
  | x :: l, a => by
    rcases foldl_pick_mem pick hpick l (pick a x) with h | h
    · rcases hpick a x with hx | hx
      · exact .inl (h.trans hx)
      · exact .inr (mem_cons.mpr (.inl (h.trans hx)))
    · exact .inr (mem_cons_of_mem x h)

/-- The victim is an entry of the index. -/
theorem lruPage_mem (h : b.lruPage = some (k, c)) : b.colBufIndex[k]? = some c := by
  rw [← TreeMap.mem_toList_iff_getElem?_eq_some]
  unfold lruPage at h
  cases hl : b.colBufIndex.toList with
  | nil =>
    rw [hl] at h
    cases h
  | cons e es =>
    rw [hl] at h
    have hmem := foldl_pick_mem
      (fun (lru it : PageInfo × CacheData) => if lru.2.lastUsed > it.2.lastUsed then it else lru)
      (fun x y => by split <;> simp) es e
    simp only [Option.some.injEq] at h
    rw [h] at hmem
    exact mem_cons.mpr hmem

/-- A full buffer has a victim. -/
theorem lruPage_isSome (h : b.colBufIndex.toList ≠ []) : ∃ e, b.lruPage = some e := by
  unfold lruPage
  cases hl : b.colBufIndex.toList with
  | nil => exact absurd hl h
  | cons e es => exact ⟨_, rfl⟩

/-- Writing the victim back changes its page on disk to its cached copy, if dirty. -/
theorem writeBack_spec (hwf : WF b d) (hk : b.colBufIndex[k]? = some c) :
    ∃ d', b.writeBack d k c = .ok d' ∧ Disk.SameShape d d' ∧
      ∀ k', d'.page? k' = if c.dirty ∧ k' = k then some (b.colBuf c.index) else d.page? k' := by
  unfold writeBack
  cases hd : c.dirty with
  | false => exact ⟨d, by simp, Disk.SameShape.refl d, fun k' => by simp⟩
  | true =>
    obtain ⟨d', he, hshape, hpages⟩ :=
      Disk.writePage_spec (hwf.dirty_page k c hk hd) (b.colBuf c.index)
    exact ⟨d', by simpa using he, hshape, fun k' => by simpa using hpages k'⟩

/-- Eviction keeps every page assertion. -/
theorem Sat.evict {d' : Disk} (hk : b.colBufIndex[k]? = some c)
    (hpages : ∀ k', d'.page? k' = if c.dirty ∧ k' = k then some (b.colBuf c.index) else d.page? k')
    {k' : PageInfo} (h : Sat b d k' P) :
    Sat { b with colBufIndex := b.colBufIndex.erase k } d' k' P := by
  by_cases hkk : k' = k
  · subst hkk
    have hnone : (b.colBufIndex.erase k')[k']? = none := by simp
    -- the disk copy is the cached one, or the cached one was clean
    cases hd : c.dirty with
    | true =>
      exact sat_of_not_cached hnone (by rw [hpages, hd]; simp) (h.1 c hk)
    | false =>
      obtain ⟨p, hp, hP⟩ := h.2 fun c' hc' => by
        rw [hk] at hc'
        cases hc'
        exact hd
      exact sat_of_not_cached hnone (by rw [hpages, hd]; simpa using hp) hP
  · refine h.congr ?_ (fun _ _ => rfl) ?_
    · simp [TreeMap.getElem?_erase, Ne.symm hkk]
    · rw [hpages]
      simp [hkk]

/-! ### Access -/

theorem countOp_wf (h : WF b d) (op : CacheOp) : WF (b.countOp op) d := by
  cases op <;> exact ⟨h.1, h.2, h.3, h.4, h.5⟩

theorem countOp_sat (op : CacheOp) : Sat (b.countOp op) d k P ↔ Sat b d k P := by
  cases op <;> exact Iff.rfl

/-- What an access does to the pages: it loses no assertion about another page,
a read loses none at all and returns a page that satisfies them, and a write
puts `target` in its place. -/
structure Accessed (b : ColumnBuffer) (d : Disk) (k : PageInfo) (target : Page) (op : CacheOp)
    (b' : ColumnBuffer) (d' : Disk) (out : Page) : Prop where
  wf : WF b' d'
  shape : Disk.SameShape d d'
  keep : ∀ k' P, op = .read ∨ k' ≠ k → Sat b d k' P → Sat b' d' k' P
  read : op = .read → ∀ P, Sat b d k P → P out
  write : op = .write → Sat b' d' k (· = target)

/-- A miss fills slot `i`. -/
theorem fill_spec {i n : Nat} (target : Page) (op : CacheOp) (hnone : b.colBufIndex[k]? = none)
    (hn : n ≤ COL_BUFFER_SIZE) (hi : i < n) (hslot : b.SlotFor k i)
    (hlt : ∀ (k' : PageInfo) (c : CacheData), b.colBufIndex[k']? = some c → c.index < n)
    (hinj : ∀ (k₁ k₂ : PageInfo) (c₁ c₂ : CacheData), b.colBufIndex[k₁]? = some c₁ → b.colBufIndex[k₂]? = some c₂ → c₁.index = c₂.index → k₁ = k₂)
    (hdirty : ∀ (k' : PageInfo) (c : CacheData), b.colBufIndex[k']? = some c → c.dirty = true → (d.page? k').isSome)
    (hpage : (d.page? k).isSome) :
    ∃ b' out, b.fill d k i target op = .ok (b', out) ∧
      Accessed b d k target op { b' with pagesAllocated := n } d out := by
  obtain ⟨p, hp⟩ := Option.isSome_iff_exists.mp hpage
  have hwf : ∀ q dirty, WF { b.store k i q dirty with pagesAllocated := n } d :=
    fun q dirty => store_wf hslot hn hi hlt hinj hdirty hpage
  have hdisk : ∀ P, Sat b d k P → P p := by
    intro P hP
    obtain ⟨q, hq, hPq⟩ := hP.2 fun c hc => by
      rw [hnone] at hc
      cases hc
    rw [hp] at hq
    cases hq
    exact hPq
  cases op with
  | read =>
    refine ⟨b.store k i p false, p, ?_, hwf p false, Disk.SameShape.refl d, ?_, ?_, ?_⟩
    · simp [fill, Disk.readPage_eq hp, bind, Except.bind, pure, Except.pure]
    · intro k' P _ hP
      by_cases hk : k' = k
      · subst hk
        exact store_sat_self (hdisk P hP) fun _ => ⟨p, hp, hdisk P hP⟩
      · exact store_sat_ne hslot hk hP
    · intro _ P hP
      exact hdisk P hP
    · intro h
      cases h
  | write =>
    refine ⟨b.store k i target true, target, rfl, hwf target true, Disk.SameShape.refl d,
      ?_, ?_, ?_⟩
    · intro k' P hne hP
      rcases hne with h | hk
      · cases h
      · exact store_sat_ne hslot hk hP
    · intro h
      cases h
    · intro _
      have hself : Sat (b.store k i target true) d k (· = target) :=
        store_sat_self rfl (by simp)
      exact hself

/-- Accessing a page of an existing file never fails, keeps the buffer well
formed and refines the access of the page itself. -/
theorem access_spec (hwf : WF b d) {table : Str} {column : Column} {pageNumber : Nat}
    (target : Page) (op : CacheOp) (hname : table.length ≤ 32)
    (hpage : (d.page? ⟨table, column, pageNumber⟩).isSome) :
    ∃ b' d' out, b.access d table column pageNumber target op = .ok (b', d', out) ∧
      Accessed b d ⟨table, column, pageNumber⟩ target op b' d' out := by
  have hwf₁ := countOp_wf hwf op
  have hsat₁ : ∀ k' P, Sat (b.countOp op) d k' P ↔ Sat b d k' P := fun _ _ => countOp_sat op
  have hname' : ¬ table.length > 32 := by omega
  generalize hb₁ : b.countOp op = b₁ at hwf₁ hsat₁
  generalize hk : (⟨table, column, pageNumber⟩ : PageInfo) = k at hpage
  -- it is enough to look at the buffer after the operation was counted
  suffices h : ∃ b' d' out, b.access d table column pageNumber target op = .ok (b', d', out) ∧
      Accessed b₁ d k target op b' d' out by
    obtain ⟨b', d', out, he, ha⟩ := h
    exact ⟨b', d', out, he, ha.wf, ha.shape, fun k' P hne hP => ha.keep k' P hne ((hsat₁ k' P).mpr hP),
      fun hop P hP => ha.read hop P ((hsat₁ k P).mpr hP), ha.write⟩
  simp only [access, hname', if_false, hb₁, hk]
  cases hit : b₁.colBufIndex[k]? with
  | some c =>
    -- hit
    have hslot : b₁.SlotFor k c.index := fun k' c' hc' he =>
      hwf₁.index_inj k' k c' c hc' hit he
    have hstore : ∀ q dirty, WF (b₁.store k c.index q dirty) d := fun q dirty =>
      store_wf hslot hwf₁.allocated_le (hwf₁.index_lt k c hit) hwf₁.index_lt hwf₁.index_inj
        hwf₁.dirty_page hpage
    cases op with
    | read =>
      refine ⟨_, _, _, rfl, hstore _ _, Disk.SameShape.refl d, ?_, ?_, ?_⟩
      · intro k' P _ hP
        by_cases hkk : k' = k
        · subst hkk
          refine store_sat_self (hP.1 c hit) fun hclean => hP.2 fun c' hc' => ?_
          rw [hit] at hc'
          cases hc'
          exact hclean
        · exact store_sat_ne hslot hkk hP
      · intro _ P hP
        exact hP.1 c hit
      · intro h
        cases h
    | write =>
      refine ⟨_, _, _, rfl, hstore _ _, Disk.SameShape.refl d, ?_, ?_, ?_⟩
      · intro k' P hne hP
        rcases hne with h | hkk
        · cases h
        · exact store_sat_ne hslot hkk hP
      · intro h
        cases h
      · intro _
        exact store_sat_self rfl (by simp)
  | none =>
    by_cases hfull : b₁.pagesAllocated < COL_BUFFER_SIZE
    · -- cold miss: the next slot belongs to nobody
      have hslot : b₁.SlotFor k b₁.pagesAllocated := by
        intro k' c' hc' he
        exact absurd he (Nat.ne_of_lt (hwf₁.index_lt k' c' hc'))
      obtain ⟨b', out, hfill, ha⟩ := fill_spec target op hit (n := b₁.pagesAllocated + 1)
        (by omega) (by omega) hslot (fun k' c' hc' => by have := hwf₁.index_lt k' c' hc'; omega)
        hwf₁.index_inj hwf₁.dirty_page hpage
      refine ⟨_, _, _, ?_, ha⟩
      simp [hfull, hfill, bind, Except.bind, pure, Except.pure]
    · -- eviction
      have hcap : b₁.pagesAllocated = COL_BUFFER_SIZE := by
        have := hwf₁.allocated_le
        omega
      obtain ⟨⟨lruKey, c⟩, hlru⟩ := lruPage_isSome (hwf₁.full_nonempty hcap)
      have hmem := lruPage_mem hlru
      obtain ⟨d', hwb, hshape, hpages⟩ := writeBack_spec hwf₁ hmem
      have herase : ∀ (k' : PageInfo) (c' : CacheData),
          (b₁.colBufIndex.erase lruKey)[k']? = some c' →
            k' ≠ lruKey ∧ b₁.colBufIndex[k']? = some c' := by
        intro k' c' hc'
        simp only [TreeMap.getElem?_erase, LawfulEqOrd.compare_eq_iff_eq] at hc'
        split at hc'
        · cases hc'
        · next hne => exact ⟨Ne.symm hne, hc'⟩
      have hslot : ColumnBuffer.SlotFor { b₁ with colBufIndex := b₁.colBufIndex.erase lruKey } k
          c.index := by
        intro k' c' hc' he
        obtain ⟨hne, hc'⟩ := herase k' c' hc'
        exact absurd (hwf₁.index_inj k' lruKey c' c hc' hmem he) hne
      obtain ⟨b'', out, hfill, ha⟩ := fill_spec
        (b := { b₁ with colBufIndex := b₁.colBufIndex.erase lruKey }) (d := d') (k := k)
        (i := c.index) (n := b₁.pagesAllocated) target op
        (by simp [TreeMap.getElem?_erase, hit]) hwf₁.allocated_le (hwf₁.index_lt lruKey c hmem)
        hslot (fun k' c' hc' => hwf₁.index_lt k' c' (herase k' c' hc').2)
        (fun k₁ k₂ c₁ c₂ h₁ h₂ => hwf₁.index_inj k₁ k₂ c₁ c₂ (herase k₁ c₁ h₁).2
          (herase k₂ c₂ h₂).2)
        (fun k' c' hc' hd => by
          rw [hshape.isSome_page?]
          exact hwf₁.dirty_page k' c' (herase k' c' hc').2 hd)
        (by rw [hshape.isSome_page?]; exact hpage)
      have hallocated : b''.pagesAllocated = b₁.pagesAllocated := by
        cases op with
        | read =>
          simp only [fill, bind, Except.bind] at hfill
          split at hfill
          · cases hfill
          · cases hfill
            rfl
        | write =>
          cases hfill
          rfl
      have hself : { b'' with pagesAllocated := b₁.pagesAllocated } = b'' := by
        rw [← hallocated]
      rw [hself] at ha
      refine ⟨b'', d', out, ?_, ha.wf, hshape.trans ha.shape,
        fun k' P hne hP => ha.keep k' P hne (hP.evict hmem hpages),
        fun hop P hP => ha.read hop P (hP.evict hmem hpages), ha.write⟩
      simp [hfull, hlru, hwb, hfill, bind, Except.bind, pure, Except.pure]

/-! ### Flush -/

/-- One write-back of `flush`: the entry stays in its slot, now clean. -/
theorem clean_spec (hwf : WF b d) (hk : b.colBufIndex[k]? = some c) (hd : c.dirty = true) :
    ∃ d', d.writePage k (b.colBuf c.index) = .ok d' ∧ Disk.SameShape d d' ∧
      WF { b with colBufIndex := b.colBufIndex.insert k { c with dirty := false } } d' ∧
      ∀ k' P, Sat b d k' P →
        Sat { b with colBufIndex := b.colBufIndex.insert k { c with dirty := false } } d' k' P := by
  obtain ⟨d', he, hshape, hpages⟩ :=
    Disk.writePage_spec (hwf.dirty_page k c hk hd) (b.colBuf c.index)
  -- every entry after the write is an entry before it, up to its dirty bit
  have hentry : ∀ (k' : PageInfo) (c' : CacheData),
      (b.colBufIndex.insert k { c with dirty := false })[k']? = some c' →
        ∃ c₀, b.colBufIndex[k']? = some c₀ ∧ c'.index = c₀.index ∧ (c'.dirty = true → c₀ = c') := by
    intro k' c' hc'
    simp only [TreeMap.getElem?_insert, LawfulEqOrd.compare_eq_iff_eq] at hc'
    split at hc'
    · next hkk =>
        cases hc'
        exact ⟨c, hkk ▸ hk, rfl, fun h => by cases h⟩
    · exact ⟨c', hc', rfl, fun _ => rfl⟩
  refine ⟨d', he, hshape, ⟨hwf.allocated_le, ?_, ?_, ?_, ?_⟩, ?_⟩
  · intro k' c' hc'
    obtain ⟨c₀, h₀, hi, -⟩ := hentry k' c' hc'
    exact hi ▸ hwf.index_lt k' c₀ h₀
  · intro k₁ k₂ c₁ c₂ h₁ h₂ hi
    obtain ⟨c₁', h₁', hi₁, -⟩ := hentry k₁ c₁ h₁
    obtain ⟨c₂', h₂', hi₂, -⟩ := hentry k₂ c₂ h₂
    exact hwf.index_inj k₁ k₂ c₁' c₂' h₁' h₂' (by rw [← hi₁, ← hi₂, hi])
  · intro _ hnil
    have hmem : (k, { c with dirty := false }) ∈
        (b.colBufIndex.insert k { c with dirty := false }).toList :=
      TreeMap.mem_toList_iff_getElem?_eq_some.mpr (by simp)
    have hnil' : (b.colBufIndex.insert k { c with dirty := false }).toList = [] := hnil
    rw [hnil'] at hmem
    cases hmem
  · intro k' c' hc' hd'
    obtain ⟨c₀, h₀, -, hsame⟩ := hentry k' c' hc'
    rw [hshape.isSome_page?]
    exact hwf.dirty_page k' c' (hsame hd' ▸ h₀) hd'
  · intro k' P hP
    by_cases hkk : k' = k
    · subst hkk
      refine ⟨fun c' hc' => ?_, fun _ => ⟨b.colBuf c.index, by rw [hpages]; simp, hP.1 c hk⟩⟩
      obtain ⟨c₀, h₀, hi, -⟩ := hentry k' c' hc'
      exact hi ▸ hP.1 c₀ h₀
    · refine hP.congr ?_ (fun _ _ => rfl) ?_
      · simp [TreeMap.getElem?_insert, Ne.symm hkk]
      · rw [hpages, if_neg hkk]

theorem flushLoop_spec (table : Str) :
    ∀ (rest : List (PageInfo × CacheData)) (b : ColumnBuffer) (d : Disk), WF b d →
      (∀ e ∈ rest, b.colBufIndex[e.1]? = some e.2) →
      rest.Pairwise (fun e e' => e.1 ≠ e'.1) →
      (∀ (k : PageInfo) (c : CacheData), b.colBufIndex[k]? = some c → k.tableName = table →
        c.dirty = true → (k, c) ∈ rest) →
      ∃ b' d', flushLoop table rest b d = .ok (b', d') ∧ WF b' d' ∧ Disk.SameShape d d' ∧
        (∀ k P, Sat b d k P → Sat b' d' k P) ∧
        ∀ (k : PageInfo) (c : CacheData), b'.colBufIndex[k]? = some c → k.tableName = table →
          c.dirty = false
  | [], b, d, hwf, _, _, hdone => by
    refine ⟨b, d, rfl, hwf, Disk.SameShape.refl d, fun _ _ h => h, fun k c hc ht => ?_⟩
    cases hd : c.dirty with
    | false => rfl
    | true => cases hdone k c hc ht hd
  | (k, c) :: rest, b, d, hwf, hrest, hpw, hdone => by
    have hk := hrest (k, c) (mem_cons_self ..)
    obtain ⟨hne, hpw'⟩ := pairwise_cons.mp hpw
    unfold flushLoop
    by_cases hdirty : c.dirty = true ∧ k.tableName = table
    · obtain ⟨d', he, hshape, hwf', hsat⟩ := clean_spec hwf hk hdirty.1
      obtain ⟨b'', d'', he', hwf'', hshape', hsat', hclean⟩ := flushLoop_spec table rest
        { b with colBufIndex := b.colBufIndex.insert k { c with dirty := false } } d' hwf'
        (by
          intro e hmem
          have hke : k ≠ e.1 := hne e hmem
          simpa [TreeMap.getElem?_insert, hke] using hrest e (mem_cons_of_mem _ hmem))
        hpw'
        (by
          intro k' c' hc' ht hd
          simp only [TreeMap.getElem?_insert, LawfulEqOrd.compare_eq_iff_eq] at hc'
          split at hc'
          · cases hc'
            cases hd
          · next hkk =>
              rcases mem_cons.mp (hdone k' c' hc' ht hd) with h | h
              · cases h
                exact absurd rfl hkk
              · exact h)
      refine ⟨b'', d'', ?_, hwf'', hshape.trans hshape', fun k' P hP => hsat' k' P (hsat k' P hP),
        hclean⟩
      rw [if_pos hdirty]
      simpa [he, bind, Except.bind] using he'
    · rw [if_neg hdirty]
      refine flushLoop_spec table rest b d hwf
        (fun e hmem => hrest e (mem_cons_of_mem _ hmem)) hpw' ?_
      intro k' c' hc' ht hd
      rcases mem_cons.mp (hdone k' c' hc' ht hd) with h | h
      · cases h
        exact absurd ⟨hd, ht⟩ hdirty
      · exact h

/-- `flush` keeps every page assertion and leaves no dirty page of the table. -/
theorem flush_spec (hwf : WF b d) (table : Str) :
    ∃ b' d', b.flush d table = .ok (b', d') ∧ WF b' d' ∧ Disk.SameShape d d' ∧
      (∀ k P, Sat b d k P → Sat b' d' k P) ∧
      ∀ (k : PageInfo) (c : CacheData), b'.colBufIndex[k]? = some c → k.tableName = table →
        c.dirty = false := by
  apply flushLoop_spec table _ b d hwf
  · intro e he
    exact TreeMap.mem_toList_iff_getElem?_eq_some.mp he
  · have hpw := b.colBufIndex.distinct_keys_toList
    exact hpw.imp fun {e e'} hne heq => hne (by simp [heq])
  · intro k c hc _ _
    exact TreeMap.mem_toList_iff_getElem?_eq_some.mpr hc

end ColumnBuffer

end PittCs.Rcdb
