import PittCs.Rcdb.ColumnBuffer

/-!
# The column buffer refines a page store

Calls of the buffer against a store that reads and writes pages directly. The
buffer represents the store when every page of a file satisfies the assertion
that its contents are the store's; each call keeps that, so eviction order,
write-back and slot reuse never show in what is read.
-/

namespace PittCs.Rcdb

open Std

/-- A call of the buffer's interface. -/
inductive BufferCall where
  | read (k : PageInfo) (target : Page)
  | write (k : PageInfo) (p : Page)
  | flush (table : Str)

namespace BufferCall

/-- The page is in its column file, as `load_page` and `store_page` check. -/
def InFile (d : Disk) : BufferCall → Prop
  | read k _ => k.tableName.length ≤ 32 ∧ (d.page? k).isSome
  | write k _ => k.tableName.length ≤ 32 ∧ (d.page? k).isSome
  | flush _ => True

instance (d : Disk) : (c : BufferCall) → Decidable (c.InFile d)
  | read _ _ => inferInstanceAs (Decidable (_ ∧ _))
  | write _ _ => inferInstanceAs (Decidable (_ ∧ _))
  | flush _ => inferInstanceAs (Decidable True)

/-- The call on the buffer and the disk, with the page it hands back. -/
def onBuffer (s : ColumnBuffer × Disk) : BufferCall →
    Except Err ((ColumnBuffer × Disk) × Option Page)
  | read k target => do
      let (b, d, out) ← s.1.access s.2 k.tableName k.colNum k.pageNum target .read
      return ((b, d), some out)
  | write k p => do
      let (b, d, _) ← s.1.access s.2 k.tableName k.colNum k.pageNum p .write
      return ((b, d), none)
  | flush table => do
      let s' ← s.1.flush s.2 table
      return (s', none)

/-- The call on a store that reads and writes pages directly. -/
def onStore (m : PageInfo → Option Page) : BufferCall → (PageInfo → Option Page) × Option Page
  | read k _ => (m, m k)
  | write k p => (fun k' => if k' = k then some p else m k', none)
  | flush _ => (m, none)

/-- A sequence of calls on the buffer, with what each hands back. -/
def runBuffer : ColumnBuffer × Disk → List BufferCall →
    Except Err ((ColumnBuffer × Disk) × List (Option Page))
  | s, [] => .ok (s, [])
  | s, c :: cs => do
      let (s', out) ← c.onBuffer s
      let (s'', outs) ← runBuffer s' cs
      return (s'', out :: outs)

/-- A sequence of calls on the direct store. -/
def runStore : (PageInfo → Option Page) → List BufferCall →
    (PageInfo → Option Page) × List (Option Page)
  | m, [] => (m, [])
  | m, c :: cs =>
    let (m', out) := c.onStore m
    let (m'', outs) := runStore m' cs
    (m'', out :: outs)

end BufferCall

namespace ColumnBuffer

/-- The buffer over `d` represents the store `m`: every page of a file is held
with the contents `m` gives it, and `m` has the pages of the files. -/
structure Represents (b : ColumnBuffer) (d : Disk) (m : PageInfo → Option Page) : Prop where
  wf : WF b d
  pages : ∀ k, (m k).isSome = (d.page? k).isSome
  sat : ∀ k p, m k = some p → Sat b d k (· = p)

theorem represents_init (d : Disk) : Represents init d d.page? where
  wf := init_wf d
  pages _ := rfl
  sat _ _ hp := sat_of_not_cached (by simp [init]) hp rfl

/-- One call keeps the representation and hands back what the store does. -/
theorem Represents.call {b : ColumnBuffer} {d : Disk} {m : PageInfo → Option Page}
    (h : Represents b d m) (c : BufferCall) (hc : c.InFile d) :
    ∃ b' d', c.onBuffer (b, d) = .ok ((b', d'), (c.onStore m).2) ∧
      Represents b' d' (c.onStore m).1 ∧ Disk.SameShape d d' := by
  cases c with
  | read k target =>
    obtain ⟨b', d', out, he, ha⟩ := access_spec h.wf target .read hc.1 hc.2
    obtain ⟨p, hp⟩ := Option.isSome_iff_exists.mp ((h.pages k).trans hc.2)
    have hout : out = p := ha.read rfl _ (h.sat k p hp)
    refine ⟨b', d', ?_, ⟨ha.wf, fun k' => ?_, fun k' q hq => ?_⟩, ha.shape⟩
    · simp [BufferCall.onBuffer, BufferCall.onStore, he, hp, hout, bind, Except.bind, pure,
        Except.pure]
    · rw [ha.shape.isSome_page?]
      exact h.pages k'
    · exact ha.keep k' _ (.inl rfl) (h.sat k' q hq)
  | write k p =>
    obtain ⟨b', d', out, he, ha⟩ := access_spec h.wf p .write hc.1 hc.2
    refine ⟨b', d', ?_, ⟨ha.wf, fun k' => ?_, fun k' q hq => ?_⟩, ha.shape⟩
    · simp [BufferCall.onBuffer, BufferCall.onStore, he, bind, Except.bind, pure, Except.pure]
    · rw [ha.shape.isSome_page?]
      simp only [BufferCall.onStore]
      split
      · next hk => exact (hk ▸ hc.2).symm
      · exact h.pages k'
    · simp only [BufferCall.onStore] at hq
      split at hq
      · next hk =>
          cases hq
          exact hk ▸ ha.write rfl
      · next hk => exact ha.keep k' _ (.inr hk) (h.sat k' q hq)
  | flush table =>
    obtain ⟨b', d', he, hwf, hshape, hsat, -⟩ := flush_spec h.wf table
    refine ⟨b', d', ?_, ⟨hwf, fun k => ?_, fun k p hp => hsat k _ (h.sat k p hp)⟩, hshape⟩
    · simp [BufferCall.onBuffer, BufferCall.onStore, he, bind, Except.bind, pure, Except.pure]
    · rw [hshape.isSome_page?]
      exact h.pages k

theorem BufferCall.InFile.of_sameShape {d d' : Disk} (hs : Disk.SameShape d d') {c : BufferCall}
    (h : c.InFile d) : c.InFile d' := by
  cases c with
  | read k _ | write k _ => exact ⟨h.1, (hs.isSome_page? k).trans h.2⟩
  | flush _ => trivial

/-- A run of calls hands back what the direct store does and keeps representing it. -/
theorem Represents.run :
    ∀ (calls : List BufferCall) {b : ColumnBuffer} {d : Disk} {m : PageInfo → Option Page},
      Represents b d m → (∀ c ∈ calls, c.InFile d) →
      ∃ b' d', BufferCall.runBuffer (b, d) calls =
          .ok ((b', d'), (BufferCall.runStore m calls).2) ∧
        Represents b' d' (BufferCall.runStore m calls).1
  | [], b, d, m, h, _ => ⟨b, d, rfl, h⟩
  | c :: cs, b, d, m, h, hin => by
    obtain ⟨b', d', he, h', hshape⟩ := h.call c (hin c (List.mem_cons_self ..))
    obtain ⟨b'', d'', he', h''⟩ := Represents.run cs h'
      fun c' hc' => BufferCall.InFile.of_sameShape hshape (hin c' (List.mem_cons_of_mem _ hc'))
    refine ⟨b'', d'', ?_, h''⟩
    simp [BufferCall.runBuffer, BufferCall.runStore, he, he', bind, Except.bind, pure,
      Except.pure]

/-- After `flush(t)` the pages of `t` on disk are those of the store. -/
theorem Represents.flush_disk {b : ColumnBuffer} {d : Disk} {m : PageInfo → Option Page}
    (h : Represents b d m) (table : Str) :
    ∃ b' d', b.flush d table = .ok (b', d') ∧
      ∀ k : PageInfo, k.tableName = table → d'.page? k = m k := by
  obtain ⟨b', d', he, -, hshape, hsat, hclean⟩ := flush_spec h.wf table
  refine ⟨b', d', he, fun k hk => ?_⟩
  cases hm : m k with
  | none =>
    have hnone : (d'.page? k).isSome = false := by
      rw [hshape.isSome_page?, ← h.pages, hm]
      rfl
    simpa using hnone
  | some p =>
    obtain ⟨q, hq, hqp⟩ := (hsat k _ (h.sat k p hm)).2 fun c hc => hclean k c hc hk
    rw [hq, hqp]

end ColumnBuffer

/-- Coherence of the column buffer: whatever reads, writes and flushes come before,
every read hands back the page last written, or the page on disk, and a flush of
a table leaves its last written pages on disk. -/
theorem columnBuffer_refines_pageStore (d : Disk) (calls : List BufferCall)
    (hin : ∀ c ∈ calls, c.InFile d) :
    ∃ b' d', BufferCall.runBuffer (ColumnBuffer.init, d) calls =
        .ok ((b', d'), (BufferCall.runStore d.page? calls).2) ∧
      ∀ table, ∃ b'' d'', b'.flush d' table = .ok (b'', d'') ∧
        ∀ k : PageInfo, k.tableName = table →
          d''.page? k = (BufferCall.runStore d.page? calls).1 k := by
  obtain ⟨b', d', he, h⟩ := (ColumnBuffer.represents_init d).run calls hin
  exact ⟨b', d', he, fun table => h.flush_disk table⟩

/-- A table of eighteen pages per column. -/
def eighteenPages : Disk :=
  (∅ : Disk).insert (Str.ofString "A")
    { columns := fun c => List.replicate 18 (zeroPage c), text := ∅, bloomfilter := none }

/-- Seventeen writes, so that the first dirty page is evicted, and a read of it. -/
def evictingCalls : List BufferCall :=
  (List.range 17).map (fun i => .write ⟨Str.ofString "A", .intensity, i⟩ fun _ => .int i) ++
    [.read ⟨Str.ofString "A", .intensity, 0⟩ (zeroPage .intensity)]

theorem columnBuffer_refines_pageStore_evicting :
    (∀ c ∈ evictingCalls, c.InFile eighteenPages) ∧
    ∃ b' d', BufferCall.runBuffer (ColumnBuffer.init, eighteenPages) evictingCalls =
        .ok ((b', d'), (BufferCall.runStore eighteenPages.page? evictingCalls).2) ∧
      ∀ table, ∃ b'' d'', b'.flush d' table = .ok (b'', d'') ∧
        ∀ k : PageInfo, k.tableName = table →
          d''.page? k = (BufferCall.runStore eighteenPages.page? evictingCalls).1 k :=
  have hin : ∀ c ∈ evictingCalls, c.InFile eighteenPages := by decide +kernel
  ⟨hin, columnBuffer_refines_pageStore eighteenPages evictingCalls hin⟩

end PittCs.Rcdb
