import Mathlib.Data.List.Nodup
import PittCs.Rcdb.LockCoverage

/-!
# Record locks and the lists of their owners

A lock is kept twice: in the maps of holders, and in the lists of the transaction
that holds it. The lists name exactly the locks that are held, each once, so
releasing what they name releases everything. A write lock on a record excludes
every other lock on it, and a record lock comes with a table lock that allows it.
-/

namespace PittCs.Rcdb

open Std PittCs.Lib List Option

namespace LockManager

/-- `recordLocksOwned[tableName]` of a transaction. -/
def ownedRecords (m : LockManager) (tx : Int) (tb : Str) : List Int :=
  ((m.ownedBy tx).recordLocksOwned[tb]?).getD []

/-- The lists of a transaction name exactly the locks it holds, each once. -/
structure OwnsExactly (m : LockManager) (tx : Int) : Prop where
  tables : ∀ tb, tb ∈ (m.ownedBy tx).tableLocksOwned ↔ (m.tableLock? tb tx).isSome
  tablesOnce : (m.ownedBy tx).tableLocksOwned.Nodup
  records : ∀ tb c, c ∈ m.ownedRecords tx tb ↔ (m.recordLock? tb c tx).isSome
  recordsOnce : ∀ tb, (m.ownedRecords tx tb).Nodup

/-- A record lock comes with a table lock, which allows it. -/
def RecordCovered (m : LockManager) : Prop :=
  ∀ tb c u k, m.recordLock? tb c u = some k →
    ∃ k', m.tableLock? tb u = some k' ∧ (k = .writeLock → writesRecords k' = true)

/-! ## What is owned -/

theorem ownedBy_ownRecord (m : LockManager) (tx : Int) (tb : Str) (c u : Int) :
    (m.ownRecord tx tb c).ownedBy u =
      if u = tx then
        { m.ownedBy tx with
          recordLocksOwned := (m.ownedBy tx).recordLocksOwned.insert tb (m.ownedRecords tx tb ++ [c]) }
      else m.ownedBy u := by
  simp only [ownRecord, ownedBy, ownedRecords, getElem?_insert_if]
  split <;> rfl

namespace OwnsExactly

variable {m m' : LockManager} {tx : Int}

/-- Neither what is held nor what is listed changes; the kind may. -/
theorem of_eq (h : OwnsExactly m tx)
    (htable : ∀ tb, (m'.tableLock? tb tx).isSome = (m.tableLock? tb tx).isSome)
    (hrecord : ∀ tb c, (m'.recordLock? tb c tx).isSome = (m.recordLock? tb c tx).isSome)
    (howned : m'.ownedBy tx = m.ownedBy tx) : OwnsExactly m' tx := by
  have hrecords : ∀ tb, m'.ownedRecords tx tb = m.ownedRecords tx tb := by
    intro tb
    unfold ownedRecords
    rw [howned]
  constructor
  · intro tb
    rw [howned, htable]
    exact h.tables tb
  · rw [howned]
    exact h.tablesOnce
  · intro tb c
    rw [hrecords, hrecord]
    exact h.records tb c
  · intro tb
    rw [hrecords]
    exact h.recordsOnce tb

/-- A table lock is stored, and listed if it is the first on the table. -/
theorem tableSet {tb : Str} {kind : LockType} {u : Int} (h : OwnsExactly m u)
    (hset : TableSet m tb tx kind m')
    (howned : m'.ownedBy u =
      if u = tx ∧ m.tableLock? tb tx = none then (m.ownTable tx tb).ownedBy u else m.ownedBy u) :
    OwnsExactly m' u := by
  by_cases hnew : u = tx ∧ m.tableLock? tb tx = none
  · rcases hnew with ⟨rfl, hnone⟩
    rw [if_pos ⟨rfl, hnone⟩, ownedBy_ownTable, if_pos rfl] at howned
    have hrecords : ∀ tb', m'.ownedRecords u tb' = m.ownedRecords u tb' := by
      intro tb'
      unfold ownedRecords
      rw [howned]
    constructor
    · intro tb'
      rw [howned, hset.table, mem_append, h.tables, mem_singleton]
      by_cases heq : tb' = tb
      · simp [heq]
      · simp [heq]
    · have hfresh : tb ∉ (m.ownedBy u).tableLocksOwned := by
        rw [h.tables, hnone]
        simp
      rw [howned]
      exact List.Nodup.append h.tablesOnce (nodup_singleton tb) (by simpa using hfresh)
    · intro tb' c
      rw [hrecords, hset.record]
      exact h.records tb' c
    · intro tb'
      rw [hrecords]
      exact h.recordsOnce tb'
  · rw [if_neg hnew] at howned
    refine h.of_eq ?_ ?_ howned
    · intro tb'
      rw [hset.table]
      split
      case isTrue heq =>
        -- the kind of a lock that was held already
        rcases heq with ⟨rfl, rfl⟩
        rcases hheld : m.tableLock? tb' u with _ | k
        · exact absurd ⟨rfl, hheld⟩ hnew
        · rfl
      case isFalse => rfl
    · intro tb' c
      rw [hset.record]

/-- A record lock is stored, and listed if it is the first on the record. -/
theorem recordSet {tb : Str} {c : Int} {kind : LockType} {u : Int} (h : OwnsExactly m u)
    (hset : RecordSet m tb c tx kind m')
    (howned : m'.ownedBy u =
      if u = tx ∧ m.recordLock? tb c tx = none then (m.ownRecord tx tb c).ownedBy u
      else m.ownedBy u) : OwnsExactly m' u := by
  by_cases hnew : u = tx ∧ m.recordLock? tb c tx = none
  · rcases hnew with ⟨rfl, hnone⟩
    rw [if_pos ⟨rfl, hnone⟩, ownedBy_ownRecord, if_pos rfl] at howned
    have hrecords : ∀ tb', m'.ownedRecords u tb' =
        if tb' = tb then m.ownedRecords u tb ++ [c] else m.ownedRecords u tb' := by
      intro tb'
      unfold ownedRecords
      rw [howned]
      dsimp only
      rw [getElem?_insert_if]
      split <;> rfl
    constructor
    · intro tb'
      rw [howned, hset.table]
      exact h.tables tb'
    · rw [howned]
      exact h.tablesOnce
    · intro tb' c'
      rw [hrecords, hset.record]
      by_cases htb : tb' = tb
      · subst htb
        rw [if_pos rfl, mem_append, h.records, mem_singleton]
        by_cases hc : c' = c
        · simp [hc]
        · simp [hc]
      · rw [if_neg htb, if_neg fun he => htb he.1]
        exact h.records tb' c'
    · intro tb'
      rw [hrecords]
      split
      · have hfresh : c ∉ m.ownedRecords u tb := by
          rw [h.records, hnone]
          simp
        exact List.Nodup.append (h.recordsOnce tb) (nodup_singleton c) (by simpa using hfresh)
      · exact h.recordsOnce tb'
  · rw [if_neg hnew] at howned
    refine h.of_eq ?_ ?_ howned
    · intro tb'
      rw [hset.table]
    · intro tb' c'
      rw [hset.record]
      split
      case isTrue heq =>
        rcases heq with ⟨rfl, rfl, rfl⟩
        rcases hheld : m.recordLock? tb' c' u with _ | k
        · exact absurd ⟨rfl, hheld⟩ hnew
        · rfl
      case isFalse => rfl

end OwnsExactly

/-! ## The calls -/

theorem ownsExactly_init (tx : Int) : OwnsExactly init tx := by
  constructor <;> simp [init, ownedBy, ownedRecords, tableLock?, tableHolders, recordLock?,
    recordHolders]

theorem ownedBy_grantTable (m : LockManager) (tx : Int) (tb : Str) (held : Option LockType)
    (desired : LockType) (u : Int) :
    (m.grantTable tx tb held desired).ownedBy u =
      if u = tx ∧ held = none then (m.ownTable tx tb).ownedBy u else m.ownedBy u := by
  unfold grantTable
  rw [ownedBy_setTableLock]
  rcases held with _ | k
  · rw [if_neg (by simp), if_pos rfl]
    by_cases hu : u = tx
    · rw [if_pos ⟨hu, rfl⟩]
    · rw [if_neg fun he => hu he.1, ownedBy_ownTable, if_neg hu]
  · rw [if_neg (c := u = tx ∧ some k = none) (by simp)]
    split <;> rfl

variable {desired : LockType} {result : List Int}

theorem OwnsExactly.tryAcquireTableLock {m : LockManager} (hk : Known m) {tx u : Int} {tb : Str}
    (h : OwnsExactly m u) : OwnsExactly (m.tryAcquireTableLock tx tb desired).2 u := by
  rcases hlocks : m.tableLevelLocks[tb]? with _ | locks
  · have hnone : m.tableLock? tb tx = none := by
      simp [tableLock?, tableHolders, hlocks]
    have heq : m.tryAcquireTableLock tx tb desired =
        ([], (m.newTable tb tx desired).ownTable tx tb) := by
      unfold LockManager.tryAcquireTableLock
      rw [hlocks]
      rfl
    rw [heq]
    refine h.tableSet (newTable_spec hk hlocks tx desired) ?_
    by_cases hu : u = tx
    · rw [if_pos ⟨hu, hnone⟩]
      rfl
    · rw [if_neg fun he => hu he.1, ownedBy_ownTable, if_neg hu]
      rfl
  · have hheld : locks[tx]? = m.tableLock? tb tx := by
      simp [tableLock?, tableHolders, hlocks]
    rw [tryAcquireTableLock_some hlocks, hheld]
    split
    · exact h
    · split
      · exact h.tableSet (grantTable_spec hk tx tb desired) (ownedBy_grantTable ..)
      · exact h

/-- A record request stores a record lock, if anything, once it has the table lock. -/
theorem tryAcquireItemLock_cases {m m₁ m' : LockManager} {tx : Int} {tb : Str} {c : Int}
    {result' : List Int} (htable : m.tryAcquireTableLock tx tb (intentOf desired) = (result, m₁))
    (h : m.tryAcquireItemLock tx tb c desired = .ok (result', m')) :
    m' = m₁ ∨ result = [] ∧
      (m₁.recordLock? tb c tx = none ∧
          m' = (m₁.ownRecord tx tb c).setRecordLock tb c tx desired ∨
        (m₁.recordLock? tb c tx).isSome ∧ m' = m₁.setRecordLock tb c tx desired) := by
  unfold tryAcquireItemLock at h
  have hlock : ∀ {locks}, (m₁.recordHolders tb)[c]? = some locks →
      m₁.recordLock? tb c tx = locks[tx]? := fun hrec => recordLock?_eq hrec tx
  have hfirst : (m₁.recordHolders tb)[c]? = none → m₁.recordLock? tb c tx = none := by
    intro hrec
    simp [recordLock?, hrec]
  have hmiss : ∀ {locks : Holders}, tx ∉ locks → locks[tx]? = none := by
    intro locks hnot
    exact TreeMap.getElem?_eq_none hnot
  cases result with
  | cons u l =>
    left
    cases desired with
    | readLock | writeLock =>
      simp only [intentOf] at htable
      simp only [htable] at h
      cases h
      rfl
    | _ => cases h
  | nil =>
    cases desired with
    | readLock =>
      simp only [intentOf] at htable
      simp only [htable] at h
      split at h
      case h_1 hrec =>
        cases h
        exact .inr ⟨rfl, .inl ⟨hfirst hrec, rfl⟩⟩
      case h_2 locks hrec =>
        split at h
        · cases h
          exact .inl rfl
        case isFalse hnot =>
          split at h
          · cases h
            exact .inr ⟨rfl, .inl ⟨(hlock hrec).trans (hmiss hnot), rfl⟩⟩
          · cases h
            exact .inl rfl
    | writeLock =>
      simp only [intentOf] at htable
      simp only [htable] at h
      split at h
      case h_1 hrec =>
        cases h
        exact .inr ⟨rfl, .inl ⟨hfirst hrec, rfl⟩⟩
      case h_2 locks hrec =>
        split at h
        · cases h
          exact .inl rfl
        · split at h
          · by_cases hin : tx ∈ locks
            · rw [if_pos hin] at h
              cases h
              refine .inr ⟨rfl, .inr ⟨?_, rfl⟩⟩
              rw [hlock hrec]
              exact TreeMap.mem_iff_isSome_getElem?.mp hin
            · rw [if_neg hin] at h
              cases h
              exact .inr ⟨rfl, .inl ⟨(hlock hrec).trans (hmiss hin), rfl⟩⟩
          · cases h
            exact .inl rfl
    | _ => cases h

theorem OwnsExactly.tryAcquireItemLock {m m' : LockManager} (hk : Known m) {tx u : Int} {tb : Str}
    {c : Int} (h : OwnsExactly m u)
    (hcall : m.tryAcquireItemLock tx tb c desired = .ok (result, m')) : OwnsExactly m' u := by
  have hspec := tryAcquireTableLock_spec hk tx tb (intentOf desired)
  have htable : OwnsExactly (m.tryAcquireTableLock tx tb (intentOf desired)).2 u :=
    h.tryAcquireTableLock hk
  rcases hr : m.tryAcquireTableLock tx tb (intentOf desired) with ⟨result₁, m₁⟩
  rw [hr] at hspec htable
  have hk₁ := hspec.known hk
  rcases tryAcquireItemLock_cases hr hcall with rfl | ⟨rfl, ⟨hnone, rfl⟩ | ⟨hsome, rfl⟩⟩
  · exact htable
  · have hset := (recordSet_setRecordLock (m := m₁.ownRecord tx tb c) hk₁ hspec.isSome
      (fun _ => mem_recordLocksOwned_ownRecord m₁ tx tb c) desired).of_ownRecord
    refine htable.recordSet hset ?_
    rw [ownedBy_setRecordLock]
    by_cases hu : u = tx
    · rw [if_pos ⟨hu, hnone⟩]
    · rw [if_neg fun he => hu he.1, ownedBy_ownRecord, if_neg hu]
  · rcases isSome_iff_exists.mp hsome with ⟨k, hheld⟩
    refine htable.recordSet
      (recordSet_setRecordLock hk₁ hspec.isSome (fun hown => hown.2 _ _ _ hheld) desired) ?_
    rw [ownedBy_setRecordLock, if_neg]
    rintro ⟨-, hnone⟩
    rw [hnone] at hheld
    cases hheld

/-- Complete lists let everything be released. -/
theorem OwnsExactly.ownsAll {m : LockManager} {tx : Int} (h : OwnsExactly m tx) : OwnsAll m tx := by
  constructor
  · intro tb k hk
    exact (h.tables tb).mpr (by rw [hk]; rfl)
  · intro tb c k hk
    exact (h.records tb c).mpr (by rw [hk]; rfl)

theorem OwnsExactly.releaseAllLocks {m : LockManager} {tx u : Int} (htx : OwnsExactly m tx)
    (h : OwnsExactly m u) : OwnsExactly (m.releaseAllLocks tx) u := by
  by_cases hu : u = tx
  · subst hu
    rcases releaseAllLocks_none htx.ownsAll with ⟨htable, hrecord⟩
    have howned : (m.releaseAllLocks u).ownedBy u = {} := by
      simp [LockManager.releaseAllLocks, ownedBy]
    constructor
    · intro tb
      rw [howned, htable]
      simp
    · rw [howned]
      exact nodup_nil
    · intro tb c
      unfold ownedRecords
      rw [howned, hrecord]
      simp
    · intro tb
      unfold ownedRecords
      rw [howned]
      simp
  · rcases releaseAllLocks_of_ne (m := m) hu with ⟨htable, hrecord⟩
    refine h.of_eq ?_ ?_ (ownedBy_releaseAllLocks hu)
    · intro tb
      rw [htable]
    · intro tb c
      rw [hrecord]

/-! ## What covers a record lock -/

theorem RecordCovered.tableOutcome {m m' : LockManager} {tx : Int} {tb : Str} (h : RecordCovered m)
    (hout : TableOutcome m tx tb desired (result, m')) : RecordCovered m' := by
  intro tb' c u k hk
  rw [recordLock?_of_tableOutcome hout] at hk
  rcases h tb' c u k hk with ⟨k', hk', hwrite⟩
  by_cases hu : u = tx
  · subst hu
    rcases hout.grows hk' with ⟨k'', hk'', -, hkeeps, -⟩
    exact ⟨k'', hk'', fun hwl => hkeeps (hwrite hwl)⟩
  · exact ⟨k', ((hout.sameLocks hu).1 tb').trans hk', hwrite⟩

theorem writesRecords_of_alreadyHolds {k : LockType}
    (h : alreadyHolds (some k) .intentWriteLock = true) : writesRecords k = true := by
  cases k <;> first | rfl | cases h

theorem RecordCovered.itemOutcome {m m' : LockManager} {tx : Int} {tb : Str} {c : Int}
    (h : RecordCovered m) (hout : ItemOutcome m tx tb c desired (result, m')) :
    RecordCovered m' := by
  cases hout with
  | refusedTable _ _ => exact h
  | kept htable _ | refused _ htable _ _ => exact h.tableOutcome htable
  | granted htable _ _ hset =>
    intro tb' c' u k hk
    rw [hset.record] at hk
    rw [hset.table]
    split at hk
    case isTrue heq =>
      rcases heq with ⟨rfl, rfl, rfl⟩
      cases hk
      rcases htable.holds with ⟨k', hk', henough⟩
      refine ⟨k', hk', ?_⟩
      rintro rfl
      exact writesRecords_of_alreadyHolds henough
    case isFalse => exact h.tableOutcome htable tb' c' u k hk

theorem RecordCovered.releaseAllLocks {m : LockManager} {tx : Int} (h : RecordCovered m)
    (hown : OwnsAll m tx) : RecordCovered (m.releaseAllLocks tx) := by
  intro tb c u k hk
  by_cases hu : u = tx
  · subst hu
    rw [(releaseAllLocks_none hown).2] at hk
    cases hk
  · rcases releaseAllLocks_of_ne (m := m) hu with ⟨htable, hrecord⟩
    rw [hrecord] at hk
    rw [htable]
    exact h tb c u k hk

end LockManager

open LockManager

/-- What every call keeps. -/
structure RecordLocksInv (m : LockManager) : Prop where
  known : Known m
  exclusive : RecordExclusive m
  covered : RecordCovered m
  owns : ∀ u, OwnsExactly m u

theorem RecordLocksInv.apply {m m' : LockManager} {call : LockCall} (h : RecordLocksInv m)
    (hcall : call.apply m = .ok m') : RecordLocksInv m' := by
  have hknown := (LockCall.apply_spec h.known hcall).1
  cases call with
  | table tx tb desired =>
    have hout := tryAcquireTableLock_spec h.known tx tb desired
    have howns : ∀ u, OwnsExactly (m.tryAcquireTableLock tx tb desired).2 u :=
      fun u => (h.owns u).tryAcquireTableLock h.known
    rcases hr : m.tryAcquireTableLock tx tb desired with ⟨result, m₁⟩
    rw [hr] at hout howns
    simp only [LockCall.apply, hr] at hcall
    cases hcall
    refine ⟨hknown, h.exclusive.of_recordLock ?_, h.covered.tableOutcome hout, howns⟩
    intro tb' c u k hk
    rw [recordLock?_of_tableOutcome hout] at hk
    exact hk
  | item tx tb c desired =>
    rcases hr : m.tryAcquireItemLock tx tb c desired with e | ⟨result, m₁⟩
    · simp only [LockCall.apply, hr] at hcall
      cases hcall
    · simp only [LockCall.apply, hr] at hcall
      cases hcall
      have hout := itemOutcome_of_ok h.known hr
      exact ⟨hknown, h.exclusive.itemOutcome hout, h.covered.itemOutcome hout,
        fun u => (h.owns u).tryAcquireItemLock h.known hr⟩
  | release tx =>
    cases hcall
    refine ⟨hknown, ?_, h.covered.releaseAllLocks (h.owns tx).ownsAll,
      fun u => (h.owns tx).releaseAllLocks (h.owns u)⟩
    exact h.exclusive.of_recordLock fun tb c u k => releaseAllLocks_record_some

theorem recordLocksInv_runCalls {calls : List LockCall} {m : LockManager}
    (h : runCalls calls = .ok m) : RecordLocksInv m := by
  induction calls using List.reverseRecOn generalizing m with
  | nil =>
    cases h
    refine ⟨known_init, ?_, ?_, ownsExactly_init⟩
    · intro tb c u v ku kv _ hu
      rw [(holdsNothing_init u).2] at hu
      cases hu
    · intro tb c u k hk
      rw [(holdsNothing_init u).2] at hk
      cases hk
  | append_singleton calls call ih =>
    rcases runCalls_concat.mp h with ⟨m₀, hrun, hcall⟩
    exact (ih hrun).apply hcall

/-- After every sequence of calls a write lock on a record is the only lock on it,
record locks come with a table lock that allows them, and the lists of every
transaction name exactly its locks, so that releasing leaves it none. -/
theorem recordLocks_of_runCalls {calls : List LockCall} {m : LockManager}
    (h : runCalls calls = .ok m) :
    (∀ tb c u v, u ≠ v → m.recordLock? tb c u = some .writeLock → m.recordLock? tb c v = none) ∧
      (∀ tb c u, m.recordLock? tb c u = some .readLock → ∃ k, m.tableLock? tb u = some k) ∧
      (∀ tb c u, m.recordLock? tb c u = some .writeLock →
        ∃ k, m.tableLock? tb u = some k ∧
          (k = .intentWriteLock ∨ k = .readIntentWriteLock ∨ k = .writeLock)) ∧
      ∀ tx, OwnsExactly m tx ∧ HoldsNothing (m.releaseAllLocks tx) tx := by
  have hinv := recordLocksInv_runCalls h
  refine ⟨?_, ?_, ?_, ?_⟩
  · intro tb c u v huv hu
    rcases hv : m.recordLock? tb c v with _ | k
    · rfl
    · have hread := (hinv.exclusive tb c u v _ _ huv hu hv).1
      cases hread
  · intro tb c u hu
    rcases hinv.covered tb c u _ hu with ⟨k, hk, -⟩
    exact ⟨k, hk⟩
  · intro tb c u hu
    rcases hinv.covered tb c u _ hu with ⟨k, hk, hwrite⟩
    exact ⟨k, hk, of_decide_eq_true (hwrite rfl)⟩
  · intro tx
    exact ⟨hinv.owns tx, releaseAllLocks_none (hinv.owns tx).ownsAll⟩

/-- Transaction 1 upgrades its lock on a record, and 2 is refused. -/
def upgradeCalls : List LockCall :=
  [.item 1 (Str.ofString "A") 5 .readLock, .item 1 (Str.ofString "A") 5 .writeLock,
    .item 2 (Str.ofString "A") 5 .readLock]

theorem recordLocks_of_upgradeCalls :
    ∃ m, runCalls upgradeCalls = .ok m ∧
      m.recordLock? (Str.ofString "A") 5 1 = some .writeLock ∧
      m.recordLock? (Str.ofString "A") 5 2 = none ∧ m.ownedRecords 1 (Str.ofString "A") = [5] := by
  have hlocks : (runCalls upgradeCalls).toOption.map (fun m =>
      (m.recordLock? (Str.ofString "A") 5 1, m.ownedRecords 1 (Str.ofString "A"))) =
      some (some .writeLock, [5]) := by decide +kernel
  rcases hrun : runCalls upgradeCalls with e | m
  · rw [hrun] at hlocks
    cases hlocks
  · simp only [hrun, Except.toOption, map_some, some.injEq, Prod.mk.injEq] at hlocks
    exact ⟨m, rfl, hlocks.1, (recordLocks_of_runCalls hrun).1 _ _ 1 2 (by decide) hlocks.1, hlocks.2⟩

end PittCs.Rcdb
