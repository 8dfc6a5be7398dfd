import Mathlib.Data.List.Infix
import PittCs.Rcdb.LockSpec

/-!
# Compatibility of table locks

Transactions that hold table locks on one table should hold compatible kinds.
One escalation breaks this: a `READ_LOCK` request of a transaction that holds
`INTENT_READ_LOCK` runs through two cases of the `switch` and ends with
`READ_INTENT_WRITE_LOCK`, which other readers do not allow. It is the only one.
-/

namespace PittCs.Rcdb

open LockManager List

/-- Two kinds that two transactions may hold on one table. -/
def compatible : LockType → LockType → Bool
  | .intentReadLock, k => k ≠ .writeLock
  | .intentWriteLock, k => k = .intentReadLock ∨ k = .intentWriteLock
  | .readLock, k => k = .intentReadLock ∨ k = .readLock
  | .readIntentWriteLock, k => k = .intentReadLock
  | .writeLock, _ => false

theorem compatible_comm (k k' : LockType) : compatible k k' = compatible k' k := by
  cases k <;> cases k' <;> rfl

/-- Distinct holders of a table lock hold compatible kinds. -/
def TableCompat (m : LockManager) : Prop :=
  ∀ tb u v ku kv, u ≠ v → m.tableLock? tb u = some ku → m.tableLock? tb v = some kv →
    compatible ku kv = true

/-- A `READ_LOCK` request by a holder of `INTENT_READ_LOCK` while another
transaction reads the table. -/
def OvertakesReader (m : LockManager) (tx : Int) (tb : Str) (desired : LockType) : Prop :=
  desired = .readLock ∧ m.tableLock? tb tx = some .intentReadLock ∧
    ∃ u, u ≠ tx ∧ m.tableLock? tb u = some .readLock

variable {m m' : LockManager} {desired : LockType}

/-- The kind stored is compatible with every kind that was compatible with the
one held and is not in the way, but for the one escalation. -/
theorem compatible_stored {held : Option LockType} {ku : LockType}
    (hnew : alreadyHolds held desired = false) (hfree : blocks desired ku = false)
    (hheld : ∀ k, held = some k → compatible k ku = true)
    (hgood : ¬ (desired = .readLock ∧ held = some .intentReadLock ∧ ku = .readLock)) :
    compatible (stored held desired) ku = true := by
  rcases held with _ | k
  · cases desired <;> cases ku <;> simp_all [blocks, compatible, stored]
  · have hk := hheld k rfl
    cases desired <;> cases k <;> cases ku <;>
      simp_all [alreadyHolds, blocks, compatible, stored]

/-! ## One operation -/

theorem TableCompat.of_tableLock (h : TableCompat m)
    (hsub : ∀ tb u k, m'.tableLock? tb u = some k → m.tableLock? tb u = some k) :
    TableCompat m' := by
  intro tb u v ku kv huv hu hv
  exact h tb u v ku kv huv (hsub tb u ku hu) (hsub tb v kv hv)

theorem TableCompat.tableOutcome {tx : Int} {tb : Str} {result : List Int} (h : TableCompat m)
    (hout : TableOutcome m tx tb desired (result, m')) (hgood : ¬ OvertakesReader m tx tb desired) :
    TableCompat m' := by
  cases hout with
  | kept _ | refused _ _ _ => exact h
  | granted hfree hnew hset =>
    -- the stored kind against every other holder
    have hstored : ∀ v kv, v ≠ tx → m.tableLock? tb v = some kv →
        compatible (stored (m.tableLock? tb tx) desired) kv = true := by
      intro v kv hv hlock
      refine compatible_stored hnew (hfree v kv hv hlock) ?_ ?_
      · intro k hk
        exact h tb tx v k kv (Ne.symm hv) hk hlock
      · rintro ⟨hd, hheld, hkv⟩
        exact hgood ⟨hd, hheld, v, hv, hkv ▸ hlock⟩
    intro tb' u v ku kv huv hu hv
    rw [hset.table] at hu hv
    by_cases hux : tb' = tb ∧ u = tx
    · rw [if_pos hux] at hu
      have hvx : ¬ (tb' = tb ∧ v = tx) := fun hvx => huv (hux.2.trans hvx.2.symm)
      rw [if_neg hvx, hux.1] at hv
      cases hu
      exact hstored v kv (fun he => huv (hux.2.trans he.symm)) hv
    · rw [if_neg hux] at hu
      by_cases hvx : tb' = tb ∧ v = tx
      · rw [if_pos hvx] at hv
        rw [hvx.1] at hu
        cases hv
        rw [compatible_comm]
        exact hstored u ku (fun he => huv (he.trans hvx.2.symm)) hu
      · rw [if_neg hvx] at hv
        exact h tb' u v ku kv huv hu hv

theorem not_overtakesReader_intentOf (m : LockManager) (tx : Int) (tb : Str)
    (desired : LockType) : ¬ OvertakesReader m tx tb (intentOf desired) := by
  rintro ⟨hd, -, -⟩
  cases desired <;> cases hd

theorem TableCompat.itemOutcome {tx : Int} {tb : Str} {c : Int} {result : List Int}
    (h : TableCompat m) (hout : ItemOutcome m tx tb c desired (result, m')) : TableCompat m' := by
  have hintent := not_overtakesReader_intentOf m tx tb desired
  cases hout with
  | refusedTable _ htable => exact h
  | kept htable _ | refused _ htable _ _ => exact h.tableOutcome htable hintent
  | granted htable _ _ hset =>
    refine (h.tableOutcome htable hintent).of_tableLock fun tb u k hlock => ?_
    rw [← hset.table]
    exact hlock

theorem TableCompat.releaseAllLocks (h : TableCompat m) (tx : Int) :
    TableCompat (m.releaseAllLocks tx) :=
  h.of_tableLock fun _ _ _ hlock => releaseAllLocks_table_some hlock

/-- The one escalation gives an incompatible pair. -/
theorem OvertakesReader.not_compat {tx : Int} {tb : Str} {result : List Int}
    (hbad : OvertakesReader m tx tb desired) (h : TableCompat m)
    (hout : TableOutcome m tx tb desired (result, m')) : ¬ TableCompat m' := by
  rcases hbad with ⟨rfl, hheld, u, hu, hread⟩
  intro hcompat
  cases hout with
  | kept hkept =>
    rw [hheld] at hkept
    cases hkept
  | granted _ _ hset =>
    have htx : m'.tableLock? tb tx = some .readIntentWriteLock := by
      rw [hset.table, if_pos ⟨rfl, rfl⟩, hheld]
      rfl
    have hu' : m'.tableLock? tb u = some .readLock := by
      rw [hset.table, if_neg (fun he => hu he.2)]
      exact hread
    have := hcompat tb tx u _ _ (Ne.symm hu) htx hu'
    cases this
  | refused hne _ hmem =>
    -- whoever refuses the request is not compatible with the reader
    rcases exists_mem_of_ne_nil _ hne with ⟨v, hv⟩
    rcases (hmem v).mp hv with ⟨hvx, k, hk, hblock⟩
    by_cases huv : u = v
    · subst huv
      rw [hread] at hk
      cases hk
      cases hblock
    · have := h tb u v _ _ huv hread hk
      cases k <;> cases this <;> cases hblock

/-! ## Sequences of calls -/

/-- A call of the lock manager. -/
inductive LockCall where
  | table (tx : Int) (tableName : Str) (desired : LockType)
  | item (tx : Int) (tableName : Str) (coffeeID : Int) (desired : LockType)
  | release (tx : Int)

def LockCall.apply (m : LockManager) : LockCall → Except Err LockManager
  | .table tx tableName desired => .ok (m.tryAcquireTableLock tx tableName desired).2
  | .item tx tableName coffeeID desired =>
    (m.tryAcquireItemLock tx tableName coffeeID desired).map Prod.snd
  | .release tx => .ok (m.releaseAllLocks tx)

/-- The calls one after the other on a new lock manager. -/
def runCalls (calls : List LockCall) : Except Err LockManager :=
  calls.foldlM LockCall.apply LockManager.init

/-- The call is the escalation that breaks compatibility. -/
def LockCall.Overtakes (m : LockManager) : LockCall → Prop
  | .table tx tableName desired => OvertakesReader m tx tableName desired
  | .item _ _ _ _ => False
  | .release _ => False

theorem known_init : Known LockManager.init := by
  intro tb _ c u
  simp [recordLock?, recordHolders, LockManager.init]

theorem tableCompat_init : TableCompat LockManager.init := by
  intro tb u v ku kv _ hu _
  simp [tableLock?, tableHolders, LockManager.init] at hu

/-- An item request that does not throw meets its outcome. -/
theorem itemOutcome_of_ok (hk : Known m) {tx : Int} {tb : Str} {c : Int}
    {r : List Int × LockManager} (h : m.tryAcquireItemLock tx tb c desired = .ok r) :
    ItemOutcome m tx tb c desired r := by
  have hd : desired = .readLock ∨ desired = .writeLock := by
    cases desired <;> simp_all [tryAcquireItemLock]
  rcases tryAcquireItemLock_spec hk tx tb c hd with ⟨r', hr', hout⟩
  rw [h] at hr'
  cases hr'
  exact hout

theorem LockCall.apply_spec (hk : Known m) {call : LockCall} (h : call.apply m = .ok m') :
    Known m' ∧ (TableCompat m → (TableCompat m' ↔ ¬ call.Overtakes m)) := by
  cases call with
  | table tx tb desired =>
    have hout := tryAcquireTableLock_spec hk tx tb desired
    rcases hr : m.tryAcquireTableLock tx tb desired with ⟨result, m₁⟩
    rw [hr] at hout
    simp only [LockCall.apply, hr] at h
    cases h
    refine ⟨hout.known hk, fun hcompat => ?_⟩
    constructor
    · intro hafter hbad
      have hbad' : OvertakesReader m tx tb desired := hbad
      exact hbad'.not_compat hcompat hout hafter
    · intro hgood
      exact hcompat.tableOutcome hout hgood
  | item tx tb c desired =>
    rcases hr : m.tryAcquireItemLock tx tb c desired with e | ⟨result, m₁⟩
    · simp only [LockCall.apply, hr] at h
      cases h
    · simp only [LockCall.apply, hr] at h
      cases h
      have hout := itemOutcome_of_ok hk hr
      exact ⟨hout.known hk, fun hcompat => ⟨fun _ hbad => hbad, fun _ => hcompat.itemOutcome hout⟩⟩
  | release tx =>
    simp only [LockCall.apply] at h
    cases h
    exact ⟨hk.releaseAllLocks tx,
      fun hcompat => ⟨fun _ hbad => hbad, fun _ => hcompat.releaseAllLocks tx⟩⟩

theorem runCalls_concat {calls : List LockCall} {call : LockCall} :
    runCalls (calls ++ [call]) = .ok m ↔
      ∃ m₀, runCalls calls = .ok m₀ ∧ call.apply m₀ = .ok m := by
  have hsplit : runCalls (calls ++ [call]) = (runCalls calls).bind fun m₀ => call.apply m₀ := by
    rw [runCalls, foldlM_append]
    simp only [foldlM_cons, foldlM_nil, bind_pure]
    rfl
  rw [hsplit]
  rcases runCalls calls with e | m₀
  · simp [Except.bind]
  · simp [Except.bind]

theorem runCalls_known {calls : List LockCall} (h : runCalls calls = .ok m) : Known m := by
  induction calls using List.reverseRecOn generalizing m with
  | nil =>
    cases h
    exact known_init
  | append_singleton calls call ih =>
    rcases runCalls_concat.mp h with ⟨m₀, hrun, hcall⟩
    exact (LockCall.apply_spec (ih hrun) hcall).1

/-- Table locks stay compatible through a sequence of calls exactly as long as no
`READ_LOCK` request overtakes a reader. -/
theorem tableCompat_iff_no_overtaking (calls : List LockCall) :
    (∀ done, done <+: calls → ∀ m, runCalls done = .ok m → TableCompat m) ↔
      ∀ done call, done ++ [call] <+: calls → ∀ m, runCalls done = .ok m → ¬ call.Overtakes m := by
  constructor
  · intro h done call hpre m hrun hbad
    have hdone : done <+: calls := (prefix_append done [call]).trans hpre
    have hcall : ∃ m', call.apply m = .ok m' := by
      cases call with
      | table tx tb desired => exact ⟨_, rfl⟩
      | item _ _ _ _ | release _ => exact hbad.elim
    rcases hcall with ⟨m', hcall⟩
    have hafter := runCalls_concat.mpr ⟨m, hrun, hcall⟩
    have hspec := (LockCall.apply_spec (runCalls_known hrun) hcall).2 (h done hdone m hrun)
    exact hspec.mp (h _ hpre m' hafter) hbad
  · intro h done
    induction done using List.reverseRecOn with
    | nil =>
      intro _ m hrun
      cases hrun
      exact tableCompat_init
    | append_singleton done call ih =>
      intro hpre m hrun
      rcases runCalls_concat.mp hrun with ⟨m₀, hrun₀, hcall⟩
      have hdone : done <+: calls := (prefix_append done [call]).trans hpre
      have hspec := (LockCall.apply_spec (runCalls_known hrun₀) hcall).2 (ih hdone m₀ hrun₀)
      exact hspec.mpr (h done call hpre m₀ hrun₀)

/-- Transaction 1 reads a record, transaction 2 scans the table, and transaction
1 scans it too. -/
def overtakingCalls : List LockCall :=
  [.item 1 (Str.ofString "A") 5 .readLock, .table 2 (Str.ofString "A") .readLock,
    .table 1 (Str.ofString "A") .readLock]

theorem tableCompat_overtakingCalls :
    ∃ m, runCalls overtakingCalls = .ok m ∧
      m.tableLock? (Str.ofString "A") 1 = some .readIntentWriteLock ∧
      m.tableLock? (Str.ofString "A") 2 = some .readLock ∧ ¬ TableCompat m := by
  have hlocks : (runCalls overtakingCalls).toOption.map (fun m =>
      (m.tableLock? (Str.ofString "A") 1, m.tableLock? (Str.ofString "A") 2)) =
      some (some .readIntentWriteLock, some .readLock) := by decide +kernel
  rcases hrun : runCalls overtakingCalls with e | m
  · rw [hrun] at hlocks
    cases hlocks
  · simp only [hrun, Except.toOption, Option.map_some, Option.some.injEq, Prod.mk.injEq] at hlocks
    refine ⟨m, rfl, hlocks.1, hlocks.2, fun hcompat => ?_⟩
    have := hcompat (Str.ofString "A") 1 2 _ _ (by decide) hlocks.1 hlocks.2
    cases this

end PittCs.Rcdb
