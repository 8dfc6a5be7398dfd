import PittCs.Rcdb.DiGraphCycles
import PittCs.Rcdb.SchedulerBuffers

/-!
# The indices of the cycle search

`hasCycles` makes its vectors as long as the graph has nodes and indexes them with
transaction ids. A search stays within them when the ids in the graph are
`0 .. n - 1`, and a search that finds no cycle only then.
-/

namespace PittCs.Rcdb

open Std PittCs.Lib

namespace DiGraph

/-- At every search of the waits of `w`, up to the first that closes a cycle, the
ids in the graph are indices. -/
def WaitsInRange (w : Int) : List Int → DiGraph → Prop
  | [], _ => True
  | u :: rest, g =>
    ((g.addNode w).addNode u).InRange ∧
      (¬ Relation.ReflTransGen g.Edge u w →
        ∀ g', ((g.addNode w).addNode u).addEdge w u = .ok g' → WaitsInRange w rest g')

theorem detector_step {g g' : DiGraph} (op : DetectorOp) (hg : detector.Reachable g)
    (h : g.detect op = .ok g') : detector.Reachable g' :=
  .step hg trivial h

theorem detector_waitFor {g g' : DiGraph} {a b : Int} {ok : Bool} (hg : detector.Reachable g)
    (h : g.waitFor a b = .ok (g', ok)) : detector.Reachable g' := by
  apply detector_step (.waitFor a b) hg
  change (g.waitFor a b).map Prod.fst = .ok g'
  rw [h]
  rfl

theorem detector_waitForAll {g g' : DiGraph} {a : Int} {deps : List Int} {ok : Bool}
    (hg : detector.Reachable g) (h : waitForAll a deps g = .ok (g', ok)) :
    detector.Reachable g' := by
  induction deps generalizing g with
  | nil =>
    cases h
    exact hg
  | cons b deps ih =>
    unfold waitForAll at h
    rcases bind_eq_ok.mp h with ⟨⟨g₁, ok₁⟩, hwait, h⟩
    have hg₁ := detector_waitFor hg hwait
    cases ok₁ with
    | true => exact ih hg₁ h
    | false =>
      cases h
      exact hg₁

/-- An accepted wait leaves the graph with the new edge. -/
theorem addEdge_of_waitFor {g g' : DiGraph} {a b : Int} (h : g.waitFor a b = .ok (g', true)) :
    ((g.addNode a).addNode b).addEdge a b = .ok g' := by
  unfold waitFor at h
  rcases bind_eq_ok.mp h with ⟨g₁, hadd, h⟩
  rcases bind_eq_ok.mp h with ⟨found, -, h⟩
  cases found with
  | false =>
    cases h
    exact hadd
  | true =>
    rcases bind_eq_ok.mp h with ⟨g₂, -, h⟩
    cases h

theorem waitForAll_returns {w : Int} {deps : List Int} {g : DiGraph} (hg : detector.Reachable g)
    (hrange : WaitsInRange w deps g) : ∃ r, waitForAll w deps g = .ok r := by
  induction deps generalizing g with
  | nil => exact ⟨(g, true), rfl⟩
  | cons u rest ih =>
    rcases hrange with ⟨hindex, hrest⟩
    rcases detector_invariant hg with ⟨hbuilt, hacyclic⟩
    rcases waitFor_outcome (wellFormed_of_reachable hbuilt) hacyclic hindex with
      ⟨g₁, ok, hwait, houtcome⟩
    unfold waitForAll
    rw [hwait]
    cases ok with
    | false => exact ⟨(g₁, false), rfl⟩
    | true =>
      have hreach : ¬ Relation.ReflTransGen g.Edge u w := by
        intro hpath
        have hfalse := houtcome.refused.mpr hpath
        cases hfalse
      exact ih (detector_waitFor hg hwait) (hrest hreach g₁ (addEdge_of_waitFor hwait))

/-- A wait fails only by a search that leaves its vectors. -/
theorem waitFor_returns_or {g : DiGraph} (hg : g.WellFormed) (hacyclic : g.Acyclic) (a b : Int) :
    (∃ r, g.waitFor a b = .ok r) ∨ g.waitFor a b = .error outOfVectors := by
  rcases waitFor_graph hg hacyclic a b with ⟨g₁, hadd, hwf, -, hreach⟩
  unfold waitFor
  rcases hasCycles_checked hwf with ⟨found, hsearch, hcycle, -⟩ | ⟨-, hsearch⟩
  · refine .inl ?_
    simp only [hadd, Bind.bind, Except.bind, hsearch]
    cases found with
    | false => exact ⟨(g₁, true), rfl⟩
    | true =>
      -- the edge that closed the cycle is new, and is taken away again
      have hpath := hreach.mp (hcycle rfl)
      have hnew : ¬ g.Edge a b := fun hedge => hacyclic a (Relation.TransGen.head' hedge hpath)
      rcases removeEdge_undoes hnew hadd with ⟨g₂, hremove, -⟩
      exact ⟨(g₂, false), by simp [hremove, Pure.pure, Except.pure]⟩
  · refine .inr ?_
    simp only [hadd, Bind.bind, Except.bind, hsearch]

theorem waitForAll_returns_or {w : Int} (deps : List Int) {g : DiGraph}
    (hg : detector.Reachable g) :
    (∃ r, waitForAll w deps g = .ok r) ∨ waitForAll w deps g = .error outOfVectors := by
  induction deps generalizing g with
  | nil => exact .inl ⟨(g, true), rfl⟩
  | cons u rest ih =>
    rcases detector_invariant hg with ⟨hbuilt, hacyclic⟩
    unfold waitForAll
    rcases waitFor_returns_or (wellFormed_of_reachable hbuilt) hacyclic w u with
      ⟨⟨g₁, ok⟩, hwait⟩ | hwait
    · rw [hwait]
      cases ok with
      | false => exact .inl ⟨(g₁, false), rfl⟩
      | true => exact ih (detector_waitFor hg hwait)
    · rw [hwait]
      exact .inr rfl

end DiGraph

namespace Scheduler

open DiGraph

/-- The graph of a scheduler is one that a detector keeps. -/
theorem detector_moved {v v' : View} {stack stack' : List Frame} {a : Action}
    (hg : detector.Reachable v.graph) (hmove : Moved v stack a v' stack') :
    detector.Reachable v'.graph := by
  have hremove : ∀ {g : DiGraph}, detector.Reachable g → ∀ tx, detector.Reachable (g.removeNode tx) :=
    fun hg tx => detector_step (.endTransaction tx) hg rfl
  cases hmove with
  | ignored | runRemaining | leave | again | skip | exhausted | spin
  | quitActive | quitDone | buffered | readUnlocked | unblock | reblock => exact hg
  | @begin tx => exact detector_step (.addTransaction tx) hg rfl
  | @ended tx => exact hremove (hremove hg tx) tx
  | @retryEnded tx => exact hremove hg tx
  | granted _ _ _ _ _ hgranted | retryGranted _ _ hgranted =>
    rcases hgranted with ⟨_, _, _, -, -, rfl⟩
    exact hg
  | refused _ _ _ _ _ hrefused | retryRefused _ _ hrefused =>
    rcases hrefused with ⟨_, _, _, -, -, hwait, rfl⟩
    exact detector_waitForAll hg hwait
  | @deadlocked tx _ _ _ _ _ _ _ _ _ hdead | @retryDeadlocked tx _ _ _ _ _ _ _ hdead =>
    rcases hdead with ⟨_, _, _, _, _, -, -, hwait, -, rfl⟩
    exact hremove (detector_waitForAll hg hwait) tx

theorem detector_reachable {c : Config} (h : schedulerSystem.Reachable c) :
    detector.Reachable c.core.deadlockDetector := by
  refine h.invariant (fun c => detector.Reachable c.core.deadlockDetector) ?_ ?_
  · rintro c ⟨disk, rfl⟩
    exact .init rfl
  · intro c a c' hinv _ hnext
    exact detector_moved (v := c.core.view) hinv (next_moved hnext)

/-- The step asks for the locks of `op`, and waits for `deps` if there are any. -/
def AsksFor (c : Config) (a : Action) (tx : Int) (op : Operation) (deps : List Int) : Prop :=
  Asks c.core.view c.stack a tx op ∧ isAccess op = true ∧ c.core.view.known tx ∧
    ∃ locks, requestLocks c.core.locks tx (lockRequest c.core.db op) = .ok (deps, locks)

/-- The searches of the step stay within their vectors. -/
def SearchesInVectors (c : Config) (a : Action) : Prop :=
  ∀ tx op deps, AsksFor c a tx op deps →
    waitForAll tx deps c.core.deadlockDetector ≠ .error outOfVectors

/-- Where the step has to wait, the ids in the graph are indices. -/
def IdsInRange (c : Config) (a : Action) : Prop :=
  ∀ tx op deps, AsksFor c a tx op deps → WaitsInRange tx deps c.core.deadlockDetector

/-! ### A request that returns -/

theorem requestLocks_returns (m : LockManager) (db : Database) (tx : Int) {op : Operation}
    (hop : isAccess op = true) : ∃ r, requestLocks m tx (lockRequest db op) = .ok r := by
  have hitem : ∀ desired : LockType, desired = .readLock ∨ desired = .writeLock →
      ∃ r, m.tryAcquireItemLock tx op.tableName op.coffeeID desired = .ok r := by
    rintro desired (rfl | rfl)
    all_goals
      unfold LockManager.tryAcquireItemLock
      dsimp only
      split
      · split
        · exact ⟨_, rfl⟩
        · split
          · exact ⟨_, rfl⟩
          · split
            · exact ⟨_, rfl⟩
            · exact ⟨_, rfl⟩
      · exact ⟨_, rfl⟩
  unfold isAccess at hop
  unfold lockRequest
  cases ht : op.operationType <;> rw [ht] at hop
  case update => exact hitem _ (.inr rfl)
  case retrieveRecord => exact hitem _ (.inl rfl)
  case insert =>
    dsimp only
    split
    · exact hitem _ (.inr rfl)
    · exact ⟨_, rfl⟩
  case retrieveEntireTable | retrieveCoffeeName | count | dropTable => exact ⟨_, rfl⟩
  all_goals cases hop

theorem attempt_returns {s : Scheduler} {tx : Int} {op : Operation} (hop : isAccess op = true)
    (hg : detector.Reachable s.deadlockDetector)
    (hsearch : ∀ deps locks, requestLocks s.locks tx (lockRequest s.db op) = .ok (deps, locks) →
      waitForAll tx deps s.deadlockDetector ≠ .error outOfVectors) :
    ∃ a, s.attempt tx op = .ok a := by
  rcases requestLocks_returns s.locks s.db tx hop with ⟨⟨deps, locks⟩, hreq⟩
  unfold attempt
  simp only [hreq, Bind.bind, Except.bind]
  split
  · exact ⟨_, rfl⟩
  · rcases waitForAll_returns_or (w := tx) deps hg with ⟨⟨g, noCycle⟩, hwait⟩ | hwait
    · simp only [hwait]
      cases noCycle with
      | true | false => exact ⟨_, rfl⟩
    · exact absurd hwait (hsearch deps locks hreq)

/-! ### A search that fails -/

section SearchFails

variable {s : Scheduler} {tx : Int} {op : Operation} {deps : List Int} {locks : LockManager}
  {e : Err}

theorem attempt_of_search_error
    (hreq : requestLocks s.locks tx (lockRequest s.db op) = .ok (deps, locks))
    (h : waitForAll tx deps s.deadlockDetector = .error e) : s.attempt tx op = .error e := by
  have hdeps : deps ≠ [] := by
    rintro rfl
    cases h
  unfold attempt
  simp only [hreq, Bind.bind, Except.bind, if_neg hdeps, h]

/-- What a turn of the loop does once it has asked for the locks of an operation. -/
def afterAttempt (tx : Int) (op : Operation) (ops : List Operation) :
    Attempt → Except Err (Scheduler × List Frame)
  | .granted s => do
    let s ← s.execute tx op
    return (s.setBuffer tx ops, [.retry tx])
  | .refused s => return (s.setStatus tx .blocked, if isRead op then [] else [.retry tx])
  | .deadlock s => do
    let s ← s.prematureAbort tx
    return (s, [s.tryRunningBlocked, .removeStat tx, .reblock tx])

theorem retryStep_access {ops : List Operation} (hop : isAccess op = true)
    (hbuf : (s.info tx).operationBuffer = op :: ops) :
    s.retryStep tx = s.attempt tx op >>= afterAttempt tx op ops := by
  unfold retryStep
  rw [hbuf]
  unfold isAccess at hop
  -- every kind of operation that reads or writes a table takes the last case
  cases ht : op.operationType <;> rw [ht] at hop <;>
    first
    | (cases hop; done)
    | (simp only [ht]; rfl)

theorem schedule_of_attempt_error {input : Str} (hparse : parse input = .ok op)
    (hop : isAccess op = true) (hknown : tx ∈ s.transactions)
    (hstatus : (s.info tx).transactionStatus = .running)
    (hmode : (s.info tx).executionMode = 1 ∨ (s.info tx).executionMode = 0 ∧ isRead op = false)
    (h : ∀ s' : Scheduler, s'.locks = s.locks → s'.db = s.db →
      s'.deadlockDetector = s.deadlockDetector → s'.attempt tx op = .error e) :
    s.schedule tx input = .error e := by
  have hlocked : ∀ s' : Scheduler, s'.info tx = s.info tx → s'.locks = s.locks → s'.db = s.db →
      s'.deadlockDetector = s.deadlockDetector → s'.scheduleOp tx op = .error e := by
    intro s' hinfo hlocks hdb hgraph
    have hattempt := h s' hlocks hdb hgraph
    unfold scheduleOp scheduleLocked
    rw [hinfo]
    rcases hmode with hmode | ⟨hmode, hread⟩
    · simp only [hmode, if_true, hattempt, Bind.bind, Except.bind]
    · simp [hmode, hread, hattempt, Bind.bind, Except.bind]
  have hnext : ∀ s' : Scheduler, s'.transactions = s.transactions → s'.locks = s.locks →
      s'.db = s.db → s'.deadlockDetector = s.deadlockDetector →
      s'.scheduleNext tx op = .error e := by
    intro s' htrans hlocks hdb hgraph
    have hinfo : s'.info tx = s.info tx := by simp [info, htrans]
    have hop' := hlocked (s'.pushStat tx op) hinfo hlocks hdb hgraph
    unfold isAccess at hop
    unfold scheduleNext
    rw [if_neg (not_not.mpr (htrans ▸ hknown)), hinfo, hstatus]
    cases ht : op.operationType <;> rw [ht] at hop <;>
      first
      | (cases hop; done)
      | (simp [hop'])
  unfold schedule
  rw [if_neg (by simp [hstatus]), hparse]
  unfold isAccess at hop
  cases ht : op.operationType <;> rw [ht] at hop <;>
    first
    | (cases hop; done)
    | (simp only [Bind.bind, Except.bind, ht]
       split
       · exact hnext s rfl rfl rfl rfl
       · exact hnext _ rfl rfl rfl rfl)

/-- The searches spoken of are those that the step makes: where one fails, so does
the step. -/
theorem next_of_search_error {c : Config} {a : Action} (hasks : AsksFor c a tx op deps)
    (hidle : ∀ u input, a = .schedule u input → c.stack = [])
    (h : waitForAll tx deps c.core.deadlockDetector = .error e) : c.next a = .error e := by
  rcases hasks with ⟨hasks, hop, hknown, locks, hreq⟩
  rcases hasks with ⟨input, rfl, hparse, hstatus, hmode⟩ | ⟨rest, ops, rfl, hstack, hbuf⟩
  · have hfails : c.core.schedule tx input = .error e := by
      refine schedule_of_attempt_error hparse hop hknown hstatus hmode ?_
      intro s' hlocks hdb hgraph
      exact attempt_of_search_error (hlocks.symm ▸ hdb.symm ▸ hreq) (hgraph.symm ▸ h)
    unfold Config.next
    simp only [hidle tx input rfl, hfails, Bind.bind, Except.bind]
  · have hfails : c.core.retryStep tx = .error e := by
      rw [retryStep_access hop hbuf, attempt_of_search_error hreq h]
      rfl
    unfold Config.next
    simp only [hstack, frameStep, hfails, Bind.bind, Except.bind]

end SearchFails

/-- The searches of a step stay within their vectors when the ids are indices, and
a search that finds no cycle only then. -/
theorem searches_in_vectors {c : Config} (h : schedulerSystem.Reachable c) :
    (∀ a, IdsInRange c a → SearchesInVectors c a) ∧
      ∀ w u, ¬ Relation.ReflTransGen c.core.deadlockDetector.Edge u w →
        (c.core.deadlockDetector.waitFor w u ≠ .error outOfVectors ↔
          ((c.core.deadlockDetector.addNode w).addNode u).InRange) := by
  have hg := detector_reachable h
  constructor
  · intro a hids tx op deps hasks herr
    rcases waitForAll_returns hg (hids tx op deps hasks) with ⟨r, hr⟩
    rw [hr] at herr
    cases herr
  · intro w u hreach
    rcases detector_invariant hg with ⟨hbuilt, hacyclic⟩
    have hwf := wellFormed_of_reachable hbuilt
    constructor
    · intro hok
      by_contra hrange
      exact hok (waitFor_of_not_inRange hwf hacyclic hreach hrange)
    · intro hrange herr
      rcases waitFor_outcome hwf hacyclic hrange with ⟨g', ok, hwait, -⟩
      rw [hwait] at herr
      cases herr

/-- The transaction 1 waits for 0. -/
theorem searches_in_vectors_two :
    ∃ c, schedulerSystem.Reachable c ∧ c.stack = [] ∧
      SearchesInVectors c (.command 1 "U A 1 6") := by
  have hmeets : Config.runMeets (fun _ _ => true) (fun c => c.stack.isEmpty &&
      match parse (Str.ofString "U A 1 6") with
      | .ok op =>
        match requestLocks c.core.locks 1 (lockRequest c.core.db op) with
        | .ok (deps, _) => decide (deps = [0] ∧
            ((c.core.deadlockDetector.addNode 1).addNode 0).InRange)
        | .error _ => false
      | .error _ => false)
      [.command 0 "B 1", .command 1 "B 1", .command 0 "U A 1 5"] .init = true := by
    decide +kernel
  rcases Config.reachable_of_runMeets hmeets with ⟨c, hc, hmeets⟩
  rcases Bool.and_eq_true_iff.mp hmeets with ⟨hempty, hids⟩
  have hstack : c.stack = [] := List.isEmpty_iff.mp hempty
  refine ⟨c, hc, hstack, (searches_in_vectors hc).1 _ ?_⟩
  rintro tx op deps ⟨⟨input, hcommand, hparse, -, -⟩ | ⟨rest, ops, hturn, -⟩, -, -, locks, hreq⟩
  · cases hcommand
    rw [hparse] at hids
    dsimp only at hids
    rw [hreq] at hids
    rcases of_decide_eq_true hids with ⟨rfl, hrange⟩
    exact ⟨hrange, fun _ _ _ => trivial⟩
  · cases hturn

/-- The transactions 5 and 6, and no others. -/
theorem search_leaves_vectors :
    ¬ ∀ c, schedulerSystem.Reachable c → ∀ a, SearchesInVectors c a := by
  intro hall
  have hmeets : Config.runMeets (fun _ _ => true) (fun c => decide (c.core.view.status 6 = .running ∧
        (c.core.view.info 6).executionMode = 1 ∧ 6 ∈ c.core.transactions) &&
      match parse (Str.ofString "U A 1 6") with
      | .ok op => isAccess op &&
        match requestLocks c.core.locks 6 (lockRequest c.core.db op) with
        | .ok (deps, _) =>
          match waitForAll 6 deps c.core.deadlockDetector with
          | .ok _ => false
          | .error e => decide (e = outOfVectors)
        | .error _ => false
      | .error _ => false)
      [.command 5 "B 1", .command 6 "B 1", .command 5 "U A 1 5"] .init = true := by
    decide +kernel
  rcases Config.reachable_of_runMeets hmeets with ⟨c, hc, hmeets⟩
  rcases Bool.and_eq_true_iff.mp hmeets with ⟨hinfo, hsearch⟩
  rcases of_decide_eq_true hinfo with ⟨hstatus, hmode, hknown⟩
  split at hsearch
  case h_1 op hparse =>
    rcases Bool.and_eq_true_iff.mp hsearch with ⟨hop, hsearch⟩
    split at hsearch
    case h_1 deps locks hreq =>
      split at hsearch
      case h_1 => cases hsearch
      case h_2 e hwait =>
        rw [of_decide_eq_true hsearch] at hwait
        exact hall c hc (.command 6 "U A 1 6") 6 op deps
          ⟨.inl ⟨_, rfl, hparse, hstatus, .inl hmode⟩, hop, hknown, locks, hreq⟩ hwait
    case h_2 => cases hsearch
  case h_2 => cases hsearch

end Scheduler

end PittCs.Rcdb
