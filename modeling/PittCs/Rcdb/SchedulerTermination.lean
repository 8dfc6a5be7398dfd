import Mathlib.Algebra.Order.BigOperators.Group.List
import PittCs.Rcdb.LockSpec
import PittCs.Rcdb.SchedulerIndices

/-!
# When a pass over the blocked transactions ends

Every turn of `tryRunningBlocked` consumes an operation or leaves a loop, but for
one: a write that still has to wait leaves the locks, the waits-for graph and the
buffer as they are and the loop goes round again. And a turn can fail: the replayed
operation throws, or the cycle search leaves its vectors. So a call ends exactly when
no turn of it comes to such a write, operation or search.
-/

namespace PittCs.Rcdb

open Std PittCs.Lib List

/-! ## Asking again -/

namespace LockManager

theorem alreadyHolds_stored (held : Option LockType) (desired : LockType) :
    alreadyHolds (some (stored held desired)) desired = true := by
  rcases held with _ | held
  · cases desired <;> rfl
  · cases held <;> cases desired <;> rfl

theorem setTableLock_lookup (m : LockManager) (tableName : Str) (tx : Int) (kind : LockType) :
    ∃ locks, (m.setTableLock tableName tx kind).tableLevelLocks[tableName]? = some locks ∧
      locks[tx]? = some kind := by
  refine ⟨(m.tableHolders tableName).insert tx kind, ?_, ?_⟩
  · simp [setTableLock]
  · simp

theorem grantTable_lookup (m : LockManager) (tx : Int) (tableName : Str)
    (held : Option LockType) (desired : LockType) :
    ∃ locks, (m.grantTable tx tableName held desired).tableLevelLocks[tableName]? = some locks ∧
      locks[tx]? = some (stored held desired) := by
  unfold grantTable
  exact setTableLock_lookup ..

/-- A granted table lock is held when it is asked for again. -/
theorem tryAcquireTableLock_granted {m m' : LockManager} {tx : Int} {tableName : Str}
    {desired : LockType} (h : m.tryAcquireTableLock tx tableName desired = ([], m')) :
    m'.tryAcquireTableLock tx tableName desired = ([], m') := by
  have hheld : ∀ locks, m'.tableLevelLocks[tableName]? = some locks →
      alreadyHolds locks[tx]? desired = true →
      m'.tryAcquireTableLock tx tableName desired = ([], m') := by
    intro locks hlocks hholds
    rw [tryAcquireTableLock_some hlocks, if_pos hholds]
  rcases hlocks : m.tableLevelLocks[tableName]? with _ | locks
  · unfold tryAcquireTableLock at h
    rw [hlocks] at h
    cases h
    refine hheld (TreeMap.ofList [(tx, desired)]) ?_ ?_
    · simp [ownTable]
    · have hself := alreadyHolds_stored none desired
      simpa [stored, TreeMap.ofList_singleton] using hself
  · rw [tryAcquireTableLock_some hlocks] at h
    split at h
    case isTrue hholds =>
      cases h
      exact hheld locks hlocks hholds
    case isFalse =>
      split at h
      case isTrue =>
        cases h
        rcases grantTable_lookup m tx tableName locks[tx]? desired with ⟨locks', hlocks', hkind⟩
        refine hheld locks' hlocks' ?_
        rw [hkind]
        exact alreadyHolds_stored locks[tx]? desired
      case isFalse hdeps => exact absurd (congrArg Prod.fst h) hdeps

/-- A refused table lock changes nothing. -/
theorem tryAcquireTableLock_refused {m m' : LockManager} {tx : Int} {tableName : Str}
    {desired : LockType} {deps : List Int} (hdeps : deps ≠ [])
    (h : m.tryAcquireTableLock tx tableName desired = (deps, m')) : m' = m := by
  rcases hlocks : m.tableLevelLocks[tableName]? with _ | locks
  · unfold tryAcquireTableLock at h
    rw [hlocks] at h
    cases h
    exact absurd rfl hdeps
  · rw [tryAcquireTableLock_some hlocks] at h
    split at h
    case isTrue =>
      cases h
      exact absurd rfl hdeps
    case isFalse =>
      split at h
      case isTrue =>
        cases h
        exact absurd rfl hdeps
      case isFalse =>
        cases h
        rfl

/-- A refused record lock may have cost a lock on the table, which is kept. -/
theorem tryAcquireItemLock_again {m m' : LockManager} {tx coffeeID : Int} {tableName : Str}
    {desired : LockType} {deps : List Int} (hdeps : deps ≠ [])
    (h : m.tryAcquireItemLock tx tableName coffeeID desired = .ok (deps, m')) :
    m'.tryAcquireItemLock tx tableName coffeeID desired = .ok (deps, m') := by
  rcases htable : m.tryAcquireTableLock tx tableName (intentOf desired) with ⟨deps₁, m₁⟩
  cases desired with
  | readLock | writeLock =>
    simp only [intentOf] at htable
    rcases deps₁ with _ | ⟨d, deps₁⟩
    · have hagain := tryAcquireTableLock_granted htable
      unfold tryAcquireItemLock at h ⊢
      simp only [htable] at h
      split at h
      case h_1 =>
        cases h
        exact absurd rfl hdeps
      case h_2 locks hlocks =>
        split at h
        · cases h
          exact absurd rfl hdeps
        case isFalse hnot =>
          split at h
          case isTrue hnone =>
            cases h
            exact absurd hnone hdeps
          case isFalse hsome =>
            cases h
            simp only [hagain, hlocks, if_neg hnot, if_neg hsome]
    · have hsame := tryAcquireTableLock_refused (cons_ne_nil d deps₁) htable
      subst hsame
      unfold tryAcquireItemLock at h ⊢
      simp only [htable] at h ⊢
      cases h
      simp only [htable]
  | intentReadLock | intentWriteLock | readIntentWriteLock => cases h

end LockManager

namespace DiGraph

variable {g : DiGraph}

/-- After an accepted wait the search finds no cycle. -/
theorem hasCycles_of_waitFor {g' : DiGraph} {a b : Int} (h : g.waitFor a b = .ok (g', true)) :
    g'.hasCycles = .ok false := by
  unfold waitFor at h
  rcases bind_eq_ok.mp h with ⟨g₁, -, h⟩
  rcases bind_eq_ok.mp h with ⟨found, hsearch, h⟩
  cases found with
  | false =>
    cases h
    exact hsearch
  | true =>
    rcases bind_eq_ok.mp h with ⟨g₂, -, h⟩
    cases h

theorem hasCycles_of_waitForAll {g' : DiGraph} {a : Int} {deps : List Int} (hdeps : deps ≠ [])
    (h : waitForAll a deps g = .ok (g', true)) : g'.hasCycles = .ok false := by
  induction deps generalizing g with
  | nil => exact absurd rfl hdeps
  | cons b rest ih =>
    unfold waitForAll at h
    rcases bind_eq_ok.mp h with ⟨⟨g₁, ok⟩, hwait, h⟩
    cases ok with
    | false => cases h
    | true =>
      cases rest with
      | nil =>
        cases h
        exact hasCycles_of_waitFor hwait
      | cons c rest => exact ih (cons_ne_nil c rest) h

theorem addNode_of_hasNode {v : Int} (h : g.hasNode v = true) : g.addNode v = g := by
  unfold addNode
  rw [if_pos h]

/-- A wait that is recorded already. -/
theorem waitFor_again (hg : g.WellFormed) (hsearch : g.hasCycles = .ok false) {a b : Int}
    (hedge : g.Edge a b) : g.waitFor a b = .ok (g, true) := by
  have ha : g.hasNode a = true := hedge.source
  have hb : g.hasNode b = true := hg.target a b hedge
  have hmem : b ∈ g.neighbours a := hedge
  have hadd : g.addEdge a b = .ok g := by
    unfold addEdge
    simp [ha, hb, hmem, Pure.pure, Except.pure]
  unfold waitFor
  simp only [addNode_of_hasNode ha, addNode_of_hasNode hb, hadd, Bind.bind, Except.bind, hsearch]
  rfl

theorem waitForAll_again {g' : DiGraph} {a : Int} {deps : List Int} (hg' : g'.WellFormed)
    (hdeps : deps ≠ []) (h : waitForAll a deps g = .ok (g', true)) :
    waitForAll a deps g' = .ok (g', true) := by
  have hsearch := hasCycles_of_waitForAll hdeps h
  have hedges : ∀ b ∈ deps, g'.Edge a b := fun b hb => (waitForAll_spec h).2 rfl b (.inr hb)
  clear h hdeps
  induction deps with
  | nil => rfl
  | cons b rest ih =>
    unfold waitForAll
    rw [waitFor_again hg' hsearch (hedges b (mem_cons_self ..))]
    exact ih fun c hc => hedges c (mem_cons_of_mem _ hc)

end DiGraph

namespace Scheduler

/-- A request that was refused is refused again, and costs nothing more. -/
theorem requestLocks_again {m m' : LockManager} {tx : Int} {req : LockRequest} {deps : List Int}
    (hdeps : deps ≠ []) (h : requestLocks m tx req = .ok (deps, m')) :
    requestLocks m' tx req = .ok (deps, m') := by
  cases req with
  | table tableName desired =>
    have h : m.tryAcquireTableLock tx tableName desired = (deps, m') := Except.ok.inj h
    have hsame := LockManager.tryAcquireTableLock_refused hdeps h
    rw [hsame] at h ⊢
    exact congrArg Except.ok h
  | item tableName coffeeID desired => exact LockManager.tryAcquireItemLock_again hdeps h
  | nothing =>
    cases h
    exact absurd rfl hdeps

/-! ## The calls -/

/-- The states of a call. -/
def Turns : Config → Config → Prop := Relation.ReflTransGen fun c c' => c.next .turn = .ok c'

/-- The next turn comes to a write that still has to wait. -/
def BlockedWrite (v : View) (stack : List Frame) : Prop :=
  ∃ tx rest op ops v', stack = .retry tx :: rest ∧ v.buffer tx = op :: ops ∧
    isAccess op = true ∧ isRead op = false ∧ Refused v tx op v'

/-- The operation that the next turn executes throws: the one at the front of the
buffer, or the abort of a transaction that closes a cycle. -/
def OperationFails (c : Config) : Prop :=
  ∃ tx rest op ops e, c.stack = .retry tx :: rest ∧ (c.core.info tx).operationBuffer = op :: ops ∧
    ((isEnd op ∧ (c.core.setBuffer tx ops).execute tx op = .error e) ∨
      (isAccess op = true ∧
        ∃ s, c.core.attempt tx op = .ok (.granted s) ∧ s.execute tx op = .error e) ∨
      (isAccess op = true ∧
        ∃ s, c.core.attempt tx op = .ok (.deadlock s) ∧ s.prematureAbort tx = .error e))

/-- Why the loop for `tx` may be left: its buffer is empty, or its next operation
ends it, gets it aborted, or is still blocked. -/
def LeavesLoop (v : View) (tx : Int) : Prop :=
  v.buffer tx = [] ∨ ∃ op ops, v.buffer tx = op :: ops ∧
    (isEnd op ∨ (∃ v', Deadlocked v tx op v') ∨ ∃ v', Refused v tx op v')

/-- The call ends: it takes no turn for ever, every turn returns, and a loop is left
for no other reason. -/
structure CallEnds (c : Config) : Prop where
  terminates : Acc (fun c' c => c.next .turn = .ok c') c
  returns : ∀ c₁, Turns c c₁ → c₁.stack ≠ [] → ∃ c₂, c₁.next .turn = .ok c₂
  leaves : ∀ c₁ c₂ tx rest, Turns c c₁ → c₁.stack = .retry tx :: rest →
    c₁.next .turn = .ok c₂ → c₂.stack = .retry tx :: rest ∨ LeavesLoop c₁.core.view tx

variable {v v' : View} {c : Config} {stack' stack : List Frame}

theorem leaves_of_moved {rest : List Frame} {tx : Int}
    (hmove : Moved v (.retry tx :: rest) .turn v' stack') :
    stack' = .retry tx :: rest ∨ LeavesLoop v tx := by
  cases hmove with
  | leave hf =>
    rcases hf with hf | ⟨u, hf⟩ | hf
    · cases hf
    · cases hf
    · cases hf
  | exhausted hbuf => exact .inr (.inl hbuf)
  | spin | retryGranted => exact .inl rfl
  | retryEnded hbuf hop => exact .inr (.inr ⟨_, _, hbuf, .inl hop⟩)
  | retryRefused hbuf _ hrefused => exact .inr (.inr ⟨_, _, hbuf, .inr (.inr ⟨_, hrefused⟩)⟩)
  | retryDeadlocked hbuf _ hdead => exact .inr (.inr ⟨_, _, hbuf, .inr (.inl ⟨_, hdead⟩)⟩)

/-- What holds in every state of a call. -/
structure InCall (c : Config) : Prop where
  calls : CallsOk c.core.view c.stack
  buffers : BuffersOk c.core.view
  graph : DiGraph.detector.Reachable c.core.deadlockDetector
  noRemaining : .remaining ∉ c.stack

theorem remaining_of_moved (hmove : Moved v stack .turn v' stack') (hno : .remaining ∉ stack) :
    .remaining ∉ stack' := by
  have htail : ∀ {f : Frame} {rest : List Frame}, .remaining ∉ f :: rest → .remaining ∉ rest :=
    fun h hmem => h (mem_cons_of_mem _ hmem)
  cases hmove with
  | leave | exhausted | retryEnded | reblock => exact htail hno
  | again => exact absurd (mem_cons_self ..) hno
  | spin | retryGranted => exact hno
  | skip | unblock | retryDeadlocked => simpa using htail hno
  | retryRefused =>
    split
    · exact htail hno
    · exact hno

theorem InCall.turn {c' : Config} (hc : InCall c) (h : c.next .turn = .ok c') : InCall c' := by
  have hmove := next_moved h
  exact ⟨hc.calls.moved hmove, hc.buffers.moved hmove, detector_moved (v := c.core.view) hc.graph hmove,
    remaining_of_moved hmove hc.noRemaining⟩

/-! ### A write that still has to wait -/

theorem attempt_of_refused {s : Scheduler} {tx : Int} {op : Operation} {deps : List Int}
    {locks : LockManager} {g : DiGraph}
    (hreq : requestLocks s.locks tx (lockRequest s.db op) = .ok (deps, locks)) (hdeps : deps ≠ [])
    (hwait : DiGraph.waitForAll tx deps s.deadlockDetector = .ok (g, true)) :
    s.attempt tx op = .ok (.refused { s with locks, deadlockDetector := g }) := by
  unfold attempt
  simp only [hreq, Bind.bind, Except.bind, if_neg hdeps, hwait]
  rfl

/-- The turn changes nothing that matters, so the next one finds the same write. -/
theorem blockedWrite_turn (hc : InCall c) (h : BlockedWrite c.core.view c.stack) :
    ∃ c', c.next .turn = .ok c' ∧ InCall c' ∧ BlockedWrite c'.core.view c'.stack := by
  rcases c with ⟨s, stack⟩
  rcases h with ⟨tx, rest, op, ops, v', hstack, hbuf, hop, hread, hrefused⟩
  dsimp only at hstack
  subst hstack
  rcases hrefused with ⟨deps, locks, g, hreq, hdeps, hwait, -⟩
  let s₁ : Scheduler := { s with locks, deadlockDetector := g }
  have hattempt : s.attempt tx op = .ok (.refused s₁) := attempt_of_refused hreq hdeps hwait
  have hretry : s.retryStep tx = .ok (s₁.setStatus tx .blocked, [.retry tx]) := by
    rw [retryStep_access hop hbuf, hattempt]
    change Except.ok (s₁.setStatus tx .blocked, if isRead op = true then [] else [Frame.retry tx]) = _
    rw [hread]
    rfl
  have hnext : Config.next ⟨s, .retry tx :: rest⟩ .turn =
      .ok ⟨s₁.setStatus tx .blocked, .retry tx :: rest⟩ := by
    unfold Config.next frameStep
    simp only [hretry, Bind.bind, Except.bind]
    rfl
  have hcall : InCall ⟨s₁.setStatus tx .blocked, .retry tx :: rest⟩ := hc.turn hnext
  have hg : g.WellFormed :=
    DiGraph.wellFormed_of_reachable (DiGraph.detector_invariant hcall.graph).1
  refine ⟨_, hnext, hcall, tx, rest, op, ops, _, rfl, ?_, hop, hread, deps, locks, g,
    requestLocks_again hdeps hreq, hdeps, DiGraph.waitForAll_again hg hdeps hwait, rfl⟩
  rw [view_setStatus, View.buffer_setInfo, if_pos rfl]
  exact hbuf

/-! ### Every other turn -/

/-- What is still to be done for a frame. -/
def weight : Frame → Nat
  | .pass keys => 2 * keys.length + 1
  | _ => 1

def weights (stack : List Frame) : Nat := (stack.map weight).sum

/-- The operations that wait in the buffers of `keys`. -/
def waiting (v : View) (keys : List Int) : Nat := (keys.map fun u => (v.buffer u).length).sum

/-- No buffer grows, and one shrinks or a frame gets less to do. -/
structure Progress (v : View) (stack : List Frame) (v' : View) (stack' : List Frame) : Prop where
  shrinks : ∀ u, (v'.buffer u).length ≤ (v.buffer u).length
  down : (∃ u, (v'.buffer u).length < (v.buffer u).length) ∨ weights stack' < weights stack

theorem Progress.of_setInfo {v₁ : View} {tx : Int} {i : TransactionInfo} (hinfo : v₁.info = v.info)
    (hi : i.operationBuffer.length ≤ (v.buffer tx).length)
    (hdown : i.operationBuffer.length < (v.buffer tx).length ∨ weights stack' < weights stack) :
    Progress v stack (v₁.setInfo tx i) stack' := by
  constructor
  · intro u
    rw [View.buffer_setInfo]
    split
    case isTrue hu =>
      rw [hu]
      exact hi
    case isFalse =>
      unfold View.buffer
      rw [hinfo]
  · rcases hdown with hdown | hdown
    · refine .inl ⟨tx, ?_⟩
      rw [View.buffer_setInfo, if_pos rfl]
      exact hdown
    · exact .inr hdown

theorem Progress.of_stack (hdown : weights stack' < weights stack) : Progress v stack v stack' :=
  ⟨fun _ => Nat.le_refl _, .inr hdown⟩

theorem weights_tail_lt (f : Frame) (rest : List Frame) : weights rest < weights (f :: rest) := by
  have hpos : 0 < weight f := by
    unfold weight
    split
    · omega
    · omega
  simp only [weights, map_cons, sum_cons]
  omega

theorem progress_of_moved (hbuf : BuffersOk v) (hno : .remaining ∉ stack)
    (hwrite : ¬ BlockedWrite v stack) (hmove : Moved v stack .turn v' stack') :
    Progress v stack v' stack' := by
  cases hmove with
  | leave | exhausted => exact .of_stack (weights_tail_lt _ _)
  | again => exact absurd (mem_cons_self ..) hno
  | skip =>
    apply Progress.of_stack
    simp only [weights, map_cons, sum_cons, weight, length_cons]
    omega
  | unblock =>
    refine .of_setInfo rfl (Nat.le_refl _) (.inr ?_)
    simp only [weights, map_cons, sum_cons, weight, length_cons]
    omega
  | @spin tx rest op ops hbuffer hop =>
    -- such an operation is in no buffer
    have hmem : op ∈ v.buffer tx := hbuffer ▸ mem_cons_self ..
    rcases hbuf tx op hmem with hend | ⟨haccess, -⟩
    · rcases hop with hop | hop <;> rcases hend with hend | hend <;> rw [hop] at hend <;> cases hend
    · unfold isAccess at haccess
      rcases hop with hop | hop <;> rw [hop] at haccess <;> cases haccess
  | retryEnded hbuffer =>
    refine .of_setInfo rfl (Nat.zero_le _) (.inl ?_)
    rw [hbuffer]
    exact Nat.succ_pos _
  | retryGranted hbuffer _ hgranted =>
    rcases hgranted with ⟨_, _, _, -, -, rfl⟩
    refine .of_setInfo rfl ?_ (.inl ?_)
    · rw [hbuffer]
      exact Nat.le_succ _
    · rw [hbuffer]
      exact Nat.lt_succ_self _
  | @retryRefused tx rest op ops v₁ hbuffer hop hrefused =>
    cases hread : isRead op with
    | false => exact absurd ⟨tx, rest, op, ops, v₁, rfl, hbuffer, hop, hread, hrefused⟩ hwrite
    | true =>
      rcases hrefused with ⟨_, _, _, -, -, -, rfl⟩
      exact .of_setInfo rfl (Nat.le_refl _) (.inr (weights_tail_lt _ _))
  | retryDeadlocked hbuffer _ hdead =>
    rcases hdead with ⟨_, _, _, _, _, -, -, -, -, rfl⟩
    refine .of_setInfo rfl (Nat.zero_le _) (.inl ?_)
    rw [hbuffer]
    exact Nat.succ_pos _
  | reblock => exact .of_setInfo rfl (Nat.le_refl _) (.inr (weights_tail_lt _ _))

theorem Progress.waiting_le (h : Progress v stack v' stack') (keys : List Int) :
    waiting v' keys ≤ waiting v keys :=
  sum_le_sum fun u _ => h.shrinks u

theorem waiting_lt {keys : List Int} (hle : ∀ u, (v'.buffer u).length ≤ (v.buffer u).length)
    {u : Int} (hu : u ∈ keys) (hlt : (v'.buffer u).length < (v.buffer u).length) :
    waiting v' keys < waiting v keys :=
  sum_lt_sum _ _ (fun u _ => hle u) ⟨u, hu, hlt⟩

/-- Only a known transaction has a buffer. -/
theorem mem_keys_of_buffer {s : Scheduler} {u : Int} (h : s.view.buffer u ≠ []) :
    u ∈ s.transactions.keys := by
  by_contra hnot
  rw [TreeMap.mem_keys] at hnot
  apply h
  simp [View.buffer, info, TreeMap.getElem?_eq_none hnot]

theorem acc_of_no_blockedWrite (hc : InCall c)
    (hwrite : ∀ c', Turns c c' → ¬ BlockedWrite c'.core.view c'.stack) :
    Acc (fun c' c => c.next .turn = .ok c') c := by
  let keys := c.core.transactions.keys
  have hwf : WellFounded (Prod.Lex (· < ·) (· < ·) : Nat × Nat → Nat × Nat → Prop) :=
    (Prod.lex Nat.lt_wfRel Nat.lt_wfRel).wf
  refine acc_of_measure hwf (fun c => (waiting c.core.view keys, weights c.stack))
    (fun c => InCall c ∧ (∀ u, c.core.view.buffer u ≠ [] → u ∈ keys) ∧
      ∀ c', Turns c c' → ¬ BlockedWrite c'.core.view c'.stack) ?_
    ⟨hc, fun u hu => mem_keys_of_buffer hu, hwrite⟩
  rintro c₁ c₂ ⟨hcall, hkeys, hfree⟩ hnext
  have hprogress := progress_of_moved hcall.buffers hcall.noRemaining (hfree c₁ .refl)
    (next_moved hnext)
  refine ⟨⟨hcall.turn hnext, ?_, ?_⟩, ?_⟩
  · intro u hu
    apply hkeys u
    intro hempty
    have hle := hprogress.shrinks u
    rw [hempty] at hle
    exact hu (length_eq_zero_iff.mp (Nat.le_zero.mp hle))
  · intro c' hturns
    exact hfree c' (.head hnext hturns)
  · -- the buffers first, then the frames
    rcases hprogress.down with ⟨u, hlt⟩ | hlt
    · refine .left _ _ (waiting_lt hprogress.shrinks (hkeys u ?_) hlt)
      intro hempty
      rw [hempty] at hlt
      exact Nat.not_lt_zero _ hlt
    · rcases Nat.lt_or_eq_of_le (hprogress.waiting_le keys) with hless | heq
      · exact .left _ _ hless
      · rw [Prod.lex_def]
        exact .inr ⟨heq, hlt⟩

theorem inCall_of_turns {c' : Config} (hc : InCall c) (h : Turns c c') : InCall c' := by
  induction h with
  | refl => exact hc
  | tail _ hnext ih => exact ih.turn hnext

/-- The call of `tryRunningBlocked` in a state. -/
def passCall (s : Scheduler) : Config := ⟨s, [s.tryRunningBlocked]⟩

theorem inCall_passCall (h : schedulerSystem.Reachable c) : InCall (passCall c.core) := by
  have hcalls : CallsOk c.core.view [c.core.tryRunningBlocked] := by
    refine CallsOk.nil.cons (f := c.core.tryRunningBlocked) ?_ (by simp)
    exact fun u hu => (mem_keys c.core u).mp hu
  have hbuffers : BuffersOk c.core.view := buffersOk_reachable h
  have hgraph : DiGraph.detector.Reachable c.core.deadlockDetector := detector_reachable h
  exact ⟨hcalls, hbuffers, hgraph, by simp [passCall, tryRunningBlocked]⟩

/-- A call that comes to a write that still has to wait does not end. -/
theorem not_blockedWrite_of_acc {c' : Config} (hc : InCall c)
    (hacc : Acc (fun c' c => c.next .turn = .ok c') c) (hturns : Turns c c') :
    ¬ BlockedWrite c'.core.view c'.stack := by
  intro hwrite
  refine not_acc_of_step (fun c => InCall c ∧ BlockedWrite c.core.view c.stack) ?_
    ⟨inCall_of_turns hc hturns, hwrite⟩ (acc_of_steps hacc hturns)
  rintro c₁ ⟨hc₁, hwrite₁⟩
  rcases blockedWrite_turn hc₁ hwrite₁ with ⟨c₂, hnext, hc₂, hwrite₂⟩
  exact ⟨c₂, hnext, hc₂, hwrite₂⟩

/-! ### A turn that fails -/

theorem retryStep_end {s : Scheduler} {tx : Int} {op : Operation} {ops : List Operation}
    (hop : isEnd op) (hbuf : (s.info tx).operationBuffer = op :: ops) :
    s.retryStep tx = (do
      let s ← (s.setBuffer tx ops).execute tx op
      return (s.setStatus tx (endStatus op), [])) := by
  unfold retryStep endStatus
  rw [hbuf]
  rcases hop with ht | ht <;> simp only [ht] <;> rfl

/-- A turn returns when its operation can be executed and its searches stay within
their vectors. -/
theorem turn_returns (hc : InCall c) (hstack : c.stack ≠ []) (hop : ¬ OperationFails c)
    (hsearch : SearchesInVectors c .turn) : ∃ c', c.next .turn = .ok c' := by
  rcases c with ⟨s, stack⟩
  rcases stack with _ | ⟨f, rest⟩
  · exact absurd rfl hstack
  suffices hframe : ∃ r, s.frameStep f = .ok r by
    rcases hframe with ⟨⟨s', frames⟩, hframe⟩
    exact ⟨⟨s', frames ++ rest⟩, bind_eq_ok.mpr ⟨_, hframe, rfl⟩⟩
  cases f with
  | pass keys =>
    cases keys with
    | nil => exact ⟨_, rfl⟩
    | cons u keys =>
      unfold frameStep
      dsimp only
      split
      · exact ⟨_, rfl⟩
      · exact ⟨_, rfl⟩
  | reblock tx | removeStat tx => exact ⟨_, rfl⟩
  | remaining => exact absurd (mem_cons_self ..) hc.noRemaining
  | retry tx =>
    change ∃ r, s.retryStep tx = .ok r
    cases hbuf : (s.info tx).operationBuffer with
    | nil =>
      unfold retryStep
      rw [hbuf]
      exact ⟨_, rfl⟩
    | cons op ops =>
      have hmem : op ∈ s.view.buffer tx := by
        change op ∈ (s.info tx).operationBuffer
        rw [hbuf]
        exact mem_cons_self ..
      rcases hc.buffers tx op hmem with hend | ⟨haccess, -⟩
      · rw [retryStep_end hend hbuf]
        rcases hexec : (s.setBuffer tx ops).execute tx op with e | s'
        · exact absurd ⟨tx, rest, op, ops, e, rfl, hbuf, .inl ⟨hend, hexec⟩⟩ hop
        · exact ⟨_, rfl⟩
      · have hknown := (hc.calls.active tx (mem_cons_self ..)).1
        have hattempt : ∃ a, s.attempt tx op = .ok a :=
          attempt_returns haccess hc.graph fun deps locks hreq =>
            hsearch tx op deps
              ⟨.inr ⟨rest, ops, rfl, rfl, hbuf⟩, haccess, hknown, locks, hreq⟩
        rcases hattempt with ⟨a, hattempt⟩
        rw [retryStep_access haccess hbuf, hattempt]
        cases a with
        | granted s₁ =>
          change ∃ r, (s₁.execute tx op >>= fun s =>
            .ok (s.setBuffer tx ops, [Frame.retry tx])) = .ok r
          rcases hexec : s₁.execute tx op with e | s'
          · exact absurd
              ⟨tx, rest, op, ops, e, rfl, hbuf, .inr (.inl ⟨haccess, s₁, hattempt, hexec⟩)⟩ hop
          · exact ⟨_, rfl⟩
        | refused s₁ => exact ⟨_, rfl⟩
        | deadlock s₁ =>
          change ∃ r, (s₁.prematureAbort tx >>= fun s =>
            .ok (s, [s.tryRunningBlocked, Frame.removeStat tx, Frame.reblock tx])) = .ok r
          rcases habort : s₁.prematureAbort tx with e | s'
          · exact absurd
              ⟨tx, rest, op, ops, e, rfl, hbuf, .inr (.inr ⟨haccess, s₁, hattempt, habort⟩)⟩ hop
          · exact ⟨_, rfl⟩

/-- Where the operation fails, the turn fails. -/
theorem next_of_operationFails (h : OperationFails c) : ∃ e, c.next .turn = .error e := by
  rcases h with ⟨tx, rest, op, ops, e, hstack, hbuf, hfails⟩
  suffices hretry : c.core.retryStep tx = .error e by
    refine ⟨e, ?_⟩
    unfold Config.next
    simp only [hstack, frameStep, hretry, Bind.bind, Except.bind]
  rcases hfails with ⟨hop, hexec⟩ | ⟨hop, s, hattempt, hexec⟩ | ⟨hop, s, hattempt, habort⟩
  · rw [retryStep_end hop hbuf, hexec]
    rfl
  · rw [retryStep_access hop hbuf, hattempt]
    change (s.execute tx op >>= fun s => .ok (s.setBuffer tx ops, [Frame.retry tx])) = .error e
    rw [hexec]
    rfl
  · rw [retryStep_access hop hbuf, hattempt]
    change (s.prematureAbort tx >>= fun s =>
      .ok (s, [s.tryRunningBlocked, Frame.removeStat tx, Frame.reblock tx])) = .error e
    rw [habort]
    rfl

/-- A call of `tryRunningBlocked` ends exactly when no turn of it comes to a write
that still has to wait, to an operation that throws, or to a search that leaves its
vectors. -/
theorem tryRunningBlocked_ends_iff {c : Config} (h : schedulerSystem.Reachable c) :
    CallEnds (passCall c.core) ↔ ∀ c', Turns (passCall c.core) c' →
      ¬ BlockedWrite c'.core.view c'.stack ∧ ¬ OperationFails c' ∧ SearchesInVectors c' .turn := by
  have hcall := inCall_passCall h
  constructor
  · intro hends c' hturns
    have hreturns : ∀ e, c'.stack ≠ [] → c'.next .turn ≠ .error e := by
      intro e hstack herr
      rcases hends.returns c' hturns hstack with ⟨c₂, hnext⟩
      rw [herr] at hnext
      cases hnext
    refine ⟨not_blockedWrite_of_acc hcall hends.terminates hturns, ?_, ?_⟩
    · intro hfails
      rcases next_of_operationFails hfails with ⟨e, herr⟩
      rcases hfails with ⟨tx, rest, op, ops, e', hstack, -⟩
      exact hreturns e (by simp [hstack]) herr
    · intro tx op deps hasks hwait
      have herr := next_of_search_error hasks (fun u input heq => by cases heq) hwait
      rcases hasks.1 with ⟨input, heq, -⟩ | ⟨rest, ops, -, hstack, -⟩
      · cases heq
      · exact hreturns _ (by rw [show c'.stack = _ from hstack]; simp) herr
  · intro hfree
    refine ⟨acc_of_no_blockedWrite hcall fun c' hturns => (hfree c' hturns).1, ?_, ?_⟩
    · intro c₁ hturns hstack
      rcases hfree c₁ hturns with ⟨-, hop, hsearch⟩
      exact turn_returns (inCall_of_turns hcall hturns) hstack hop hsearch
    · intro c₁ c₂ tx rest _ hstack hnext
      have hmove := next_moved hnext
      rw [hstack] at hmove
      exact leaves_of_moved hmove

/-- The states of a call by evaluation. -/
theorem turns_of_runMeets {p : Config → Bool} {actions : List Action} {c : Config}
    (h : Config.runMeets (fun _ a => match a with | .turn => true | _ => false) p actions c = true) :
    ∃ c', Turns c c' ∧ p c' = true := by
  induction actions generalizing c with
  | nil => exact ⟨c, .refl, h⟩
  | cons a actions ih =>
    unfold Config.runMeets at h
    rcases Bool.and_eq_true_iff.mp h with ⟨hturn, hrest⟩
    split at hrest
    case h_1 c₁ hnext =>
      cases a with
      | turn =>
        rcases ih hrest with ⟨c', hturns, hp⟩
        exact ⟨c', .head hnext hturns, hp⟩
      | schedule tx input | runRemaining => cases hturn
    case h_2 => cases hrest

/-- The innermost call is a loop whose next operation is a write that is refused. -/
def atBlockedWrite (c : Config) : Bool :=
  match c.stack with
  | .retry tx :: _ =>
    match (c.core.info tx).operationBuffer with
    | op :: _ => isAccess op && !isRead op &&
      match c.core.attempt tx op with
      | .ok (.refused _) => true
      | _ => false
    | [] => false
  | _ => false

theorem blockedWrite_of_atBlockedWrite (h : atBlockedWrite c = true) :
    BlockedWrite c.core.view c.stack := by
  unfold atBlockedWrite at h
  split at h
  case h_1 tx rest hstack =>
    split at h
    case h_1 op ops hbuf =>
      simp only [Bool.and_eq_true, Bool.not_eq_true'] at h
      rcases h with ⟨⟨hop, hread⟩, h⟩
      split at h
      case h_1 s' hattempt =>
        rcases attempt_cases hattempt with ⟨deps, locks, hreq, ⟨-, ha⟩ | ⟨g, ok, hdeps, hwait, ha⟩⟩
        · cases ha
        · cases ok with
          | false => cases ha
          | true =>
            exact ⟨tx, rest, op, ops, _, hstack, hbuf, hop, hread, deps, locks, g, hreq, hdeps,
              hwait, rfl⟩
      case h_2 => cases h
    case h_2 => cases h
  case h_2 => cases h

/-- The transaction 1 waits to write a record that 0 has written, and 2 commits. -/
theorem tryRunningBlocked_loops :
    ¬ ∀ c, schedulerSystem.Reachable c → CallEnds (passCall c.core) := by
  intro hall
  have hmeets : Config.runMeets (fun _ _ => true) (fun c =>
      Config.runMeets (fun _ a => match a with | .turn => true | _ => false) atBlockedWrite
        [.turn, .turn] (passCall c.core))
      [.command 0 "B 1", .command 1 "B 1", .command 2 "B 1", .command 0 "U A 1 5",
        .command 1 "U A 1 6", .command 2 "C"] .init = true := by
    decide +kernel
  rcases Config.reachable_of_runMeets hmeets with ⟨c, hc, hcall⟩
  rcases turns_of_runMeets hcall with ⟨c', hturns, hwrite⟩
  exact not_blockedWrite_of_acc (inCall_passCall hc) (hall c hc).terminates hturns
    (blockedWrite_of_atBlockedWrite hwrite)

/-- The next turn neither fails nor comes to a write that still has to wait. -/
def turnEnds (c : Config) : Bool :=
  match c.stack with
  | .retry tx :: _ =>
    match (c.core.info tx).operationBuffer with
    | op :: ops =>
      if isAccess op then
        match c.core.attempt tx op with
        | .ok (.granted s) => (s.execute tx op).isOk
        | .ok (.refused _) => isRead op
        | .ok (.deadlock s) => (s.prematureAbort tx).isOk
        | .error _ => false
      else ((c.core.setBuffer tx ops).execute tx op).isOk
    | [] => true
  | _ => true

theorem isOk_ne_error {α : Type} {x : Except Err α} {e : Err} (h : x.isOk = true) :
    x ≠ .error e := by
  rintro rfl
  cases h

theorem turn_of_turnEnds (h : turnEnds c = true) :
    ¬ BlockedWrite c.core.view c.stack ∧ ¬ OperationFails c ∧ SearchesInVectors c .turn := by
  have hfront : ∀ {tx rest op ops}, c.stack = .retry tx :: rest →
      (c.core.info tx).operationBuffer = op :: ops →
      (if isAccess op then
        match c.core.attempt tx op with
        | .ok (.granted s) => (s.execute tx op).isOk
        | .ok (.refused _) => isRead op
        | .ok (.deadlock s) => (s.prematureAbort tx).isOk
        | .error _ => false
      else ((c.core.setBuffer tx ops).execute tx op).isOk) = true := by
    intro tx rest op ops hstack hbuf
    unfold turnEnds at h
    rw [hstack] at h
    dsimp only at h
    rw [hbuf] at h
    exact h
  refine ⟨?_, ?_, ?_⟩
  · rintro ⟨tx, rest, op, ops, v', hstack, hbuf, hop, hread, hrefused⟩
    have h := hfront hstack hbuf
    rcases hrefused with ⟨deps, locks, g, hreq, hdeps, hwait, -⟩
    rw [if_pos hop, attempt_of_refused hreq hdeps hwait] at h
    dsimp only at h
    rw [hread] at h
    cases h
  · rintro ⟨tx, rest, op, ops, e, hstack, hbuf, hfails⟩
    have h := hfront hstack hbuf
    rcases hfails with ⟨hop, hexec⟩ | ⟨hop, s, hattempt, hexec⟩ | ⟨hop, s, hattempt, habort⟩
    · rw [not_isAccess_of_isEnd hop] at h
      exact isOk_ne_error h hexec
    · rw [if_pos hop, hattempt] at h
      exact isOk_ne_error h hexec
    · rw [if_pos hop, hattempt] at h
      exact isOk_ne_error h habort
  · rintro tx op deps ⟨hasks, hop, -, locks, hreq⟩ hwait
    rcases hasks with ⟨input, heq, -⟩ | ⟨rest, ops, -, hstack, hbuf⟩
    · cases heq
    · have h := hfront hstack hbuf
      rw [if_pos hop, attempt_of_search_error hreq hwait] at h
      cases h

/-- The call is over after at most `n` turns, each of which passes `turnEnds`. -/
def turnsEnd : Nat → Config → Bool
  | 0, c => c.stack.isEmpty
  | n + 1, c => turnEnds c &&
    match c.next .turn with
    | .ok c' => turnsEnd n c'
    | .error _ => true

theorem turnEnds_of_turnsEnd {n : Nat} {c' : Config} (h : turnsEnd n c = true)
    (hturns : Turns c c') : turnEnds c' = true := by
  induction n generalizing c with
  | zero =>
    have hstack : c.stack = [] := isEmpty_iff.mp h
    rcases hturns.cases_head with rfl | ⟨c₁, hnext, -⟩
    · simp [turnEnds, hstack]
    · unfold Config.next at hnext
      rw [hstack] at hnext
      cases hnext
  | succ n ih =>
    unfold turnsEnd at h
    rcases Bool.and_eq_true_iff.mp h with ⟨hends, hrest⟩
    rcases hturns.cases_head with rfl | ⟨c₁, hnext, hturns⟩
    · exact hends
    · rw [hnext] at hrest
      exact ih hrest hturns

/-- The transaction 1 waits to read a record that 0 has written, and to commit: while
0 runs the call leaves it blocked, and once 0 has committed it is replayed. -/
theorem tryRunningBlocked_ends_iff_read :
    ∃ c, schedulerSystem.Reachable c ∧ (c.core.info 1).transactionStatus = .blocked ∧
      CallEnds (passCall c.core) := by
  have hmeets : Config.runMeets (fun _ _ => true)
      (fun c => (c.core.info 1).transactionStatus = .blocked &&
        turnsEnd 10 (passCall c.core))
      ([.command 0 "B 1", .command 1 "B 1", .command 2 "B 1", .command 0 "U A 1 5",
        .command 1 "R A 1", .command 1 "C", .command 2 "C"] ++ List.replicate 5 .turn) .init =
      true := by
    decide +kernel
  rcases Config.reachable_of_runMeets hmeets with ⟨c, hc, hmeets⟩
  rcases Bool.and_eq_true_iff.mp hmeets with ⟨hblocked, hturns⟩
  refine ⟨c, hc, of_decide_eq_true hblocked, (tryRunningBlocked_ends_iff hc).mpr ?_⟩
  intro c' hreach
  exact turn_of_turnEnds (turnEnds_of_turnsEnd hturns hreach)

end Scheduler

end PittCs.Rcdb
