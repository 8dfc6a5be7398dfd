import PittCs.Rcdb.SchedulerHolders

/-!
# Deadlock freedom

A blocked transaction waits for the holders of the locks that are in the way of
its first buffered operation. The deadlock detector keeps a graph of its own,
which stays acyclic; the waits are acyclic as long as they are edges of it. The
scheduler loses or misses a wait in three ways, and the result is about the runs
in which none of them occurs.
-/

namespace PittCs.Rcdb

open Std PittCs.Lib LockManager List

namespace Scheduler

/-- A blocked transaction waits for a holder of a lock that its first buffered
operation conflicts with. -/
def WaitsFor (s : Scheduler) (tx u : Int) : Prop :=
  (s.info tx).transactionStatus = .blocked ∧ ∃ op ops, (s.info tx).operationBuffer = op :: ops ∧
    Conflict s.locks tx (lockRequest s.db op) u

/-- The call in progress will try the transaction again. -/
def Pending (stack : List Frame) (tx : Int) : Prop :=
  .retry tx ∈ stack ∨ ∃ keys, .pass keys ∈ stack ∧ tx ∈ keys

/-- The transaction is blocked on `op` while it holds locks, and the call in
progress will not try it again. -/
def Stuck (v : View) (stack : List Frame) (tx : Int) (op : Operation) : Prop :=
  v.status tx = .blocked ∧ (∃ ops, v.buffer tx = op :: ops) ∧ ¬ HoldsNothing v.locks tx ∧
    ¬ Pending stack tx

/-- The waits are edges of the graph. -/
structure WaitsInv (v : View) (stack : List Frame) : Prop where
  acyclic : v.graph.Acyclic
  waits : ∀ tx op u, Stuck v stack tx op → Conflict v.locks tx (lockRequest v.db op) u →
    v.graph.Edge tx u
  /-- A blocked transaction without operations has been aborted. -/
  empty : ∀ tx, v.status tx = .blocked → v.buffer tx = [] → ¬ Pending stack tx →
    HoldsNothing v.locks tx
  reblock : ∀ tx, .reblock tx ∈ stack → v.buffer tx = [] ∧ HoldsNothing v.locks tx
  /-- A running transaction only has operations while they are tried again. -/
  running : ∀ tx, v.status tx = .running → v.buffer tx ≠ [] → ∃ rest, stack = .retry tx :: rest
  /-- The `while` loop goes round in vain. -/
  spins : ∀ tx rest, stack = .retry tx :: rest → v.status tx = .blocked →
    ∃ op ops u, v.buffer tx = op :: ops ∧ Conflict v.locks tx (lockRequest v.db op) u

namespace WaitsInv

variable {v v₁ : View} {stack stack' : List Frame} {tx : Int} {i : TransactionInfo}

/-- The calls in progress change, but those still to be tried again do not, unless
they are not blocked. -/
theorem restack (h : WaitsInv v stack)
    (hpending : ∀ u, v.status u = .blocked → Pending stack u → Pending stack' u)
    (hreblock : ∀ u, .reblock u ∈ stack' → .reblock u ∈ stack)
    (hrunning : ∀ u, v.status u = .running → v.buffer u ≠ [] → ∃ rest, stack' = .retry u :: rest)
    (hspins : ∀ u rest, stack' = .retry u :: rest → stack = .retry u :: rest) :
    WaitsInv v stack' := by
  refine ⟨h.acyclic, ?_, ?_, fun u hu => h.reblock u (hreblock u hu), hrunning, ?_⟩
  · rintro u op w ⟨hstatus, hbuf, hholds, hnot⟩ hconflict
    exact h.waits u op w ⟨hstatus, hbuf, hholds, fun hp => hnot (hpending u hstatus hp)⟩ hconflict
  · intro u hstatus hbuf hnot
    exact h.empty u hstatus hbuf fun hp => hnot (hpending u hstatus hp)
  · intro u rest hstack
    exact h.spins u rest (hspins u rest hstack)

/-- One transaction changes. -/
theorem change (h : WaitsInv v stack) (hinfo : v₁.info = v.info) (hacyclic : v₁.graph.Acyclic)
    (hothers : ∀ u, u ≠ tx → SameLocks v.locks v₁.locks u)
    (hhead : ∀ u rest, stack = .retry u :: rest → u = tx)
    (hhead' : ∀ u rest, stack' = .retry u :: rest → u = tx)
    (hpending : ∀ u, u ≠ tx → Pending stack u → Pending stack' u)
    (hedges : ∀ u op w, u ≠ tx → Stuck v stack u op → ¬ Pending stack' u →
      Conflict v₁.locks u (lockRequest v₁.db op) w → v₁.graph.Edge u w)
    (hwaits : ∀ op w, Stuck (v₁.setInfo tx i) stack' tx op →
      Conflict v₁.locks tx (lockRequest v₁.db op) w → v₁.graph.Edge tx w)
    (hempty : i.transactionStatus = .blocked → i.operationBuffer = [] → ¬ Pending stack' tx →
      HoldsNothing v₁.locks tx)
    (hreblock : ∀ u, .reblock u ∈ stack' → u ≠ tx ∧ .reblock u ∈ stack ∨
      u = tx ∧ i.operationBuffer = [] ∧ HoldsNothing v₁.locks tx)
    (hrunning : i.transactionStatus = .running → i.operationBuffer ≠ [] →
      ∃ rest, stack' = .retry tx :: rest)
    (hspins : ∀ rest, stack' = .retry tx :: rest → i.transactionStatus = .blocked →
      ∃ op ops u, i.operationBuffer = op :: ops ∧
        Conflict v₁.locks tx (lockRequest v₁.db op) u) :
    WaitsInv (v₁.setInfo tx i) stack' := by
  have hstatus : ∀ u, u ≠ tx → (v₁.setInfo tx i).status u = v.status u := by
    intro u hu
    rw [View.status_setInfo, if_neg hu, View.status, hinfo]
    rfl
  have hbuffer : ∀ u, u ≠ tx → (v₁.setInfo tx i).buffer u = v.buffer u := by
    intro u hu
    rw [View.buffer_setInfo, if_neg hu, View.buffer, hinfo]
    rfl
  have hstatus_tx : (v₁.setInfo tx i).status tx = i.transactionStatus := by
    rw [View.status_setInfo, if_pos rfl]
  have hbuffer_tx : (v₁.setInfo tx i).buffer tx = i.operationBuffer := by
    rw [View.buffer_setInfo, if_pos rfl]
  refine ⟨hacyclic, ?_, ?_, ?_, ?_, ?_⟩
  · intro u op w hstuck hconflict
    by_cases heq : u = tx
    · subst heq
      exact hwaits op w hstuck hconflict
    · rcases hstuck with ⟨hs, ⟨ops, hops⟩, hholds, hnot⟩
      rw [hstatus u heq] at hs
      rw [hbuffer u heq] at hops
      refine hedges u op w heq ⟨hs, ⟨ops, hops⟩, ?_, ?_⟩ hnot hconflict
      · exact fun hnone => hholds (hnone.congr (hothers u heq))
      · exact fun hp => hnot (hpending u heq hp)
  · intro u hs hb hnot
    by_cases heq : u = tx
    · subst heq
      rw [hstatus_tx] at hs
      rw [hbuffer_tx] at hb
      exact hempty hs hb hnot
    · rw [hstatus u heq] at hs
      rw [hbuffer u heq] at hb
      exact (h.empty u hs hb fun hp => hnot (hpending u heq hp)).congr (hothers u heq)
  · intro u hu
    rcases hreblock u hu with ⟨heq, hmem⟩ | ⟨rfl, hb, hnone⟩
    · rw [hbuffer u heq]
      rcases h.reblock u hmem with ⟨hb, hnone⟩
      exact ⟨hb, hnone.congr (hothers u heq)⟩
    · rw [hbuffer_tx]
      exact ⟨hb, hnone⟩
  · intro u hs hb
    by_cases heq : u = tx
    · subst heq
      rw [hstatus_tx] at hs
      rw [hbuffer_tx] at hb
      exact hrunning hs hb
    · -- a running transaction with operations would be the one that changes
      rw [hstatus u heq] at hs
      rw [hbuffer u heq] at hb
      rcases h.running u hs hb with ⟨rest, hstack⟩
      exact absurd (hhead u rest hstack) heq
  · intro u rest hstack hs
    have heq := hhead' u rest hstack
    subst heq
    rw [hstatus_tx] at hs
    rw [hbuffer_tx]
    exact hspins rest hstack hs

/-- One transaction changes, and is not blocked afterwards. -/
theorem changeUnblocked (h : WaitsInv v stack) (hi : i.transactionStatus ≠ .blocked)
    (hinfo : v₁.info = v.info) (hacyclic : v₁.graph.Acyclic)
    (hothers : ∀ u, u ≠ tx → SameLocks v.locks v₁.locks u)
    (hhead : ∀ u rest, stack = .retry u :: rest → u = tx)
    (hhead' : ∀ u rest, stack' = .retry u :: rest → u = tx)
    (hpending : ∀ u, u ≠ tx → Pending stack u → Pending stack' u)
    (hedges : ∀ u op w, u ≠ tx → Stuck v stack u op → ¬ Pending stack' u →
      Conflict v₁.locks u (lockRequest v₁.db op) w → v₁.graph.Edge u w)
    (hreblock : ∀ u, .reblock u ∈ stack' → u ≠ tx ∧ .reblock u ∈ stack ∨
      u = tx ∧ i.operationBuffer = [] ∧ HoldsNothing v₁.locks tx)
    (hrunning : i.transactionStatus = .running → i.operationBuffer ≠ [] →
      ∃ rest, stack' = .retry tx :: rest) :
    WaitsInv (v₁.setInfo tx i) stack' := by
  refine h.change hinfo hacyclic hothers hhead hhead' hpending hedges ?_ ?_ hreblock hrunning ?_
  · rintro op w ⟨hblocked, -⟩
    rw [View.status_setInfo, if_pos rfl] at hblocked
    exact absurd hblocked hi
  · intro hblocked
    exact absurd hblocked hi
  · intro rest _ hblocked
    exact absurd hblocked hi

/-- The locks of the others are in the way of the others as before. -/
theorem conflict_before {m m' : LockManager} {request request' : LockRequest} {deps : List Int}
    {u w : Int} (hout : RequestOutcome m tx request (deps, m')) (hu : u ≠ tx) (hw : w ≠ tx)
    (h : Conflict m' u request' w) : Conflict m u request' w :=
  h.congr (hout.sameLocks hu).symm (hout.sameLocks hw).symm

/-- An operation gets its locks and is executed. -/
theorem granted {v' : View} {op : Operation} {ops : List Operation} (h : WaitsInv v stack)
    (hholders : HoldersOk v) (hop : isAccess op = true) (hgranted : Granted v tx op ops v')
    (hstatus : v.status tx = .running) (hhead : ∀ u rest, stack = .retry u :: rest → u = tx)
    (hnot : .reblock tx ∉ stack) (hops : ops ≠ [] → ∃ rest, stack = .retry tx :: rest)
    (hovertake : ∀ deps locks, requestLocks v.locks tx (lockRequest v.db op) = .ok (deps, locks) →
      ∀ u op', u ≠ tx → Stuck v stack u op' → Conflict locks u (lockRequest v.db op') tx →
        v.graph.Edge u tx) : WaitsInv v' stack := by
  rcases hgranted with ⟨locks, x, db, hreq, hcall, rfl⟩
  have hout := requestLocks_spec hholders.locks.known hreq
  have hlocks := hholders.locks.request hout
  have hnotblocked : (v.info tx).transactionStatus ≠ .blocked := by
    unfold View.status at hstatus
    rw [hstatus]
    decide
  rcases callTransaction_names hop hholders.names hcall with ⟨-, hkept, -⟩
  refine h.changeUnblocked hnotblocked rfl h.acyclic (fun _ => hout.sameLocks) hhead hhead
    (fun _ _ => id) ?_ ?_ ?_
  · intro u op' w hu hstuck _ hconflict
    have hsame : Conflict locks u (lockRequest v.db op') w := by
      refine hconflict.of_tables hlocks.exclusive hlocks.needsTable hu ?_
      intro _
      rcases hkept op'.tableName with hmem | htable
      · exact .inl hmem
      · right
        rw [htable] at hout
        exact writeLock_of_granted hout
    by_cases hw : w = tx
    · subst hw
      exact hovertake _ _ hreq u op' hu hstuck hsame
    · exact h.waits u op' w hstuck (conflict_before hout hu hw hsame)
  · intro u hu
    refine .inl ⟨?_, hu⟩
    rintro rfl
    exact hnot hu
  · intro _ hne
    exact hops hne

/-- An operation has to wait; the graph now has its waits. -/
theorem refused {op : Operation} {ops : List Operation} (h : WaitsInv v stack)
    (hholders : HoldersOk v) (hrefused : Refused v tx op v₁)
    (hi : i.transactionStatus = .blocked) (hbuf : i.operationBuffer = op :: ops)
    (hhead : ∀ u rest, stack = .retry u :: rest → u = tx)
    (hhead' : ∀ u rest, stack' = .retry u :: rest → u = tx)
    (hpending : ∀ u, u ≠ tx → Pending stack u → Pending stack' u)
    (hreblock : ∀ u, .reblock u ∈ stack' → u ≠ tx ∧ .reblock u ∈ stack)
    (hovertake : ∀ deps locks, requestLocks v.locks tx (lockRequest v.db op) = .ok (deps, locks) →
      ∀ u op', u ≠ tx → Stuck v stack u op' → Conflict locks u (lockRequest v.db op') tx →
        v.graph.Edge u tx)
    (hsees : SeesRecord v.locks tx (lockRequest v.db op)) : WaitsInv (v₁.setInfo tx i) stack' := by
  rcases hrefused with ⟨deps, locks, g, hreq, hdeps, hwait, rfl⟩
  have hout := requestLocks_spec hholders.locks.known hreq
  rcases DiGraph.waitForAll_spec hwait with ⟨hwaited, hedge⟩
  refine h.change rfl (hwaited.acyclic h.acyclic) (fun _ => hout.sameLocks) hhead hhead' hpending
    ?_ ?_ ?_ (fun u hu => .inl (hreblock u hu)) ?_ ?_
  · intro u op' w hu hstuck _ hconflict
    have hbefore : v.graph.Edge u w := by
      by_cases hw : w = tx
      · subst hw
        exact hovertake _ _ hreq u op' hu hstuck hconflict
      · exact h.waits u op' w hstuck (conflict_before hout hu hw hconflict)
    unfold DiGraph.Edge at hbefore ⊢
    rw [hwaited.others u hu]
    exact hbefore
  · rintro op' w ⟨-, ⟨ops', hops'⟩, -⟩ hconflict
    rw [View.buffer_setInfo, if_pos rfl, hbuf] at hops'
    cases hops'
    exact hedge rfl w (.inr (hout.mem_deps hdeps hsees hconflict))
  · intro _ hnil
    rw [hbuf] at hnil
    cases hnil
  · intro hrunning
    rw [hi] at hrunning
    cases hrunning
  · intro rest _ _
    rcases hout.exists_conflict hdeps with ⟨u, hu⟩
    exact ⟨op, ops, u, hbuf, hu⟩

/-- A transaction concludes and every transaction will be tried again. -/
theorem concluded (h : WaitsInv v stack) (hholders : HoldersOk v) (hinfo : v₁.info = v.info)
    (hacyclic : v₁.graph.Acyclic) (hothers : ∀ u, u ≠ tx → SameLocks v.locks v₁.locks u)
    (hnothing : HoldsNothing v₁.locks tx) (hi : i.transactionStatus ≠ .blocked)
    (hbuf : i.operationBuffer = [])
    (hhead : ∀ u rest, stack = .retry u :: rest → u = tx)
    (hhead' : ∀ u rest, stack' ≠ .retry u :: rest)
    (hpending : ∀ u, u ≠ tx → Pending stack u → Pending stack' u)
    (hall : ∀ u, v.known u → Pending stack' u)
    (hreblock : ∀ u, .reblock u ∈ stack' → u = tx ∨ .reblock u ∈ stack) :
    WaitsInv (v₁.setInfo tx i) stack' := by
  refine h.changeUnblocked hi hinfo hacyclic hothers hhead
    (fun u rest hs => absurd hs (hhead' u rest)) hpending ?_ ?_ (fun _ hne => absurd hbuf hne)
  · intro u op w _ hstuck hnot
    exact absurd (hall u (hholders.blocked u hstuck.1)) hnot
  · intro u hu
    by_cases heq : u = tx
    · exact .inr ⟨heq, hbuf, hnothing⟩
    · exact .inl ⟨heq, (hreblock u hu).resolve_left heq⟩

/-- The request would deadlock, and the transaction is aborted. -/
theorem deadlocked {v' : View} {op : Operation} (h : WaitsInv v stack) (hholders : HoldersOk v)
    (hdead : Deadlocked v tx op v') (hhead : ∀ u rest, stack = .retry u :: rest → u = tx)
    (hhead' : ∀ u rest, stack' ≠ .retry u :: rest)
    (hpending : ∀ u, u ≠ tx → Pending stack u → Pending stack' u)
    (hall : ∀ u, v.known u → Pending stack' u)
    (hreblock : ∀ u, .reblock u ∈ stack' → u = tx ∨ .reblock u ∈ stack) : WaitsInv v' stack' := by
  rcases hdead with ⟨deps, locks, g, x, db, hreq, -, hwait, -, rfl⟩
  have hout := requestLocks_spec hholders.locks.known hreq
  have hacyclic := (DiGraph.waitForAll_spec hwait).1.acyclic h.acyclic
  refine h.concluded hholders rfl (hacyclic.removeNode tx) ?_
    (releaseAllLocks_none ((hholders.locks.request hout).owns tx)) (by simp) rfl hhead hhead'
    hpending hall hreblock
  intro u hu
  exact (hout.sameLocks hu).trans (releaseAllLocks_of_ne hu)

end WaitsInv

/-! ## The steps -/

/-- The step does not lose a wait. -/
structure Detected (v : View) (stack : List Frame) (a : Action) : Prop where
  /-- No `COMMIT` or `ABORT` is replayed from a buffer: it keeps the locks, and takes
  the transaction out of the graph. -/
  replay : ∀ tx rest op ops, stack = .retry tx :: rest → v.buffer tx = op :: ops → ¬ isEnd op
  /-- A request does not give a lock that is in the way of a blocked transaction,
  unless the graph has the wait already. -/
  overtake : ∀ tx op, Asks v stack a tx op → ∀ deps locks,
    requestLocks v.locks tx (lockRequest v.db op) = .ok (deps, locks) →
      ∀ u op', u ≠ tx → Stuck v stack u op' → Conflict locks u (lockRequest v.db op') tx →
        v.graph.Edge u tx
  /-- A request that is refused at the table has nobody else in its way at the
  record. -/
  behindTable : ∀ tx op, Asks v stack a tx op → SeesRecord v.locks tx (lockRequest v.db op)

/-- `QUIT` gives the others no new conflict. -/
theorem conflict_of_quit {v : View} {tx u w : Int} {x : Transaction} {db : Database}
    {op : Operation} (h : HoldersOk v) (hu : u ≠ tx)
    (hx : (v.transaction tx).abort v.db = .ok (x, db))
    (hchecked : op.operationType = .insert → op.Checked)
    (hconflict : Conflict v.locks u (lockRequest db op) w) :
    Conflict v.locks u (lockRequest v.db op) w := by
  refine hconflict.of_tables h.locks.exclusive h.locks.needsTable hu ?_
  intro hop
  by_cases htouches : (v.transaction tx).touches op.tableName
  · rcases htouches with hchanged | ⟨name, -, heq⟩
    · exact .inr (h.changed tx (Transaction.abort_state hx).1 _ hchanged)
    · -- a directory of a dropped table is not the name of a table
      have hfalse := (hchecked hop).tableName
      rw [heq, mentionsDeleted_deletedDir] at hfalse
      cases hfalse
  · exact .inl ((Transaction.abort_names h.names hx).2 _ htouches).mpr

theorem pending_cons {f : Frame} {stack : List Frame} {u : Int} (h : Pending stack u) :
    Pending (f :: stack) u := by
  rcases h with h | ⟨keys, hkeys, hu⟩
  · exact .inl (mem_cons_of_mem _ h)
  · exact .inr ⟨keys, mem_cons_of_mem _ hkeys, hu⟩

theorem pending_of_cons {f : Frame} {stack : List Frame} {u : Int} (h : Pending (f :: stack) u) :
    f = .retry u ∨ (∃ keys, f = .pass keys ∧ u ∈ keys) ∨ Pending stack u := by
  rcases h with h | ⟨keys, hkeys, hu⟩
  · rcases mem_cons.mp h with heq | hmem
    · exact .inl heq.symm
    · exact .inr (.inr (.inl hmem))
  · rcases mem_cons.mp hkeys with heq | hmem
    · exact .inr (.inl ⟨keys, heq.symm, hu⟩)
    · exact .inr (.inr (.inr ⟨keys, hmem, hu⟩))

theorem pending_pass {keys : List Int} {rest : List Frame} {u : Int} (h : u ∈ keys) :
    Pending (.pass keys :: rest) u :=
  .inr ⟨keys, mem_cons_self .., h⟩

/-- Nothing is pending between two calls. -/
theorem not_pending_nil (u : Int) : ¬ Pending [] u := by
  rintro (h | ⟨keys, h, -⟩)
  · cases h
  · cases h

/-- A step that loses no wait keeps the invariant. -/
theorem WaitsInv.moved {v v' : View} {stack stack' : List Frame} {a : Action}
    (h : WaitsInv v stack) (hholders : HoldersOk v) (hcalls : CallsOk v stack)
    (hbuffers : BuffersOk v) (hmove : Moved v stack a v' stack') (hguard : Detected v stack a) :
    WaitsInv v' stack' := by
  have hsame : ∀ u : Int, SameLocks v.locks v.locks u := fun _ => ⟨fun _ => rfl, fun _ _ => rfl⟩
  cases hmove with
  | ignored | spin => exact h
  | @begin tx =>
    refine h.changeUnblocked (by simp) rfl ?_ (fun u _ => hsame u) (by simp) (by simp)
      (fun _ _ => id) ?_ (by simp) (by simp)
    · exact h.acyclic.of_edge fun u w hedge => by simpa [DiGraph.Edge] using hedge
    · intro u op w _ hstuck _ hconflict
      have hedge := h.waits u op w hstuck hconflict
      simpa [DiGraph.Edge] using hedge
  | quitActive _ _ _ _ hx =>
    refine h.changeUnblocked (by simp) rfl h.acyclic (fun u _ => hsame u) (by simp) (by simp)
      (fun _ _ => id) ?_ (by simp) (by simp)
    intro u op w hu hstuck _ hconflict
    refine h.waits u op w hstuck (conflict_of_quit hholders hu hx ?_ hconflict)
    intro hop
    rcases hstuck with ⟨-, ⟨ops, hops⟩, -⟩
    rcases hbuffers u op (hops ▸ mem_cons_self ..) with (hend | hend) | ⟨-, hchecked⟩
    · rw [hop] at hend
      cases hend
    · rw [hop] at hend
      cases hend
    · exact hchecked
  | quitDone =>
    exact h.changeUnblocked (by simp) rfl h.acyclic (fun u _ => hsame u) (by simp) (by simp)
      (fun _ _ => id) (fun u op w _ hstuck _ => h.waits u op w hstuck) (by simp) (by simp)
  | @buffered tx _ op _ _ _ hstatus =>
    refine h.change rfl h.acyclic (fun u _ => hsame u) (by simp) (by simp) (fun _ _ => id)
      (fun u op w _ hstuck _ => h.waits u op w hstuck) ?_ (by simp) (by simp) ?_ (by simp)
    · rintro op' w ⟨-, ⟨ops, hops⟩, hholds, hnot⟩ hconflict
      rw [View.buffer_setInfo, if_pos rfl] at hops
      cases hbuf : v.buffer tx with
      | nil => exact absurd (h.empty tx hstatus hbuf hnot) hholds
      | cons op₀ ops₀ =>
        rw [hbuf] at hops
        cases hops
        exact h.waits tx op' w ⟨hstatus, ⟨ops₀, hbuf⟩, hholds, hnot⟩ hconflict
    · intro hrunning
      unfold View.status at hstatus
      rw [hstatus] at hrunning
      cases hrunning
  | @ended tx _ op _ _ keys _ hop _ _ _ hkeys =>
    refine h.concluded hholders rfl ?_ (fun u => releaseAllLocks_of_ne)
      (releaseAllLocks_none (hholders.locks.owns tx)) ?_ rfl (by simp) (by simp) ?_ ?_ (by simp)
    · exact (h.acyclic.removeNode tx).removeNode tx
    · rcases endStatus_concluded op with heq | heq <;> simp [heq]
    · intro u _ hp
      exact absurd hp (not_pending_nil u)
    · intro u hu
      exact pending_pass ((hkeys u).mpr hu)
  | readUnlocked _ hop _ hstatus _ hx =>
    rcases callTransaction_read hop hholders.names hx with ⟨-, -, htables⟩
    have hstatus : (v.info _).transactionStatus = .running := hstatus
    refine h.changeUnblocked (by simp [hstatus]) rfl h.acyclic (fun u _ => hsame u) (by simp)
      (by simp) (fun _ _ => id) ?_ (by simp) (fun hr hne => h.running _ hr hne)
    intro u op w _ hstuck _ hconflict
    rw [lockRequest_congr fun _ => htables _] at hconflict
    exact h.waits u op w hstuck hconflict
  | granted hparse hop _ hstatus hmode hgranted =>
    exact h.granted hholders hop hgranted hstatus (by simp) (by simp) (h.running _ hstatus)
      (hguard.overtake _ _ (.inl ⟨_, rfl, hparse, hstatus, hmode⟩))
  | @refused tx _ op _ hparse _ _ hstatus hmode hrefused =>
    have hask : Asks v [] _ tx op := .inl ⟨_, rfl, hparse, hstatus, hmode⟩
    have hbuf : v.buffer tx = [] := by
      by_contra hne
      rcases h.running tx hstatus hne with ⟨rest, hnil⟩
      cases hnil
    have hops : v.buffer tx ++ [op] = op :: [] := by rw [hbuf, nil_append]
    exact h.refused hholders hrefused rfl hops (by simp) (by simp) (fun _ _ => id)
      (by simp) (hguard.overtake tx op hask) (hguard.behindTable tx op hask)
  | @deadlocked tx _ _ _ keys _ _ _ _ _ hdead hkeys =>
    refine h.deadlocked hholders hdead (by simp) (by simp) ?_ ?_ (by simp)
    · intro u _ hp
      exact absurd hp (not_pending_nil u)
    · intro u hu
      exact pending_pass ((hkeys u).mpr hu)
  | runRemaining =>
    refine h.restack ?_ (by simp) ?_ (by simp)
    · exact fun u _ hp => absurd hp (not_pending_nil u)
    · intro u hs hne
      rcases h.running u hs hne with ⟨rest, hnil⟩
      cases hnil
  | @leave f rest hf =>
    have hnotRetry : ∀ u, f ≠ .retry u := by
      rintro u rfl
      simp at hf
    refine h.restack ?_ (fun u hu => mem_cons_of_mem _ hu) ?_ ?_
    · intro u _ hp
      rcases pending_of_cons hp with rfl | ⟨keys, rfl, hu⟩ | hp
      · exact absurd rfl (hnotRetry u)
      · simp at hf
        rw [hf] at hu
        cases hu
      · exact hp
    · intro u hs hne
      rcases h.running u hs hne with ⟨rest', heq⟩
      exact absurd (List.cons.inj heq).1 (hnotRetry u)
    · intro u rest' heq
      exact absurd (heq ▸ mem_cons_self ..) (hcalls.innermost u)
  | again =>
    refine h.restack (fun u _ => pending_cons) (by simp) ?_ (by simp)
    intro u hs hne
    rcases h.running u hs hne with ⟨rest, heq⟩
    cases heq
  | @skip tx keys rest hstatus =>
    refine h.restack ?_ (by simp) ?_ (by simp)
    · intro u hblocked hp
      rcases pending_of_cons hp with heq | ⟨keys', heq, hu⟩ | hp
      · cases heq
      · cases heq
        rcases mem_cons.mp hu with rfl | hu
        · exact absurd hblocked hstatus
        · exact pending_pass hu
      · exact pending_cons hp
    · intro u hs hne
      rcases h.running u hs hne with ⟨rest', heq⟩
      cases heq
  | @unblock tx keys rest hstatus =>
    refine h.changeUnblocked (by simp) rfl h.acyclic (fun u _ => hsame u) (by simp) (by simp) ?_
      (fun u op w _ hstuck _ => h.waits u op w hstuck) ?_ (fun _ _ => ⟨_, rfl⟩)
    · intro u hu hp
      rcases pending_of_cons hp with heq | ⟨keys', heq, hmem⟩ | hp
      · cases heq
      · cases heq
        rcases mem_cons.mp hmem with rfl | hmem
        · exact absurd rfl hu
        · exact pending_cons (pending_pass hmem)
      · exact pending_cons (pending_cons hp)
    · intro u hu
      have hmem : .reblock u ∈ Frame.pass (tx :: keys) :: rest := by simpa using hu
      by_cases heq : u = tx
      · subst heq
        exact .inr ⟨rfl, h.reblock u hmem⟩
      · exact .inl ⟨heq, hmem⟩
  | @exhausted tx rest hbuf =>
    refine h.restack ?_ (fun u hu => mem_cons_of_mem _ hu) ?_ ?_
    · intro u hblocked hp
      rcases pending_of_cons hp with heq | ⟨keys, heq, hu⟩ | hp
      · -- a blocked transaction would still have the operation it is blocked on
        cases heq
        rcases h.spins _ _ rfl hblocked with ⟨op, ops, w, hops, -⟩
        rw [hbuf] at hops
        cases hops
      · cases heq
      · exact hp
    · intro u hs hne
      rcases h.running u hs hne with ⟨rest', heq⟩
      cases heq
      exact absurd hbuf hne
    · intro u rest' heq
      exact absurd (heq ▸ mem_cons_self ..) (hcalls.innermost u)
  | retryEnded hbuf hop => exact absurd hop (hguard.replay _ _ _ _ rfl hbuf)
  | @retryGranted tx rest op ops _ hbuf hop hgranted =>
    have hask : Asks v (.retry tx :: rest) .turn tx op := .inr ⟨_, _, rfl, rfl, hbuf⟩
    have hstatus : v.status tx = .running := by
      rcases (hcalls.active tx (mem_cons_self ..)).2 with hs | hs
      · exact hs
      · -- what is in the way has not gone away
        rcases h.spins tx rest rfl hs with ⟨op', ops', u, hops, hconflict⟩
        rw [hbuf] at hops
        cases hops
        rcases hgranted with ⟨locks, x, db, hreq, -, -⟩
        have hout := requestLocks_spec hholders.locks.known hreq
        exact absurd hconflict (hout.not_conflict u)
    refine h.granted hholders hop hgranted hstatus ?_ ?_ (fun _ => ⟨_, rfl⟩)
      (hguard.overtake tx op hask)
    · intro u rest' heq
      cases heq
      rfl
    · intro hmem
      rw [(h.reblock tx hmem).1] at hbuf
      cases hbuf
  | @retryRefused tx rest op ops _ hbuf hop hrefused =>
    have hask : Asks v (.retry tx :: rest) .turn tx op := .inr ⟨_, _, rfl, rfl, hbuf⟩
    have hnot : ∀ u, .reblock u ∈ Frame.retry tx :: rest → u ≠ tx := by
      rintro u hmem rfl
      rw [(h.reblock u hmem).1] at hbuf
      cases hbuf
    refine h.refused hholders hrefused rfl hbuf ?_ ?_ ?_ ?_ (hguard.overtake tx op hask)
      (hguard.behindTable tx op hask)
    · intro u rest' heq
      cases heq
      rfl
    · intro u rest' heq
      split at heq
      · exact absurd (heq ▸ mem_cons_self ..) (hcalls.innermost u)
      · cases heq
        rfl
    · intro u hu hp
      split
      · rcases pending_of_cons hp with heq | ⟨keys, heq, -⟩ | hp
        · cases heq
          exact absurd rfl hu
        · cases heq
        · exact hp
      · exact hp
    · intro u hu
      have hmem : .reblock u ∈ Frame.retry tx :: rest := by
        split at hu
        · exact mem_cons_of_mem _ hu
        · exact hu
      exact ⟨hnot u hmem, hmem⟩
  | @retryDeadlocked tx rest op ops _ keys hbuf hop hdead hkeys =>
    refine h.deadlocked hholders hdead ?_ (by simp) ?_ ?_ (by simp)
    · intro u rest' heq
      cases heq
      rfl
    · intro u hu hp
      rcases pending_of_cons hp with heq | ⟨keys, heq, -⟩ | hp
      · cases heq
        exact absurd rfl hu
      · cases heq
      · exact pending_cons (pending_cons (pending_cons hp))
    · intro u hu
      exact pending_pass ((hkeys u).mpr (.inr hu))
  | @reblock tx rest =>
    rcases h.reblock tx (mem_cons_self ..) with ⟨hbuf, hnothing⟩
    refine h.change rfl h.acyclic (fun u _ => hsame u) (by simp) ?_ ?_
      (fun u op w _ hstuck _ => h.waits u op w hstuck) ?_ (fun _ _ _ => hnothing) ?_ (by simp) ?_
    · intro u rest' heq
      exact absurd (heq ▸ mem_cons_self ..) (hcalls.innermost u)
    · intro u _ hp
      rcases pending_of_cons hp with heq | ⟨keys, heq, -⟩ | hp
      · cases heq
      · cases heq
      · exact hp
    · rintro op w ⟨-, -, hholds, -⟩
      exact absurd hnothing hholds
    · intro u hu
      by_cases heq : u = tx
      · exact .inr ⟨heq, hbuf, hnothing⟩
      · exact .inl ⟨heq, mem_cons_of_mem _ hu⟩
    · intro rest' heq
      exact absurd (heq ▸ mem_cons_self ..) (hcalls.innermost tx)

theorem waitsInv_init (disk : Disk) : WaitsInv (init disk).view [] := by
  have hedge : ∀ u w, ¬ (init disk).view.graph.Edge u w := by
    intro u w hedge
    simp [DiGraph.Edge, DiGraph.neighbours, init, DiGraph.init] at hedge
  refine ⟨?_, ?_, ?_, by simp, ?_, by simp⟩
  · intro u hcycle
    rcases Relation.TransGen.head'_iff.mp hcycle with ⟨w, huw, -⟩
    exact hedge u w huw
  · rintro u op w ⟨-, -, hholds, -⟩
    exact absurd (holdsNothing_init u) hholds
  · intro u _ _ _
    exact holdsNothing_init u
  · intro u _ hne
    exact absurd rfl hne

theorem waitsInv_reachable {c : Config}
    (h : schedulerSystem.ReachableBy (fun c a => Detected c.core.view c.stack a) c) :
    WaitsInv c.core.view c.stack := by
  have hinv : WaitsInv c.core.view c.stack ∧ HoldersOk c.core.view ∧
      CallsOk c.core.view c.stack ∧ BuffersOk c.core.view := by
    refine h.invariant (fun c => WaitsInv c.core.view c.stack ∧ HoldersOk c.core.view ∧
      CallsOk c.core.view c.stack ∧ BuffersOk c.core.view) ?_ ?_
    · rintro c ⟨disk, rfl⟩
      refine ⟨waitsInv_init disk, holdersOk_init disk, .nil, ?_⟩
      intro tx op hop
      cases hop
    · intro c a c' hinv hguard hnext
      have hmove := next_moved hnext
      rcases hinv with ⟨hwaits, hholders, hcalls, hbuffers⟩
      exact ⟨hwaits.moved hholders hcalls hbuffers hmove hguard,
        hholders.moved hcalls hmove hguard.replay, hcalls.moved hmove, hbuffers.moved hmove⟩
  exact hinv.1

/-- In every run that loses no wait, nobody waits for himself through the others
between two calls. -/
theorem not_transGen_waitsFor {c : Config}
    (h : schedulerSystem.ReachableBy (fun c a => Detected c.core.view c.stack a) c)
    (hstack : c.stack = []) (tx : Int) : ¬ Relation.TransGen c.core.WaitsFor tx tx := by
  have hinv := waitsInv_reachable h
  rw [hstack] at hinv
  -- a transaction that is waited for holds locks, so its own wait is an edge
  have hedge : ∀ a b w, c.core.WaitsFor w a → c.core.WaitsFor a b →
      c.core.view.graph.Edge a b := by
    rintro a b w ⟨-, op', ops', -, hw⟩ ⟨hstatus, op, ops, hbuf, hconflict⟩
    exact hinv.waits a op b ⟨hstatus, ⟨ops, hbuf⟩, hw.holds, not_pending_nil a⟩ hconflict
  have hpath : ∀ {a b : Int}, Relation.TransGen c.core.WaitsFor a b → ∀ w, c.core.WaitsFor w a →
      Relation.TransGen c.core.view.graph.Edge a b ∧ ∃ w', c.core.WaitsFor w' b := by
    intro a b hab w hw
    induction hab with
    | single hab => exact ⟨.single (hedge _ _ _ hw hab), _, hab⟩
    | tail _ hbc ih =>
      rcases ih with ⟨hpath, w', hw'⟩
      exact ⟨hpath.tail (hedge _ _ _ hw' hbc), _, hbc⟩
  intro hcycle
  rcases Relation.TransGen.tail'_iff.mp hcycle with ⟨w, -, hw⟩
  exact hinv.acyclic tx (hpath hcycle w hw).1

/-- The command asks for no record. -/
def asksNoRecord (c : Config) : Action → Bool
  | .schedule _ input =>
    match parse input with
    | .ok op =>
      match lockRequest c.core.db op with
      | .item _ _ _ => false
      | _ => true
    | .error _ => true
  | _ => true

theorem not_blocked_of_checkBlocked {s : Scheduler} (h : s.checkBlocked = false) (tx : Int) :
    s.view.status tx ≠ .blocked := by
  intro hblocked
  have hinfo : (s.info tx).transactionStatus = .blocked := hblocked
  unfold info at hinfo
  rcases hi : s.transactions[tx]? with _ | i
  · rw [hi] at hinfo
    cases hinfo
  · rw [hi] at hinfo
    unfold checkBlocked at h
    rw [any_eq_false] at h
    exact h (tx, i) (TreeMap.mem_toList_iff_getElem?_eq_some.mpr hi) (decide_eq_true hinfo)

/-- Transaction 1 waits for 0, which has dropped the table, and 0 does not wait for 1. -/
theorem not_transGen_waitsFor_drop :
    ∃ c, schedulerSystem.ReachableBy (fun c a => Detected c.core.view c.stack a) c ∧
      c.core.WaitsFor 1 0 ∧ ¬ Relation.TransGen c.core.WaitsFor 1 1 := by
  have hcheck : ∀ (c : Config) (a : Action),
      (c.noRetry && !c.core.checkBlocked && asksNoRecord c a) = true →
        Detected c.core.view c.stack a := by
    intro c a h
    simp only [Bool.and_eq_true, Bool.not_eq_true'] at h
    rcases h with ⟨⟨hretry, hblocked⟩, htable⟩
    have hfree := not_blocked_of_checkBlocked hblocked
    constructor
    · intro tx rest op ops hstack
      exact absurd hstack (Config.not_retry_of_noRetry hretry)
    · intro tx op _ deps locks _ u op' _ hstuck
      exact absurd hstuck.1 (hfree u)
    · rintro tx op (⟨input, rfl, hparse, -, -⟩ | ⟨rest, ops, -, hstack, -⟩)
      · simp only [asksNoRecord, hparse] at htable
        rw [view_db]
        cases hreq : lockRequest c.core.db op with
        | item tb k desired =>
          rw [hreq] at htable
          cases htable
        | table tb desired => trivial
        | nothing => trivial
      · exact absurd hstack (Config.not_retry_of_noRetry hretry)
  have hmeets : Config.runMeets (fun c a => c.noRetry && !c.core.checkBlocked && asksNoRecord c a)
      (fun c => c.stack.isEmpty ∧ (c.core.info 1).transactionStatus = .blocked ∧
        (c.core.info 1).operationBuffer = [parsed "T A"] ∧
        c.core.locks.tableLock? (Str.ofString "A") 0 = some .writeLock ∧
        c.core.locks.tableLock? (Str.ofString "A") 1 = none)
      [.command 0 "B 1", .command 1 "B 1", .command 0 "D A", .command 1 "T A"] .init = true := by
    decide +kernel
  rcases Config.exists_of_runMeets hcheck Config.init_reachable hmeets with ⟨c, hreach, h⟩
  rcases of_decide_eq_true h with ⟨hstack, hstatus, hbuf, hheld, hnone⟩
  have hscan : (parsed "T A").operationType = .retrieveEntireTable ∧
      (parsed "T A").tableName = Str.ofString "A" := by
    decide +kernel
  refine ⟨c, hreach, ⟨hstatus, _, _, hbuf, ?_⟩,
    not_transGen_waitsFor hreach (isEmpty_iff.mp hstack) 1⟩
  unfold lockRequest
  rw [hscan.1, hscan.2]
  exact ⟨by decide, by rw [hnone]; rfl, _, hheld, rfl⟩

/-- Transaction 0 waits for 1 to write a table; 2 then reads the table as well, and
asks for the record that 0 has written. -/
def overtakenWriterRun : List Action :=
  [.command 0 "B 1", .command 1 "B 1", .command 2 "B 1", .command 0 "U B 7 6",
    .command 1 "T A", .command 0 "U A 1 6", .command 2 "T A", .command 2 "R B 7"]

/-- Transactions 0 and 2 wait for each other. -/
theorem transGen_waitsFor_overtakenWriterRun :
    ∃ c, schedulerSystem.Reachable c ∧ c.stack = [] ∧ Relation.TransGen c.core.WaitsFor 0 0 := by
  have hmeets : Config.runMeets (fun _ _ => true) (fun c => c.stack.isEmpty ∧
      ((c.core.info 0).transactionStatus = .blocked ∧
        (c.core.info 0).operationBuffer = [parsed "U A 1 6"] ∧
        c.core.locks.tableLock? (Str.ofString "A") 0 = none ∧
        c.core.locks.tableLock? (Str.ofString "A") 2 = some .readLock) ∧
      (c.core.info 2).transactionStatus = .blocked ∧
        (c.core.info 2).operationBuffer = [parsed "R B 7"] ∧
        c.core.locks.recordLock? (Str.ofString "B") 7 2 = none ∧
        c.core.locks.recordLock? (Str.ofString "B") 7 0 = some .writeLock)
      overtakenWriterRun .init = true := by
    decide +kernel
  rcases Config.reachable_of_runMeets hmeets with ⟨c, hreach, h⟩
  rcases of_decide_eq_true h with
    ⟨hstack, ⟨hstatus0, hbuf0, hnone0, hheld2⟩, hstatus2, hbuf2, hnone2, hheld0⟩
  have hupdate : (parsed "U A 1 6").operationType = .update ∧
      (parsed "U A 1 6").tableName = Str.ofString "A" := by
    decide +kernel
  have hread : (parsed "R B 7").operationType = .retrieveRecord ∧
      (parsed "R B 7").tableName = Str.ofString "B" ∧ (parsed "R B 7").coffeeID = 7 := by
    decide +kernel
  have h02 : c.core.WaitsFor 0 2 := by
    refine ⟨hstatus0, _, _, hbuf0, ?_⟩
    unfold lockRequest
    rw [hupdate.1, hupdate.2]
    exact .inl ⟨by decide, by rw [hnone0]; rfl, _, hheld2, rfl⟩
  have h20 : c.core.WaitsFor 2 0 := by
    refine ⟨hstatus2, _, _, hbuf2, ?_⟩
    unfold lockRequest
    rw [hread.1, hread.2.1, hread.2.2]
    exact .inr ⟨by decide, by rw [hnone2]; rfl, _, hheld0, rfl⟩
  exact ⟨c, hreach, isEmpty_iff.mp hstack, .tail (.single h02) h20⟩

end Scheduler

end PittCs.Rcdb
