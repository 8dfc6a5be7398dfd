import PittCs.Rcdb.SchedulerStatus

/-!
# Program order

The operations of a transaction are executed at once, or wait in its buffer and
are executed later. Either way they are executed in the order in which they were
sent, each at most once, and all of them before the transaction commits. A
transaction that began in a mode other than 0 and 1 loses the operations it sends
while it is running, so the result is about the runs without such operations.
-/

namespace PittCs.Rcdb

open Std PittCs.Lib Function List

namespace Scheduler

/-- What one event adds to the operations that `tx` has executed since its `BEGIN`. -/
def executedStep (tx : Int) (ops : List Operation) : Event → List Operation
  | .executed u op =>
    if u = tx then if op.operationType = .begin then [] else ops ++ [op] else ops
  | .ended _ => ops

/-- The operations that `tx` has executed since its `BEGIN`. -/
def executedOps (tx : Int) (history : List Event) : List Operation :=
  history.foldl (executedStep tx) []

/-- The commands of each transaction since its `BEGIN`, after one more action. A
transaction that has quit is not listened to. -/
def sentAfter (s : Scheduler) (sent : Int → List Operation) : Action → Int → List Operation
  | .schedule tx input =>
    if tx ∈ s.transactions ∧ (s.info tx).transactionStatus = .terminated then sent
    else
      match parse input with
      | .ok op =>
        match op.operationType with
        | .begin => Function.update sent tx []
        | .quit | .invalid => sent
        | _ => Function.update sent tx (sent tx ++ [op])
      | .error _ => sent
  | .runRemaining => sent
  | .turn => sent

end Scheduler

/-- The scheduler with the commands it was sent. -/
structure Session where
  config : Config
  sent : Int → List Operation

/-- The scheduler over any disk, with a record of the commands. -/
def sessionSystem : TransitionSystem Session Action where
  Init r := (∃ disk, r.config = ⟨Scheduler.init disk, []⟩) ∧ r.sent = fun _ => []
  Next r a r' := r.config.next a = .ok r'.config ∧
    r'.sent = Scheduler.sentAfter r.config.core r.sent a

/-- The operations submitted for `tx` since its `BEGIN`, up to its `COMMIT` or `ABORT`. -/
def Session.submitted (r : Session) (tx : Int) : List Operation :=
  (r.sent tx).takeWhile Scheduler.isAccess

namespace Scheduler

/-! ## What is executed and what is sent -/

section Executed

variable {tx u : Int} {history : List Event} {op : Operation}

theorem executedOps_append (tx : Int) (history : List Event) (e : Event) :
    executedOps tx (history ++ [e]) = executedStep tx (executedOps tx history) e := by
  unfold executedOps
  rw [foldl_append]
  rfl

theorem executedOps_ended : executedOps tx (history ++ [.ended u]) = executedOps tx history := by
  rw [executedOps_append]
  rfl

theorem executedOps_of_ne (h : tx ≠ u) :
    executedOps tx (history ++ [.executed u op]) = executedOps tx history := by
  rw [executedOps_append]
  exact if_neg (Ne.symm h)

theorem executedOps_begin (h : op.operationType = .begin) :
    executedOps tx (history ++ [.executed tx op]) = [] := by
  rw [executedOps_append]
  simp [executedStep, h]

theorem executedOps_access (h : isAccess op = true) :
    executedOps tx (history ++ [.executed tx op]) = executedOps tx history ++ [op] := by
  have hne : op.operationType ≠ .begin := by
    intro hbegin
    simp [isAccess, hbegin] at h
  rw [executedOps_append]
  simp [executedStep, hne]

end Executed

/-- How the record of commands changes. -/
structure Sent (v : View) (a : Action) (sent sent' : Int → List Operation) : Prop where
  begins : ∀ tx input op, a = .schedule tx input → parse input = .ok op →
    op.operationType = .begin → ¬ (v.known tx ∧ v.status tx = .terminated) →
      sent' = Function.update sent tx []
  next : ∀ tx input op, a = .schedule tx input → parse input = .ok op →
    isEnd op ∨ isAccess op = true → ¬ (v.known tx ∧ v.status tx = .terminated) →
      sent' = Function.update sent tx (sent tx ++ [op])
  same : (∀ tx input op, a = .schedule tx input → parse input = .ok op →
    v.known tx ∧ v.status tx = .terminated ∨ op.operationType = .quit ∨
      op.operationType = .invalid) → sent' = sent

theorem sent_sentAfter (s : Scheduler) (sent : Int → List Operation) (a : Action) :
    Sent s.view a sent (sentAfter s sent a) := by
  constructor
  · rintro tx input op rfl hparse hop hterm
    have hterm : ¬ (tx ∈ s.transactions ∧ (s.info tx).transactionStatus = .terminated) := hterm
    simp only [sentAfter, if_neg hterm, hparse, hop]
  · rintro tx input op rfl hparse hop hterm
    have hterm : ¬ (tx ∈ s.transactions ∧ (s.info tx).transactionStatus = .terminated) := hterm
    simp only [sentAfter, if_neg hterm, hparse]
    split
    · rcases hop with (hop | hop) | hop <;> simp_all [isAccess]
    · rcases hop with (hop | hop) | hop <;> simp_all [isAccess]
    · rcases hop with (hop | hop) | hop <;> simp_all [isAccess]
    · rfl
  · intro h
    cases a with
    | schedule tx input =>
      simp only [sentAfter]
      split
      · rfl
      case isFalse hterm =>
        split
        case h_1 op hparse =>
          rcases h tx input op rfl hparse with hterm' | hop | hop
          · exact absurd hterm' hterm
          · simp only [hop]
          · simp only [hop]
        case h_2 => rfl
    | runRemaining | turn => rfl

/-! ## The invariant -/

/-- What a transaction was sent is what it has executed and what it has buffered. -/
structure OrderInv (v : View) (stack : List Frame) (sent : Int → List Operation) : Prop where
  access : ∀ tx, ∀ op ∈ executedOps tx v.history, isAccess op = true
  ordered : ∀ tx, v.known tx → executedOps tx v.history <+: (sent tx).takeWhile isAccess
  /-- Until the `Transaction` object concludes, nothing is lost. -/
  complete : ∀ tx, (v.transaction tx).state = .running →
    sent tx = executedOps tx v.history ++ v.buffer tx
  committed : ∀ tx, v.status tx = .committed →
    ∃ op ops, isEnd op ∧ sent tx = executedOps tx v.history ++ op :: ops
  active : ∀ tx, (v.transaction tx).state = .running → (v.info tx).Active
  running : ∀ tx, v.status tx = .running → v.buffer tx ≠ [] → ∃ rest, stack = .retry tx :: rest

theorem takeWhile_append_end {ops ops' : List Operation} {op : Operation}
    (h : ∀ o ∈ ops, isAccess o = true) (hop : isEnd op) :
    (ops ++ op :: ops').takeWhile isAccess = ops := by
  rw [takeWhile_append_of_pos h, takeWhile_cons_of_neg, append_nil]
  rw [not_isAccess_of_isEnd hop]
  decide

theorem prefix_takeWhile {ops sent rest : List Operation} (h : ∀ o ∈ ops, isAccess o = true)
    (hsent : sent = ops ++ rest) : ops <+: sent.takeWhile isAccess := by
  rw [hsent, takeWhile_append_of_pos h]
  exact prefix_append ..

namespace OrderInv

variable {v v₁ v' : View} {stack stack' : List Frame} {sent sent' : Int → List Operation}
  {tx : Int} {i : TransactionInfo} {op : Operation}

/-- One transaction changes. -/
theorem change (h : OrderInv v stack sent) (hinfo : v₁.info = v.info) (hknown : v₁.known = v.known)
    (hhistory : ∀ u, u ≠ tx → executedOps u v₁.history = executedOps u v.history)
    (hsent : ∀ u, u ≠ tx → sent' u = sent u)
    (hhead : ∀ u rest, stack = .retry u :: rest → u = tx)
    (haccess : ∀ op ∈ executedOps tx v₁.history, isAccess op = true)
    (hordered : executedOps tx v₁.history <+: (sent' tx).takeWhile isAccess)
    (hcomplete : i.transaction.state = .running →
      sent' tx = executedOps tx v₁.history ++ i.operationBuffer)
    (hcommitted : i.transactionStatus = .committed →
      ∃ op ops, isEnd op ∧ sent' tx = executedOps tx v₁.history ++ op :: ops)
    (hactive : i.transaction.state = .running → i.Active)
    (hrunning : i.transactionStatus = .running → i.operationBuffer ≠ [] →
      ∃ rest, stack' = .retry tx :: rest) :
    OrderInv (v₁.setInfo tx i) stack' sent' := by
  have hothers : ∀ u, u ≠ tx → (v₁.setInfo tx i).info u = v.info u := by
    intro u hu
    rw [View.info_setInfo, if_neg hu, hinfo]
  have hself : (v₁.setInfo tx i).info tx = i := View.info_setInfo_self ..
  refine ⟨?_, ?_, ?_, ?_, ?_, ?_⟩
  · intro u
    by_cases hu : u = tx
    · subst hu
      exact haccess
    · rw [View.setInfo_history, hhistory u hu]
      exact h.access u
  · intro u hk
    rw [View.setInfo_history]
    by_cases hu : u = tx
    · subst hu
      exact hordered
    · rw [hhistory u hu, hsent u hu]
      rcases hk with hk | hk
      · exact absurd hk hu
      · exact h.ordered u (hknown ▸ hk)
  · intro u
    unfold View.transaction View.buffer
    rw [View.setInfo_history]
    by_cases hu : u = tx
    · subst hu
      rw [hself]
      exact hcomplete
    · rw [hothers u hu, hsent u hu, hhistory u hu]
      exact h.complete u
  · intro u
    unfold View.status
    rw [View.setInfo_history]
    by_cases hu : u = tx
    · subst hu
      rw [hself]
      exact hcommitted
    · rw [hothers u hu, hsent u hu, hhistory u hu]
      exact h.committed u
  · intro u
    unfold View.transaction
    by_cases hu : u = tx
    · subst hu
      rw [hself]
      exact hactive
    · rw [hothers u hu]
      exact h.active u
  · intro u
    unfold View.status View.buffer
    by_cases hu : u = tx
    · subst hu
      rw [hself]
      exact hrunning
    · rw [hothers u hu]
      intro hs hne
      rcases h.running u hs hne with ⟨rest, hstack⟩
      exact absurd (hhead u rest hstack) hu

/-- The calls in progress change. -/
theorem restack (h : OrderInv v stack sent)
    (hrunning : ∀ u, v.status u = .running → v.buffer u ≠ [] → ∃ rest, stack' = .retry u :: rest) :
    OrderInv v stack' sent :=
  ⟨h.access, h.ordered, h.complete, h.committed, h.active, hrunning⟩

/-- Between two calls a running transaction has no operations. -/
theorem buffer_eq_nil (h : OrderInv v [] sent) (hstatus : v.status tx = .running) :
    v.buffer tx = [] := by
  by_contra hne
  rcases h.running tx hstatus hne with ⟨rest, hnil⟩
  cases hnil

/-- A command more. -/
theorem prefix_sent (h : OrderInv v stack sent) (hknown : v.known tx) (op : Operation) :
    executedOps tx v.history <+: (sent tx ++ [op]).takeWhile isAccess := by
  refine (h.ordered tx hknown).trans ?_
  rw [takeWhile_append]
  split
  · exact (List.takeWhile_prefix _).trans (prefix_append ..)
  · exact prefix_refl _

/-- An operation is executed. -/
theorem executed {x : Transaction} {db db' : Database} (ops : List Operation)
    (h : OrderInv v stack sent) (hop : isAccess op = true) (hchecked : op.Checked)
    (hcall : callTransaction tx (v.transaction tx) db op = .ok (x, db'))
    (hinfo : v₁.info = v.info) (hknown₁ : v₁.known = v.known)
    (hhistory : v₁.history = v.history ++ [.executed tx op])
    (hhead : ∀ u rest, stack = .retry u :: rest → u = tx)
    (hi : i = { v.info tx with transaction := x, operationBuffer := ops })
    (hops : ops ≠ [] → ∃ rest, stack' = .retry tx :: rest)
    (hothers : ∀ u, u ≠ tx → sent' u = sent u)
    (hsent : sent tx = executedOps tx v.history ++ v.buffer tx →
      sent' tx = executedOps tx v.history ++ op :: ops) :
    OrderInv (v₁.setInfo tx i) stack' sent' := by
  have hstate := callTransaction_running hop hchecked hcall
  have hcomplete := hsent (h.complete tx hstate)
  have hactive := h.active tx hstate
  have hexecuted : executedOps tx v₁.history = executedOps tx v.history ++ [op] := by
    rw [hhistory]
    exact executedOps_access hop
  have haccess : ∀ o ∈ executedOps tx v₁.history, isAccess o = true := by
    intro o ho
    rw [hexecuted] at ho
    rcases mem_append.mp ho with ho | ho
    · exact h.access tx o ho
    · rcases mem_singleton.mp ho with rfl
      exact hop
  have hsplit : sent' tx = executedOps tx v₁.history ++ ops := by
    rw [hcomplete, hexecuted, append_assoc]
    rfl
  subst hi
  refine h.change hinfo hknown₁ ?_ hothers hhead haccess (prefix_takeWhile haccess hsplit)
    (fun _ => hsplit) ?_ (fun _ => hactive) (fun _ => hops)
  · intro u hu
    rw [hhistory]
    exact executedOps_of_ne hu
  · intro hcommitted
    rcases hactive with hs | hs
    · rw [hs] at hcommitted
      cases hcommitted
    · rw [hs] at hcommitted
      cases hcommitted

/-- A transaction is aborted. -/
theorem aborted (h : OrderInv v stack sent) (hinfo : v₁.info = v.info)
    (hknown₁ : v₁.known = v.known) (hhistory : v₁.history = v.history ++ [.ended tx])
    (hhead : ∀ u rest, stack = .retry u :: rest → u = tx)
    (hstate : i.transaction.state ≠ .running) (hstatus : i.transactionStatus ≠ .committed)
    (hrunning : i.transactionStatus ≠ .running)
    (hothers : ∀ u, u ≠ tx → sent' u = sent u)
    (hordered : executedOps tx v.history <+: (sent' tx).takeWhile isAccess) :
    OrderInv (v₁.setInfo tx i) stack' sent' := by
  have hsame : ∀ u, executedOps u v₁.history = executedOps u v.history := by
    intro u
    rw [hhistory]
    exact executedOps_ended
  refine h.change hinfo hknown₁ (fun u _ => hsame u) hothers hhead ?_ ?_
    (fun hr => absurd hr hstate) (fun hc => absurd hc hstatus) (fun hr => absurd hr hstate)
    (fun hr => absurd hr hrunning)
  · rw [hsame]
    exact h.access tx
  · rw [hsame]
    exact hordered

/-- A transaction concludes by its own command. -/
theorem concluded {x : Transaction} {db db' : Database} (ops : List Operation)
    (h : OrderInv v stack sent) (hop : isEnd op)
    (hcall : callTransaction tx (v.transaction tx) db op = .ok (x, db'))
    (hinfo : v₁.info = v.info) (hknown₁ : v₁.known = v.known)
    (hhistory : v₁.history = v.history ++ [.ended tx])
    (hhead : ∀ u rest, stack = .retry u :: rest → u = tx)
    (hi : i = { v.info tx with
      transaction := x, operationBuffer := [], transactionStatus := endStatus op })
    (hothers : ∀ u, u ≠ tx → sent' u = sent u)
    (hsent : sent tx = executedOps tx v.history ++ v.buffer tx →
      sent' tx = executedOps tx v.history ++ op :: ops) :
    OrderInv (v₁.setInfo tx i) stack' sent' := by
  have hstate : (v.transaction tx).state = .running := by
    unfold callTransaction at hcall
    rcases hop with ht | ht
    · rw [ht] at hcall
      exact (Transaction.commit_state hcall).1
    · rw [ht] at hcall
      exact (Transaction.abort_state hcall).1
  have hcomplete := hsent (h.complete tx hstate)
  have hsame : ∀ u, executedOps u v₁.history = executedOps u v.history := by
    intro u
    rw [hhistory]
    exact executedOps_ended
  have hended := callTransaction_end_state hop hcall
  subst hi
  refine h.change hinfo hknown₁ (fun u _ => hsame u) hothers hhead ?_ ?_
    (fun hr => absurd hr hended.1) ?_ (fun hr => absurd hr hended.1) (fun _ hne => absurd rfl hne)
  · rw [hsame]
    exact h.access tx
  · rw [hsame]
    exact prefix_takeWhile (h.access tx) hcomplete
  · intro _
    rw [hsame]
    exact ⟨op, ops, hop, hcomplete⟩

end OrderInv

theorem not_terminated {v : View} {tx : Int} {status : TransactionStatus}
    (h : v.status tx = status) (hne : status ≠ .terminated) :
    ¬ (v.known tx ∧ v.status tx = .terminated) := by
  rintro ⟨-, hterm⟩
  exact hne (h.symm.trans hterm)

/-- No operation on a table is sent by a transaction that is running in a mode that
does not exist. -/
def KnownMode (v : View) (a : Action) : Prop :=
  ∀ tx input op, a = .schedule tx input → parse input = .ok op → isAccess op = true →
    v.known tx → v.status tx = .running →
      (v.info tx).executionMode = 1 ∨ (v.info tx).executionMode = 0

/-- One step keeps the order. -/
theorem OrderInv.moved {v v' : View} {stack stack' : List Frame} {a : Action}
    {sent sent' : Int → List Operation} (h : OrderInv v stack sent) (hcalls : CallsOk v stack)
    (hbuffers : BuffersOk v) (hsent : Sent v a sent sent') (hmove : Moved v stack a v' stack')
    (hguard : KnownMode v a) : OrderInv v' stack' sent' := by
  -- a turn of a call sends nothing
  have hturn : a = .turn → sent' = sent := by
    rintro rfl
    exact hsent.same fun tx input op heq => by cases heq
  have hquit : ∀ {tx input op}, a = .schedule tx input → parse input = .ok op →
      op.operationType = .quit ∨ op.operationType = .invalid → sent' = sent := by
    rintro tx input op rfl hparse hop
    refine hsent.same fun tx' input' op' heq hparse' => ?_
    cases heq
    rw [hparse] at hparse'
    cases hparse'
    exact .inr hop
  have hfront : ∀ {tx op ops}, v.buffer tx = op :: ops → isAccess op = true → op.Checked := by
    intro tx op ops hbuf hop
    rcases hbuffers tx op (hbuf ▸ mem_cons_self ..) with hend | ⟨-, hchecked⟩
    · rw [not_isAccess_of_isEnd hend] at hop
      cases hop
    · exact hchecked
  have hupdate : ∀ {tx : Int} {ops : List Operation}, sent' = Function.update sent tx ops →
      sent' tx = ops ∧ ∀ u, u ≠ tx → sent' u = sent u := by
    rintro tx ops rfl
    exact ⟨update_self .., fun u hu => update_of_ne hu ..⟩
  -- nothing is running between two calls
  have hno : ∀ {u : Int} {rest : List Frame} {P : Prop}, ([] : List Frame) = .retry u :: rest → P := by
    intro u rest P heq
    cases heq
  cases hmove with
  | @ignored tx input hwhy =>
    rcases hwhy with hterm | ⟨op, hparse, hinvalid | ⟨hop, hstatus⟩ | ⟨hop, hknown, hstatus, h1, h0⟩⟩
    · rw [hsent.same fun tx' input' op heq _ => by cases heq; exact .inl hterm]
      exact h
    · rw [hquit rfl hparse (.inr hinvalid)]
      exact h
    · -- the commands of a concluded transaction
      have hterm : ¬ (v.known tx ∧ v.status tx = .terminated) := by
        rintro ⟨-, hterm⟩
        rw [hterm] at hstatus
        rcases hstatus with hs | hs <;> cases hs
      rcases hupdate (hsent.next tx input op rfl hparse hop hterm) with ⟨hself, hothers⟩
      have hidle : (v.transaction tx).state ≠ .running := by
        intro hstate
        rcases h.active tx hstate with hs | hs <;>
          rcases hstatus with hs' | hs' <;> simp_all [View.status]
      refine ⟨h.access, ?_, ?_, ?_, h.active, h.running⟩
      · intro u hu
        by_cases heq : u = tx
        · subst heq
          rw [hself]
          exact h.prefix_sent hu op
        · rw [hothers u heq]
          exact h.ordered u hu
      · intro u hu
        by_cases heq : u = tx
        · subst heq
          exact absurd hu hidle
        · rw [hothers u heq]
          exact h.complete u hu
      · intro u hu
        by_cases heq : u = tx
        · subst heq
          rcases h.committed u hu with ⟨op', ops', hend, hsplit⟩
          refine ⟨op', ops' ++ [op], hend, ?_⟩
          rw [hself, hsplit, append_assoc]
          rfl
        · rw [hothers u heq]
          exact h.committed u hu
    · -- the operation would be lost
      rcases hguard tx input op rfl hparse hop hknown hstatus with hm | hm
      · exact absurd hm h1
      · exact absurd hm h0
  | @begin tx input op x mode _ hterm hparse hop hmode hx =>
    rcases hupdate (hsent.begins tx input op rfl hparse hop hterm) with ⟨hself, hothers⟩
    have hnil : executedOps tx (v.history ++ [.executed tx op]) = [] := executedOps_begin hop
    refine h.change rfl rfl (fun u hu => executedOps_of_ne hu) hothers (fun _ _ => hno) ?_ ?_ ?_
      (by simp) (fun _ => .inl rfl) (by simp)
    · rw [hnil]
      simp
    · rw [hnil]
      exact nil_prefix
    · rw [hnil, hself]
      simp
  | @quitActive tx input op x db hparse hop hknown _ hx =>
    rw [hquit rfl hparse (.inl hop)]
    refine h.aborted rfl rfl rfl (fun _ _ => hno) ?_ (by simp) (by simp)
      (fun _ _ => rfl) (h.ordered tx hknown)
    rw [(Transaction.abort_state hx).2]
    decide
  | @quitDone tx input op hparse hop hknown hstatus =>
    have hsame := hquit rfl hparse (.inl hop)
    have hidle : (v.transaction tx).state ≠ .running := by
      intro hstate
      rcases h.active tx hstate with hs | hs <;>
        rcases hstatus with hs' | hs' <;> simp_all [View.status]
    rw [hsame]
    exact h.change rfl rfl (fun _ _ => rfl) (fun _ _ => rfl) (fun _ _ => hno) (h.access tx)
      (h.ordered tx hknown) (fun hs => absurd hs hidle) (by simp) (fun hs => absurd hs hidle)
      (by simp)
  | @buffered tx input op hparse hop hknown hstatus =>
    have hterm := not_terminated hstatus (by decide)
    rcases hupdate (hsent.next tx input op rfl hparse hop hterm) with ⟨hself, hothers⟩
    have hblocked : (v.info tx).transactionStatus = .blocked := hstatus
    refine h.change rfl rfl (fun _ _ => rfl) hothers (fun _ _ => hno) (h.access tx) ?_ ?_
      (by simp [hblocked]) (h.active tx) (by simp [hblocked])
    · rw [hself]
      exact h.prefix_sent hknown op
    · intro hstate
      rw [hself, h.complete tx hstate, append_assoc]
  | @ended tx input op x db keys hparse hop hknown hstatus hx _ =>
    have hterm := not_terminated hstatus (by decide)
    rcases hupdate (hsent.next tx input op rfl hparse (.inl hop) hterm) with ⟨hself, hothers⟩
    refine h.concluded [] hop hx rfl rfl rfl (fun _ _ => hno) rfl hothers ?_
    intro hsplit
    rw [hself, hsplit, h.buffer_eq_nil hstatus, append_nil]
  | @readUnlocked tx input op x db hparse hop hknown hstatus _ hx =>
    have hacc := isAccess_of_isRead hop
    have hterm := not_terminated hstatus (by decide)
    rcases hupdate (hsent.next tx input op rfl hparse (.inr hacc) hterm) with ⟨hself, hothers⟩
    have hnil := h.buffer_eq_nil hstatus
    refine h.executed [] hacc (parse_checked hparse hacc) hx rfl rfl rfl
      (fun _ _ => hno) ?_ (by simp) hothers ?_
    · rw [← hnil]
      rfl
    · intro hsplit
      rw [hself, hsplit, hnil, append_nil]
  | @granted tx input op v' hparse hop hknown hstatus _ hgranted =>
    rcases hgranted with ⟨locks, x, db, -, hcall, rfl⟩
    have hterm := not_terminated hstatus (by decide)
    rcases hupdate (hsent.next tx input op rfl hparse (.inr hop) hterm) with ⟨hself, hothers⟩
    have hnil := h.buffer_eq_nil hstatus
    refine h.executed (v.buffer tx) hop (parse_checked hparse hop) hcall rfl rfl rfl
      (fun _ _ => hno) rfl (fun hne => absurd hnil hne) hothers ?_
    intro hsplit
    rw [hself, hsplit, hnil, append_nil]
  | @refused tx input op v₁ hparse hop hknown hstatus _ hrefused =>
    rcases hrefused with ⟨deps, locks, g, -, -, -, rfl⟩
    have hterm := not_terminated hstatus (by decide)
    rcases hupdate (hsent.next tx input op rfl hparse (.inr hop) hterm) with ⟨hself, hothers⟩
    refine h.change rfl rfl (fun _ _ => rfl) hothers (fun _ _ => hno) (h.access tx) ?_ ?_
      (by simp) (fun _ => .inr rfl) (by simp)
    · rw [hself]
      exact h.prefix_sent hknown op
    · intro hstate
      rw [hself, h.complete tx hstate, append_assoc]
  | @deadlocked tx input op v' keys hparse hop hknown hstatus _ hdead _ =>
    rcases hdead with ⟨deps, locks, g, x, db, -, -, -, habort, rfl⟩
    have hterm := not_terminated hstatus (by decide)
    rcases hupdate (hsent.next tx input op rfl hparse (.inr hop) hterm) with ⟨hself, hothers⟩
    refine h.aborted rfl rfl rfl (fun _ _ => hno) ?_ (by simp) (by simp) hothers ?_
    · rw [(Transaction.abort_state habort).2]
      decide
    · rw [hself]
      exact h.prefix_sent hknown op
  | runRemaining =>
    rw [hsent.same fun tx input op heq => by cases heq]
    refine h.restack fun u hs hne => ?_
    rcases h.running u hs hne with ⟨rest, hnil⟩
    exact hno hnil
  | leave hf =>
    rw [hturn rfl]
    refine h.restack fun u hs hne => ?_
    rcases h.running u hs hne with ⟨rest, heq⟩
    cases heq
    simp at hf
  | again | skip =>
    rw [hturn rfl]
    refine h.restack fun u hs hne => ?_
    rcases h.running u hs hne with ⟨rest, heq⟩
    cases heq
  | @unblock tx keys rest _ =>
    have hknown := hcalls.keys _ (mem_cons_self ..) tx (mem_cons_self ..)
    rw [hturn rfl]
    exact h.change rfl rfl (fun _ _ => rfl) (fun _ _ => rfl) (by simp) (h.access tx)
      (h.ordered tx hknown) (h.complete tx) (by simp) (fun _ => .inl rfl) (fun _ _ => ⟨_, rfl⟩)
  | @exhausted tx rest hbuf =>
    rw [hturn rfl]
    refine h.restack fun u hs hne => ?_
    rcases h.running u hs hne with ⟨rest', heq⟩
    cases heq
    exact absurd hbuf hne
  | spin =>
    rw [hturn rfl]
    exact h
  | @retryEnded tx rest op ops x db hbuf hop hx =>
    have hknown := (hcalls.active tx (mem_cons_self ..)).1
    rw [hturn rfl]
    refine h.concluded ops hop hx rfl rfl rfl ?_ rfl (fun _ _ => rfl) ?_
    · intro u rest' heq
      cases heq
      rfl
    · intro hsplit
      rw [hsplit, hbuf]
  | @retryGranted tx rest op ops v' hbuf hop hgranted =>
    rcases hgranted with ⟨locks, x, db, -, hcall, rfl⟩
    have hknown := (hcalls.active tx (mem_cons_self ..)).1
    rw [hturn rfl]
    refine h.executed ops hop (hfront hbuf hop) hcall rfl rfl rfl ?_ rfl
      (fun _ => ⟨_, rfl⟩) (fun _ _ => rfl) ?_
    · intro u rest' heq
      cases heq
      rfl
    · intro hsplit
      rw [hsplit, hbuf]
  | @retryRefused tx rest op ops v₁ hbuf hop hrefused =>
    rcases hrefused with ⟨deps, locks, g, -, -, -, rfl⟩
    have hknown := (hcalls.active tx (mem_cons_self ..)).1
    rw [hturn rfl]
    refine h.change rfl rfl (fun _ _ => rfl) (fun _ _ => rfl) ?_ (h.access tx)
      (h.ordered tx hknown) (h.complete tx) (by simp) (fun _ => .inr rfl) (by simp)
    intro u rest' heq
    cases heq
    rfl
  | @retryDeadlocked tx rest op ops v' keys hbuf hop hdead _ =>
    rcases hdead with ⟨deps, locks, g, x, db, -, -, -, habort, rfl⟩
    have hknown := (hcalls.active tx (mem_cons_self ..)).1
    rw [hturn rfl]
    refine h.aborted rfl rfl rfl ?_ ?_ (by simp) (by simp) (fun _ _ => rfl)
      (h.ordered tx hknown)
    · intro u rest' heq
      cases heq
      rfl
    · rw [(Transaction.abort_state habort).2]
      decide
  | @reblock tx rest =>
    have hknown := hcalls.reblocked tx (mem_cons_self ..)
    rw [hturn rfl]
    exact h.change rfl rfl (fun _ _ => rfl) (fun _ _ => rfl) (by simp) (h.access tx)
      (h.ordered tx hknown) (h.complete tx) (by simp) (fun _ => .inr rfl) (by simp)

/-! ## Runs -/

theorem orderInv_reachable {r : Session} (h : sessionSystem.ReachableBy
    (fun r a => KnownMode r.config.core.view a) r) :
    OrderInv r.config.core.view r.config.stack r.sent := by
  have hinv : OrderInv r.config.core.view r.config.stack r.sent ∧
      CallsOk r.config.core.view r.config.stack ∧ BuffersOk r.config.core.view := by
    refine h.invariant (fun r => OrderInv r.config.core.view r.config.stack r.sent ∧
      CallsOk r.config.core.view r.config.stack ∧ BuffersOk r.config.core.view) ?_ ?_
    · rintro ⟨c, sent⟩ ⟨⟨disk, rfl⟩, rfl⟩
      refine ⟨⟨?_, ?_, ?_, ?_, ?_, ?_⟩, .nil, ?_⟩
      · intro tx op hop
        cases hop
      · intro tx _
        exact nil_prefix
      · intro tx hstate
        cases hstate
      · intro tx hstatus
        cases hstatus
      · intro tx hstate
        cases hstate
      · intro tx _ hne
        exact absurd rfl hne
      · intro tx op hop
        cases hop
    · rintro r a r' ⟨horder, hcalls, hbuffers⟩ hguard ⟨hnext, hsent⟩
      have hmove := next_moved hnext
      refine ⟨horder.moved hcalls hbuffers ?_ hmove hguard, hcalls.moved hmove,
        hbuffers.moved hmove⟩
      rw [hsent]
      exact sent_sentAfter ..
  exact hinv.1

/-- In every run in which no operation on a table is sent in an unknown mode, the
operations that a transaction has executed are a prefix of those submitted for it, and
all of them once it has committed. -/
theorem executedOps_prefix_submitted {r : Session} (h : sessionSystem.ReachableBy
    (fun r a => KnownMode r.config.core.view a) r) :
    ∀ tx ∈ r.config.core.transactions,
      executedOps tx r.config.core.history <+: r.submitted tx ∧
        ((r.config.core.info tx).transactionStatus = .committed →
          executedOps tx r.config.core.history = r.submitted tx) := by
  intro tx hmem
  have hinv := orderInv_reachable h
  refine ⟨hinv.ordered tx hmem, ?_⟩
  intro hcommitted
  rcases hinv.committed tx hcommitted with ⟨op, ops, hop, hsent⟩
  unfold Session.submitted
  rw [hsent, takeWhile_append_end (hinv.access tx) hop]
  rfl

/-- One action of a session. -/
def sessionNext (r : Session) (a : Action) : Option Session :=
  match r.config.next a with
  | .ok c => some ⟨c, sentAfter r.config.core r.sent a⟩
  | .error _ => none

theorem next_of_sessionNext (r : Session) (a : Action) (r' : Session)
    (h : sessionNext r a = some r') : sessionSystem.Next r a r' := by
  unfold sessionNext at h
  split at h
  case h_1 c hc =>
    cases h
    exact ⟨hc, rfl⟩
  case h_2 => cases h

/-- A session over an empty disk. -/
def Session.init : Session := ⟨.init, fun _ => []⟩

theorem session_init_reachable {G : Session → Action → Prop} :
    sessionSystem.ReachableBy G Session.init :=
  .init ⟨⟨∅, rfl⟩, rfl⟩

/-- A command comes from a transaction in a mode that exists. -/
def sendsKnownMode (r : Session) : Action → Bool
  | .schedule tx _ =>
    (r.config.core.info tx).executionMode = 1 ∨ (r.config.core.info tx).executionMode = 0
  | _ => true

/-- Transaction 1 is blocked by 0, and its update, read and commit are replayed. -/
def replayedRun : List Action :=
  [.command 0 "B 1", .command 1 "B 1", .command 0 "U A 1 6", .command 1 "U A 1 7",
    .command 1 "R A 2", .command 1 "C", .command 0 "C"] ++ List.replicate 6 .turn

theorem executedOps_prefix_submitted_replayedRun :
    ∃ r, sessionSystem.ReachableBy (fun r a => KnownMode r.config.core.view a) r ∧
      (r.submitted 1).length = 2 ∧ executedOps 1 r.config.core.history = r.submitted 1 := by
  have hcheck : ∀ (r : Session) (a : Action), sendsKnownMode r a = true →
      KnownMode r.config.core.view a := by
    rintro r a h tx input op rfl - - - -
    exact of_decide_eq_true h
  have hmeets : TransitionSystem.runMeets sessionNext sendsKnownMode
      (fun r => 1 ∈ r.config.core.transactions ∧
        (r.config.core.info 1).transactionStatus = .committed ∧ (r.submitted 1).length = 2)
      replayedRun Session.init = true := by
    decide +kernel
  rcases TransitionSystem.exists_of_runMeets next_of_sessionNext hcheck session_init_reachable
    hmeets with ⟨r, hreach, h⟩
  rcases of_decide_eq_true h with ⟨hmem, hstatus, hlength⟩
  exact ⟨r, hreach, hlength, (executedOps_prefix_submitted hreach 1 hmem).2 hstatus⟩

/-- Transaction 0 begins in mode 2, reads a record and commits. -/
def unknownModeRun : List Action :=
  [.command 0 "B 2", .command 0 "R A 1", .command 0 "C", .turn, .turn]

/-- It commits without the read. -/
theorem not_executed_unknownModeRun :
    ∃ r, sessionSystem.Reachable r ∧ r.config.stack = [] ∧ 0 ∈ r.config.core.transactions ∧
      (r.config.core.info 0).transactionStatus = .committed ∧
      executedOps 0 r.config.core.history ≠ r.submitted 0 := by
  have hmeets : TransitionSystem.runMeets sessionNext (fun _ _ => true)
      (fun r => r.config.stack.isEmpty ∧ 0 ∈ r.config.core.transactions ∧
        (r.config.core.info 0).transactionStatus = .committed ∧
        executedOps 0 r.config.core.history ≠ r.submitted 0)
      unknownModeRun Session.init = true := by
    decide +kernel
  rcases TransitionSystem.exists_of_runMeets next_of_sessionNext (G := fun _ _ => True)
    (fun _ _ _ => trivial) session_init_reachable hmeets with ⟨r, hreach, h⟩
  rcases of_decide_eq_true h with ⟨hstack, hmem, hstatus, hne⟩
  exact ⟨r, hreach, isEmpty_iff.mp hstack, hmem, hstatus, hne⟩

end Scheduler

end PittCs.Rcdb
