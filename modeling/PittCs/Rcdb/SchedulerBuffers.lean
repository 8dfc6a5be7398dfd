import PittCs.Rcdb.SchedulerSteps

/-!
# The calls in progress

The frames of the machine nest in one way only: a `while` loop of
`tryRunningBlocked` is always the innermost call, since a turn that aborts its
transaction leaves the loop, and it runs for a transaction that has not concluded.
-/

namespace PittCs.Rcdb

open Std PittCs.Lib List

/-- The status says that the transaction has not concluded. -/
def TransactionInfo.Active (i : TransactionInfo) : Prop :=
  i.transactionStatus = .running ∨ i.transactionStatus = .blocked

namespace Scheduler

/-- A call is about known transactions, and a `while` loop about an active one. -/
def FrameOk (v : View) : Frame → Prop
  | .pass keys => ∀ u ∈ keys, v.known u
  | .retry tx => v.known tx ∧ (v.info tx).Active
  | .reblock tx => v.known tx
  | .removeStat _ => True
  | .remaining => True

/-- How the calls in progress nest. -/
structure CallsOk (v : View) (stack : List Frame) : Prop where
  frames : ∀ f ∈ stack, FrameOk v f
  innermost : ∀ tx, .retry tx ∉ stack.tail

namespace CallsOk

variable {v : View} {stack rest : List Frame} {f : Frame} {tx : Int} {i : TransactionInfo}

theorem nil : CallsOk v [] := by
  constructor <;> intros <;> simp_all

theorem active (h : CallsOk v stack) (tx : Int) (htx : .retry tx ∈ stack) :
    v.known tx ∧ (v.info tx).Active :=
  h.frames _ htx

theorem keys (h : CallsOk v stack) (keys : List Int) (hkeys : .pass keys ∈ stack) :
    ∀ u ∈ keys, v.known u :=
  h.frames _ hkeys

theorem reblocked (h : CallsOk v stack) (tx : Int) (htx : .reblock tx ∈ stack) : v.known tx :=
  h.frames _ htx

/-- Only the infos matter. -/
theorem congr {v₁ : View} (h : CallsOk v stack) (hinfo : v₁.info = v.info)
    (hknown : v₁.known = v.known) : CallsOk v₁ stack := by
  refine ⟨?_, h.innermost⟩
  intro f hf
  have hok := h.frames f hf
  cases f with
  | pass keys => exact fun u hu => hknown ▸ hok u hu
  | retry tx => exact ⟨hknown ▸ hok.1, hinfo ▸ hok.2⟩
  | reblock tx =>
    unfold FrameOk
    rw [hknown]
    exact hok
  | removeStat tx | remaining => trivial

/-- A call made by a call that is not a `while` loop. -/
theorem cons (h : CallsOk v rest) (hf : FrameOk v f) (hrest : ∀ tx, .retry tx ∉ rest) :
    CallsOk v (f :: rest) := by
  refine ⟨?_, hrest⟩
  intro f' hf'
  rcases mem_cons.mp hf' with rfl | hmem
  · exact hf
  · exact h.frames f' hmem

theorem tail (h : CallsOk v (f :: rest)) : CallsOk v rest := by
  constructor
  · intro f' hf'
    exact h.frames f' (mem_cons_of_mem _ hf')
  · intro tx htx
    exact h.innermost tx (mem_of_mem_tail htx)

/-- A change of one transaction, which does not conclude it within its own loop. -/
theorem setInfo (h : CallsOk v stack) (hi : .retry tx ∈ stack → i.Active) :
    CallsOk (v.setInfo tx i) stack := by
  refine ⟨?_, h.innermost⟩
  intro f hf
  have hok := h.frames f hf
  cases f with
  | pass keys => exact fun u hu => .inr (hok u hu)
  | retry u =>
    refine ⟨.inr hok.1, ?_⟩
    rw [View.info_setInfo]
    split
    case isTrue heq => exact hi (heq ▸ hf)
    case isFalse => exact hok.2
  | reblock u => exact .inr hok
  | removeStat u | remaining => trivial

theorem passTail {keys : List Int} (h : CallsOk v (.pass (tx :: keys) :: rest)) :
    CallsOk v (.pass keys :: rest) := by
  refine h.tail.cons ?_ h.innermost
  intro u hu
  exact h.keys _ (mem_cons_self ..) u (mem_cons_of_mem _ hu)

/-- A pass takes up its next transaction. -/
theorem takeUp {keys : List Int} (h : CallsOk v (.pass (tx :: keys) :: rest)) (hi : i.Active) :
    CallsOk (v.setInfo tx i) (.retry tx :: .pass keys :: rest) := by
  have hset : CallsOk (v.setInfo tx i) (.pass keys :: rest) := h.passTail.setInfo fun _ => hi
  refine hset.cons ⟨.inl rfl, ?_⟩ ?_
  · rw [View.info_setInfo_self]
    exact hi
  · intro u hu
    exact h.innermost u (mem_of_ne_of_mem (by simp) hu)

end CallsOk

/-- Every step keeps the nesting. -/
theorem CallsOk.moved {v v' : View} {stack stack' : List Frame} {a : Action}
    (h : CallsOk v stack) (hmove : Moved v stack a v' stack') : CallsOk v' stack' := by
  cases hmove with
  | ignored | begin | quitActive | quitDone | buffered | readUnlocked | granted | refused =>
    exact .nil
  | ended _ _ _ _ _ hkeys =>
    exact CallsOk.nil.cons (fun u hu => .inr ((hkeys u).mp hu)) (by simp)
  | @deadlocked tx _ _ _ _ _ _ _ _ _ hdead hkeys =>
    have hrest : CallsOk v' [.removeStat tx] := CallsOk.nil.cons trivial (by simp)
    refine hrest.cons (fun u hu => ?_) (by simp)
    exact (hdead.known u).mpr (.inr ((hkeys u).mp hu))
  | runRemaining => exact CallsOk.nil.cons trivial (by simp)
  | leave | exhausted => exact h.tail
  | again hkeys =>
    refine h.cons (fun u hu => (hkeys u).mp hu) ?_
    intro tx htx
    exact h.innermost tx (mem_of_ne_of_mem (by simp) htx)
  | skip => exact h.passTail
  | unblock => exact h.takeUp (.inl rfl)
  | spin => exact h
  | @retryEnded tx =>
    exact .setInfo (h.tail.congr rfl rfl) fun htx => absurd htx (h.innermost tx)
  | @retryGranted tx _ _ _ _ _ _ hgranted =>
    rcases hgranted with ⟨_, _, _, -, -, rfl⟩
    exact .setInfo (h.congr rfl rfl) fun htx => (h.active tx htx).2
  | retryRefused _ _ hrefused =>
    rcases hrefused with ⟨_, _, _, -, -, -, rfl⟩
    split
    · exact .setInfo (h.tail.congr rfl rfl) fun _ => .inr rfl
    · exact .setInfo (h.congr rfl rfl) fun _ => .inr rfl
  | @retryDeadlocked tx rest _ _ _ _ _ _ hdead hkeys =>
    have hrest : CallsOk v' rest := by
      rcases hdead with ⟨_, _, _, _, _, -, -, -, -, rfl⟩
      exact .setInfo (h.tail.congr rfl rfl) fun htx => absurd htx (h.innermost tx)
    have hnone : ∀ u, .retry u ∉ rest := h.innermost
    have htx : v'.known tx := (hdead.known tx).mpr (.inl rfl)
    have hreblock : CallsOk v' (.reblock tx :: rest) := hrest.cons htx hnone
    have hremove : CallsOk v' (.removeStat tx :: .reblock tx :: rest) :=
      hreblock.cons trivial (by simpa using hnone)
    refine hremove.cons (fun u hu => ?_) (by simpa using hnone)
    exact (hdead.known u).mpr ((hkeys u).mp hu)
  | reblock => exact h.tail.setInfo fun _ => .inr rfl

/-- The operation asks for its locks in this step: it is sent by a running
transaction, or taken from a buffer. -/
def Asks (v : View) (stack : List Frame) (a : Action) (tx : Int) (op : Operation) : Prop :=
  (∃ input, a = .schedule tx input ∧ parse input = .ok op ∧ v.status tx = .running ∧
      ((v.info tx).executionMode = 1 ∨ (v.info tx).executionMode = 0 ∧ isRead op = false)) ∨
    ∃ rest ops, a = .turn ∧ stack = .retry tx :: rest ∧ v.buffer tx = op :: ops

/-- The calls nest so in every run. -/
theorem callsOk_reachable {G : Config → Action → Prop} {c : Config}
    (h : schedulerSystem.ReachableBy G c) : CallsOk c.core.view c.stack := by
  refine h.invariant (fun c => CallsOk c.core.view c.stack) ?_ ?_
  · rintro c ⟨disk, rfl⟩
    exact .nil
  · intro c a c' hinv _ hnext
    exact hinv.moved (next_moved hnext)

end Scheduler

/-!
## The operations in the buffers

Everything that waits in a buffer has come through `parse`, which lets no negative
number and no table name with `_deleted` through. So an operation that is
executed always reaches the `Transaction` object, which must be running.
-/

/-- What `parse` guarantees of an operation on a table. -/
structure Operation.Checked (op : Operation) : Prop where
  coffeeID : 0 ≤ op.coffeeID
  intensity : 0 ≤ op.intensity
  tableName : op.tableName.mentionsDeleted = false

theorem natToken_nonneg {delims : List UInt8} {what : String} {bytes rest : List UInt8} {n : Int}
    (h : natToken delims what bytes = .ok (n, rest)) : 0 ≤ n := by
  unfold natToken at h
  rcases bind_eq_ok.mp h with ⟨⟨value, rest'⟩, -, h⟩
  rcases guard_eq_ok h with ⟨hneg, h⟩
  cases h
  omega

theorem tableToken_checked {bytes rest : List UInt8} {tableName : Str}
    (h : tableToken bytes = .ok (tableName, rest)) : tableName.mentionsDeleted = false := by
  unfold tableToken at h
  rcases bind_eq_ok.mp h with ⟨⟨tb, rest'⟩, -, h⟩
  rcases guard_eq_ok h with ⟨hnot, h⟩
  cases h
  simpa using hnot

theorem parse_checked {input : Str} {op : Operation} (h : parse input = .ok op)
    (hop : Scheduler.isAccess op = true) : op.Checked := by
  unfold parse at h
  split at h
  · cases h
  dsimp only at h
  split at h
  case h_1 =>
    rcases bind_eq_ok.mp h with ⟨⟨tb, _⟩, htable, h⟩
    rcases bind_eq_ok.mp h with ⟨⟨id, _⟩, hid, h⟩
    rcases bind_eq_ok.mp h with ⟨_, -, h⟩
    rcases bind_eq_ok.mp h with ⟨⟨n, _⟩, hn, h⟩
    rcases bind_eq_ok.mp h with ⟨_, -, h⟩
    cases h
    exact ⟨natToken_nonneg hid, natToken_nonneg hn, tableToken_checked htable⟩
  case h_2 =>
    rcases bind_eq_ok.mp h with ⟨⟨tb, _⟩, htable, h⟩
    rcases bind_eq_ok.mp h with ⟨⟨id, _⟩, hid, h⟩
    rcases bind_eq_ok.mp h with ⟨⟨n, _⟩, hn, h⟩
    cases h
    exact ⟨natToken_nonneg hid, natToken_nonneg hn, tableToken_checked htable⟩
  case h_3 =>
    rcases bind_eq_ok.mp h with ⟨⟨tb, _⟩, htable, h⟩
    rcases bind_eq_ok.mp h with ⟨⟨id, _⟩, hid, h⟩
    cases h
    exact ⟨natToken_nonneg hid, Int.le_refl 0, tableToken_checked htable⟩
  case h_4 | h_5 =>
    rcases bind_eq_ok.mp h with ⟨⟨tb, _⟩, htable, h⟩
    cases h
    exact ⟨Int.le_refl 0, Int.le_refl 0, tableToken_checked htable⟩
  case h_6 =>
    rcases bind_eq_ok.mp h with ⟨⟨tb, _⟩, htable, h⟩
    rcases bind_eq_ok.mp h with ⟨_, -, h⟩
    cases h
    exact ⟨Int.le_refl 0, Int.le_refl 0, tableToken_checked htable⟩
  case h_7 =>
    rcases bind_eq_ok.mp h with ⟨⟨tb, _⟩, htable, h⟩
    rcases bind_eq_ok.mp h with ⟨⟨n, _⟩, hn, h⟩
    cases h
    exact ⟨Int.le_refl 0, natToken_nonneg hn, tableToken_checked htable⟩
  case h_8 =>
    -- no other command works on a table
    cases h
    unfold Scheduler.isAccess at hop
    split at hop
    all_goals simp_all

/-- A name with `_deleted` appended is never the name of a table. -/
theorem mentionsDeleted_deletedDir (name : Str) : (deletedDir name).mentionsDeleted = true :=
  decide_eq_true (suffix_append name.chars _).isInfix

namespace Transaction

variable {x x' : Transaction} {db db' : Database} {table : Str}

/-- The checks that open every operation ask for a running transaction. -/
theorem checkTable_state {u : Unit} (h : x.checkTable table = .ok u) : x.state = .running := by
  unfold checkTable at h
  rcases guard_eq_ok h with ⟨hstate, -⟩
  exact not_not.mp hstate

end Transaction

namespace Scheduler

/-- An operation is only executed by a running `Transaction` object. -/
theorem callTransaction_running {tx : Int} {x x' : Transaction} {db db' : Database}
    {op : Operation} (hop : isAccess op = true) (hchecked : op.Checked)
    (h : callTransaction tx x db op = .ok (x', db')) : x.state = .running := by
  unfold callTransaction at h
  unfold isAccess at hop
  cases ht : op.operationType <;> rw [ht] at h hop <;> dsimp only at h
  case insert =>
    rw [if_neg] at h
    · unfold Transaction.insert at h
      rcases bind_eq_ok.mp h with ⟨_, hcheck, -⟩
      exact Transaction.checkTable_state hcheck
    · rintro (hneg | hneg)
      · exact absurd hneg (Int.not_lt.mpr hchecked.coffeeID)
      · exact absurd hneg (Int.not_lt.mpr hchecked.intensity)
  case update | retrieveRecord | retrieveEntireTable | retrieveCoffeeName | count | dropTable =>
    rcases bind_eq_ok.mp h with ⟨_, hcall, -⟩
    rcases bind_eq_ok.mp hcall with ⟨_, hcheck, -⟩
    exact Transaction.checkTable_state hcheck
  all_goals cases hop

/-- Everything in a buffer has come through `parse`. -/
def BuffersOk (v : View) : Prop :=
  ∀ tx, ∀ op ∈ v.buffer tx, isEnd op ∨ isAccess op = true ∧ op.Checked

namespace BuffersOk

variable {v v₁ : View} {tx : Int} {i : TransactionInfo}

theorem setInfo (h : BuffersOk v) (hinfo : v₁.info = v.info)
    (hi : ∀ op ∈ i.operationBuffer, op ∈ v.buffer tx ∨ isEnd op ∨ isAccess op = true ∧ op.Checked) :
    BuffersOk (v₁.setInfo tx i) := by
  intro u op hop
  rw [View.buffer_setInfo] at hop
  split at hop
  · rcases hi op hop with hmem | hok
    · exact h tx op hmem
    · exact hok
  · unfold View.buffer at hop
    rw [hinfo] at hop
    exact h u op hop

end BuffersOk

theorem BuffersOk.moved {v v' : View} {stack stack' : List Frame} {a : Action}
    (h : BuffersOk v) (hmove : Moved v stack a v' stack') : BuffersOk v' := by
  cases hmove with
  | ignored | runRemaining | leave | again | skip | exhausted | spin => exact h
  | begin | ended | retryEnded => exact h.setInfo rfl (by simp)
  | quitActive | quitDone | readUnlocked | unblock | reblock =>
    exact h.setInfo rfl fun op hop => .inl hop
  | buffered hparse hop =>
    refine h.setInfo rfl ?_
    intro op' hop'
    rcases mem_append.mp hop' with hmem | hmem
    · exact .inl hmem
    · rcases mem_singleton.mp hmem with rfl
      exact .inr (hop.imp_right fun hacc => ⟨hacc, parse_checked hparse hacc⟩)
  | granted _ _ _ _ _ hgranted =>
    rcases hgranted with ⟨_, _, _, -, -, rfl⟩
    exact h.setInfo rfl fun op hop => .inl hop
  | refused hparse hop _ _ _ hrefused =>
    rcases hrefused with ⟨_, _, _, -, -, -, rfl⟩
    refine h.setInfo rfl ?_
    intro op' hop'
    rcases mem_append.mp hop' with hmem | hmem
    · exact .inl hmem
    · rcases mem_singleton.mp hmem with rfl
      exact .inr (.inr ⟨hop, parse_checked hparse hop⟩)
  | deadlocked _ _ _ _ _ hdead | retryDeadlocked _ _ hdead =>
    rcases hdead with ⟨_, _, _, _, _, -, -, -, -, rfl⟩
    exact h.setInfo rfl (by simp)
  | retryGranted hbuf _ hgranted =>
    rcases hgranted with ⟨_, _, _, -, -, rfl⟩
    refine h.setInfo rfl fun op hop => .inl ?_
    rw [hbuf]
    exact mem_cons_of_mem _ hop
  | retryRefused _ _ hrefused =>
    rcases hrefused with ⟨_, _, _, -, -, -, rfl⟩
    exact h.setInfo rfl fun op hop => .inl hop

theorem buffersOk_reachable {G : Config → Action → Prop} {c : Config}
    (h : schedulerSystem.ReachableBy G c) : BuffersOk c.core.view := by
  refine h.invariant (fun c => BuffersOk c.core.view) ?_ ?_
  · rintro c ⟨disk, rfl⟩ tx op hop
    cases hop
  · intro c a c' hinv _ hnext
    exact hinv.moved (next_moved hnext)

end Scheduler

end PittCs.Rcdb
