import PittCs.Cs1550.Semaphore

/-!
# The permits of a semaphore

`Tally` is the account of one semaphore, kept from the log: its first value, the ups, the
granted downs, and the tasks that began to wait and that were woken, in order. The value
is what is left of the permits, and below zero it is the number of waiting tasks. A down
that cannot allocate its place in the queue takes the value down and leaves the queue as
it was; from then on an up may find nobody to wake while the value says that there is.
-/

namespace PittCs.Cs1550.Semaphore

open Function List

structure Tally where
  first : Int
  ups : Nat
  granted : Nat
  slept : List Nat
  woken : List Nat

namespace Tally

def zero : Tally := ⟨0, 0, 0, [], []⟩

/-- What an event means for semaphore `a`. A woken task has its down granted. -/
def record (a : Nat) (T : Tally) : Event → Tally
  | .created b value => if b = a then { T with first := value.toInt } else T
  | .granted b _ => if b = a then { T with granted := T.granted + 1 } else T
  | .slept b task => if b = a then { T with slept := T.slept ++ [task] } else T
  | .raised b none => if b = a then { T with ups := T.ups + 1 } else T
  | .raised b (some task) =>
    if b = a then
      { T with ups := T.ups + 1, granted := T.granted + 1, woken := T.woken ++ [task] }
    else T
  | .failed _ _ => T
  | .closed _ => T
  | .misused _ _ => T

end Tally

/-- The account of a semaphore. -/
def tally (a : Nat) (log : List Event) : Tally := log.foldl (Tally.record a) .zero

theorem tally_concat (a : Nat) (log : List Event) (e : Event) :
    tally a (log ++ [e]) = (tally a log).record a e := by
  unfold tally
  rw [foldl_append]
  rfl

/-- The semaphore that an event is about. -/
def Event.sem : Event → Nat
  | .created a _ => a
  | .granted a _ => a
  | .slept a _ => a
  | .failed a _ => a
  | .raised a _ => a
  | .closed a => a
  | .misused a _ => a

theorem Tally.record_of_ne {a : Nat} {e : Event} (h : e.sem ≠ a) (T : Tally) :
    T.record a e = T := by
  cases e with
  | raised b woken => cases woken <;> exact if_neg h
  | created | granted | slept => exact if_neg h
  | failed | closed | misused => rfl

/-! ## The invariant -/

/-- The value and the queue of a semaphore agree with its account. -/
structure Balanced (sem : Sem) (T : Tally) : Prop where
  balance : sem.value.toInt + T.granted + sem.waiting_tasks.length = T.first + T.ups
  queue : (sem.waiting_tasks = [] ∧ 0 ≤ sem.value.toInt) ∨
    sem.value.toInt + sem.waiting_tasks.length = 0
  order : T.slept = T.woken ++ sem.waiting_tasks

/-- What is left of the account of a semaphore that was freed. -/
structure Settled (T : Tally) : Prop where
  bound : (T.granted : Int) ≤ T.first + T.ups
  order : T.slept = T.woken

def Account (s : Kernel) (a : Nat) : Prop :=
  match s.memory a with
  | some sem => Balanced sem (tally a s.log)
  | none => Settled (tally a s.log)

structure Inv (s : Kernel) : Prop where
  account : ∀ a, Account s a
  fresh : ∀ a, s.fresh ≤ a → s.memory a = none ∧ tally a s.log = .zero

theorem Balanced.settled {sem : Sem} {T : Tally} (h : Balanced sem T)
    (hempty : sem.waiting_tasks = []) : Settled T := by
  have hlength : sem.waiting_tasks.length = 0 := by rw [hempty, length_nil]
  have hbalance := h.balance
  have horder := h.order
  rw [hempty, append_nil] at horder
  refine ⟨?_, horder⟩
  rcases h.queue with ⟨-, hq⟩ | hq <;> omega

/-- The account is about the memory at the semaphore and the log, and a step that touches
neither keeps it. -/
theorem Inv.congr {s s' : Kernel} (h : Inv s) (hmemory : s'.memory = s.memory)
    (hfresh : s'.fresh = s.fresh) (hlog : ∀ a, tally a s'.log = tally a s.log) : Inv s' := by
  refine ⟨fun a => ?_, fun a ha => ?_⟩
  · unfold Account
    rw [hmemory, hlog]
    exact h.account a
  · rw [hmemory, hlog]
    exact h.fresh a (hfresh ▸ ha)

/-- One event about the semaphore `a`, whose memory changes with it. -/
theorem Inv.update {s s' : Kernel} (h : Inv s) {a : Nat} {e : Event} (he : e.sem = a)
    (hmemory : ∀ b, b ≠ a → s'.memory b = s.memory b) (hlog : s'.log = s.log ++ [e])
    (hfresh : s.fresh ≤ s'.fresh) (ha : a < s'.fresh) (haccount : Account s' a) : Inv s' := by
  have hother : ∀ b, b ≠ a → tally b s'.log = tally b s.log := by
    intro b hb
    rw [hlog, tally_concat]
    exact Tally.record_of_ne (he.trans_ne hb.symm) _
  refine ⟨fun b => ?_, fun b hb => ?_⟩
  · by_cases hba : b = a
    · rw [hba]
      exact haccount
    · have hb := h.account b
      unfold Account at hb ⊢
      rw [hmemory b hba, hother b hba]
      exact hb
  · have hba : b ≠ a := by omega
    rw [hmemory b hba, hother b hba]
    exact h.fresh b (by omega)

theorem Inv.lt_fresh {s : Kernel} (h : Inv s) {a : Nat} {sem : Sem} (hsem : s.memory a = some sem) :
    a < s.fresh := by
  by_contra hlt
  rw [(h.fresh a (by omega)).1] at hsem
  cases hsem

theorem Inv.balanced {s : Kernel} (h : Inv s) {a : Nat} {sem : Sem}
    (hsem : s.memory a = some sem) : Balanced sem (tally a s.log) := by
  have ha := h.account a
  unfold Account at ha
  rw [hsem] at ha
  exact ha

theorem account_of_balanced {s : Kernel} {a : Nat} {sem : Sem} (hsem : s.memory a = some sem)
    (h : Balanced sem (tally a s.log)) : Account s a := by
  unfold Account
  rw [hsem]
  exact h

/-! ## The steps -/

/-- The condition: the allocation that a sleeping down needs succeeds, and the value stays
in the range of its type. -/
def Sound (s : Kernel) (l : Nat × Act) : Prop :=
  match l.2 with
  | .downSection allocated => ∀ a sem, s.phase l.1 = .down a → s.memory a = some sem →
      sem.value ≠ BitVec.intMin 32 ∧ (sem.value.toInt ≤ 0 → allocated = true)
  | .upSection => ∀ a sem, s.phase l.1 = .up a → s.memory a = some sem →
      sem.value ≠ BitVec.intMax 32
  | _ => True

theorem toInt_sub_one {v : CLong} (h : v ≠ BitVec.intMin 32) : (v - 1).toInt = v.toInt - 1 := by
  have hne : v.toInt ≠ (BitVec.intMin 32).toInt := fun heq => h (BitVec.eq_of_toInt_eq heq)
  have hmin : (BitVec.intMin 32).toInt = -2147483648 := by decide
  have hone : BitVec.toInt (1 : CLong) = 1 := by decide
  have hle := BitVec.le_toInt v
  have hlt := BitVec.toInt_lt (x := v)
  rw [BitVec.toInt_sub, hone, Int.bmod_eq_of_le] <;> omega

theorem toInt_add_one {v : CLong} (h : v ≠ BitVec.intMax 32) : (v + 1).toInt = v.toInt + 1 := by
  have hne : v.toInt ≠ (BitVec.intMax 32).toInt := fun heq => h (BitVec.eq_of_toInt_eq heq)
  have hmax : (BitVec.intMax 32).toInt = 2147483647 := by decide
  have hone : BitVec.toInt (1 : CLong) = 1 := by decide
  have hle := BitVec.le_toInt v
  have hlt := BitVec.toInt_lt (x := v)
  rw [BitVec.toInt_add, hone, Int.bmod_eq_of_le] <;> omega

variable {s s' : Kernel} {task a : Nat} {sem : Sem}

theorem slt_zero_iff (v : CLong) : v.slt 0 = true ↔ v.toInt < 0 := by
  rw [BitVec.slt_iff_toInt_lt]
  rfl

theorem sle_zero_iff (v : CLong) : v.sle 0 = true ↔ v.toInt ≤ 0 := by
  rw [BitVec.sle_iff_toInt_le]
  rfl

theorem Inv.create (h : Inv s) (value : CLong) (allocated : Bool) :
    Inv (s.create task value allocated) := by
  unfold Kernel.create
  split
  · exact h.congr rfl rfl fun _ => rfl
  case isFalse hneg =>
    split
    · -- the account of a new semaphore is opened with its first value
      rw [slt_zero_iff] at hneg
      refine h.update (a := s.fresh) (e := .created s.fresh value) rfl (fun b hb => ?_) rfl
        (Nat.le_succ _) (Nat.lt_succ_self _) ?_
      · exact update_of_ne hb _ _
      · refine account_of_balanced (update_self _ _ _) ?_
        show Balanced _ (tally s.fresh (s.log ++ [.created s.fresh value]))
        rw [tally_concat, (h.fresh s.fresh (Nat.le_refl _)).2, Tally.record, if_pos rfl]
        refine ⟨?_, Or.inl ⟨rfl, Int.not_lt.mp hneg⟩, rfl⟩
        simp [Tally.zero]
    · exact h.congr rfl rfl fun _ => rfl

theorem Inv.find (h : Inv s) (sem_id : CLong) (found : Nat → Phase) :
    Inv (s.find task sem_id found) := by
  unfold Kernel.find
  split <;> exact h.congr rfl rfl fun _ => rfl

theorem Inv.misuse (h : Inv s) : Inv (s.misuse task a) := by
  refine h.congr rfl rfl fun b => ?_
  exact tally_concat b s.log (.misused a task)

theorem Inv.downSection (h : Inv s) {allocated : Bool} (hphase : s.phase task = .down a)
    (hsound : Sound s (task, .downSection allocated)) :
    Inv (s.downSection task a allocated) := by
  unfold Kernel.downSection
  split
  · exact h.misuse
  case h_2 sem hsem =>
    obtain ⟨hmin, halloc⟩ := hsound a sem hphase hsem
    have hb := h.balanced hsem
    have hlt := h.lt_fresh hsem
    have hbalance := hb.balance
    have hqueue := hb.queue
    have hvalue := toInt_sub_one hmin
    dsimp only
    split
    case isTrue hneg =>
      rw [slt_zero_iff] at hneg
      rw [if_pos (halloc (by omega))]
      -- the task joins the queue, and the value counts it
      refine h.update (e := .slept a task) rfl (fun b hb => update_of_ne hb _ _) rfl
        (Nat.le_refl _) hlt (account_of_balanced (update_self _ _ _) ?_)
      show Balanced _ (tally a (s.log ++ [.slept a task]))
      rw [tally_concat, Tally.record, if_pos rfl]
      refine ⟨?_, Or.inr ?_, ?_⟩
      · simp only [hvalue, length_append, length_singleton]
        omega
      · simp only [hvalue, length_append, length_singleton]
        rcases hqueue with ⟨hnil, hq⟩ | hq
        · rw [hnil, length_nil]
          omega
        · omega
      · dsimp only
        rw [hb.order, append_assoc]
    case isFalse hneg =>
      -- a permit is there: nobody waits, and the task has it
      rw [slt_zero_iff] at hneg
      have hnil : sem.waiting_tasks = [] := by
        rcases hqueue with ⟨hnil, -⟩ | hq
        · exact hnil
        · omega
      refine h.update (e := .granted a task) rfl (fun b hb => update_of_ne hb _ _) rfl
        (Nat.le_refl _) hlt (account_of_balanced (update_self _ _ _) ?_)
      show Balanced _ (tally a (s.log ++ [.granted a task]))
      rw [tally_concat, Tally.record, if_pos rfl]
      refine ⟨?_, Or.inl ⟨hnil, ?_⟩, hb.order⟩
      · simp only [hvalue]
        omega
      · simp only [hvalue]
        omega

/-- The value goes up and nobody is woken: nobody waited. -/
theorem Inv.raised_none (h : Inv s) (hsem : s.memory a = some sem)
    (hmax : sem.value ≠ BitVec.intMax 32) (hnil : sem.waiting_tasks = []) (p : Phase) :
    Inv (((s.store a { sem with value := sem.value + 1 }).note (.raised a none)).become task p) := by
  have hb := h.balanced hsem
  have hbalance := hb.balance
  have hqueue := hb.queue
  have hvalue := toInt_add_one hmax
  refine h.update (e := .raised a none) rfl (fun b hb => update_of_ne hb _ _) rfl
    (Nat.le_refl _) (h.lt_fresh hsem) (account_of_balanced (update_self _ _ _) ?_)
  show Balanced _ (tally a (s.log ++ [.raised a none]))
  rw [tally_concat, Tally.record, if_pos rfl]
  refine ⟨?_, Or.inl ⟨hnil, ?_⟩, hb.order⟩
  · simp only [hvalue]
    omega
  · simp only [hvalue]
    rcases hqueue with ⟨-, hq⟩ | hq
    · omega
    · rw [hnil, length_nil] at hq
      omega

theorem Inv.upSection (h : Inv s) (hphase : s.phase task = .up a)
    (hsound : Sound s (task, .upSection)) : Inv (s.upSection task a) := by
  unfold Kernel.upSection
  split
  · exact h.misuse
  case h_2 sem hsem =>
    have hmax := hsound a sem hphase hsem
    have hb := h.balanced hsem
    have hbalance := hb.balance
    have hvalue := toInt_add_one hmax
    dsimp only
    split
    case h_1 to_wake rest hq =>
      -- the value is minus the number of waiting tasks, so the first of them is woken
      have hqueue : sem.value.toInt + sem.waiting_tasks.length = 0 := by
        rcases hb.queue with ⟨hnil, -⟩ | hqueue
        · rw [hnil] at hq
          cases hq
        · exact hqueue
      rw [hq, length_cons] at hqueue hbalance
      have hle : (sem.value + 1).sle 0 = true := by
        rw [sle_zero_iff]
        omega
      rw [if_pos hle]
      refine h.update (e := .raised a (some to_wake)) rfl
        (fun b hb => update_of_ne hb _ _) rfl (Nat.le_refl _) (h.lt_fresh hsem)
        (account_of_balanced (update_self _ _ _) ?_)
      show Balanced _ (tally a (s.log ++ [.raised a (some to_wake)]))
      rw [tally_concat, Tally.record, if_pos rfl]
      refine ⟨?_, Or.inr ?_, ?_⟩
      · simp only [hvalue]
        omega
      · simp only [hvalue]
        omega
      · dsimp only
        rw [hb.order, hq, append_assoc]
        rfl
    case h_2 hnil => exact h.raised_none hsem hmax hnil _

theorem Inv.close (h : Inv s) (sem_id : CLong) : Inv (s.close task sem_id) := by
  unfold Kernel.close
  split
  · exact h.congr rfl rfl fun _ => rfl
  case h_2 a ha =>
    split
    case isTrue hempty =>
      cases hsem : s.memory a with
      | none =>
        refine h.congr ?_ rfl fun b => tally_concat b s.log (.closed a)
        show Function.update s.memory a none = s.memory
        rw [← hsem, update_eq_self]
      | some sem =>
        -- nobody waits, so the account is settled
        unfold Kernel.waiting at hempty
        rw [hsem] at hempty
        refine h.update (e := .closed a) rfl (fun b hb => update_of_ne hb _ _) rfl
          (Nat.le_refl _) (h.lt_fresh hsem) ?_
        have hnone : Function.update s.memory a none a = none := update_self _ _ _
        show Account _ a
        unfold Account
        show (match Function.update s.memory a none a with
          | some sem => Balanced sem (tally a (s.log ++ [.closed a]))
          | none => Settled (tally a (s.log ++ [.closed a])))
        rw [hnone, tally_concat]
        exact (h.balanced hsem).settled hempty
    · exact h.congr rfl rfl fun _ => rfl

theorem Inv.next (h : Inv s) {l : Nat × Act} (hsound : Sound s l) (hnext : next s l = some s') :
    Inv s' := by
  obtain ⟨-, hstep⟩ := step_of_next hnext
  obtain ⟨task, act⟩ := l
  dsimp only at hstep
  cases hstep with
  | create value allocated _ => exact h.create value allocated
  | increment _ | publish _ => exact h.congr rfl rfl fun _ => rfl
  | down sem_id _ | up sem_id _ => exact h.find sem_id _
  | downSection allocated hphase => exact h.downSection hphase hsound
  | upSection hphase => exact h.upSection hphase hsound
  | close sem_id _ => exact h.close sem_id

theorem inv_init : Inv .init :=
  ⟨fun _ => ⟨Int.le_refl _, rfl⟩, fun _ _ => ⟨rfl, rfl⟩⟩

/-! ## The result -/

/-- What a semaphore promises. -/
structure Promise (s : Kernel) (a : Nat) : Prop where
  bound : ((tally a s.log).granted : Int) ≤ (tally a s.log).first + (tally a s.log).ups
  noneLost : s.waiting a ≠ [] →
    ((tally a s.log).granted : Int) = (tally a s.log).first + (tally a s.log).ups
  order : (tally a s.log).slept = (tally a s.log).woken ++ s.waiting a

theorem Inv.promise (h : Inv s) (a : Nat) : Promise s a := by
  have ha := h.account a
  unfold Account at ha
  cases hsem : s.memory a with
  | none =>
    rw [hsem] at ha
    refine ⟨ha.bound, fun hne => ?_, ?_⟩
    · rw [Kernel.waiting, hsem] at hne
      exact absurd rfl hne
    · rw [Kernel.waiting, hsem, append_nil]
      exact ha.order
  | some sem =>
    rw [hsem] at ha
    have hbalance := ha.balance
    have hqueue := ha.queue
    refine ⟨?_, fun hne => ?_, ?_⟩
    · rcases hqueue with ⟨-, hq⟩ | hq <;> omega
    · rw [Kernel.waiting, hsem] at hne
      rcases hqueue with ⟨hnil, -⟩ | hq
      · exact absurd hnil hne
      · omega
    · rw [Kernel.waiting, hsem]
      exact ha.order

/-- In every run whose sleeping downs get their memory and whose values stay in range, no
permit is granted twice, none is lost while a task waits, and the tasks that wait are
granted in their order. -/
theorem permits (h : kernel.ReachableBy Sound s) (a : Nat) : Promise s a := by
  have hinv : Inv s := h.invariant Inv
    (fun s hs => by
      rw [show s = .init from hs]
      exact inv_init)
    fun s l s' hs hsound hnext => hs.next hsound hnext
  exact hinv.promise a

/-- `Sound`, computed. -/
def soundCheck (s : Kernel) (l : Nat × Act) : Bool :=
  match l.2, s.phase l.1 with
  | .downSection allocated, .down a => (s.memory a).all fun sem =>
    decide (sem.value ≠ BitVec.intMin 32) && (allocated || decide (0 < sem.value.toInt))
  | .upSection, .up a => (s.memory a).all fun sem => decide (sem.value ≠ BitVec.intMax 32)
  | _, _ => true

theorem sound_of_check {l : Nat × Act} (h : soundCheck s l = true) : Sound s l := by
  obtain ⟨task, act⟩ := l
  unfold soundCheck at h
  cases act with
  | downSection allocated =>
    intro a sem hphase hsem
    dsimp only at h hphase
    rw [hphase] at h
    dsimp only at h
    rw [hsem, Option.all_some, Bool.and_eq_true, decide_eq_true_iff, Bool.or_eq_true,
      decide_eq_true_iff] at h
    refine ⟨h.1, fun hle => ?_⟩
    exact h.2.resolve_right (by omega)
  | upSection =>
    intro a sem hphase hsem
    dsimp only at h hphase
    rw [hphase] at h
    dsimp only at h
    rw [hsem, Option.all_some, decide_eq_true_iff] at h
    exact h
  | create | increment | publish | down | up | close => trivial

/-- Two tasks wait for the first one, and its up wakes the one that slept first. -/
theorem permits_two : ∃ s, kernel.ReachableBy Sound s ∧ s.waiting 0 = [1] ∧ Promise s 0 := by
  have hmeets : Lib.TransitionSystem.runMeets next soundCheck
      (fun s => decide (s.waiting 0 = [1]))
      [(0, .create 1 true), (0, .increment), (0, .publish), (0, .down 0), (1, .down 0),
        (2, .down 0), (0, .downSection true), (2, .downSection true), (1, .downSection true),
        (0, .up 0), (0, .upSection)] .init = true := by decide +kernel
  obtain ⟨s, hs, hwaiting⟩ := Lib.TransitionSystem.exists_of_runMeets (S := kernel)
    (fun _ _ _ h => h) (fun _ _ h => sound_of_check h) (.init rfl) hmeets
  exact ⟨s, hs, of_decide_eq_true hwaiting, permits hs 0⟩

/-- A down fails to allocate its place in the queue. The up that follows wakes nobody, and
the next down sleeps although its permit is there. -/
theorem not_permits : ∃ s, kernel.Reachable s ∧ ¬ Promise s 0 := by
  have hmeets : Lib.TransitionSystem.runMeets next (fun _ _ => true)
      (fun s => decide (s.waiting 0 ≠ [] ∧
        ((tally 0 s.log).granted : Int) ≠ (tally 0 s.log).first + (tally 0 s.log).ups))
      [(0, .create 0 true), (0, .increment), (0, .publish), (0, .down 0),
        (0, .downSection false), (0, .up 0), (0, .upSection), (1, .down 0), (1, .downSection true)]
      .init = true := by decide +kernel
  obtain ⟨s, hs, hlost⟩ := Lib.TransitionSystem.exists_of_runMeets (S := kernel)
    (fun _ _ _ h => h) (fun _ _ _ => trivial) (.init rfl) hmeets
  obtain ⟨hne, hneq⟩ := of_decide_eq_true hlost
  exact ⟨s, hs, fun h => hneq (h.noneLost hne)⟩

end PittCs.Cs1550.Semaphore
