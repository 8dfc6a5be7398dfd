import Mathlib.Logic.Function.Basic
import PittCs.Lib.TransitionSystem

/-!
# The semaphore system calls

`cs1550.c` in a kernel whose `long` has 32 bits. A step is a section under a lock or what
a call does before or between its sections: `down` and `up` search the list in one step
and change the semaphore in another, `close` does all it does under the lock of the list.
A task that sleeps takes no step until `up` wakes it.

Semaphores are numbered in the order of their allocation and a number is not used again,
so that a pointer to a freed one is told from a pointer to its successor in memory. The
`log` is a history of what happened to each semaphore; no step reads it.
-/

namespace PittCs.Cs1550.Semaphore

abbrev CLong := BitVec 32

inductive Result where
  | zero
  | id (n : CLong)
  | EINVAL
  | ENOMEM
deriving DecidableEq

/-- Where a task is: in no call, with the result of its last one, or in a call. -/
inductive Phase where
  | user (result : Option Result)
  /-- `create` has stored `next_id` and not yet incremented it. -/
  | numbered (sem : Nat)
  /-- `create` has not yet put the semaphore into the list. -/
  | unlisted (sem : Nat)
  /-- `down` has found the semaphore. -/
  | down (sem : Nat)
  /-- `up` has found the semaphore. -/
  | up (sem : Nat)
  /-- The task is in the queue of the semaphore. -/
  | asleep (sem : Nat)
deriving DecidableEq

structure Sem where
  value : CLong
  sem_id : CLong
  waiting_tasks : List Nat
deriving DecidableEq

inductive Event where
  | created (sem : Nat) (value : CLong)
  /-- A down that did not sleep. -/
  | granted (sem task : Nat)
  | slept (sem task : Nat)
  /-- A down that could not allocate its place in the queue. -/
  | failed (sem task : Nat)
  | raised (sem : Nat) (woken : Option Nat)
  | closed (sem : Nat)
  /-- A section on a semaphore that was freed. -/
  | misused (sem task : Nat)
deriving DecidableEq

structure Kernel where
  sem_list : List Nat
  next_id : CLong
  memory : Nat → Option Sem
  fresh : Nat
  phase : Nat → Phase
  /-- A freed semaphore was written to; nothing is known of what follows. -/
  broken : Bool
  log : List Event

namespace Kernel

def init : Kernel where
  sem_list := []
  next_id := 0
  memory _ := none
  fresh := 0
  phase _ := .user none
  broken := false
  log := []

def become (s : Kernel) (task : Nat) (p : Phase) : Kernel :=
  { s with phase := Function.update s.phase task p }

def store (s : Kernel) (a : Nat) (sem : Sem) : Kernel :=
  { s with memory := Function.update s.memory a (some sem) }

def note (s : Kernel) (e : Event) : Kernel := { s with log := s.log ++ [e] }

/-- The tasks that wait on a semaphore. -/
def waiting (s : Kernel) (a : Nat) : List Nat :=
  match s.memory a with
  | some sem => sem.waiting_tasks
  | none => []

/-- The search that the calls make under the lock of the list. -/
def search (s : Kernel) (sem_id : CLong) : Option Nat :=
  s.sem_list.find? fun a =>
    match s.memory a with
    | some sem => decide (sem.sem_id = sem_id)
    | none => false

/-! ## cs1550_create -/

/-- `allocated`: `kmalloc` has memory. -/
def create (s : Kernel) (task : Nat) (value : CLong) (allocated : Bool) : Kernel :=
  if value.slt 0 then s.become task (.user (some .EINVAL))
  else if allocated then
    let next_sem := s.fresh
    let s := s.store next_sem ⟨value, s.next_id, []⟩
    let s := s.note (.created next_sem value)
    { s with fresh := s.fresh + 1 }.become task (.numbered next_sem)
  else s.become task (.user (some .ENOMEM))

def increment (s : Kernel) (task next_sem : Nat) : Kernel :=
  { s with next_id := s.next_id + 1 }.become task (.unlisted next_sem)

def publish (s : Kernel) (task next_sem : Nat) : Kernel :=
  { s with sem_list := next_sem :: s.sem_list }.become task
    (.user ((s.memory next_sem).map fun (sem : Sem) => .id sem.sem_id))

/-! ## cs1550_down, cs1550_up -/

/-- The first step of `down` and of `up`. -/
def find (s : Kernel) (task : Nat) (sem_id : CLong) (found : Nat → Phase) : Kernel :=
  match s.search sem_id with
  | none => s.become task (.user (some .EINVAL))
  | some a => s.become task (found a)

/-- A section on freed memory. -/
def misuse (s : Kernel) (task a : Nat) : Kernel :=
  { s with broken := true }.note (.misused a task)

def downSection (s : Kernel) (task a : Nat) (allocated : Bool) : Kernel :=
  match s.memory a with
  | none => s.misuse task a
  | some sem =>
    let sem := { sem with value := sem.value - 1 }
    if sem.value.slt 0 then
      if allocated then
        let s := s.store a { sem with waiting_tasks := sem.waiting_tasks ++ [task] }
        (s.note (.slept a task)).become task (.asleep a)
      else
        ((s.store a sem).note (.failed a task)).become task (.user (some .ENOMEM))
    else
      ((s.store a sem).note (.granted a task)).become task (.user (some .zero))

def upSection (s : Kernel) (task a : Nat) : Kernel :=
  match s.memory a with
  | none => s.misuse task a
  | some sem =>
    let sem := { sem with value := sem.value + 1 }
    match sem.waiting_tasks with
    | to_wake :: rest =>
      if sem.value.sle 0 then
        let s := s.store a { sem with waiting_tasks := rest }
        let s := s.become to_wake (.user (some .zero))
        (s.note (.raised a (some to_wake))).become task (.user (some .zero))
      else
        ((s.store a sem).note (.raised a none)).become task (.user (some .zero))
    | [] => ((s.store a sem).note (.raised a none)).become task (.user (some .zero))

/-! ## cs1550_close -/

def close (s : Kernel) (task : Nat) (sem_id : CLong) : Kernel :=
  match s.search sem_id with
  | none => s.become task (.user (some .EINVAL))
  | some a =>
    if s.waiting a = [] then
      let s := { s with
        sem_list := s.sem_list.erase a
        memory := Function.update s.memory a none }
      (s.note (.closed a)).become task (.user (some .zero))
    else s.become task (.user (some .EINVAL))

end Kernel

/-! ## The steps -/

inductive Act where
  | create (value : CLong) (allocated : Bool)
  | increment
  | publish
  | down (sem_id : CLong)
  | downSection (allocated : Bool)
  | up (sem_id : CLong)
  | upSection
  | close (sem_id : CLong)
deriving DecidableEq

/-- A task takes its next step. -/
def next (s : Kernel) (l : Nat × Act) : Option Kernel :=
  if s.broken then none
  else match s.phase l.1, l.2 with
    | .user _, .create value allocated => some (s.create l.1 value allocated)
    | .numbered a, .increment => some (s.increment l.1 a)
    | .unlisted a, .publish => some (s.publish l.1 a)
    | .user _, .down sem_id => some (s.find l.1 sem_id .down)
    | .down a, .downSection allocated => some (s.downSection l.1 a allocated)
    | .user _, .up sem_id => some (s.find l.1 sem_id .up)
    | .up a, .upSection => some (s.upSection l.1 a)
    | .user _, .close sem_id => some (s.close l.1 sem_id)
    | _, _ => none

/-- The calls of all tasks in any order. -/
def kernel : Lib.TransitionSystem Kernel (Nat × Act) where
  Init s := s = .init
  Next s l s' := next s l = some s'

/-- What a step can be. -/
inductive Step (s : Kernel) (task : Nat) : Act → Kernel → Prop where
  | create {r : Option Result} (value : CLong) (allocated : Bool) (h : s.phase task = .user r) :
      Step s task (.create value allocated) (s.create task value allocated)
  | increment {a : Nat} (h : s.phase task = .numbered a) :
      Step s task .increment (s.increment task a)
  | publish {a : Nat} (h : s.phase task = .unlisted a) : Step s task .publish (s.publish task a)
  | down {r : Option Result} (sem_id : CLong) (h : s.phase task = .user r) :
      Step s task (.down sem_id) (s.find task sem_id .down)
  | downSection {a : Nat} (allocated : Bool) (h : s.phase task = .down a) :
      Step s task (.downSection allocated) (s.downSection task a allocated)
  | up {r : Option Result} (sem_id : CLong) (h : s.phase task = .user r) :
      Step s task (.up sem_id) (s.find task sem_id .up)
  | upSection {a : Nat} (h : s.phase task = .up a) :
      Step s task .upSection (s.upSection task a)
  | close {r : Option Result} (sem_id : CLong) (h : s.phase task = .user r) :
      Step s task (.close sem_id) (s.close task sem_id)

theorem step_of_next {s s' : Kernel} {l : Nat × Act} (h : next s l = some s') :
    s.broken = false ∧ Step s l.1 l.2 s' := by
  obtain ⟨task, act⟩ := l
  unfold next at h
  split at h
  · cases h
  case isFalse hb =>
    refine ⟨Bool.eq_false_iff.mpr hb, ?_⟩
    dsimp only at h ⊢
    split at h
    all_goals cases h
    case h_1 hp => exact .create _ _ hp
    case h_2 hp => exact .increment hp
    case h_3 hp => exact .publish hp
    case h_4 hp => exact .down _ hp
    case h_5 hp => exact .downSection _ hp
    case h_6 hp => exact .up _ hp
    case h_7 hp => exact .upSection hp
    case h_8 hp => exact .close _ hp

end PittCs.Cs1550.Semaphore
