import Mathlib.Algebra.Group.Nat.Defs
import Mathlib.Data.Fintype.Basic
import PittCs.Lib.TransitionSystem

/-!
# The museum

`museumsim.c`: guides and visitors are threads that share four counters under one mutex
and wait on four condition variables. A step of a thread is a section under the mutex,
from taking the lock to giving it up, at the end or in `pthread_cond_wait`. A thread that
waits takes no step until it is signalled, and then one from where it waited.

Of the driver, `Driver` has what `guide_enters` and `guide_leaves` do with
`guides_may_enter`.
-/

namespace PittCs.Cs1550.Museum

def VISITORS_PER_GUIDE : Nat := 10

def GUIDES_ALLOWED_INSIDE : Nat := 2

/-- Where a guide is. The number is `visitors_served`. -/
inductive Guide where
  | outside
  /-- On `guide_can_enter`. -/
  | entryWait
  | entryWoken
  | admitting (served : Nat)
  /-- On `visitors_are_waiting`. -/
  | visitorWait (served : Nat)
  | visitorWoken (served : Nat)
  | finished (served : Nat)
  /-- On `guide_can_leave`. -/
  | leaveWait (served : Nat)
  | leaveWoken (served : Nat)
  | gone (served : Nat)
deriving DecidableEq

/-- Where a visitor is. -/
inductive Visitor where
  | outside
  /-- On `visitor_can_enter`. -/
  | waiting
  | woken
  | touring
  | gone
deriving DecidableEq

structure Driver where
  guides_inside : Int
  guides_may_enter : Bool
  /-- `guide_enters` has reported a guide that was not allowed to enter yet. -/
  reported : Bool
deriving DecidableEq

/-- `guides` and `visitors` are the numbers of threads. -/
structure State (guides visitors : Nat) where
  tickets : Int
  guides_inside : Int
  visitors_inside : Int
  visitors_waiting : Int
  guide : Fin guides → Guide
  visitor : Fin visitors → Visitor
  driver : Driver

/-- A value as an `int` has it. -/
def toInt (n : Int) : Int := n.bmod (2 ^ 32)

variable {guides visitors : Nat}

/-- `museum_init`, before any thread has arrived. -/
def museum_init (guides visitors : Nat) : State guides visitors where
  tickets := min (toInt (VISITORS_PER_GUIDE * toInt guides)) (toInt visitors)
  guides_inside := 0
  visitors_inside := 0
  visitors_waiting := 0
  guide _ := .outside
  visitor _ := .outside
  driver := ⟨0, true, false⟩

namespace Driver

def guide_enters (d : Driver) : Driver where
  guides_inside := d.guides_inside + 1
  reported := d.reported || !d.guides_may_enter
  guides_may_enter :=
    if d.guides_inside + 1 = GUIDES_ALLOWED_INSIDE then false else d.guides_may_enter

def guide_leaves (d : Driver) : Driver :=
  { d with
    guides_inside := d.guides_inside - 1
    guides_may_enter := if d.guides_inside - 1 = 0 then true else d.guides_may_enter }

end Driver

/-! ## Condition variables -/

namespace Guide

/-- Woken by a broadcast on `visitors_are_waiting`. -/
def wakeForVisitors : Guide → Guide
  | visitorWait served => visitorWoken served
  | g => g

/-- Woken by a broadcast on `guide_can_leave`. -/
def wakeToLeave : Guide → Guide
  | leaveWait served => leaveWoken served
  | g => g

end Guide

namespace State

variable (s : State guides visitors)

def setGuide (g : Fin guides) (x : Guide) : State guides visitors :=
  { s with guide := Function.update s.guide g x }

def setVisitor (v : Fin visitors) (x : Visitor) : State guides visitors :=
  { s with visitor := Function.update s.visitor v x }

/-- `pthread_cond_broadcast(&shared.visitors_are_waiting)`. -/
def broadcastWaiting : State guides visitors :=
  { s with guide := fun g => (s.guide g).wakeForVisitors }

/-- `pthread_cond_broadcast(&shared.guide_can_leave)`. -/
def broadcastLeave : State guides visitors :=
  { s with guide := fun g => (s.guide g).wakeToLeave }

/-- `pthread_cond_signal(&shared.visitor_can_enter)`: one waiting visitor is woken, if
there is one. -/
def signalVisitor : Option (Fin visitors) → Option (State guides visitors)
  | some v => if s.visitor v = .waiting then some (s.setVisitor v .woken) else none
  | none => if ∃ v, s.visitor v = .waiting then none else some s

/-- `pthread_cond_signal(&shared.guide_can_enter)`. -/
def signalGuide : Option (Fin guides) → Option (State guides visitors)
  | some g => if s.guide g = .entryWait then some (s.setGuide g .entryWoken) else none
  | none => if ∃ g, s.guide g = .entryWait then none else some s

/-! ## visitor -/

def arrive (v : Fin visitors) : State guides visitors :=
  if s.tickets > 0 then
    let s := { s with tickets := s.tickets - 1, visitors_waiting := s.visitors_waiting + 1 }
    s.broadcastWaiting.setVisitor v .waiting
  else s.setVisitor v .gone

/-- After the signal: the condition of the loop. -/
def checkRoom (v : Fin visitors) : State guides visitors :=
  if s.visitors_inside > VISITORS_PER_GUIDE * s.guides_inside then
    s.broadcastWaiting.setVisitor v .waiting
  else s.setVisitor v .touring

def depart (v : Fin visitors) : State guides visitors :=
  let s := { s with visitors_inside := s.visitors_inside - 1 }
  s.broadcastLeave.setVisitor v .gone

/-! ## guide -/

def enter (g : Fin guides) : State guides visitors :=
  if s.guides_inside ≥ GUIDES_ALLOWED_INSIDE then s.setGuide g .entryWait
  else
    let s := { s with driver := s.driver.guide_enters, guides_inside := s.guides_inside + 1 }
    s.setGuide g (.admitting 0)

/-- A turn of the loop that admits visitors, with the test that begins the next one. -/
def admitNext (g : Fin guides) (served : Nat) (signalled : Option (Fin visitors)) :
    Option (State guides visitors) :=
  if s.visitors_waiting ≤ 0 then
    if s.tickets ≤ 0 then some (s.setGuide g (.finished served))
    else some (s.setGuide g (.visitorWait served))
  else
    let s := { s with
      visitors_waiting := s.visitors_waiting - 1
      visitors_inside := s.visitors_inside + 1 }
    (s.signalVisitor signalled).map fun s => s.setGuide g
      (if served + 1 < VISITORS_PER_GUIDE then .admitting (served + 1) else .finished (served + 1))

def leave (g : Fin guides) (served : Nat) (signalled : Option (Fin guides)) :
    Option (State guides visitors) :=
  if s.visitors_inside > 0 then some (s.setGuide g (.leaveWait served))
  else
    let s := { s with driver := s.driver.guide_leaves, guides_inside := s.guides_inside - 1 }
    if s.guides_inside = 0 then
      (s.signalGuide signalled).map fun s => s.broadcastLeave.setGuide g (.gone served)
    else some (s.broadcastLeave.setGuide g (.gone served))

end State

/-! ## The steps -/

/-- A thread takes its next step; the step may signal another thread. -/
inductive Act (guides visitors : Nat) where
  | guide (g : Fin guides) (visitor : Option (Fin visitors)) (guide : Option (Fin guides))
  | visitor (v : Fin visitors)
deriving DecidableEq

def next (s : State guides visitors) : Act guides visitors → Option (State guides visitors)
  | .guide g signalledVisitor signalledGuide =>
    match s.guide g with
    | .outside => some (s.enter g)
    | .entryWoken => some (s.enter g)
    | .admitting served => s.admitNext g served signalledVisitor
    | .visitorWoken served => s.admitNext g served signalledVisitor
    | .finished served => s.leave g served signalledGuide
    | .leaveWoken served => s.leave g served signalledGuide
    | _ => none
  | .visitor v =>
    match s.visitor v with
    | .outside => some (s.arrive v)
    | .woken => some (s.checkRoom v)
    | .touring => some (s.depart v)
    | _ => none

def museum (guides visitors : Nat) :
    Lib.TransitionSystem (State guides visitors) (Act guides visitors) where
  Init s := s = museum_init guides visitors
  Next s l s' := next s l = some s'

/-! ## The branches of a step -/

section

variable (s : State guides visitors)

/-- The counters after a visitor was admitted. -/
def State.countAdmitted : State guides visitors :=
  { s with
    visitors_waiting := s.visitors_waiting - 1
    visitors_inside := s.visitors_inside + 1 }

/-- The counters after a guide has left. -/
def State.countLeft : State guides visitors :=
  { s with driver := s.driver.guide_leaves, guides_inside := s.guides_inside - 1 }

/-- What a guide does after it has admitted its `served`th visitor. -/
def Guide.afterAdmit (served : Nat) : Guide :=
  if served < VISITORS_PER_GUIDE then .admitting served else .finished served

/-- The places from which a guide runs its entry section, and so on. -/
def Guide.AtEntry (x : Guide) : Prop := x = .outside ∨ x = .entryWoken

def Guide.AtAdmit (x : Guide) (served : Nat) : Prop := x = .admitting served ∨ x = .visitorWoken served

def Guide.AtLeave (x : Guide) (served : Nat) : Prop := x = .finished served ∨ x = .leaveWoken served

/-- What a step can do. -/
inductive Step : State guides visitors → Prop where
  | entryFull (g : Fin guides) (hpc : (s.guide g).AtEntry)
      (h : s.guides_inside ≥ GUIDES_ALLOWED_INSIDE) : Step (s.setGuide g .entryWait)
  | enters (g : Fin guides) (hpc : (s.guide g).AtEntry)
      (h : ¬ s.guides_inside ≥ GUIDES_ALLOWED_INSIDE) :
      Step (State.setGuide { s with
        driver := s.driver.guide_enters
        guides_inside := s.guides_inside + 1 } g (.admitting 0))
  | noMore (g : Fin guides) (served : Nat) (hpc : (s.guide g).AtAdmit served)
      (hwaiting : s.visitors_waiting ≤ 0) (htickets : s.tickets ≤ 0) :
      Step (s.setGuide g (.finished served))
  | awaits (g : Fin guides) (served : Nat) (hpc : (s.guide g).AtAdmit served)
      (hwaiting : s.visitors_waiting ≤ 0) (htickets : ¬ s.tickets ≤ 0) :
      Step (s.setGuide g (.visitorWait served))
  | admits (g : Fin guides) (served : Nat) (v : Fin visitors) (hpc : (s.guide g).AtAdmit served)
      (hwaiting : ¬ s.visitors_waiting ≤ 0) (hv : s.visitor v = .waiting) :
      Step ((s.countAdmitted.setVisitor v .woken).setGuide g (.afterAdmit (served + 1)))
  | admitsNobody (g : Fin guides) (served : Nat) (hpc : (s.guide g).AtAdmit served)
      (hwaiting : ¬ s.visitors_waiting ≤ 0) (hv : ∀ v, s.visitor v ≠ .waiting) :
      Step (s.countAdmitted.setGuide g (.afterAdmit (served + 1)))
  | stays (g : Fin guides) (served : Nat) (hpc : (s.guide g).AtLeave served)
      (h : s.visitors_inside > 0) : Step (s.setGuide g (.leaveWait served))
  | leavesNext (g g' : Fin guides) (served : Nat) (hpc : (s.guide g).AtLeave served)
      (h : ¬ s.visitors_inside > 0) (hlast : s.guides_inside - 1 = 0)
      (hg' : s.guide g' = .entryWait) :
      Step ((s.countLeft.setGuide g' .entryWoken).broadcastLeave.setGuide g (.gone served))
  | leavesEmpty (g : Fin guides) (served : Nat) (hpc : (s.guide g).AtLeave served)
      (h : ¬ s.visitors_inside > 0) (hlast : s.guides_inside - 1 = 0)
      (hnone : ∀ g', s.guide g' ≠ .entryWait) :
      Step (s.countLeft.broadcastLeave.setGuide g (.gone served))
  | leavesOther (g : Fin guides) (served : Nat) (hpc : (s.guide g).AtLeave served)
      (h : ¬ s.visitors_inside > 0) (hlast : s.guides_inside - 1 ≠ 0) :
      Step (s.countLeft.broadcastLeave.setGuide g (.gone served))
  | ticket (v : Fin visitors) (hpc : s.visitor v = .outside) (h : s.tickets > 0) :
      Step (State.setVisitor (State.broadcastWaiting { s with
        tickets := s.tickets - 1
        visitors_waiting := s.visitors_waiting + 1 }) v .waiting)
  | noTicket (v : Fin visitors) (hpc : s.visitor v = .outside) (h : ¬ s.tickets > 0) :
      Step (s.setVisitor v .gone)
  | noRoom (v : Fin visitors) (hpc : s.visitor v = .woken)
      (h : s.visitors_inside > VISITORS_PER_GUIDE * s.guides_inside) :
      Step (s.broadcastWaiting.setVisitor v .waiting)
  | tours (v : Fin visitors) (hpc : s.visitor v = .woken)
      (h : ¬ s.visitors_inside > VISITORS_PER_GUIDE * s.guides_inside) :
      Step (s.setVisitor v .touring)
  | departs (v : Fin visitors) (hpc : s.visitor v = .touring) :
      Step (State.setVisitor (State.broadcastLeave { s with
        visitors_inside := s.visitors_inside - 1 }) v .gone)

variable {s} {s' : State guides visitors}

theorem signalVisitor_cases {c : Option (Fin visitors)} (h : s.signalVisitor c = some s') :
    (∃ v, s.visitor v = .waiting ∧ s' = s.setVisitor v .woken) ∨
      ((∀ v, s.visitor v ≠ .waiting) ∧ s' = s) := by
  cases c with
  | some v =>
    simp only [State.signalVisitor] at h
    split at h
    case isTrue hv =>
      cases h
      exact Or.inl ⟨v, hv, rfl⟩
    case isFalse => cases h
  | none =>
    simp only [State.signalVisitor] at h
    split at h
    case isTrue => cases h
    case isFalse hv =>
      cases h
      exact Or.inr ⟨fun v hv' => hv ⟨v, hv'⟩, rfl⟩

theorem signalGuide_cases {c : Option (Fin guides)} (h : s.signalGuide c = some s') :
    (∃ g, s.guide g = .entryWait ∧ s' = s.setGuide g .entryWoken) ∨
      ((∀ g, s.guide g ≠ .entryWait) ∧ s' = s) := by
  cases c with
  | some g =>
    simp only [State.signalGuide] at h
    split at h
    case isTrue hg =>
      cases h
      exact Or.inl ⟨g, hg, rfl⟩
    case isFalse => cases h
  | none =>
    simp only [State.signalGuide] at h
    split at h
    case isTrue => cases h
    case isFalse hg =>
      cases h
      exact Or.inr ⟨fun g hg' => hg ⟨g, hg'⟩, rfl⟩

theorem step_enter {g : Fin guides} (hpc : (s.guide g).AtEntry) : Step s (s.enter g) := by
  unfold State.enter
  split
  case isTrue h => exact .entryFull g hpc h
  case isFalse h => exact .enters g hpc h

theorem step_admit {g : Fin guides} {served : Nat} {signalled : Option (Fin visitors)}
    (hpc : (s.guide g).AtAdmit served) (h : s.admitNext g served signalled = some s') : Step s s' := by
  unfold State.admitNext at h
  split at h
  case isTrue hwaiting =>
    split at h <;> cases h
    case isTrue htickets => exact .noMore g served hpc hwaiting htickets
    case isFalse htickets => exact .awaits g served hpc hwaiting htickets
  case isFalse hwaiting =>
    obtain ⟨t, ht, rfl⟩ := Option.map_eq_some_iff.mp h
    rcases signalVisitor_cases ht with ⟨v, hv, rfl⟩ | ⟨hv, rfl⟩
    · exact .admits g served v hpc hwaiting hv
    · exact .admitsNobody g served hpc hwaiting hv

theorem step_leave {g : Fin guides} {served : Nat} {signalled : Option (Fin guides)}
    (hpc : (s.guide g).AtLeave served) (h : s.leave g served signalled = some s') : Step s s' := by
  unfold State.leave at h
  split at h
  case isTrue hinside =>
    cases h
    exact .stays g served hpc hinside
  case isFalse hinside =>
    dsimp only at h
    split at h
    case isTrue hlast =>
      obtain ⟨t, ht, rfl⟩ := Option.map_eq_some_iff.mp h
      rcases signalGuide_cases ht with ⟨g', hg', rfl⟩ | ⟨hg', rfl⟩
      · exact .leavesNext g g' served hpc hinside hlast hg'
      · exact .leavesEmpty g served hpc hinside hlast hg'
    case isFalse hlast =>
      cases h
      exact .leavesOther g served hpc hinside hlast

theorem step_of_next {l : Act guides visitors} (h : next s l = some s') : Step s s' := by
  cases l with
  | guide g signalledVisitor signalledGuide =>
    unfold next at h
    dsimp only at h
    split at h
    case h_1 hpc =>
      cases h
      exact step_enter (Or.inl hpc)
    case h_2 hpc =>
      cases h
      exact step_enter (Or.inr hpc)
    case h_3 hpc => exact step_admit (Or.inl hpc) h
    case h_4 hpc => exact step_admit (Or.inr hpc) h
    case h_5 hpc => exact step_leave (Or.inl hpc) h
    case h_6 hpc => exact step_leave (Or.inr hpc) h
    case h_7 => cases h
  | visitor v =>
    unfold next at h
    dsimp only at h
    split at h
    case h_1 hpc =>
      cases h
      unfold State.arrive
      split
      case isTrue ht => exact .ticket v hpc ht
      case isFalse ht => exact .noTicket v hpc ht
    case h_2 hpc =>
      cases h
      unfold State.checkRoom
      split
      case isTrue hr => exact .noRoom v hpc hr
      case isFalse hr => exact .tours v hpc hr
    case h_3 hpc =>
      cases h
      exact .departs v hpc
    case h_4 => cases h

end

end PittCs.Cs1550.Museum
