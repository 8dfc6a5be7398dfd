import PittCs.Cs1550.Museum
import PittCs.Lib.Threads

/-!
# What the counters of the museum count

Weights on the places of guides and visitors, and how the sums over all threads change
when one thread moves or is woken. `Counted` relates the shared counters to these sums.
-/

namespace PittCs.Cs1550.Museum

open Lib Lib.Threads

namespace Guide

/-- The guide is in the museum. -/
def inside : Guide → Nat
  | outside | entryWait | entryWoken | gone _ => 0
  | _ => 1

/-- The visitors that the guide has admitted. -/
def served : Guide → Nat
  | outside | entryWait | entryWoken => 0
  | admitting k | visitorWait k | visitorWoken k => k
  | finished k | leaveWait k | leaveWoken k | gone k => k

/-- The visitors for which the guide gives room. -/
def load (x : Guide) : Nat := x.inside * x.served

theorem AtEntry.weights {x : Guide} (h : x.AtEntry) : x.inside = 0 ∧ x.served = 0 ∧ x.load = 0 := by
  rcases h with rfl | rfl <;> exact ⟨rfl, rfl, rfl⟩

theorem AtAdmit.weights {x : Guide} {k : Nat} (h : x.AtAdmit k) :
    x.inside = 1 ∧ x.served = k ∧ x.load = k := by
  rcases h with rfl | rfl <;> exact ⟨rfl, rfl, Nat.one_mul k⟩

theorem AtLeave.weights {x : Guide} {k : Nat} (h : x.AtLeave k) :
    x.inside = 1 ∧ x.served = k ∧ x.load = k := by
  rcases h with rfl | rfl <;> exact ⟨rfl, rfl, Nat.one_mul k⟩

theorem weights_afterAdmit (k : Nat) :
    (afterAdmit k).inside = 1 ∧ (afterAdmit k).served = k ∧ (afterAdmit k).load = k := by
  unfold afterAdmit
  split <;> exact ⟨rfl, rfl, Nat.one_mul k⟩

/-- A guide that is woken stays where it is. -/
structure Still (w : Guide → Nat) : Prop where
  forVisitors : ∀ x : Guide, w x.wakeForVisitors = w x
  toLeave : ∀ x : Guide, w x.wakeToLeave = w x

theorem still_inside : Still inside := ⟨fun x => by cases x <;> rfl, fun x => by cases x <;> rfl⟩

theorem still_served : Still served := ⟨fun x => by cases x <;> rfl, fun x => by cases x <;> rfl⟩

theorem still_load : Still load := ⟨fun x => by cases x <;> rfl, fun x => by cases x <;> rfl⟩

end Guide

namespace Visitor

/-- The visitor waits for a guide. -/
def queued : Visitor → Nat
  | waiting => 1
  | _ => 0

/-- A guide has admitted the visitor. -/
def admitted : Visitor → Nat
  | woken | touring => 1
  | _ => 0

def toured : Visitor → Nat
  | touring => 1
  | _ => 0

def arrived : Visitor → Nat
  | outside => 0
  | _ => 1

theorem toured_le_admitted (x : Visitor) : x.toured ≤ x.admitted := by cases x <;> decide

end Visitor

/-! ## Sums after a move -/

variable {guides visitors : Nat} {s s' : State guides visitors} {g : Fin guides}
  {v : Fin visitors} {k : Nat}

theorem total_setGuide (w : Guide → Nat) (s : State guides visitors) (g : Fin guides) (x : Guide) :
    total w (s.setGuide g x).guide + w (s.guide g) = total w s.guide + w x :=
  total_update w s.guide g x

theorem total_setVisitor (w : Visitor → Nat) (s : State guides visitors) (v : Fin visitors)
    (x : Visitor) : total w (s.setVisitor v x).visitor + w (s.visitor v) = total w s.visitor + w x :=
  total_update w s.visitor v x

/-- The sums over the guides and over the visitors that a step can change. -/
structure Sums where
  inside : Nat
  served : Nat
  load : Nat
  queued : Nat
  admitted : Nat
  arrived : Nat

def sums (s : State guides visitors) : Sums where
  inside := total Guide.inside s.guide
  served := total Guide.served s.guide
  load := total Guide.load s.guide
  queued := total Visitor.queued s.visitor
  admitted := total Visitor.admitted s.visitor
  arrived := total Visitor.arrived s.visitor

/-- The changes that a guide makes by going from `x` to `y`. -/
structure GuideMove (x y : Guide) (a b : Sums) : Prop where
  inside : b.inside + x.inside = a.inside + y.inside
  served : b.served + x.served = a.served + y.served
  load : b.load + x.load = a.load + y.load
  queued : b.queued = a.queued
  admitted : b.admitted = a.admitted
  arrived : b.arrived = a.arrived

/-- The changes that a visitor makes by going from `x` to `y`. -/
structure VisitorMove (x y : Visitor) (a b : Sums) : Prop where
  inside : b.inside = a.inside
  served : b.served = a.served
  load : b.load = a.load
  queued : b.queued + x.queued = a.queued + y.queued
  admitted : b.admitted + x.admitted = a.admitted + y.admitted
  arrived : b.arrived + x.arrived = a.arrived + y.arrived

theorem sums_setGuide (s : State guides visitors) (g : Fin guides) (x : Guide) :
    GuideMove (s.guide g) x (sums s) (sums (s.setGuide g x)) :=
  ⟨total_setGuide _ s g x, total_setGuide _ s g x, total_setGuide _ s g x, rfl, rfl, rfl⟩

theorem sums_setVisitor (s : State guides visitors) (v : Fin visitors) (x : Visitor) :
    VisitorMove (s.visitor v) x (sums s) (sums (s.setVisitor v x)) :=
  ⟨rfl, rfl, rfl, total_setVisitor _ s v x, total_setVisitor _ s v x, total_setVisitor _ s v x⟩

theorem sums_broadcastWaiting (s : State guides visitors) : sums s.broadcastWaiting = sums s := by
  have h1 : total Guide.inside s.broadcastWaiting.guide = total Guide.inside s.guide :=
    total_map Guide.still_inside.forVisitors s.guide
  have h2 : total Guide.served s.broadcastWaiting.guide = total Guide.served s.guide :=
    total_map Guide.still_served.forVisitors s.guide
  have h3 : total Guide.load s.broadcastWaiting.guide = total Guide.load s.guide :=
    total_map Guide.still_load.forVisitors s.guide
  unfold sums
  rw [h1, h2, h3]
  rfl

theorem sums_broadcastLeave (s : State guides visitors) : sums s.broadcastLeave = sums s := by
  have h1 : total Guide.inside s.broadcastLeave.guide = total Guide.inside s.guide :=
    total_map Guide.still_inside.toLeave s.guide
  have h2 : total Guide.served s.broadcastLeave.guide = total Guide.served s.guide :=
    total_map Guide.still_served.toLeave s.guide
  have h3 : total Guide.load s.broadcastLeave.guide = total Guide.load s.guide :=
    total_map Guide.still_load.toLeave s.guide
  unfold sums
  rw [h1, h2, h3]
  rfl

/-- A guide that is woken at the door counts as before. -/
theorem sums_wakeAtDoor (hg : s.guide g = .entryWait) : sums (s.setGuide g .entryWoken) = sums s := by
  have h := sums_setGuide s g .entryWoken
  rw [hg] at h
  obtain ⟨h1, h2, h3, h4, h5, h6⟩ := h
  have h1' := Nat.add_right_cancel h1
  have h2' := Nat.add_right_cancel h2
  have h3' := Nat.add_right_cancel h3
  unfold sums at h1' h2' h3' h4 h5 h6 ⊢
  dsimp only at h1' h2' h3' h4 h5 h6
  rw [h1', h2', h3', h4, h5, h6]

/-! ## The counters -/

/-- The shared counters count what they are named for, and no more visitors are inside
than the guides inside have admitted. `issued` is the number of tickets of the day. -/
structure Counted (issued : Int) (s : State guides visitors) : Prop where
  guides : s.guides_inside = (sums s).inside
  waiting : s.visitors_waiting = (sums s).queued
  inside : s.visitors_inside = (sums s).admitted
  room : (sums s).admitted ≤ (sums s).load
  tickets : s.tickets + (sums s).queued + (sums s).served = issued
  arrivals : s.tickets ≤ 0 ∨ s.tickets + (sums s).arrived = issued
  stock : 0 ≤ s.tickets ∨ (sums s).queued = 0

variable {issued : Int} {t : State guides visitors}

/-- A guide goes on without admitting anyone. It takes its room away only when nobody is
inside. -/
theorem Counted.guideMoves (h : Counted issued s) {x y : Guide}
    (hmove : GuideMove x y (sums s) (sums t)) (hserved : x.served = y.served)
    (hroom : s.visitors_inside ≤ 0 ∨ x.load ≤ y.load)
    (hguides : t.guides_inside + x.inside = s.guides_inside + y.inside)
    (hwaiting : t.visitors_waiting = s.visitors_waiting)
    (hinside : t.visitors_inside = s.visitors_inside) (htickets : t.tickets = s.tickets) :
    Counted issued t := by
  obtain ⟨h1, h2, h3, h4, h5, h6, h7⟩ := h
  obtain ⟨m1, m2, m3, m4, m5, m6⟩ := hmove
  constructor <;> omega

/-- A guide admits a visitor that waits. -/
theorem Counted.admits (h : Counted issued s) {x y : Guide} {u : State guides visitors}
    (hvisitor : VisitorMove .waiting .woken (sums s) (sums u))
    (hguide : GuideMove x y (sums u) (sums t)) (hstay : x.inside = y.inside)
    (hserved : y.served = x.served + 1) (hload : y.load = x.load + 1)
    (hguides : t.guides_inside = s.guides_inside)
    (hwaiting : t.visitors_waiting = s.visitors_waiting - 1)
    (hinside : t.visitors_inside = s.visitors_inside + 1) (htickets : t.tickets = s.tickets) :
    Counted issued t := by
  obtain ⟨h1, h2, h3, h4, h5, h6, h7⟩ := h
  obtain ⟨m1, m2, m3, m4, m5, m6⟩ := hguide
  obtain ⟨n1, n2, n3, n4, n5, n6⟩ := hvisitor
  simp only [Visitor.queued, Visitor.admitted, Visitor.arrived] at n4 n5 n6
  constructor <;> omega

/-- A visitor arrives with a ticket. -/
theorem Counted.ticket (h : Counted issued s)
    (hmove : VisitorMove .outside .waiting (sums s) (sums t)) (hpos : s.tickets > 0)
    (hguides : t.guides_inside = s.guides_inside)
    (hwaiting : t.visitors_waiting = s.visitors_waiting + 1)
    (hinside : t.visitors_inside = s.visitors_inside) (htickets : t.tickets = s.tickets - 1) :
    Counted issued t := by
  obtain ⟨h1, h2, h3, h4, h5, h6, h7⟩ := h
  obtain ⟨n1, n2, n3, n4, n5, n6⟩ := hmove
  simp only [Visitor.queued, Visitor.admitted, Visitor.arrived] at n4 n5 n6
  constructor <;> omega

/-- A visitor goes on that is in no queue. -/
theorem Counted.visitorMoves (h : Counted issued s) {x y : Visitor}
    (hmove : VisitorMove x y (sums s) (sums t)) (hx : x.queued = 0) (hy : y.queued = 0)
    (hless : y.admitted ≤ x.admitted) (harrived : s.tickets ≤ 0 ∨ x.arrived = y.arrived)
    (hguides : t.guides_inside = s.guides_inside)
    (hwaiting : t.visitors_waiting = s.visitors_waiting)
    (hinside : t.visitors_inside + x.admitted = s.visitors_inside + y.admitted)
    (htickets : t.tickets = s.tickets) : Counted issued t := by
  obtain ⟨h1, h2, h3, h4, h5, h6, h7⟩ := h
  obtain ⟨n1, n2, n3, n4, n5, n6⟩ := hmove
  constructor <;> omega

end PittCs.Cs1550.Museum
