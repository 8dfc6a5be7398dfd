import PittCs.Cs1550.MuseumCounts

/-!
# The museum is safe

`Safe` adds to the counters what each guide knows of itself: how many visitors it may have
admitted, and why it has stopped admitting. The room for the visitors inside follows, since
a guide takes its own admissions away only when nobody is inside.
-/

namespace PittCs.Cs1550.Museum

open Lib Lib.Threads Function

variable {guides visitors : Nat} {s s' : State guides visitors} {g : Fin guides}
  {issued : Int} {k : Nat}

namespace Guide

/-- The guide has admitted no more visitors than it may, and fewer while it admits. -/
def Bounded : Guide → Prop
  | outside | entryWait | entryWoken => True
  | admitting k | visitorWait k | visitorWoken k => k < VISITORS_PER_GUIDE
  | finished k | leaveWait k | leaveWoken k | gone k => k ≤ VISITORS_PER_GUIDE

/-- A guide that admits no more has admitted all it may, or there is nobody to come. -/
def Spent (closed : Prop) : Guide → Prop
  | finished k | leaveWait k | leaveWoken k | gone k => k = VISITORS_PER_GUIDE ∨ closed
  | _ => True

theorem Bounded.served_le {x : Guide} (h : x.Bounded) : x.served ≤ VISITORS_PER_GUIDE := by
  cases x with
  | outside | entryWait | entryWoken => exact Nat.zero_le _
  | admitting | visitorWait | visitorWoken => exact Nat.le_of_lt h
  | finished | leaveWait | leaveWoken | gone => exact h

theorem Bounded.load_le {x : Guide} (h : x.Bounded) : x.load ≤ VISITORS_PER_GUIDE * x.inside := by
  unfold load
  rw [Nat.mul_comm]
  exact Nat.mul_le_mul_right _ h.served_le

theorem Spent.mono {p q : Prop} (hpq : p → q) {x : Guide} (h : x.Spent p) : x.Spent q := by
  cases x with
  | finished | leaveWait | leaveWoken | gone => exact Or.imp_right hpq h
  | outside | entryWait | entryWoken | admitting | visitorWait | visitorWoken => trivial

theorem AtAdmit.lt {x : Guide} (h : x.AtAdmit k) (hb : x.Bounded) : k < VISITORS_PER_GUIDE := by
  rcases h with rfl | rfl <;> exact hb

theorem AtLeave.spent {x : Guide} (h : x.AtLeave k) {p : Prop} (hs : x.Spent p) :
    k = VISITORS_PER_GUIDE ∨ p := by
  rcases h with rfl | rfl <;> exact hs

theorem AtLeave.le {x : Guide} (h : x.AtLeave k) (hb : x.Bounded) : k ≤ VISITORS_PER_GUIDE := by
  rcases h with rfl | rfl <;> exact hb

theorem AtLeave.wakeToLeave {x : Guide} (h : x.AtLeave k) : x.wakeToLeave = x := by
  rcases h with rfl | rfl <;> rfl

end Guide

/-! ## One guide in a step -/

/-- Nobody comes any more. -/
def Closed (s : State guides visitors) : Prop := s.tickets ≤ 0 ∧ s.visitors_waiting ≤ 0

theorem Closed.step (h : Closed s) (hstep : Step s s') : Closed s' := by
  cases hstep with
  | ticket v hpc hpos => exact absurd hpos (Int.not_lt.mpr h.1)
  | admits g k v hpc hwaiting hv | admitsNobody g k hpc hwaiting hv => exact absurd h.2 hwaiting
  | entryFull | enters | noMore | awaits | stays | leavesNext | leavesEmpty | leavesOther =>
    exact h
  | noTicket | noRoom | tours | departs => exact h

/-- Where a step of some thread takes a guide. -/
inductive Goes (s : State guides visitors) : Guide → Guide → Prop where
  | same (x : Guide) : Goes s x x
  | wakesForVisitors (x : Guide) : Goes s x x.wakeForVisitors
  | wakesToLeave (x : Guide) : Goes s x x.wakeToLeave
  | wakesAtDoor : Goes s .entryWait .entryWoken
  | waits {x : Guide} (hpc : x.AtEntry) (h : s.guides_inside ≥ GUIDES_ALLOWED_INSIDE) :
      Goes s x .entryWait
  | enters {x : Guide} (hpc : x.AtEntry) (h : ¬ s.guides_inside ≥ GUIDES_ALLOWED_INSIDE) :
      Goes s x (.admitting 0)
  | finishes {x : Guide} {k : Nat} (hpc : x.AtAdmit k) (h : Closed s) : Goes s x (.finished k)
  | awaits {x : Guide} {k : Nat} (hpc : x.AtAdmit k) (h : ¬ s.tickets ≤ 0) :
      Goes s x (.visitorWait k)
  | admits {x : Guide} {k : Nat} (hpc : x.AtAdmit k) : Goes s x (.afterAdmit (k + 1))
  | stays {x : Guide} {k : Nat} (hpc : x.AtLeave k) (h : s.visitors_inside > 0) :
      Goes s x (.leaveWait k)
  | leaves {x : Guide} {k : Nat} (hpc : x.AtLeave k) (h : ¬ s.visitors_inside > 0) :
      Goes s x (.gone k)

/-- One guide moves after the others may have been woken. -/
theorem goes_setGuide {t : State guides visitors} {x : Guide} (h : ∀ g, Goes s (s.guide g) (t.guide g))
    (g : Fin guides) (hx : Goes s (s.guide g) x) (g' : Fin guides) :
    Goes s (s.guide g') ((t.setGuide g x).guide g') := by
  show Goes s (s.guide g') (Function.update t.guide g x g')
  rw [update_apply]
  split
  case isTrue heq =>
    rw [heq]
    exact hx
  · exact h g'

theorem goes_of_step (hstep : Step s s') (g' : Fin guides) : Goes s (s.guide g') (s'.guide g') := by
  have hsame : ∀ g, Goes s (s.guide g) (s.guide g) := fun g => .same _
  cases hstep with
  | entryFull g hpc hfull => exact goes_setGuide hsame g (.waits hpc hfull) g'
  | enters g hpc hroom => exact goes_setGuide (t := { s with
      driver := s.driver.guide_enters
      guides_inside := s.guides_inside + 1 }) hsame g (.enters hpc hroom) g'
  | noMore g k hpc hwaiting htickets =>
    exact goes_setGuide hsame g (.finishes hpc ⟨htickets, hwaiting⟩) g'
  | awaits g k hpc hwaiting htickets => exact goes_setGuide hsame g (.awaits hpc htickets) g'
  | admits g k v hpc hwaiting hv =>
    exact goes_setGuide (t := s.countAdmitted.setVisitor v .woken) hsame g (.admits hpc) g'
  | admitsNobody g k hpc hwaiting hv =>
    exact goes_setGuide (t := s.countAdmitted) hsame g (.admits hpc) g'
  | stays g k hpc hinside => exact goes_setGuide hsame g (.stays hpc hinside) g'
  | leavesNext g g₁ k hpc hinside hlast hg₁ =>
    refine goes_setGuide (t := (s.countLeft.setGuide g₁ .entryWoken).broadcastLeave)
      (fun g => ?_) g (.leaves hpc hinside) g'
    show Goes s (s.guide g) (Function.update s.guide g₁ Guide.entryWoken g).wakeToLeave
    rw [update_apply]
    split
    case isTrue heq =>
      rw [heq, hg₁]
      exact .wakesAtDoor
    · exact .wakesToLeave _
  | leavesEmpty g k hpc hinside hlast hnone | leavesOther g k hpc hinside hlast =>
    exact goes_setGuide (s := s) (t := s.countLeft.broadcastLeave) (fun g => .wakesToLeave _) g
      (.leaves hpc hinside) g'
  | ticket v hpc hpos | noRoom v hpc hfull => exact .wakesForVisitors _
  | noTicket v hpc hnone | tours v hpc hroom => exact .same _
  | departs v hpc => exact .wakesToLeave _

theorem Goes.bounded {x y : Guide} (h : Goes s x y) (hx : x.Bounded) : y.Bounded := by
  cases h with
  | same => exact hx
  | wakesForVisitors | wakesToLeave => cases x <;> exact hx
  | wakesAtDoor | waits => trivial
  | enters => exact (show 0 < VISITORS_PER_GUIDE by decide)
  | finishes hpc => exact Nat.le_of_lt (hpc.lt hx)
  | awaits hpc => exact hpc.lt hx
  | @admits _ k hpc =>
    have hlt := hpc.lt hx
    unfold Guide.afterAdmit
    split
    case isTrue hless => exact hless
    · exact hlt
  | stays hpc | leaves hpc => exact hpc.le hx

theorem Goes.spent {x y : Guide} (h : Goes s x y) (hb : x.Bounded) (hx : x.Spent (Closed s)) :
    y.Spent (Closed s) := by
  cases h with
  | same => exact hx
  | wakesForVisitors | wakesToLeave => cases x <;> exact hx
  | wakesAtDoor | waits | enters | awaits => trivial
  | finishes hpc hclosed => exact Or.inr hclosed
  | @admits _ k hpc =>
    have hlt := hpc.lt hb
    unfold Guide.afterAdmit
    split
    · trivial
    case isFalse hnot => exact Or.inl (by omega)
  | stays hpc | leaves hpc => exact hpc.spent hx

/-! ## The invariant -/

structure Safe (issued : Int) (s : State guides visitors) : Prop where
  counted : Counted issued s
  atMost : s.guides_inside ≤ GUIDES_ALLOWED_INSIDE
  bounded : ∀ g, (s.guide g).Bounded
  spent : ∀ g, (s.guide g).Spent (Closed s)

/-- The visitors inside are at most ten for each guide inside. -/
theorem Safe.admitted_le (h : Safe issued s) :
    (sums s).admitted ≤ VISITORS_PER_GUIDE * (sums s).inside := by
  refine h.counted.room.trans ?_
  exact total_le_mul fun g => (h.bounded g).load_le

/-- The test of a woken visitor never sends it back. -/
theorem Safe.room (h : Safe issued s) :
    ¬ s.visitors_inside > VISITORS_PER_GUIDE * s.guides_inside := by
  have hle := h.admitted_le
  have hguides := h.counted.guides
  have hinside := h.counted.inside
  unfold VISITORS_PER_GUIDE at hle ⊢
  omega

/-- While the counter says that visitors wait, one does. -/
theorem Safe.exists_waiting (h : Safe issued s) (hwaiting : ¬ s.visitors_waiting ≤ 0) :
    ∃ v, s.visitor v = .waiting := by
  have hcount := h.counted.waiting
  have hpos : 0 < total Visitor.queued s.visitor := by
    show 0 < (sums s).queued
    omega
  obtain ⟨v, hv⟩ := exists_of_total_pos hpos
  refine ⟨v, ?_⟩
  cases hx : s.visitor v with
  | waiting => rfl
  | outside | woken | touring | gone =>
    rw [hx] at hv
    cases hv

theorem Safe.counted_step (h : Safe issued s) (hstep : Step s s') : Counted issued s' := by
  have hc := h.counted
  cases hstep with
  | entryFull g hpc hfull =>
    obtain ⟨w1, w2, w3⟩ := hpc.weights
    refine hc.guideMoves (sums_setGuide s g .entryWait) w2 (Or.inr ?_) ?_ rfl rfl rfl
    · rw [w3]
      exact Nat.zero_le _
    · rw [w1]
      rfl
  | enters g hpc hroom =>
    obtain ⟨w1, w2, w3⟩ := hpc.weights
    refine hc.guideMoves (x := s.guide g) (y := .admitting 0) ?_ w2 (Or.inr ?_) ?_ rfl rfl rfl
    · exact sums_setGuide { s with
        driver := s.driver.guide_enters
        guides_inside := s.guides_inside + 1 } g (.admitting 0)
    · rw [w3]
      exact Nat.zero_le _
    · rw [w1]
      show s.guides_inside + 1 + 0 = s.guides_inside + 1
      omega
  | noMore g k hpc hwaiting htickets =>
    obtain ⟨w1, w2, w3⟩ := hpc.weights
    refine hc.guideMoves (sums_setGuide s g (.finished k)) w2 (Or.inr ?_) ?_ rfl rfl rfl
    · rw [w3]
      exact Nat.le_of_eq (Nat.one_mul k).symm
    · rw [w1]
      rfl
  | awaits g k hpc hwaiting htickets =>
    obtain ⟨w1, w2, w3⟩ := hpc.weights
    refine hc.guideMoves (sums_setGuide s g (.visitorWait k)) w2 (Or.inr ?_) ?_ rfl rfl rfl
    · rw [w3]
      exact Nat.le_of_eq (Nat.one_mul k).symm
    · rw [w1]
      rfl
  | admits g k v hpc hwaiting hv =>
    obtain ⟨w1, w2, w3⟩ := hpc.weights
    obtain ⟨y1, y2, y3⟩ := Guide.weights_afterAdmit (k + 1)
    have hvisitor := sums_setVisitor s.countAdmitted v .woken
    rw [show s.countAdmitted.visitor v = .waiting from hv] at hvisitor
    refine hc.admits (x := s.guide g) hvisitor
      (sums_setGuide (s.countAdmitted.setVisitor v .woken) g (.afterAdmit (k + 1))) ?_ ?_ ?_
      rfl rfl rfl rfl
    · rw [w1, y1]
    · rw [w2, y2]
    · rw [w3, y3]
  | admitsNobody g k hpc hwaiting hv =>
    obtain ⟨v, hv'⟩ := h.exists_waiting hwaiting
    exact absurd hv' (hv v)
  | stays g k hpc hinside =>
    obtain ⟨w1, w2, w3⟩ := hpc.weights
    refine hc.guideMoves (sums_setGuide s g (.leaveWait k)) w2 (Or.inr ?_) ?_ rfl rfl rfl
    · rw [w3]
      exact Nat.le_of_eq (Nat.one_mul k).symm
    · rw [w1]
      rfl
  | leavesNext g g' k hpc hinside hlast hg' =>
    obtain ⟨w1, w2, w3⟩ := hpc.weights
    have hne : g ≠ g' := by
      rintro rfl
      rcases hpc with hpc | hpc <;> rw [hg'] at hpc <;> cases hpc
    -- the guide that leaves is not the one that is woken
    have hsame : (s.countLeft.setGuide g' .entryWoken).broadcastLeave.guide g = s.guide g := by
      show (Function.update s.guide g' Guide.entryWoken g).wakeToLeave = s.guide g
      rw [update_of_ne hne]
      exact hpc.wakeToLeave
    have hmove := sums_setGuide (s.countLeft.setGuide g' .entryWoken).broadcastLeave g (.gone k)
    rw [sums_broadcastLeave, sums_wakeAtDoor (s := s.countLeft) hg', hsame] at hmove
    refine hc.guideMoves hmove w2 (Or.inl (Int.not_lt.mp hinside)) ?_ rfl rfl rfl
    rw [w1]
    show s.guides_inside - 1 + 1 = s.guides_inside + 0
    omega
  | leavesEmpty g k hpc hinside hlast hnone | leavesOther g k hpc hinside hlast =>
    obtain ⟨w1, w2, w3⟩ := hpc.weights
    have hmove := sums_setGuide s.countLeft.broadcastLeave g (.gone k)
    rw [sums_broadcastLeave, show s.countLeft.broadcastLeave.guide g = s.guide g from
      hpc.wakeToLeave] at hmove
    refine hc.guideMoves hmove w2 (Or.inl (Int.not_lt.mp hinside)) ?_ rfl rfl rfl
    rw [w1]
    show s.guides_inside - 1 + 1 = s.guides_inside + 0
    omega
  | ticket v hpc hpos =>
    have hmove := sums_setVisitor (State.broadcastWaiting { s with
      tickets := s.tickets - 1
      visitors_waiting := s.visitors_waiting + 1 }) v .waiting
    rw [sums_broadcastWaiting, show (State.broadcastWaiting { s with
      tickets := s.tickets - 1
      visitors_waiting := s.visitors_waiting + 1 }).visitor v = .outside from hpc] at hmove
    exact hc.ticket hmove hpos rfl rfl rfl rfl
  | noTicket v hpc hnone =>
    have hmove := sums_setVisitor s v .gone
    rw [hpc] at hmove
    exact hc.visitorMoves hmove rfl rfl (Nat.le_refl _) (Or.inl (Int.not_lt.mp hnone)) rfl rfl
      rfl rfl
  | noRoom v hpc hfull => exact absurd hfull h.room
  | tours v hpc hroom =>
    have hmove := sums_setVisitor s v .touring
    rw [hpc] at hmove
    exact hc.visitorMoves hmove rfl rfl (Nat.le_refl _) (Or.inr rfl) rfl rfl rfl rfl
  | departs v hpc =>
    have hmove := sums_setVisitor (State.broadcastLeave { s with
      visitors_inside := s.visitors_inside - 1 }) v .gone
    rw [sums_broadcastLeave, show (State.broadcastLeave { s with
      visitors_inside := s.visitors_inside - 1 }).visitor v = .touring from hpc] at hmove
    refine hc.visitorMoves hmove rfl rfl (Nat.zero_le _) (Or.inr rfl) rfl rfl ?_ rfl
    show s.visitors_inside - 1 + 1 = s.visitors_inside + 0
    omega

theorem Safe.step (h : Safe issued s) (hstep : Step s s') : Safe issued s' := by
  refine ⟨h.counted_step hstep, ?_, fun g => ?_, fun g => ?_⟩
  · -- only a guide that finds room comes in
    have hatMost := h.atMost
    cases hstep with
    | enters g hpc hroom =>
      show s.guides_inside + 1 ≤ GUIDES_ALLOWED_INSIDE
      omega
    | leavesNext | leavesEmpty | leavesOther =>
      show s.guides_inside - 1 ≤ GUIDES_ALLOWED_INSIDE
      omega
    | entryFull | noMore | awaits | admits | admitsNobody | stays
    | ticket | noTicket | noRoom | tours | departs => exact hatMost
  · exact (goes_of_step hstep g).bounded (h.bounded g)
  · -- once nobody is to come, nobody comes
    have hspent := (goes_of_step hstep g).spent (h.bounded g) (h.spent g)
    exact hspent.mono fun hclosed => hclosed.step hstep

/-- The tickets of the day. -/
def issuedTickets (guides visitors : Nat) : Int := (museum_init guides visitors).tickets

theorem sums_init (guides visitors : Nat) :
    sums (museum_init guides visitors) = ⟨0, 0, 0, 0, 0, 0⟩ := by
  have hguide : ∀ w : Guide → Nat, w .outside = 0 → total w (museum_init guides visitors).guide = 0 :=
    fun w hw => total_eq_zero.mpr fun _ => hw
  have hvisitor : ∀ w : Visitor → Nat, w .outside = 0 →
      total w (museum_init guides visitors).visitor = 0 := fun w hw => total_eq_zero.mpr fun _ => hw
  unfold sums
  rw [hguide _ rfl, hguide _ rfl, hguide _ rfl, hvisitor _ rfl, hvisitor _ rfl, hvisitor _ rfl]

theorem safe_init (guides visitors : Nat) :
    Safe (issuedTickets guides visitors) (museum_init guides visitors) := by
  refine ⟨?_, (show (0 : Int) ≤ GUIDES_ALLOWED_INSIDE by decide), fun _ => trivial,
    fun _ => trivial⟩
  have hsums := sums_init guides visitors
  constructor <;> rw [hsums]
  · rfl
  · rfl
  · rfl
  · show (museum_init guides visitors).tickets + 0 + 0 = issuedTickets guides visitors
    rw [Int.add_zero, Int.add_zero]
    rfl
  · right
    show (museum_init guides visitors).tickets + 0 = issuedTickets guides visitors
    rw [Int.add_zero]
    rfl
  · exact Or.inr rfl

theorem safe_of_reachable (h : (museum guides visitors).Reachable s) :
    Safe (issuedTickets guides visitors) s :=
  h.invariant (Safe _)
    (fun s hs => by
      rw [show s = museum_init guides visitors from hs]
      exact safe_init guides visitors)
    fun _ _ _ hs _ hnext => hs.step (step_of_next hnext)

/-! ## The result -/

/-- The guides in the museum, the visitors on tour, and the visitors that were admitted
and have not left. -/
def guidesInside (s : State guides visitors) : Nat := total Guide.inside s.guide

def visitorsTouring (s : State guides visitors) : Nat := total Visitor.toured s.visitor

def visitorsAdmitted (s : State guides visitors) : Nat := total Visitor.admitted s.visitor

/-- What the museum promises at every moment. -/
structure Promise (s : State guides visitors) : Prop where
  guides : guidesInside s ≤ GUIDES_ALLOWED_INSIDE
  room : visitorsTouring s ≤ VISITORS_PER_GUIDE * guidesInside s
  served : ∀ g, (s.guide g).served ≤ VISITORS_PER_GUIDE

/-- A guide may go: nobody whom a guide has admitted is inside, and it has served its
maximum or there is neither a ticket nor a waiting visitor. -/
structure MayLeave (s : State guides visitors) (g : Fin guides) : Prop where
  empty : visitorsAdmitted s = 0
  done : (s.guide g).served = VISITORS_PER_GUIDE ∨
    s.tickets ≤ 0 ∧ ∀ v, s.visitor v ≠ .waiting

theorem Safe.promise (h : Safe issued s) : Promise s := by
  have hguides := h.counted.guides
  have hatMost := h.atMost
  have hinside : (sums s).inside = guidesInside s := rfl
  refine ⟨by omega, ?_, fun g => (h.bounded g).served_le⟩
  refine le_trans ?_ h.admitted_le
  exact total_le_total fun v => (s.visitor v).toured_le_admitted

theorem Safe.mayLeave (h : Safe issued s) (hstep : Step s s') (hinside : (s.guide g).inside = 1)
    (hgone : (s'.guide g).inside = 0) : MayLeave s g := by
  have hgoes := goes_of_step hstep g
  generalize hx : s.guide g = x at hgoes hinside
  generalize hy : s'.guide g = y at hgoes hgone
  cases hgoes with
  | @leaves _ k hpc hempty =>
    have hcount := h.counted.inside
    have hadmitted : (sums s).admitted = visitorsAdmitted s := rfl
    have hspent := h.spent g
    rw [hx] at hspent
    refine ⟨by omega, ?_⟩
    rw [hx, hpc.weights.2.1]
    refine (hpc.spent hspent).imp_right fun hclosed => ⟨hclosed.1, fun v hv => ?_⟩
    -- a visitor that waits is counted
    have hle := le_total Visitor.queued s.visitor v
    have hwaiting := h.counted.waiting
    have hqueued : (sums s).queued = total Visitor.queued s.visitor := rfl
    have hnone := hclosed.2
    rw [hv] at hle
    have hone : Visitor.waiting.queued = 1 := rfl
    omega
  | same => omega
  | wakesForVisitors =>
    rw [Guide.still_inside.forVisitors] at hgone
    omega
  | wakesToLeave =>
    rw [Guide.still_inside.toLeave] at hgone
    omega
  | wakesAtDoor => cases hinside
  | waits hpc =>
    rw [hpc.weights.1] at hinside
    cases hinside
  | enters | finishes | awaits | stays => cases hgone
  | @admits _ k =>
    rw [(Guide.weights_afterAdmit (k + 1)).1] at hgone
    cases hgone

/-- In every state the museum keeps its promises, and a guide leaves only when it may. -/
theorem museum_safe (h : (museum guides visitors).Reachable s) :
    Promise s ∧ ∀ l s', next s l = some s' → ∀ g, (s.guide g).inside = 1 →
      (s'.guide g).inside = 0 → MayLeave s g := by
  have hsafe := safe_of_reachable h
  refine ⟨hsafe.promise, fun l s' hnext g => ?_⟩
  exact hsafe.mayLeave (step_of_next hnext)

/-- Two visitors tour the museum with two guides, and the third guide waits. -/
theorem museum_safe_three : ∃ s : State 3 2, (museum 3 2).Reachable s ∧
    (visitorsTouring s = 2 ∧ s.guide 2 = .entryWait) ∧ Promise s := by
  have hmeets : TransitionSystem.runMeets next (fun _ _ => true)
      (fun s : State 3 2 => decide (visitorsTouring s = 2 ∧ s.guide 2 = .entryWait))
      [.visitor 0, .visitor 1, .guide 0 none none, .guide 1 none none, .guide 2 none none,
        .guide 0 (some 1) none, .guide 1 (some 0) none, .visitor 1, .visitor 0]
      (museum_init 3 2) = true := by decide +kernel
  obtain ⟨s, hs, htouring⟩ := TransitionSystem.exists_of_runMeets (S := museum 3 2)
    (fun _ _ _ h => h) (fun _ _ _ => trivial) (.init rfl) hmeets
  exact ⟨s, hs, of_decide_eq_true htouring, (museum_safe hs).1⟩

end PittCs.Cs1550.Museum
