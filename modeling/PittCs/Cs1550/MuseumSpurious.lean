import PittCs.Cs1550.MuseumCounts

/-!
# The museum under spurious wake-ups

`pthread_cond_wait` may return without a signal. The steps of the museum get steps that
wake one waiting thread, and the runs count the calls of `guide_admits` and the visitors
that have begun to tour. A visitor counts as touring once it has given the lock back, since
`visitor_tours` comes next.
-/

namespace PittCs.Cs1550.Museum

open Lib Lib.Threads Option

variable {guides visitors : Nat}

/-! ## The steps -/

namespace Guide

/-- The guide returns from `pthread_cond_wait`, whichever of its waits it is in. -/
def wake : Guide → Option Guide
  | entryWait => some entryWoken
  | visitorWait served => some (visitorWoken served)
  | leaveWait served => some (leaveWoken served)
  | _ => none

end Guide

inductive SpuriousAct (guides visitors : Nat) where
  | run (l : Act guides visitors)
  | wakeGuide (g : Fin guides)
  | wakeVisitor (v : Fin visitors)
deriving DecidableEq

/-- A state with the calls made so far. -/
structure Logged (guides visitors : Nat) where
  state : State guides visitors
  admits : Nat
  begun : Nat

/-- The step calls `guide_admits`. -/
def Admits (s : State guides visitors) : Act guides visitors → Bool
  | .guide g _ _ =>
    match s.guide g with
    | .admitting _ => decide (0 < s.visitors_waiting)
    | .visitorWoken _ => decide (0 < s.visitors_waiting)
    | _ => false
  | .visitor _ => false

/-- The step ends the loop of a visitor. -/
def Begins (s : State guides visitors) : Act guides visitors → Bool
  | .guide _ _ _ => false
  | .visitor v =>
    decide (s.visitor v = .woken) &&
      decide (s.visitors_inside ≤ VISITORS_PER_GUIDE * s.guides_inside)

def spuriousNext (s : Logged guides visitors) :
    SpuriousAct guides visitors → Option (Logged guides visitors)
  | .run l => (next s.state l).map fun t =>
    ⟨t, s.admits + (Admits s.state l).toNat, s.begun + (Begins s.state l).toNat⟩
  | .wakeGuide g => (s.state.guide g).wake.map fun x => { s with state := s.state.setGuide g x }
  | .wakeVisitor v =>
    if s.state.visitor v = .waiting then some { s with state := s.state.setVisitor v .woken }
    else none

def spuriousMuseum (guides visitors : Nat) :
    TransitionSystem (Logged guides visitors) (SpuriousAct guides visitors) where
  Init s := s = ⟨museum_init guides visitors, 0, 0⟩
  Next s l s' := spuriousNext s l = some s'

/-- What admission promises. -/
structure Admitted (s : Logged guides visitors) : Prop where
  begun : s.begun ≤ s.admits
  inside : 0 ≤ s.state.visitors_inside

/-- A visitor that leaves its loop is one of those counted in `visitors_inside`: not all of
these are touring yet. -/
def HasPlace (s : Logged guides visitors) : SpuriousAct guides visitors → Prop
  | .run l => Begins s.state l = true →
      (total Visitor.toured s.state.visitor : Int) < s.state.visitors_inside
  | _ => True

instance decidableHasPlace (s : Logged guides visitors) (l : SpuriousAct guides visitors) :
    Decidable (HasPlace s l) :=
  match l with
  | .run l => inferInstanceAs (Decidable (Begins s.state l = true → _))
  | .wakeGuide _ => isTrue trivial
  | .wakeVisitor _ => isTrue trivial

/-! ## What a step does to the counters -/

section

variable {s s' : State guides visitors}

/-- The visitors on tour, against `visitors_inside`. -/
def spare (s : State guides visitors) : Int :=
  s.visitors_inside - total Visitor.toured s.visitor

theorem spare_setVisitor (s : State guides visitors) (v : Fin visitors) (x : Visitor) :
    spare (s.setVisitor v x) + x.toured = spare s + (s.visitor v).toured := by
  have htotal := total_setVisitor Visitor.toured s v x
  show s.visitors_inside - (total Visitor.toured (s.setVisitor v x).visitor : Int) + x.toured =
    s.visitors_inside - total Visitor.toured s.visitor + (s.visitor v).toured
  omega

theorem spare_enter (s : State guides visitors) (g : Fin guides) : spare (s.enter g) = spare s := by
  unfold State.enter
  split <;> rfl

theorem spare_signalVisitor {c : Option (Fin visitors)} (h : s.signalVisitor c = some s') :
    spare s' = spare s := by
  rcases signalVisitor_cases h with ⟨v, hv, rfl⟩ | ⟨-, rfl⟩
  · have hspare := spare_setVisitor s v .woken
    rw [hv] at hspare
    exact (Int.add_left_inj _).mp hspare
  · rfl

theorem spare_admitNext {g : Fin guides} {served : Nat} {c : Option (Fin visitors)}
    (h : s.admitNext g served c = some s') :
    spare s' = spare s + (decide (0 < s.visitors_waiting)).toNat := by
  unfold State.admitNext at h
  split at h
  case isTrue hnone =>
    rw [decide_eq_false (Int.not_lt.mpr hnone)]
    split at h <;> cases h <;> exact (Int.add_zero _).symm
  case isFalse hsome =>
    rw [decide_eq_true (Int.not_le.mp hsome)]
    rcases map_eq_some_iff.mp h with ⟨t, ht, rfl⟩
    show spare t = spare s + 1
    rw [spare_signalVisitor ht]
    show s.visitors_inside + 1 - (total Visitor.toured s.visitor : Int) = spare s + 1
    unfold spare
    omega

theorem spare_leave {g : Fin guides} {served : Nat} {c : Option (Fin guides)}
    (h : s.leave g served c = some s') : spare s' = spare s := by
  unfold State.leave at h
  split at h
  case isTrue =>
    cases h
    rfl
  case isFalse =>
    dsimp only at h
    split at h
    case isTrue =>
      rcases map_eq_some_iff.mp h with ⟨t, ht, rfl⟩
      rcases signalGuide_cases ht with ⟨g', -, rfl⟩ | ⟨-, rfl⟩ <;> rfl
    case isFalse =>
      cases h
      rfl

/-- A visitor moves after a change that spares the same, or one more. -/
theorem spare_moves {t : State guides visitors} {v : Fin visitors} {x : Visitor} {a b : Int}
    (hb : spare t = spare s + b) (ht : t.visitor v = s.visitor v)
    (hab : b + (s.visitor v).toured = a + x.toured) : spare (t.setVisitor v x) = spare s + a := by
  have hspare := spare_setVisitor t v x
  rw [ht] at hspare
  omega

theorem begins_visitor (v : Fin visitors) : Begins s (.visitor v) =
    (decide (s.visitor v = .woken) &&
      decide (s.visitors_inside ≤ VISITORS_PER_GUIDE * s.guides_inside)) := rfl

theorem begins_of_ne {v : Fin visitors} (h : s.visitor v ≠ .woken) :
    Begins s (.visitor v) = false := by
  rw [begins_visitor, decide_eq_false h, Bool.false_and]

theorem spare_visitor {v : Fin visitors} (h : next s (.visitor v) = some s') :
    spare s' = spare s + -((Begins s (.visitor v)).toNat : Int) := by
  unfold next at h
  dsimp only at h
  split at h
  case h_1 hpc =>
    rw [begins_of_ne (by rw [hpc]; exact Visitor.noConfusion)]
    cases h
    unfold State.arrive
    split
    case isTrue =>
      exact spare_moves (b := 0) (t := State.broadcastWaiting { s with
        tickets := s.tickets - 1
        visitors_waiting := s.visitors_waiting + 1 }) (Int.add_zero _).symm rfl (by rw [hpc]; rfl)
    case isFalse => exact spare_moves (b := 0) (Int.add_zero _).symm rfl (by rw [hpc]; rfl)
  case h_2 hpc =>
    cases h
    unfold State.checkRoom
    split
    case isTrue hfull =>
      rw [begins_visitor, decide_eq_false (Int.not_le.mpr hfull), Bool.and_false]
      exact spare_moves (b := 0) (t := s.broadcastWaiting) (Int.add_zero _).symm rfl
        (by rw [hpc]; rfl)
    case isFalse hroom =>
      rw [begins_visitor, decide_eq_true (Int.not_lt.mp hroom), decide_eq_true hpc]
      exact spare_moves (b := 0) (Int.add_zero _).symm rfl (by rw [hpc]; rfl)
  case h_3 hpc =>
    rw [begins_of_ne (by rw [hpc]; exact Visitor.noConfusion)]
    cases h
    refine spare_moves (b := -1) (t := State.broadcastLeave { s with
      visitors_inside := s.visitors_inside - 1 }) ?_ rfl (by rw [hpc]; rfl)
    show s.visitors_inside - 1 - (total Visitor.toured s.visitor : Int) = spare s + -1
    unfold spare
    omega
  case h_4 => cases h

/-- An admission spares one more, a tour that begins one less. -/
theorem spare_next {l : Act guides visitors} (h : next s l = some s') :
    spare s' = spare s + (Admits s l).toNat - (Begins s l).toNat := by
  cases l with
  | visitor v =>
    rw [spare_visitor h]
    show spare s + -((Begins s (.visitor v)).toNat : Int) = spare s + 0 - _
    omega
  | guide g c c' =>
    show spare s' = spare s + (Admits s (.guide g c c')).toNat - 0
    rw [Int.sub_zero]
    unfold next at h
    unfold Admits
    dsimp only at h ⊢
    split at h
    case h_1 hpc =>
      cases h
      rw [spare_enter, hpc]
      exact (Int.add_zero _).symm
    case h_2 hpc =>
      cases h
      rw [spare_enter, hpc]
      exact (Int.add_zero _).symm
    case h_3 hpc =>
      rw [spare_admitNext h, hpc]
    case h_4 hpc =>
      rw [spare_admitNext h, hpc]
    case h_5 hpc =>
      rw [spare_leave h, hpc]
      exact (Int.add_zero _).symm
    case h_6 hpc =>
      rw [spare_leave h, hpc]
      exact (Int.add_zero _).symm
    case h_7 => cases h

end

/-! ## Runs -/

variable {s s' : Logged guides visitors}

/-- The spare visitors are the admissions that no tour has used. -/
def Balanced (s : Logged guides visitors) : Prop := spare s.state + s.begun = s.admits

theorem Balanced.step (h : Balanced s) {l : SpuriousAct guides visitors}
    (hnext : spuriousNext s l = some s') : Balanced s' := by
  unfold Balanced at h
  cases l with
  | run l =>
    rcases map_eq_some_iff.mp hnext with ⟨t, ht, rfl⟩
    have hspare := spare_next ht
    show spare t + ((s.begun + (Begins s.state l).toNat : Nat) : Int) =
      ((s.admits + (Admits s.state l).toNat : Nat) : Int)
    omega
  | wakeGuide g =>
    rcases map_eq_some_iff.mp hnext with ⟨x, -, rfl⟩
    exact h
  | wakeVisitor v =>
    unfold spuriousNext at hnext
    dsimp only at hnext
    split at hnext
    case isTrue hv =>
      cases hnext
      have hspare := spare_setVisitor s.state v .woken
      rw [hv] at hspare
      show spare (s.state.setVisitor v .woken) + (s.begun : Int) = s.admits
      have hsame : spare (s.state.setVisitor v .woken) = spare s.state :=
        (Int.add_left_inj _).mp hspare
      rw [hsame]
      exact h
    case isFalse => cases hnext

theorem balanced_of_reachable (h : (spuriousMuseum guides visitors).Reachable s) : Balanced s := by
  refine h.invariant Balanced ?_ fun _ _ _ hs _ hnext => hs.step hnext
  intro s hs
  rw [show s = ⟨museum_init guides visitors, 0, 0⟩ from hs]
  have hnone : total Visitor.toured (museum_init guides visitors).visitor = 0 :=
    total_eq_zero.mpr fun _ => rfl
  show 0 - (total Visitor.toured (museum_init guides visitors).visitor : Int) + 0 = 0
  rw [hnone]
  rfl

theorem admitted_iff (h : Balanced s) : Admitted s ↔ 0 ≤ spare s.state := by
  unfold Balanced at h
  constructor
  · intro hs
    have hbegun := hs.begun
    omega
  · intro hspare
    refine ⟨by omega, ?_⟩
    unfold spare at hspare
    omega

theorem admitted_step (h : Balanced s) (hs : Admitted s) {l : SpuriousAct guides visitors}
    (hnext : spuriousNext s l = some s') : Admitted s' ↔ HasPlace s l := by
  have hspare := (admitted_iff h).mp hs
  have hbalance : spare s.state + s.begun = s.admits := h
  have hbalance' : spare s'.state + s'.begun = s'.admits := h.step hnext
  rw [admitted_iff (h.step hnext)]
  cases l with
  | run l =>
    rcases map_eq_some_iff.mp hnext with ⟨t, ht, rfl⟩
    have hstep := spare_next ht
    show 0 ≤ spare t ↔ (Begins s.state l = true → _)
    have hplace : (total Visitor.toured s.state.visitor : Int) < s.state.visitors_inside ↔
        0 < spare s.state := Int.sub_pos.symm
    rw [hplace]
    by_cases hbegins : Begins s.state l = true
    · -- a step that ends a loop admits nobody
      have hno : Admits s.state l = false := by
        cases l with
        | visitor v => rfl
        | guide g c c' => cases hbegins
      rw [hbegins, hno] at hstep
      simp only [hbegins, forall_const]
      simp at hstep
      omega
    · rw [Bool.not_eq_true] at hbegins
      rw [hbegins] at hstep
      simp only [hbegins, Bool.false_eq_true, false_implies, iff_true]
      simp at hstep
      omega
  | wakeGuide g =>
    rcases map_eq_some_iff.mp hnext with ⟨x, -, rfl⟩
    exact ⟨fun _ => trivial, fun _ => hspare⟩
  | wakeVisitor v =>
    refine ⟨fun _ => trivial, fun _ => ?_⟩
    unfold spuriousNext at hnext
    dsimp only at hnext
    split at hnext
    case isTrue hv =>
      cases hnext
      dsimp only at hbalance' ⊢
      omega
    case isFalse => cases hnext

/-- As long as every visitor that leaves its loop has a place among the admitted visitors,
tours never outnumber admissions and `visitors_inside` is not negative; the first visitor
without a place breaks this. -/
theorem admission_spurious (h : (spuriousMuseum guides visitors).ReachableBy HasPlace s) :
    Admitted s ∧ ∀ l s', spuriousNext s l = some s' → (HasPlace s l ↔ Admitted s') := by
  have hbalanced := balanced_of_reachable (h.mono fun _ _ _ => trivial)
  have hadmitted : Admitted s := by
    induction h with
    | init hs =>
      rw [show _ = (⟨museum_init guides visitors, 0, 0⟩ : Logged guides visitors) from hs]
      exact ⟨Nat.le_refl _, Int.le_refl _⟩
    | step hs hplace hnext ih =>
      have hbefore := balanced_of_reachable (hs.mono fun _ _ _ => trivial)
      exact (admitted_step hbefore (ih hbefore) hnext).mpr hplace
  exact ⟨hadmitted, fun l s' hnext => (admitted_step hbalanced hadmitted hnext).symm⟩

/-- A visitor wakes without a signal and takes the place of the one that was signalled, who
has to wait for the second guide. -/
theorem admission_spurious_two : ∃ s : Logged 2 2, (spuriousMuseum 2 2).ReachableBy HasPlace s ∧
    s.begun = 2 ∧ Admitted s := by
  have hmeets : TransitionSystem.runMeets spuriousNext (fun s l => decide (HasPlace s l))
      (fun s : Logged 2 2 => decide (s.begun = 2))
      [.run (.visitor 0), .run (.visitor 1), .run (.guide 0 none none), .run (.guide 1 none none),
        .wakeVisitor 1, .run (.guide 0 (some 0) none), .run (.visitor 1),
        .run (.guide 1 none none), .run (.visitor 0)]
      ⟨museum_init 2 2, 0, 0⟩ = true := by decide +kernel
  rcases TransitionSystem.exists_of_runMeets (S := spuriousMuseum 2 2) (fun _ _ _ h => h)
    (fun _ _ h => of_decide_eq_true h) (.init rfl) hmeets with ⟨s, hs, hbegun⟩
  exact ⟨s, hs, of_decide_eq_true hbegun, (admission_spurious hs).1⟩

/-- A visitor wakes without a signal when no guide has come, tours and leaves. -/
theorem not_admission_spurious : ∃ s : Logged 1 1, (spuriousMuseum 1 1).Reachable s ∧
    s.admits < s.begun ∧ s.state.visitors_inside < 0 := by
  have hmeets : TransitionSystem.runMeets spuriousNext (fun _ _ => true)
      (fun s : Logged 1 1 => decide (s.admits < s.begun) && decide (s.state.visitors_inside < 0))
      [.run (.visitor 0), .wakeVisitor 0, .run (.visitor 0), .run (.visitor 0)]
      ⟨museum_init 1 1, 0, 0⟩ = true := by decide +kernel
  rcases TransitionSystem.exists_of_runMeets (S := spuriousMuseum 1 1) (fun _ _ _ h => h)
    (fun _ _ _ => trivial) (.init rfl) hmeets with ⟨s, hs, hbad⟩
  rcases Bool.and_eq_true_iff.mp hbad with ⟨hbegun, hinside⟩
  exact ⟨s, hs, of_decide_eq_true hbegun, of_decide_eq_true hinside⟩

end PittCs.Cs1550.Museum
