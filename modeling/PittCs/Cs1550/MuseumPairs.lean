import PittCs.Cs1550.MuseumSafety

/-!
# Guides that leave together

The driver remembers in `guides_may_enter` that two guides have been inside since the
museum was last empty. A guide tests only how many are inside, so between the departures
of two guides it comes in, and the driver reports it.
-/

namespace PittCs.Cs1550.Museum

open Lib Lib.Threads Option

variable {guides visitors : Nat} {s s' : State guides visitors} {g : Fin guides}

/-- Of two guides that were inside together, one has left and the other has not. -/
def PairBroken (s : State guides visitors) : Prop :=
  s.guides_inside = 1 ∧ s.driver.guides_may_enter = false

/-- The condition: no guide takes the lock to test whether it may enter, on arrival or after
a signal, between the departures of two guides that were inside together. -/
def Apart (s : State guides visitors) : Act guides visitors → Prop
  | .guide g _ _ => (s.guide g).AtEntry → ¬ PairBroken s
  | .visitor _ => True

instance (x : Guide) : Decidable x.AtEntry := inferInstanceAs (Decidable (_ ∨ _))

instance (s : State guides visitors) : Decidable (PairBroken s) :=
  inferInstanceAs (Decidable (_ ∧ _))

instance (s : State guides visitors) : DecidablePred (Apart s)
  | .guide g _ _ => inferInstanceAs (Decidable ((s.guide g).AtEntry → ¬ PairBroken s))
  | .visitor _ => inferInstanceAs (Decidable True)

/-- What the driver knows. -/
structure Watched (s : State guides visitors) : Prop where
  inside : s.driver.guides_inside = s.guides_inside
  empty : s.guides_inside = 0 → s.driver.guides_may_enter = true
  pair : s.guides_inside = 2 → s.driver.guides_may_enter = false

/-- A guide enters. -/
theorem Watched.enters (h : Watched s) (hnonneg : 0 ≤ s.guides_inside) :
    Watched (State.setGuide { s with
      driver := s.driver.guide_enters
      guides_inside := s.guides_inside + 1 } g (.admitting 0)) := by
  have hinside := h.inside
  refine ⟨?_, fun hzero => ?_, fun htwo => ?_⟩
  · show s.driver.guides_inside + 1 = s.guides_inside + 1
    rw [hinside]
  · have hzero' : s.guides_inside + 1 = 0 := hzero
    omega
  · have htwo' : s.guides_inside + 1 = 2 := htwo
    show (if s.driver.guides_inside + 1 = GUIDES_ALLOWED_INSIDE then false else _) = false
    rw [if_pos]
    rw [hinside]
    exact htwo'

/-- A guide leaves, whoever is woken. -/
theorem Watched.leaves (h : Watched s) (hatMost : s.guides_inside ≤ GUIDES_ALLOWED_INSIDE)
    {t : State guides visitors} (hdriver : t.driver = s.driver.guide_leaves)
    (hguides : t.guides_inside = s.guides_inside - 1) : Watched t := by
  have hinside := h.inside
  refine ⟨?_, fun hzero => ?_, fun htwo => ?_⟩
  · rw [hdriver, hguides, ← hinside]
    rfl
  · rw [hdriver]
    show (if s.driver.guides_inside - 1 = 0 then true else _) = true
    rw [if_pos (by omega)]
  · have hle : s.guides_inside ≤ 2 := hatMost
    omega

/-- What an entry changes for the report. -/
theorem reported_enters (s : State guides visitors) : (State.setGuide { s with
    driver := s.driver.guide_enters
    guides_inside := s.guides_inside + 1 } g (.admitting 0)).driver.reported =
      (s.driver.reported || !s.driver.guides_may_enter) := rfl

theorem Watched.step {issued : Int} (h : Watched s) (hsafe : Safe issued s)
    (hstep : Step s s') : Watched s' := by
  have hnonneg : 0 ≤ s.guides_inside := by
    rw [hsafe.counted.guides]
    exact Int.natCast_nonneg _
  cases hstep with
  | enters g hpc hroom => exact h.enters hnonneg
  | leavesNext | leavesEmpty | leavesOther => exact h.leaves hsafe.atMost rfl rfl
  | entryFull | noMore | awaits | admits | admitsNobody | stays =>
    exact ⟨h.inside, h.empty, h.pair⟩
  | ticket | noTicket | noRoom | tours | departs => exact ⟨h.inside, h.empty, h.pair⟩

/-- The step of a guide at the door. -/
theorem next_atEntry (hpc : (s.guide g).AtEntry) (v : Option (Fin visitors))
    (g' : Option (Fin guides)) : next s (.guide g v g') = some (s.enter g) := by
  unfold next
  dsimp only
  rcases hpc with hpc | hpc <;> rw [hpc]

/-- A guide that admits visitors or leaves is not looked at. -/
theorem reported_admitNext {k : Nat} {c : Option (Fin visitors)} (h : s.admitNext g k c = some s') :
    s'.driver.reported = s.driver.reported := by
  unfold State.admitNext at h
  split at h
  · split at h <;> cases h <;> rfl
  · obtain ⟨t, ht, rfl⟩ := map_eq_some_iff.mp h
    rcases signalVisitor_cases ht with ⟨v, -, rfl⟩ | ⟨-, rfl⟩ <;> rfl

theorem reported_leave {k : Nat} {c : Option (Fin guides)} (h : s.leave g k c = some s') :
    s'.driver.reported = s.driver.reported := by
  unfold State.leave at h
  split at h
  · cases h
    rfl
  · dsimp only at h
    split at h
    · obtain ⟨t, ht, rfl⟩ := map_eq_some_iff.mp h
      rcases signalGuide_cases ht with ⟨g', -, rfl⟩ | ⟨-, rfl⟩ <;> rfl
    · cases h
      rfl

theorem reported_visitor {v : Fin visitors} (h : next s (.visitor v) = some s') :
    s'.driver.reported = s.driver.reported := by
  unfold next at h
  dsimp only at h
  split at h
  case h_1 =>
    cases h
    unfold State.arrive
    split <;> rfl
  case h_2 =>
    cases h
    unfold State.checkRoom
    split <;> rfl
  case h_3 =>
    cases h
    rfl
  case h_4 => cases h

theorem watched_of_reachable (h : (museum guides visitors).Reachable s) : Watched s := by
  have hboth : Safe (issuedTickets guides visitors) s ∧ Watched s :=
    h.invariant (fun s => Safe (issuedTickets guides visitors) s ∧ Watched s)
      (fun s hs => by
        rw [show s = museum_init guides visitors from hs]
        exact ⟨safe_init guides visitors, rfl, fun _ => rfl, nofun⟩)
      fun _ _ _ hs _ hnext =>
        ⟨hs.1.step (step_of_next hnext), hs.2.step hs.1 (step_of_next hnext)⟩
  exact hboth.2

/-- A step is reported just when a guide enters between two departures. -/
theorem reported_step (hreachable : (museum guides visitors).Reachable s)
    (hclean : s.driver.reported = false) {l : Act guides visitors} (hnext : next s l = some s') :
    Apart s l ↔ s'.driver.reported = false := by
  have hsafe := safe_of_reachable hreachable
  have hwatched := watched_of_reachable hreachable
  have hguides := hsafe.counted.guides
  cases l with
  | guide g v g' =>
    by_cases hpc : (s.guide g).AtEntry
    · rw [next_atEntry hpc] at hnext
      obtain rfl := some.inj hnext
      have hapart : Apart s (.guide g v g') ↔ ¬ PairBroken s :=
        ⟨fun h => h hpc, fun h _ => h⟩
      rw [hapart]
      unfold State.enter
      split
      case isTrue hfull =>
        -- the museum is full, so the guide waits and no pair is broken
        refine ⟨fun _ => hclean, fun _ hpair => ?_⟩
        have hone := hpair.1
        have htwo : s.guides_inside ≥ 2 := hfull
        omega
      case isFalse hroom =>
        dsimp only
        rw [reported_enters, hclean, Bool.false_or]
        have hroom' : ¬ s.guides_inside ≥ 2 := hroom
        constructor
        · intro hpair
          by_cases hzero : s.guides_inside = 0
          · rw [hwatched.empty hzero]
            rfl
          · have hmay : s.driver.guides_may_enter ≠ false := fun hmay =>
              hpair ⟨by omega, hmay⟩
            rw [eq_true_of_ne_false hmay]
            rfl
        · intro hmay hpair
          rw [hpair.2] at hmay
          cases hmay
    · refine ⟨fun _ => ?_, fun _ h => absurd h hpc⟩
      unfold next at hnext
      dsimp only at hnext
      split at hnext
      case h_1 h => exact absurd (Or.inl h) hpc
      case h_2 h => exact absurd (Or.inr h) hpc
      case h_3 | h_4 => exact (reported_admitNext hnext).trans hclean
      case h_5 | h_6 => exact (reported_leave hnext).trans hclean
      case h_7 => cases hnext
  | visitor v => exact ⟨fun _ => (reported_visitor hnext).trans hclean, fun _ => trivial⟩

/-- As long as no guide comes to the door between two departures, the driver never reports
a guide that was not allowed to enter yet; the first guide that does is reported. -/
theorem guides_leave_together (h : (museum guides visitors).ReachableBy Apart s) :
    s.driver.reported = false ∧ ∀ l s', next s l = some s' →
      (Apart s l ↔ s'.driver.reported = false) := by
  have hclean : s.driver.reported = false := by
    induction h with
    | init hs =>
      rw [show _ = museum_init guides visitors from hs]
      rfl
    | step hs hapart hnext ih =>
      exact (reported_step (hs.mono fun _ _ _ => trivial) ih hnext).mp hapart
  exact ⟨hclean, fun l s' hnext =>
    reported_step (h.mono fun _ _ _ => trivial) hclean hnext⟩

/-- Two guides without visitors enter and leave, and a third one comes after them. -/
theorem guides_leave_together_three : ∃ s : State 3 0, (museum 3 0).ReachableBy Apart s ∧
    guidesInside s = 1 ∧ s.driver.reported = false := by
  have hmeets : TransitionSystem.runMeets next (fun s l => decide (Apart s l))
      (fun s : State 3 0 => decide (guidesInside s = 1))
      [.guide 0 none none, .guide 1 none none, .guide 0 none none, .guide 0 none none,
        .guide 1 none none, .guide 1 none none, .guide 2 none none]
      (museum_init 3 0) = true := by decide +kernel
  obtain ⟨s, hs, hinside⟩ := TransitionSystem.exists_of_runMeets (S := museum 3 0)
    (fun _ _ _ h => h) (fun _ _ h => of_decide_eq_true h) (.init rfl) hmeets
  exact ⟨s, hs, of_decide_eq_true hinside, (guides_leave_together hs).1⟩

/-- The third guide arrives when the first has left and the second has not. -/
theorem not_guides_leave_together : ∃ s : State 3 0, (museum 3 0).Reachable s ∧
    s.driver.reported = true := by
  have hmeets : TransitionSystem.runMeets next (fun _ _ => true)
      (fun s : State 3 0 => s.driver.reported)
      [.guide 0 none none, .guide 1 none none, .guide 0 none none, .guide 0 none none,
        .guide 2 none none]
      (museum_init 3 0) = true := by decide +kernel
  exact TransitionSystem.exists_of_runMeets (S := museum 3 0) (fun _ _ _ h => h)
    (fun _ _ _ => trivial) (.init rfl) hmeets

end PittCs.Cs1550.Museum
