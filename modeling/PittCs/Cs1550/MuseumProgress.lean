import PittCs.Cs1550.MuseumSafety

/-!
# No deadlock in the museum

`Awake` says of each condition variable that a thread waits on it only while what it waits
for is still to come: guides wait for visitors only while there are tickets, they wait to
leave only while visitors are inside, and at the door of an empty museum a guide has been
woken. With the count of the tickets a museum in which nobody can take a step is one that
everybody has left.
-/

namespace PittCs.Cs1550.Museum

open Lib Lib.Threads Function

variable {guides visitors : Nat} {s s' : State guides visitors} {g : Fin guides}
  {v : Fin visitors} {issued : Int}

structure Awake (s : State guides visitors) : Prop where
  visitors : s.tickets ≤ 0 → ∀ g k, s.guide g ≠ .visitorWait k
  leave : s.visitors_inside ≤ 0 → ∀ g k, s.guide g ≠ .leaveWait k
  door : s.guides_inside = 0 → (∃ g, s.guide g = .entryWoken) ∨ ∀ g, s.guide g ≠ .entryWait

/-! ## Waiting for visitors, waiting to leave -/

theorem Goes.ne_visitorWait {x y : Guide} (h : Goes s x y) (htickets : s.tickets ≤ 0)
    (hx : ∀ k, x ≠ .visitorWait k) (k : Nat) : y ≠ .visitorWait k := by
  cases h with
  | same => exact hx k
  | wakesForVisitors | wakesToLeave => cases x <;> first | exact absurd rfl (hx _) | nofun
  | awaits hpc hsome => exact absurd htickets hsome
  | @admits _ k hpc =>
    unfold Guide.afterAdmit
    split <;> nofun
  | wakesAtDoor | waits | enters | finishes | stays | leaves => nofun

theorem Goes.ne_leaveWait {x y : Guide} (h : Goes s x y) (hinside : s.visitors_inside ≤ 0)
    (hx : ∀ k, x ≠ .leaveWait k) (k : Nat) : y ≠ .leaveWait k := by
  cases h with
  | same => exact hx k
  | wakesForVisitors | wakesToLeave => cases x <;> first | exact absurd rfl (hx _) | nofun
  | stays hpc hsome => exact absurd hinside (Int.not_le.mpr hsome)
  | @admits _ k hpc =>
    unfold Guide.afterAdmit
    split <;> nofun
  | wakesAtDoor | waits | enters | finishes | awaits | leaves => nofun

/-- The last ticket wakes every guide that waits for visitors. -/
theorem Awake.visitors_step (h : Awake s) (hstep : Step s s') (htickets : s'.tickets ≤ 0)
    (g : Fin guides) (k : Nat) : s'.guide g ≠ .visitorWait k := by
  by_cases hbefore : s.tickets ≤ 0
  · exact (goes_of_step hstep g).ne_visitorWait hbefore (h.visitors hbefore g) k
  cases hstep with
  | ticket v hpc hpos =>
    show (s.guide g).wakeForVisitors ≠ .visitorWait k
    cases s.guide g <;> nofun
  | entryFull | enters | noMore | awaits | admits | admitsNobody | stays =>
    exact absurd htickets hbefore
  | leavesNext | leavesEmpty | leavesOther | noTicket | noRoom | tours | departs => exact absurd htickets hbefore

/-- The last visitor wakes every guide that waits to leave. -/
theorem Awake.leave_step (h : Awake s) (hstep : Step s s') (hinside : s'.visitors_inside ≤ 0)
    (g : Fin guides) (k : Nat) : s'.guide g ≠ .leaveWait k := by
  by_cases hbefore : s.visitors_inside ≤ 0
  · exact (goes_of_step hstep g).ne_leaveWait hbefore (h.leave hbefore g) k
  cases hstep with
  | departs v hpc =>
    show (s.guide g).wakeToLeave ≠ .leaveWait k
    cases s.guide g <;> nofun
  | admits | admitsNobody =>
    have hmore : s.visitors_inside + 1 ≤ 0 := hinside
    omega
  | entryFull | enters | noMore | awaits | stays | leavesNext | leavesEmpty | leavesOther
  | ticket | noTicket | noRoom | tours => exact absurd hinside hbefore

/-! ## Waiting at the door -/

/-- The door is as it was: who has been woken is awake, and nobody new waits. -/
def SameDoor (s s' : State guides visitors) : Prop :=
  ∀ g, (s.guide g = .entryWoken → s'.guide g = .entryWoken) ∧
    (s'.guide g = .entryWait → s.guide g = .entryWait)

theorem sameDoor_setGuide {t : State guides visitors} (h : SameDoor s t) {x : Guide}
    (hold : s.guide g ≠ .entryWoken) (hx : x ≠ .entryWait) : SameDoor s (t.setGuide g x) := by
  intro g'
  show (_ → Function.update t.guide g x g' = _) ∧ (Function.update t.guide g x g' = _ → _)
  rw [update_apply]
  split
  case isTrue heq =>
    rw [heq]
    exact ⟨fun hw => absurd hw hold, fun hw => absurd hw hx⟩
  · exact h g'

theorem sameDoor_rfl (s : State guides visitors) : SameDoor s s := fun _ => ⟨id, id⟩

theorem sameDoor_broadcastWaiting (s : State guides visitors) : SameDoor s s.broadcastWaiting := by
  intro g
  show (_ → (s.guide g).wakeForVisitors = _) ∧ ((s.guide g).wakeForVisitors = _ → _)
  cases s.guide g <;> exact ⟨fun h => by cases h; try rfl, fun h => by cases h; try rfl⟩

theorem sameDoor_broadcastLeave (s : State guides visitors) : SameDoor s s.broadcastLeave := by
  intro g
  show (_ → (s.guide g).wakeToLeave = _) ∧ ((s.guide g).wakeToLeave = _ → _)
  cases s.guide g <;> exact ⟨fun h => by cases h; try rfl, fun h => by cases h; try rfl⟩

theorem Guide.AtAdmit.ne_entryWoken {x : Guide} {k : Nat} (h : x.AtAdmit k) : x ≠ .entryWoken := by
  rcases h with rfl | rfl <;> nofun

theorem Guide.AtLeave.ne_entryWoken {x : Guide} {k : Nat} (h : x.AtLeave k) : x ≠ .entryWoken := by
  rcases h with rfl | rfl <;> nofun

theorem afterAdmit_ne_entryWait (k : Nat) : Guide.afterAdmit k ≠ .entryWait := by
  unfold Guide.afterAdmit
  split <;> nofun

theorem Awake.door_of_same (h : Awake s) (hsame : SameDoor s s')
    (hguides : s'.guides_inside = s.guides_inside) (hzero : s'.guides_inside = 0) :
    (∃ g, s'.guide g = .entryWoken) ∨ ∀ g, s'.guide g ≠ .entryWait := by
  rcases h.door (hguides.symm.trans hzero) with ⟨g, hg⟩ | hnone
  · exact Or.inl ⟨g, (hsame g).1 hg⟩
  · exact Or.inr fun g hg => hnone g ((hsame g).2 hg)

theorem Awake.door_step (h : Awake s) (hsafe : Safe issued s) (hstep : Step s s')
    (hzero : s'.guides_inside = 0) :
    (∃ g, s'.guide g = .entryWoken) ∨ ∀ g, s'.guide g ≠ .entryWait := by
  have hnonneg : 0 ≤ s.guides_inside := by
    rw [hsafe.counted.guides]
    exact Int.natCast_nonneg _
  cases hstep with
  | entryFull g hpc hfull =>
    -- a guide waits at the door only when the museum is full
    have hzero' : s.guides_inside = 0 := hzero
    have htwo : s.guides_inside ≥ 2 := hfull
    omega
  | enters g hpc hroom =>
    have hone : s.guides_inside + 1 = 0 := hzero
    omega
  | noMore g k hpc _ _ | awaits g k hpc _ _ | stays g k hpc _ =>
    exact h.door_of_same (sameDoor_setGuide (sameDoor_rfl s) hpc.ne_entryWoken nofun) rfl hzero
  | admits g k v hpc _ _ =>
    exact h.door_of_same (sameDoor_setGuide (t := s.countAdmitted.setVisitor v .woken)
      (sameDoor_rfl s) hpc.ne_entryWoken (afterAdmit_ne_entryWait _)) rfl hzero
  | admitsNobody g k hpc _ _ =>
    exact h.door_of_same (sameDoor_setGuide (t := s.countAdmitted)
      (sameDoor_rfl s) hpc.ne_entryWoken (afterAdmit_ne_entryWait _)) rfl hzero
  | leavesNext g g' k hpc _ _ hg' =>
    -- the last guide wakes one that waits
    have hne : g' ≠ g := by
      rintro rfl
      rcases hpc with hpc | hpc <;> rw [hg'] at hpc <;> cases hpc
    refine Or.inl ⟨g', ?_⟩
    show Function.update (fun i => (Function.update s.guide g' Guide.entryWoken i).wakeToLeave)
      g (Guide.gone k) g' = .entryWoken
    rw [update_of_ne hne, update_self]
    rfl
  | leavesEmpty g k hpc _ _ hnone =>
    refine Or.inr fun g' hg' => ?_
    have hsame : SameDoor s (s.countLeft.broadcastLeave.setGuide g (.gone k)) :=
      sameDoor_setGuide (sameDoor_broadcastLeave s.countLeft) hpc.ne_entryWoken nofun
    exact hnone g' ((hsame g').2 hg')
  | leavesOther g k hpc _ hother => exact absurd hzero hother
  | ticket v hpc _ =>
    exact h.door_of_same (sameDoor_broadcastWaiting s) rfl hzero
  | noTicket v hpc _ | tours v hpc _ => exact h.door_of_same (sameDoor_rfl s) rfl hzero
  | noRoom v hpc _ => exact h.door_of_same (sameDoor_broadcastWaiting s) rfl hzero
  | departs v hpc => exact h.door_of_same (sameDoor_broadcastLeave s) rfl hzero

theorem awake_of_reachable (h : (museum guides visitors).Reachable s) : Awake s := by
  have hboth : Safe (issuedTickets guides visitors) s ∧ Awake s :=
    h.invariant (fun s => Safe (issuedTickets guides visitors) s ∧ Awake s)
      (fun s hs => by
        rw [show s = museum_init guides visitors from hs]
        exact ⟨safe_init guides visitors, fun _ _ _ => nofun, fun _ _ _ => nofun,
          fun _ => Or.inr fun _ => nofun⟩)
      fun s l s' hs _ hnext => by
        have hstep := step_of_next hnext
        exact ⟨hs.1.step hstep, hs.2.visitors_step hstep, hs.2.leave_step hstep,
          hs.2.door_step hs.1 hstep⟩
  exact hboth.2

/-! ## Who can take a step -/

theorem exists_signalVisitor (s : State guides visitors) :
    ∃ c t, s.signalVisitor c = some t := by
  by_cases h : ∃ v, s.visitor v = .waiting
  · obtain ⟨v, hv⟩ := h
    exact ⟨some v, _, if_pos hv⟩
  · exact ⟨none, _, if_neg h⟩

theorem exists_signalGuide (s : State guides visitors) : ∃ c t, s.signalGuide c = some t := by
  by_cases h : ∃ g, s.guide g = .entryWait
  · obtain ⟨g, hg⟩ := h
    exact ⟨some g, _, if_pos hg⟩
  · exact ⟨none, _, if_neg h⟩

theorem exists_admit (s : State guides visitors) (g : Fin guides) (k : Nat) :
    ∃ c t, s.admitNext g k c = some t := by
  unfold State.admitNext
  split
  · refine ⟨none, ?_⟩
    split <;> exact ⟨_, rfl⟩
  · obtain ⟨c, t, ht⟩ := exists_signalVisitor s.countAdmitted
    exact ⟨c, _, congrArg (Option.map _) ht⟩

theorem exists_leave (s : State guides visitors) (g : Fin guides) (k : Nat) :
    ∃ c t, s.leave g k c = some t := by
  unfold State.leave
  split
  · exact ⟨none, _, rfl⟩
  · dsimp only
    split
    · obtain ⟨c, t, ht⟩ := exists_signalGuide s.countLeft
      exact ⟨c, _, congrArg (Option.map _) ht⟩
    · exact ⟨none, _, rfl⟩

/-- No thread can take a step. -/
def Stuck (s : State guides visitors) : Prop := ∀ l, next s l = none

/-- A guide that cannot take a step waits or is gone. -/
theorem Stuck.guide (h : Stuck s) (harrived : s.guide g ≠ .outside) :
    s.guide g = .entryWait ∨ (∃ k, s.guide g = .visitorWait k) ∨
      (∃ k, s.guide g = .leaveWait k) ∨ ∃ k, s.guide g = .gone k := by
  have hstep : ∀ c c', next s (.guide g c c') = none := fun c c' => h _
  unfold next at hstep
  dsimp only at hstep
  cases hx : s.guide g with
  | outside => exact absurd hx harrived
  | entryWait => exact Or.inl rfl
  | visitorWait k => exact Or.inr (Or.inl ⟨k, rfl⟩)
  | leaveWait k => exact Or.inr (Or.inr (Or.inl ⟨k, rfl⟩))
  | gone k => exact Or.inr (Or.inr (Or.inr ⟨k, rfl⟩))
  | entryWoken =>
    rw [hx] at hstep
    cases hstep none none
  | admitting k | visitorWoken k =>
    obtain ⟨c, t, ht⟩ := exists_admit s g k
    rw [hx] at hstep
    cases ht.symm.trans (hstep c none)
  | finished k | leaveWoken k =>
    obtain ⟨c, t, ht⟩ := exists_leave s g k
    rw [hx] at hstep
    cases ht.symm.trans (hstep none c)

/-- A visitor that cannot take a step waits or is gone. -/
theorem Stuck.visitor (h : Stuck s) (harrived : s.visitor v ≠ .outside) :
    s.visitor v = .waiting ∨ s.visitor v = .gone := by
  have hstep := h (.visitor v)
  unfold next at hstep
  dsimp only at hstep
  cases hx : s.visitor v with
  | outside => exact absurd hx harrived
  | waiting => exact Or.inl rfl
  | gone => exact Or.inr rfl
  | woken | touring =>
    rw [hx] at hstep
    cases hstep

/-! ## The tickets of the day -/

theorem toInt_le {n : Int} (h : 0 ≤ n) : toInt n ≤ n := by
  unfold toInt Int.bmod
  dsimp only
  split <;> omega

/-- There are no more tickets than visitors, and no more than the guides can serve. -/
theorem issuedTickets_le (guides visitors : Nat) :
    issuedTickets guides visitors ≤ visitors ∧
      issuedTickets guides visitors ≤ VISITORS_PER_GUIDE * guides := by
  have htickets : issuedTickets guides visitors =
    min (toInt (VISITORS_PER_GUIDE * toInt guides)) (toInt visitors) := rfl
  have hwrap : toInt (VISITORS_PER_GUIDE * toInt guides) =
      toInt (VISITORS_PER_GUIDE * guides) := Int.mul_bmod_bmod
  have hvisitors := toInt_le (Int.natCast_nonneg visitors)
  have hguides := toInt_le (n := VISITORS_PER_GUIDE * (guides : Int)) (by
    unfold VISITORS_PER_GUIDE
    omega)
  rw [htickets, hwrap]
  omega

/-! ## The result -/

/-- If everybody has arrived and nobody can take a step, then everybody has left. -/
theorem museum_deadlock_free (h : (museum guides visitors).Reachable s)
    (hguides : ∀ g, s.guide g ≠ .outside) (hvisitors : ∀ v, s.visitor v ≠ .outside)
    (hstuck : Stuck s) : (∀ g, ∃ k, s.guide g = .gone k) ∧ ∀ v, s.visitor v = .gone := by
  have hsafe := safe_of_reachable h
  have hawake := awake_of_reachable h
  obtain ⟨hissuedV, hissuedG⟩ := issuedTickets_le guides visitors
  have hcounted := hsafe.counted
  -- all visitors have arrived, so the tickets are used up
  have harrived : (sums s).arrived = 1 * visitors := by
    refine total_const fun v => ?_
    cases hx : s.visitor v with
    | outside => exact absurd hx (hvisitors v)
    | waiting | woken | touring | gone => rfl
  have htickets : s.tickets ≤ 0 := by
    have harrivals := hcounted.arrivals
    omega
  -- nobody is on tour
  have hadmitted : (sums s).admitted = 0 := by
    refine total_eq_zero.mpr fun v => ?_
    rcases hstuck.visitor (hvisitors v) with hv | hv <;> rw [hv] <;> rfl
  have hempty : s.visitors_inside ≤ 0 := by
    have hinside := hcounted.inside
    omega
  -- so no guide waits inside
  have hdoor : ∀ g, s.guide g = .entryWait ∨ ∃ k, s.guide g = .gone k := by
    intro g
    rcases hstuck.guide (hguides g) with hg | ⟨k, hg⟩ | ⟨k, hg⟩ | hg
    · exact Or.inl hg
    · exact absurd hg (hawake.visitors htickets g k)
    · exact absurd hg (hawake.leave hempty g k)
    · exact Or.inr hg
  have hinside : (sums s).inside = 0 := by
    refine total_eq_zero.mpr fun g => ?_
    rcases hdoor g with hg | ⟨k, hg⟩ <;> rw [hg] <;> rfl
  have hnobody : s.guides_inside = 0 := by
    have hcount := hcounted.guides
    omega
  -- and none waits at the door
  have hgone : ∀ g, ∃ k, s.guide g = .gone k := by
    intro g
    rcases hdoor g with hg | hg
    · rcases hawake.door hnobody with ⟨g', hg'⟩ | hnone
      · rcases hdoor g' with hg'' | ⟨k, hg''⟩ <;> rw [hg'] at hg'' <;> cases hg''
      · exact absurd hg (hnone g)
    · exact hg
  refine ⟨hgone, fun v => ?_⟩
  rcases hstuck.visitor (hvisitors v) with hv | hv
  · -- a visitor that waits: every guide has served its maximum, so all tickets were served
    have hqueued : 1 ≤ (sums s).queued := by
      have hle := le_total Visitor.queued s.visitor v
      rw [hv] at hle
      exact hle
    have hwaiting := hcounted.waiting
    have hserved : (sums s).served = VISITORS_PER_GUIDE * guides := by
      refine total_const fun g => ?_
      obtain ⟨k, hg⟩ := hgone g
      have hspent := hsafe.spent g
      rw [hg] at hspent ⊢
      rcases hspent with hk | hclosed
      · exact hk
      · have hnone := hclosed.2
        omega
    have hbalance := hcounted.tickets
    have hstock := hcounted.stock
    have hcast : ((VISITORS_PER_GUIDE * guides : Nat) : Int) = VISITORS_PER_GUIDE * guides := by
      push_cast
      rfl
    omega
  · exact hv

/-- Both visitors and then both guides have left, and nobody is left to take a step. -/
theorem museum_deadlock_free_two : ∃ s : State 2 2, (museum 2 2).Reachable s ∧ Stuck s ∧
    (∀ g, ∃ k, s.guide g = .gone k) ∧ ∀ v, s.visitor v = .gone := by
  have hmeets : TransitionSystem.runMeets next (fun _ _ => true)
      (fun s : State 2 2 => decide ((∀ g, s.guide g = .gone 1) ∧ ∀ v, s.visitor v = .gone))
      [.visitor 0, .visitor 1, .guide 0 none none, .guide 1 none none, .guide 0 (some 1) none,
        .guide 1 (some 0) none, .visitor 1, .visitor 0, .guide 0 none none, .guide 1 none none,
        .guide 0 none none, .visitor 1, .visitor 0, .guide 0 none none, .guide 1 none none]
      (museum_init 2 2) = true := by decide +kernel
  obtain ⟨s, hs, hend⟩ := TransitionSystem.exists_of_runMeets (S := museum 2 2)
    (fun _ _ _ h => h) (fun _ _ _ => trivial) (.init rfl) hmeets
  obtain ⟨hguide, hvisitor⟩ := of_decide_eq_true hend
  have hstuck : Stuck s := by
    intro l
    cases l with
    | guide g c c' =>
      unfold next
      dsimp only
      rw [hguide g]
    | visitor v =>
      unfold next
      dsimp only
      rw [hvisitor v]
  refine ⟨s, hs, hstuck, museum_deadlock_free hs (fun g => ?_) (fun v => ?_) hstuck⟩
  · rw [hguide g]
    nofun
  · rw [hvisitor v]
    nofun

end PittCs.Cs1550.Museum
