import Mathlib.Data.List.Nodup
import PittCs.Cs1550.Semaphore

/-!
# Closing a semaphore

`close` tests that no task waits and frees the semaphore. A task that has found the
semaphore and not yet run its section is in no queue, so `close` does not see it. `Live`
is what holds as long as no close falls into this gap: whatever a task or the list leads
to is allocated.
-/

namespace PittCs.Cs1550.Semaphore

open Function List Option

namespace Phase

/-- The semaphore that a task is creating. -/
def creating : Phase → Option Nat
  | numbered a => some a
  | unlisted a => some a
  | _ => none

/-- The semaphore that a task has found and will change. -/
def found : Phase → Option Nat
  | down a => some a
  | up a => some a
  | _ => none

end Phase

structure Live (s : Kernel) : Prop where
  intact : s.broken = false
  listed : ∀ a ∈ s.sem_list, s.memory a ≠ none
  nodup : s.sem_list.Nodup
  creating : ∀ t a, (s.phase t).creating = some a → s.memory a ≠ none ∧ a ∉ s.sem_list
  creator : ∀ t t' a, (s.phase t).creating = some a → (s.phase t').creating = some a → t = t'
  found : ∀ t a, (s.phase t).found = some a → s.memory a ≠ none
  fresh : ∀ a, s.fresh ≤ a → s.memory a = none

variable {s s' : Kernel} {task a : Nat} {p : Phase}

theorem Kernel.phase_become (s : Kernel) (task t : Nat) (p : Phase) :
    (s.become task p).phase t = if t = task then p else s.phase t := update_apply ..

theorem mem_of_search {sem_id : CLong} (h : s.search sem_id = some a) : a ∈ s.sem_list :=
  mem_of_find?_eq_some h

/-! ## What a step is made of -/

namespace Live

/-- A task goes to where it holds no pointer. -/
theorem become (h : Live s) (task : Nat) (hcreating : p.creating = none) (hfound : p.found = none) :
    Live (s.become task p) := by
  refine ⟨h.intact, h.listed, h.nodup, ?_, ?_, ?_, h.fresh⟩
  · intro t a ht
    rw [s.phase_become] at ht
    split at ht
    · rw [hcreating] at ht
      cases ht
    · exact h.creating t a ht
  · intro t t' a ht ht'
    rw [s.phase_become] at ht ht'
    split at ht
    · rw [hcreating] at ht
      cases ht
    · split at ht'
      · rw [hcreating] at ht'
        cases ht'
      · exact h.creator t t' a ht ht'
  · intro t a ht
    rw [s.phase_become] at ht
    split at ht
    · rw [hfound] at ht
      cases ht
    · exact h.found t a ht

/-- An allocated semaphore is changed. -/
theorem store (h : Live s) (ha : s.memory a ≠ none) (sem : Sem) : Live (s.store a sem) := by
  have hkeep : ∀ b, s.memory b ≠ none → (s.store a sem).memory b ≠ none := by
    intro b hb
    show Function.update s.memory a (some sem) b ≠ none
    rw [update_apply]
    split
    · exact some_ne_none sem
    · exact hb
  refine ⟨h.intact, fun b hb => hkeep b (h.listed b hb), h.nodup, ?_, h.creator,
    fun t b hb => hkeep b (h.found t b hb), ?_⟩
  · intro t b hb
    exact ⟨hkeep b (h.creating t b hb).1, (h.creating t b hb).2⟩
  · intro b hb
    show Function.update s.memory a (some sem) b = none
    rw [update_of_ne, h.fresh b hb]
    rintro rfl
    exact ha (h.fresh b hb)

theorem note (h : Live s) (e : Event) : Live (s.note e) :=
  ⟨h.intact, h.listed, h.nodup, h.creating, h.creator, h.found, h.fresh⟩

/-! ## The steps -/

theorem create (h : Live s) (value : CLong) (allocated : Bool) :
    Live (s.create task value allocated) := by
  unfold Kernel.create
  split
  · exact h.become task rfl rfl
  split
  · -- the new semaphore is known to its creator only
    have hnone := h.fresh s.fresh (Nat.le_refl _)
    have hnot : s.fresh ∉ s.sem_list := fun hin => h.listed _ hin hnone
    have hkeep : ∀ b, s.memory b ≠ none →
        Function.update s.memory s.fresh (some ⟨value, s.next_id, []⟩) b ≠ none := by
      intro b hb
      rw [update_apply]
      split
      · exact some_ne_none _
      · exact hb
    refine ⟨h.intact, fun b hb => hkeep b (h.listed b hb), h.nodup, ?_, ?_, ?_, ?_⟩
    · intro t b ht
      rw [Kernel.phase_become] at ht
      split at ht
      · obtain rfl := some.inj ht
        refine ⟨?_, hnot⟩
        show Function.update s.memory s.fresh _ s.fresh ≠ none
        rw [update_self]
        exact some_ne_none _
      · exact ⟨hkeep b (h.creating t b ht).1, (h.creating t b ht).2⟩
    · intro t t' b ht ht'
      rw [Kernel.phase_become] at ht ht'
      split at ht
      case isTrue heq =>
        obtain rfl := some.inj ht
        split at ht'
        case isTrue heq' => rw [heq, heq']
        · exact absurd hnone (h.creating t' _ ht').1
      · split at ht'
        · obtain rfl := some.inj ht'
          exact absurd hnone (h.creating t _ ht).1
        · exact h.creator t t' b ht ht'
    · intro t b ht
      rw [Kernel.phase_become] at ht
      split at ht
      · cases ht
      · exact hkeep b (h.found t b ht)
    · intro b hb
      have hlt : s.fresh + 1 ≤ b := hb
      show Function.update s.memory s.fresh _ b = none
      rw [update_of_ne (by omega)]
      exact h.fresh b (by omega)
  · exact h.become task rfl rfl

theorem increment (h : Live s) (hphase : s.phase task = .numbered a) :
    Live (s.increment task a) := by
  -- the task creates the same semaphore as before
  have hsame : ∀ t, ((s.increment task a).phase t).creating = (s.phase t).creating ∧
      ((s.increment task a).phase t).found = (s.phase t).found := by
    intro t
    unfold Kernel.increment
    rw [Kernel.phase_become]
    split
    case isTrue ht =>
      rw [ht, hphase]
      exact ⟨rfl, rfl⟩
    · exact ⟨rfl, rfl⟩
  refine ⟨h.intact, h.listed, h.nodup, fun t b ht => ?_, fun t t' b ht ht' => ?_,
    fun t b ht => ?_, h.fresh⟩
  · rw [(hsame t).1] at ht
    exact h.creating t b ht
  · rw [(hsame t).1] at ht
    rw [(hsame t').1] at ht'
    exact h.creator t t' b ht ht'
  · rw [(hsame t).2] at ht
    exact h.found t b ht

theorem publish (h : Live s) (hphase : s.phase task = .unlisted a) :
    Live (s.publish task a) := by
  have htask : (s.phase task).creating = some a := by rw [hphase]; rfl
  obtain ⟨hmem, hnot⟩ := h.creating task a htask
  refine ⟨h.intact, ?_, nodup_cons.mpr ⟨hnot, h.nodup⟩, ?_, ?_, ?_, h.fresh⟩
  · intro b hb
    rcases mem_cons.mp hb with rfl | hb
    · exact hmem
    · exact h.listed b hb
  · intro t b ht
    unfold Kernel.publish at ht
    rw [Kernel.phase_become] at ht
    split at ht
    · cases ht
    case isFalse hne =>
      refine ⟨(h.creating t b ht).1, fun hin => ?_⟩
      rcases mem_cons.mp hin with rfl | hin
      · exact hne (h.creator t task b ht htask)
      · exact (h.creating t b ht).2 hin
  · intro t t' b ht ht'
    unfold Kernel.publish at ht ht'
    rw [Kernel.phase_become] at ht ht'
    split at ht
    · cases ht
    · split at ht'
      · cases ht'
      · exact h.creator t t' b ht ht'
  · intro t b ht
    unfold Kernel.publish at ht
    rw [Kernel.phase_become] at ht
    split at ht
    · cases ht
    · exact h.found t b ht

theorem find (h : Live s) (sem_id : CLong) {found : Nat → Phase}
    (hfound : ∀ a, (found a).creating = none ∧ (found a).found = some a) :
    Live (s.find task sem_id found) := by
  unfold Kernel.find
  split
  · exact h.become task rfl rfl
  case h_2 a ha =>
    refine ⟨h.intact, h.listed, h.nodup, ?_, ?_, ?_, h.fresh⟩
    · intro t b ht
      rw [s.phase_become] at ht
      split at ht
      · rw [(hfound a).1] at ht
        cases ht
      · exact h.creating t b ht
    · intro t t' b ht ht'
      rw [s.phase_become] at ht ht'
      split at ht
      · rw [(hfound a).1] at ht
        cases ht
      · split at ht'
        · rw [(hfound a).1] at ht'
          cases ht'
        · exact h.creator t t' b ht ht'
    · intro t b ht
      rw [s.phase_become] at ht
      split at ht
      · -- what the search finds is in the list
        rw [(hfound a).2] at ht
        obtain rfl := some.inj ht
        exact h.listed a (mem_of_search ha)
      · exact h.found t b ht

theorem downSection (h : Live s) (ha : s.memory a ≠ none) (allocated : Bool) :
    Live (s.downSection task a allocated) := by
  unfold Kernel.downSection
  split
  case h_1 hnone => exact absurd hnone ha
  · dsimp only
    split
    · split
      · exact ((h.store ha _).note _).become task rfl rfl
      · exact ((h.store ha _).note _).become task rfl rfl
    · exact ((h.store ha _).note _).become task rfl rfl

theorem upSection (h : Live s) (ha : s.memory a ≠ none) : Live (s.upSection task a) := by
  unfold Kernel.upSection
  split
  case h_1 hnone => exact absurd hnone ha
  · dsimp only
    split
    · split
      · exact (((h.store ha _).become _ rfl rfl).note _).become task rfl rfl
      · exact ((h.store ha _).note _).become task rfl rfl
    · exact ((h.store ha _).note _).become task rfl rfl

/-- A close with no task between its search and its section. -/
theorem close (h : Live s) {sem_id : CLong}
    (hquiet : ∀ a, s.search sem_id = some a → s.waiting a = [] →
      ∀ t, (s.phase t).found ≠ some a) : Live (s.close task sem_id) := by
  unfold Kernel.close
  split
  · exact h.become task rfl rfl
  case h_2 a ha =>
    split
    case isTrue hempty =>
      have hmem := mem_of_search ha
      have hkeep : ∀ b, b ≠ a → s.memory b ≠ none → Function.update s.memory a none b ≠ none := by
        intro b hb hmem
        rw [update_of_ne hb]
        exact hmem
      refine ((Live.note ?_ (.closed a))).become task rfl rfl
      refine ⟨h.intact, ?_, h.nodup.erase a, ?_, h.creator, ?_, ?_⟩
      · intro b hb
        obtain ⟨hne, hb⟩ := h.nodup.mem_erase_iff.mp hb
        exact hkeep b hne (h.listed b hb)
      · intro t b ht
        obtain ⟨hb, hnot⟩ := h.creating t b ht
        refine ⟨hkeep b (fun heq => hnot (heq ▸ hmem)) hb, fun hin => ?_⟩
        exact hnot (mem_of_mem_erase hin)
      · intro t b ht
        exact hkeep b (fun heq => hquiet a ha hempty t (heq ▸ ht)) (h.found t b ht)
      · intro b hb
        show Function.update s.memory a none b = none
        rw [update_apply]
        split
        · rfl
        · exact h.fresh b hb
    · exact h.become task rfl rfl

end Live

/-! ## The result -/

/-- The condition: when `close` removes a semaphore, no other task is between its search,
which found this semaphore, and its section. -/
def Quiet (s : Kernel) (l : Nat × Act) : Prop :=
  match l.2 with
  | .close sem_id => ∀ a, s.search sem_id = some a → s.waiting a = [] →
      ∀ t, (s.phase t).found ≠ some a
  | _ => True

theorem Live.next (h : Live s) {l : Nat × Act} (hquiet : Quiet s l) (hnext : next s l = some s') :
    Live s' := by
  obtain ⟨-, hstep⟩ := step_of_next hnext
  obtain ⟨task, act⟩ := l
  dsimp only at hstep
  cases hstep with
  | create value allocated _ => exact h.create value allocated
  | increment hphase => exact h.increment hphase
  | publish hphase => exact h.publish hphase
  | down sem_id _ | up sem_id _ => exact h.find sem_id fun _ => ⟨rfl, rfl⟩
  | downSection allocated hphase =>
    exact h.downSection (h.found task _ (by rw [hphase]; rfl)) allocated
  | upSection hphase => exact h.upSection (h.found task _ (by rw [hphase]; rfl))
  | close sem_id _ => exact h.close hquiet

/-- Only a section can break something, and a section finds its semaphore allocated. -/
theorem Live.intact_next (h : Live s) {l : Nat × Act} (hnext : Semaphore.next s l = some s') :
    s'.broken = false := by
  obtain ⟨task, act⟩ := l
  cases act with
  | close sem_id =>
    obtain ⟨-, hstep⟩ := step_of_next hnext
    cases hstep
    unfold Kernel.close
    split
    · exact h.intact
    · split <;> exact h.intact
  | create | increment | publish | down | downSection | up | upSection =>
    refine (h.next ?_ hnext).intact
    trivial

theorem live_init : Live .init :=
  ⟨rfl, nofun, .nil, nofun, nofun, nofun, fun _ _ => rfl⟩

theorem live_of_reachable (h : kernel.ReachableBy Quiet s) : Live s :=
  h.invariant Live
    (fun s hs => by
      rw [show s = .init from hs]
      exact live_init)
    fun _ _ _ hs hquiet hnext => hs.next hquiet hnext

/-- A close that falls into the gap: the section that follows is on freed memory. -/
theorem exists_misuse {sem_id : CLong} (hnext : next s (task, .close sem_id) = some s')
    (hnot : ¬ Quiet s (task, .close sem_id)) :
    ∃ l s'', next s' l = some s'' ∧ s''.broken = true := by
  obtain ⟨hintact, hstep⟩ := step_of_next hnext
  unfold Quiet at hnot
  dsimp only at hnot
  push Not at hnot
  obtain ⟨a, ha, hempty, t, ht⟩ := hnot
  cases hstep with
  | @close r _ hphase =>
    -- the task that closes is another one
    have hne : t ≠ task := by
      rintro rfl
      rw [hphase] at ht
      cases ht
    have hclosed : (s.close task sem_id).phase t = s.phase t ∧
        (s.close task sem_id).memory a = none ∧ (s.close task sem_id).broken = false := by
      unfold Kernel.close
      rw [ha]
      dsimp only
      rw [if_pos hempty]
      refine ⟨?_, update_self _ _ _, hintact⟩
      rw [Kernel.phase_become, if_neg hne]
      rfl
    obtain ⟨hsame, hnone, hintact'⟩ := hclosed
    cases hp : s.phase t with
    | down b =>
      rw [hp] at ht
      obtain rfl := some.inj ht
      have hrun : next (s.close task sem_id) (t, .downSection true) =
          some ((s.close task sem_id).downSection t b true) := by
        unfold next
        rw [hintact', hsame, hp]
        rfl
      refine ⟨(t, .downSection true), _, hrun, ?_⟩
      unfold Kernel.downSection
      rw [hnone]
      rfl
    | up b =>
      rw [hp] at ht
      obtain rfl := some.inj ht
      have hrun : next (s.close task sem_id) (t, .upSection) =
          some ((s.close task sem_id).upSection t b) := by
        unfold next
        rw [hintact', hsame, hp]
        rfl
      refine ⟨(t, .upSection), _, hrun, ?_⟩
      unfold Kernel.upSection
      rw [hnone]
      rfl
    | user | numbered | unlisted | asleep =>
      rw [hp] at ht
      cases ht

/-- As long as no close falls between the search and the section of another task, no
section runs on a freed semaphore. After the first close that does, one can. -/
theorem no_misuse (h : kernel.ReachableBy Quiet s) :
    s.broken = false ∧ ∀ l s', next s l = some s' →
      (Quiet s l ↔ ∀ l' s'', next s' l' = some s'' → s''.broken = false) := by
  have hlive := live_of_reachable h
  refine ⟨hlive.intact, fun l s' hnext => ?_⟩
  constructor
  · intro hquiet l' s'' hnext'
    exact (hlive.next hquiet hnext).intact_next hnext'
  · intro hsafe
    obtain ⟨task, act⟩ := l
    cases act with
    | close sem_id =>
      by_contra hnot
      obtain ⟨l', s'', hnext', hbroken⟩ := exists_misuse hnext hnot
      rw [hsafe l' s'' hnext'] at hbroken
      cases hbroken
    | create | increment | publish | down | downSection | up | upSection => trivial

/-- A down and an up of two tasks, and a close when both are done. -/
theorem no_misuse_two : ∃ s, kernel.ReachableBy Quiet s ∧ s.memory 0 = none ∧
    s.broken = false := by
  have h0 : kernel.ReachableBy Quiet .init := .init rfl
  have h1 := h0.step (l := (0, Act.create 0 true)) trivial rfl
  have h2 := h1.step (l := (0, Act.increment)) trivial rfl
  have h3 := h2.step (l := (0, Act.publish)) trivial rfl
  have h4 := h3.step (l := (0, Act.up 0)) trivial rfl
  have h5 := h4.step (l := (0, Act.upSection)) trivial rfl
  have h6 := h5.step (l := (1, Act.down 0)) trivial rfl
  have h7 := h6.step (l := (1, Act.downSection true)) trivial rfl
  have h8 := h7.step (l := (2, Act.close 0)) (fun a _ _ t ht => by
    rcases t with _ | _ | t <;> cases ht) rfl
  exact ⟨_, h8, rfl, (no_misuse h8).1⟩

/-- The close falls between the search and the section of a down. -/
theorem not_no_misuse : ∃ s, kernel.Reachable s ∧ s.broken = true := by
  have hmeets : Lib.TransitionSystem.runMeets next (fun _ _ => true) (fun s => s.broken)
      [(0, .create 1 true), (0, .increment), (0, .publish), (0, .down 0), (1, .close 0),
        (0, .downSection true)]
      .init = true := by decide +kernel
  exact Lib.TransitionSystem.exists_of_runMeets (S := kernel)
    (fun _ _ _ h => h) (fun _ _ _ => trivial) (.init rfl) hmeets

end PittCs.Cs1550.Semaphore
