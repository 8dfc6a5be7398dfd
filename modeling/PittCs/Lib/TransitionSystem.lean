import Mathlib.Data.List.Count
import Mathlib.Logic.Relation

/-!
# Transition systems and guarded runs

A labelled transition system, the states its runs reach, and the states reached
by those runs whose steps all meet a condition on the state before the step and
on the label. A condition that a program needs but does not check itself is such
a guard: a result about `ReachableBy G` says what holds in every run that never
takes a step outside `G`. `AlongRun` speaks of one given run. At the end stand the
rules for termination.
-/

namespace PittCs.Lib

open List

universe u v

/-- Initial states and labelled steps. -/
structure TransitionSystem (σ : Type u) (ℓ : Type v) where
  Init : σ → Prop
  Next : σ → ℓ → σ → Prop

namespace TransitionSystem

variable {σ : Type u} {ℓ : Type v} (S : TransitionSystem σ ℓ)

/-- The states of the runs whose steps all meet the guard `G`. -/
inductive ReachableBy (G : σ → ℓ → Prop) : σ → Prop where
  | init {s : σ} : S.Init s → ReachableBy G s
  | step {s : σ} {l : ℓ} {s' : σ} : ReachableBy G s → G s l → S.Next s l s' → ReachableBy G s'

/-- The states of all runs. -/
def Reachable : σ → Prop := S.ReachableBy fun _ _ => True

variable {S}

/-- Invariant induction over guarded runs. -/
theorem ReachableBy.invariant {G : σ → ℓ → Prop} (Inv : σ → Prop)
    (hinit : ∀ s, S.Init s → Inv s)
    (hstep : ∀ s l s', Inv s → G s l → S.Next s l s' → Inv s')
    {s : σ} (h : S.ReachableBy G s) : Inv s := by
  induction h with
  | init h0 => exact hinit _ h0
  | step _ hG hN ih => exact hstep _ _ _ ih hG hN

/-- A run that meets a guard meets every weaker one. -/
theorem ReachableBy.mono {G G' : σ → ℓ → Prop} (hle : ∀ s l, G s l → G' s l)
    {s : σ} (h : S.ReachableBy G s) : S.ReachableBy G' s := by
  induction h with
  | init h0 => exact .init h0
  | step _ hG hN ih => exact .step ih (hle _ _ hG) hN

/-- The labels can be taken one after the other, each passes `check`, and `p`
holds afterwards. -/
def runMeets (next : σ → ℓ → Option σ) (check : σ → ℓ → Bool) (p : σ → Bool) :
    List ℓ → σ → Bool
  | [], s => p s
  | l :: ls, s => check s l &&
    match next s l with
    | some s' => runMeets next check p ls s'
    | none => false

/-- A run that passes its checks is guarded by what they mean. -/
theorem exists_of_runMeets {G : σ → ℓ → Prop} {next : σ → ℓ → Option σ} {check : σ → ℓ → Bool}
    {p : σ → Bool} {ls : List ℓ} {s : σ} (hnext : ∀ s l s', next s l = some s' → S.Next s l s')
    (hcheck : ∀ s l, check s l = true → G s l) (hs : S.ReachableBy G s)
    (h : runMeets next check p ls s = true) : ∃ s', S.ReachableBy G s' ∧ p s' = true := by
  induction ls generalizing s with
  | nil => exact ⟨s, hs, h⟩
  | cons l ls ih =>
    unfold runMeets at h
    rcases Bool.and_eq_true_iff.mp h with ⟨hl, h⟩
    split at h
    case h_1 s₁ hs₁ => exact ih (.step hs (hcheck s l hl) (hnext s l s₁ hs₁)) h
    case h_2 => cases h

/-- What holds of every step that is tried when the labels are taken one after the
other, up to the first that cannot be taken. -/
def AlongRun (next : σ → ℓ → Option σ) (P : σ → ℓ → Prop) : σ → List ℓ → Prop
  | _, [] => True
  | s, l :: ls => P s l ∧ ∀ s' ∈ next s l, AlongRun next P s' ls

instance decidableAlongRun (next : σ → ℓ → Option σ) (P : σ → ℓ → Prop)
    [∀ s l, Decidable (P s l)] : (s : σ) → (ls : List ℓ) → Decidable (AlongRun next P s ls)
  | _, [] => inferInstanceAs (Decidable True)
  | s, l :: ls =>
    have : ∀ s', Decidable (AlongRun next P s' ls) := fun s' => decidableAlongRun next P s' ls
    inferInstanceAs (Decidable (P s l ∧ ∀ s' ∈ next s l, AlongRun next P s' ls))

theorem AlongRun.mono {next : σ → ℓ → Option σ} {P Q : σ → ℓ → Prop} (hPQ : ∀ s l, P s l → Q s l)
    {s : σ} {ls : List ℓ} (h : AlongRun next P s ls) : AlongRun next Q s ls := by
  induction ls generalizing s with
  | nil => trivial
  | cons l ls ih => exact ⟨hPQ s l h.1, fun s' hs' => ih (h.2 s' hs')⟩

/-- Two conditions that agree on the states of an invariant agree along runs. -/
theorem alongRun_iff {next : σ → ℓ → Option σ} {P Q : σ → ℓ → Prop} (Inv : σ → Prop)
    (hstep : ∀ s l s', Inv s → next s l = some s' → Inv s')
    (h : ∀ s l, Inv s → (P s l ↔ Q s l)) {s : σ} (hs : Inv s) (ls : List ℓ) :
    AlongRun next P s ls ↔ AlongRun next Q s ls := by
  induction ls generalizing s with
  | nil => exact Iff.rfl
  | cons l ls ih =>
    unfold AlongRun
    apply and_congr (h s l hs)
    constructor
    · intro hrest s' hs'
      exact (ih (hstep s l s' hs hs')).mp (hrest s' hs')
    · intro hrest s' hs'
      exact (ih (hstep s l s' hs hs')).mpr (hrest s' hs')

end TransitionSystem

/-! ## Termination

`Acc r a`: no infinite descent along `r` starts at `a`. For a step relation `r b a`
says that `a` steps to `b`. -/

section Termination

variable {α : Type u} {r : α → α → Prop}

/-- A measure that goes down at every step from a state of the invariant. -/
theorem acc_of_measure {β : Type v} {lt : β → β → Prop} (hwf : WellFounded lt) (measure : α → β)
    (Inv : α → Prop) (hstep : ∀ a b, Inv a → r b a → Inv b ∧ lt (measure b) (measure a))
    {a : α} (ha : Inv a) : Acc r a := by
  generalize hm : measure a = m
  induction m using hwf.induction generalizing a with
  | _ m ih =>
    refine .intro a fun b hb => ?_
    rcases hstep a b ha hb with ⟨hinv, hlt⟩
    exact ih (measure b) (hm ▸ hlt) hinv rfl

/-- Steps that can go on for ever. -/
theorem not_acc_of_step (Inv : α → Prop) (hstep : ∀ a, Inv a → ∃ b, r b a ∧ Inv b) {a : α}
    (ha : Inv a) : ¬ Acc r a := by
  intro hacc
  induction hacc with
  | intro a _ ih =>
    rcases hstep a ha with ⟨b, hb, hinv⟩
    exact ih b hb hinv

/-- What a terminating state steps to terminates. -/
theorem acc_of_steps {a b : α} (h : Acc r a) (hsteps : Relation.ReflTransGen (fun a b => r b a) a b) :
    Acc r b := by
  induction hsteps with
  | refl => exact h
  | tail _ hstep ih => exact ih.inv hstep

/-- The measure of a loop over a list: one element that was still to be done is done. -/
theorem countP_lt_of_done {p q : α → Bool} {l : List α} (himp : ∀ x ∈ l, q x = true → p x = true)
    {a : α} (ha : a ∈ l) (hp : p a = true) (hq : q a = false) : l.countP q < l.countP p := by
  have hcount : l.countP q = (l.filter p).countP q := by
    rw [countP_filter]
    refine countP_congr fun x hx => ?_
    simpa using himp x hx
  rw [hcount, countP_eq_length_filter (p := p), countP_lt_length_iff]
  exact ⟨a, mem_filter.mpr ⟨ha, hp⟩, hq⟩

end Termination

end PittCs.Lib
