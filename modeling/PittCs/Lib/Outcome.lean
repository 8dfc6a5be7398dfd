import Mathlib.Logic.Basic

/-!
# Pre- and postconditions for computations that may fail

`Ensures x Q`: if `x` returns, its result satisfies `Q`. `Returns x Q`: `x` does
return, with a result that satisfies `Q`. Both come with the rules for `pure`,
`bind` and loops.
-/

namespace PittCs.Lib

open List

universe u v w

variable {ε : Type u} {α β : Type v}

theorem ok_bind (a : α) (f : α → Except ε β) : (Except.ok a >>= f) = f a := rfl

variable {x : Except ε α} {f : α → Except ε β}

/-- A sequence of two computations returns when both do. -/
theorem bind_eq_ok {b : β} : (x >>= f) = .ok b ↔ ∃ a, x = .ok a ∧ f a = .ok b := by
  cases x with
  | error e =>
    constructor
    · intro h
      cases h
    · rintro ⟨a, ha, -⟩
      cases ha
  | ok a =>
    constructor
    · intro h
      exact ⟨a, rfl, h⟩
    · rintro ⟨a', ha, hf⟩
      cases ha
      exact hf

theorem ok_of_toOption {a : α} (h : x.toOption = some a) : x = .ok a := by
  cases x with
  | error e => cases h
  | ok a' =>
    cases h
    rfl

/-- A check that throws, passed. -/
theorem guard_eq_ok {c : Prop} [Decidable c] {e : ε} {f : PUnit → Except ε α} {a : α}
    (h : (if c then (throw e : Except ε PUnit) >>= f else f ⟨⟩) = .ok a) :
    ¬ c ∧ f ⟨⟩ = .ok a := by
  split at h
  · cases h
  case isFalse hc => exact ⟨hc, h⟩

/-- Two computations that go on alike. -/
theorem ite_bind_eq_ok {c : Prop} [Decidable c] {y : Except ε α} {b : β}
    (h : (if c then x >>= f else y >>= f) = .ok b) :
    ∃ a, (if c then x else y) = .ok a ∧ f a = .ok b := by
  split at h
  case isTrue hc =>
    rcases bind_eq_ok.mp h with ⟨a, ha, hf⟩
    exact ⟨a, by rw [if_pos hc, ha], hf⟩
  case isFalse hc =>
    rcases bind_eq_ok.mp h with ⟨a, ha, hf⟩
    exact ⟨a, by rw [if_neg hc, ha], hf⟩

/-- If `x` returns, then with `Q`. -/
def Ensures (x : Except ε α) (Q : α → Prop) : Prop := ∀ a, x = .ok a → Q a

/-- `x` returns, with `Q`. -/
def Returns (x : Except ε α) (Q : α → Prop) : Prop := ∃ a, x = .ok a ∧ Q a

theorem ensures_ok {a : α} {Q : α → Prop} (h : Q a) : Ensures (.ok a : Except ε α) Q := by
  intro a' ha
  cases ha
  exact h

theorem Ensures.bind {P : α → Prop} {Q : β → Prop} (hx : Ensures x P)
    (hf : ∀ a, P a → Ensures (f a) Q) : Ensures (x >>= f) Q := by
  intro b hb
  rcases bind_eq_ok.mp hb with ⟨a, ha, hfa⟩
  exact hf a (hx a ha) b hfa

theorem returns_ok {a : α} {Q : α → Prop} (h : Q a) : Returns (.ok a : Except ε α) Q :=
  ⟨a, rfl, h⟩

theorem Returns.bind {P : α → Prop} {Q : β → Prop} (hx : Returns x P)
    (hf : ∀ a, P a → Returns (f a) Q) : Returns (x >>= f) Q := by
  rcases hx with ⟨a, ha, hP⟩
  rcases hf a hP with ⟨b, hb, hQ⟩
  exact ⟨b, bind_eq_ok.mpr ⟨a, ha, hb⟩, hQ⟩

theorem Returns.mono {P Q : α → Prop} (hx : Returns x P) (h : ∀ a, P a → Q a) : Returns x Q := by
  rcases hx with ⟨a, ha, hP⟩
  exact ⟨a, ha, h a hP⟩

/-- A loop over the elements of `l` that returns in each turn. `Inv` speaks of the
elements that are done. -/
theorem Returns.foldlM {f : β → α → Except ε β} (Inv : List α → β → Prop) {l : List α} {b : β}
    (hb : Inv [] b)
    (hstep : ∀ pre a post, l = pre ++ a :: post → ∀ b, Inv pre b →
      Returns (f b a) (Inv (pre ++ [a]))) :
    Returns (l.foldlM f b) (Inv l) := by
  induction l generalizing b Inv with
  | nil => exact returns_ok hb
  | cons a l ih =>
    rw [foldlM_cons]
    refine (hstep [] a l rfl b hb).bind fun b' hb' => ?_
    refine ih (fun done => Inv (a :: done)) hb' ?_
    intro pre a' post hl b'' hb''
    exact hstep (a :: pre) a' post (by rw [hl]; rfl) b'' hb''

/-- A loop that counts. -/
theorem Returns.foldlM_range {γ : Type} {f : γ → Nat → Except ε γ} (Inv : Nat → γ → Prop) {n : Nat}
    {c : γ} (hc : Inv 0 c) (hstep : ∀ i, i < n → ∀ c, Inv i c → Returns (f c i) (Inv (i + 1))) :
    Returns ((List.range n).foldlM f c) (Inv n) := by
  have hloop := Returns.foldlM (fun done => Inv done.length) hc (l := List.range n) (f := f)
    (by
      intro pre i post hl c' hc'
      have hi : (List.range n)[pre.length]? = some i := by
        rw [hl, List.getElem?_append_right (Nat.le_refl _)]
        simp
      rcases List.getElem?_eq_some_iff.mp hi with ⟨hlt, hval⟩
      rw [List.getElem_range] at hval
      rw [length_range] at hlt
      subst hval
      rw [length_append]
      exact hstep pre.length hlt c' hc')
  rw [length_range] at hloop
  exact hloop

/-- A loop keeps what each turn keeps. -/
theorem Ensures.foldlM {f : β → α → Except ε β} {Inv : β → Prop} {l : List α}
    (hstep : ∀ b, ∀ a ∈ l, Inv b → Ensures (f b a) Inv) {b : β} (hb : Inv b) :
    Ensures (l.foldlM f b) Inv := by
  induction l generalizing b with
  | nil => exact ensures_ok hb
  | cons a l ih =>
    rw [foldlM_cons]
    refine (hstep b a (mem_cons_self ..) hb).bind fun b' hb' => ?_
    exact ih (fun b'' a' ha' => hstep b'' a' (mem_cons_of_mem _ ha')) hb'

/-- A loop that returns keeps what each turn that returns keeps. -/
theorem foldlM_eq_ok {motive : β → Prop} {f : β → α → Except ε β} {l : List α} {b b' : β}
    (h : l.foldlM f b = .ok b') (hb : motive b)
    (hstep : ∀ b, ∀ a ∈ l, motive b → ∀ b', f b a = .ok b' → motive b') : motive b' := by
  have hkeep : Ensures (l.foldlM f b) motive := .foldlM hstep hb
  exact hkeep b' h

end PittCs.Lib
