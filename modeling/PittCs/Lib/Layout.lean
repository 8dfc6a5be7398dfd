import Mathlib.Data.List.Basic
import Mathlib.Tactic.Linarith

/-!
# Consecutive segments

A list of segments that lie one after the other, with a size for each. `layout`
gives each segment the offset at which it starts. The facts used about it are
how it splits along an append, that it is determined by the prefix before a
segment, and that segments do not overlap.
-/

namespace PittCs.Lib

open List

variable {α : Type*} (size : α → Nat)

/-- The space a list of segments takes. -/
def total : List α → Nat
  | [] => 0
  | a :: l => size a + total l

/-- Every segment with its offset, the first one at `off`. -/
def layout : Nat → List α → List (Nat × α)
  | _, [] => []
  | off, a :: l => (off, a) :: layout (off + size a) l

@[simp] theorem total_nil : total size [] = 0 := rfl

@[simp] theorem total_cons (a : α) (l : List α) : total size (a :: l) = size a + total size l := rfl

@[simp] theorem total_append (l l' : List α) :
    total size (l ++ l') = total size l + total size l' := by
  induction l with
  | nil => simp
  | cons a l ih =>
    simp only [cons_append, total_cons, ih]
    omega

@[simp] theorem layout_nil (off : Nat) : layout size off [] = [] := rfl

@[simp] theorem layout_cons (off : Nat) (a : α) (l : List α) :
    layout size off (a :: l) = (off, a) :: layout size (off + size a) l := rfl

theorem layout_append (off : Nat) (l l' : List α) :
    layout size off (l ++ l') = layout size off l ++ layout size (off + total size l) l' := by
  induction l generalizing off with
  | nil => simp
  | cons a l ih =>
    simp only [cons_append, layout_cons, ih, total_cons, Nat.add_assoc]

variable {off : Nat} {l : List α}

/-- A segment starts where the segments before it end. -/
theorem mem_layout_iff {o : Nat} {a : α} :
    (o, a) ∈ layout size off l ↔ ∃ pre post, l = pre ++ a :: post ∧ o = off + total size pre := by
  induction l generalizing off with
  | nil => simp
  | cons b l ih =>
    rw [layout_cons, mem_cons, ih]
    constructor
    · rintro (h | ⟨pre, post, hl, ho⟩)
      · cases h
        exact ⟨[], l, rfl, by simp⟩
      · refine ⟨b :: pre, post, by rw [hl]; rfl, ?_⟩
        rw [ho, total_cons, Nat.add_assoc]
    · rintro ⟨pre, post, hl, ho⟩
      cases pre with
      | nil =>
        cases hl
        exact .inl (by simp [ho])
      | cons c pre =>
        cases hl
        exact .inr ⟨pre, post, rfl, by rw [ho, total_cons, Nat.add_assoc]⟩

theorem mem_of_mem_layout {o : Nat} {a : α} (h : (o, a) ∈ layout size off l) : a ∈ l := by
  rcases (mem_layout_iff size).mp h with ⟨pre, post, hl, -⟩
  simp [hl]

/-- No segment starts before `off`. -/
theorem le_of_mem_layout {o : Nat} {a : α} (h : (o, a) ∈ layout size off l) : off ≤ o := by
  rcases (mem_layout_iff size).mp h with ⟨pre, post, -, ho⟩
  omega

/-- No segment ends after the last one. -/
theorem end_le_of_mem_layout {o : Nat} {a : α} (h : (o, a) ∈ layout size off l) :
    o + size a ≤ off + total size l := by
  rcases (mem_layout_iff size).mp h with ⟨pre, post, hl, ho⟩
  rw [hl, total_append, total_cons]
  omega

/-- Segments do not overlap: two that share a position are the same. -/
theorem layout_eq_of_overlap {x y : Nat × α} (hx : x ∈ layout size off l)
    (hy : y ∈ layout size off l) {i j : Nat} (hi : i < size x.2) (hj : j < size y.2)
    (h : x.1 + i = y.1 + j) : x = y := by
  induction l generalizing off with
  | nil => cases hx
  | cons a l ih =>
    rcases mem_cons.mp hx with rfl | hx
    · rcases mem_cons.mp hy with rfl | hy
      · rfl
      · have hle := le_of_mem_layout size hy
        dsimp only at *
        omega
    · rcases mem_cons.mp hy with rfl | hy
      · have hle := le_of_mem_layout size hx
        dsimp only at *
        omega
      · exact ih hx hy

/-- One of two different segments ends before the other starts. -/
theorem layout_disjoint {x y : Nat × α} (hx : x ∈ layout size off l) (hy : y ∈ layout size off l)
    (hne : x ≠ y) : x.1 + size x.2 ≤ y.1 ∨ y.1 + size y.2 ≤ x.1 := by
  induction l generalizing off with
  | nil => cases hx
  | cons a l ih =>
    rcases mem_cons.mp hx with rfl | hx
    · rcases mem_cons.mp hy with rfl | hy
      · exact absurd rfl hne
      · exact .inl (le_of_mem_layout size hy)
    · rcases mem_cons.mp hy with rfl | hy
      · exact .inr (le_of_mem_layout size hx)
      · exact ih hx hy

end PittCs.Lib
