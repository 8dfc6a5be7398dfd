import PittCs.Cs2210.Meaning

/-!
# The pieces of expression code in a frame

Code that pushes a word leaves a state that represents the same variables with one free
word less. The pieces between the operands are put together here with the operands'
effects, once for the two directions that use them.
-/

namespace PittCs.Cs2210

open Function

/-! ## Free words -/

section Outside

variable {n : Nat} {p x : Word}

theorem not_outside_self : ¬ Outside (n + 1) p p := by
  unfold Outside
  omega

theorem Outside.push (h : Outside (n + 1) p x) (hp : 4 ≤ p.toNat) : Outside n (p - 4) x := by
  unfold Outside at *
  rw [sub_four_toNat hp]
  omega

theorem outside_sub_four (hp : 4 ≤ p.toNat) : Outside n (p - 4) p := by
  unfold Outside
  rw [sub_four_toNat hp]
  omega

end Outside

/-- Code that pushed one word. -/
structure Pushed (n : Nat) (v : Word) (m m' : Machine) : Prop where
  keeps : Keeps n (m.reg .sp) m m'
  sp : m'.reg .sp = m.reg .sp - 4
  top : m'.mem (m.reg .sp) = v

theorem sub_add_four (p : Word) : p - 4 + 4 = p := BitVec.sub_add_cancel p 4

section Represents

variable {Loc : Type} {L : Layout Loc} {s : Vars Loc} {n k : Nat} {m m' : Machine}

theorem Placed.of_reg {st : SymTab} {label : Nat → Word} {id : Nat} {path : List Sel} {x : Word}
    (h : Placed st label m id path x) (hreg : ∀ r, r ≠ .t0 → r ≠ .t1 → r ≠ .sp → m'.reg r = m.reg r) :
    Placed st label m' id path x := by
  cases h with
  | global hkind hnest hx => exact .global hkind hnest hx
  | frame hkind hnest hx =>
    refine .frame hkind hnest ?_
    rw [hreg .fp (by decide) (by decide) (by decide)]
    exact hx
  | qualified hkind hx => exact .qualified hkind hx
  | reference hkind hnest hreg' =>
    rw [← hreg (.a (st id).offset) (by simp) (by simp) (by simp)]
    exact .reference hkind hnest hreg'

/-- A state whose changes are in the free words represents the same variables, with
what is left of them. -/
theorem Represents.of_keeps {j : Nat} (h : Represents L (k + j) s m)
    (hk : Keeps (k + j) (m.reg .sp) m m') (hsp : (m'.reg .sp).toNat + 4 * j = (m.reg .sp).toNat) :
    Represents L k s m' := by
  have hroom := h.room
  have hlt := h.sp_lt
  have hal := h.sp_aligned
  refine ⟨?_, ?_, ?_, ?_, ?_, ?_, ?_, ?_⟩
  · omega
  · omega
  · omega
  · rw [hk.reg .fp (by decide) (by decide) (by decide)]
    exact h.fp_lt
  · intro l
    rw [hk.mem _ (h.free l), h.stored l]
  · intro l
    have hfree := h.free l
    unfold Outside at *
    omega
  · exact fun id path l hl => (h.placed id path l hl).of_reg hk.reg
  · intro id hid
    obtain ⟨hlt, harg⟩ := h.args id hid
    refine ⟨hlt, ?_⟩
    rw [hk.reg _ (by simp) (by simp) (by simp)]
    exact harg

theorem Represents.four_le (h : Represents L (k + 1) s m) : 4 ≤ (m.reg .sp).toNat := by
  have hroom := h.room
  omega

theorem Represents.pushed {v : Word} (h : Represents L (k + 1) s m) (hp : Pushed (k + 1) v m m') :
    Represents L k s m' := by
  have hfour := h.four_le
  apply h.of_keeps (j := 1) hp.keeps
  rw [hp.sp, sub_four_toNat hfour]
  omega

/-- A word pushed from a register. -/
theorem Represents.exec_push {r : Reg} {w : Word} (h : Represents L (k + 1) s m)
    (hr : m.get r = some w) :
    ∃ m', exec L.label (push r) m = some m' ∧ Pushed (k + 1) w m m' ∧ m'.reg .t0 = m.reg .t0 := by
  refine ⟨_, Cs2210.exec_push hr h.sp_aligned h.sp_lt, ⟨⟨?_, ?_⟩, ?_, ?_⟩, ?_⟩
  · intro r' h₀ h₁ hs
    rw [Machine.put_reg_of_ne _ _ hs, Machine.poke_reg]
  · intro x hx
    have hne : x ≠ m.reg .sp := by
      rintro rfl
      exact not_outside_self hx
    rw [Machine.put_mem, Machine.poke_mem_of_ne _ _ hne]
  · rw [Machine.put_reg_self]
  · rw [Machine.put_mem, Machine.poke_mem_self]
  · rw [Machine.put_reg_of_ne _ _ (by decide), Machine.poke_reg]

/-! ## Operators -/

/-- Two words pushed and an operator applied to them. -/
theorem Represents.exec_tail {x y : Word} {m₁ m₂ : Machine} (h : Represents L (k + 1) s m)
    (hx : Pushed (k + 1) x m m₁) (hy : Pushed k y m₁ m₂) (hk : 1 ≤ k) (o : BinOp) :
    ∃ f : Word → Machine, (∀ v, Pushed (k + 1) v m (f v)) ∧
      exec L.label o.tail m₂ = (o.trap x y).map f := by
  have h₁ := h.pushed hx
  have hfour := h.four_le
  have hroom := h.room
  have hlt := h.sp_lt
  have hal := h.sp_aligned
  have hp1 : m₁.reg .sp = m.reg .sp - 4 := hx.sp
  have hn1 : (m.reg .sp - 4).toNat = (m.reg .sp).toNat - 4 := sub_four_toNat hfour
  have hn2 : (m₂.reg .sp).toNat = (m.reg .sp).toNat - 8 := by
    rw [hy.sp, hp1, sub_four_toNat (by omega), hn1]
    omega
  have htop : m₂.reg .sp + 4 = m.reg .sp - 4 := by rw [hy.sp, hp1, sub_add_four]
  have hnext : m₂.reg .sp + 4 + 4 = m.reg .sp := by rw [htop, sub_add_four]
  have hkeep : Keeps (k + 1) (m.reg .sp) m m₂ := by
    apply hx.keeps.trans
    apply hy.keeps.mono
    intro z hz
    rw [hp1]
    exact hz.push hfour
  have hlower : m₂.mem (m.reg .sp) = x := by
    rw [hy.keeps.mem _ (by rw [hp1]; exact outside_sub_four hfour)]
    exact hx.top
  have hupper : m₂.mem (m.reg .sp - 4) = y := by
    rw [← hp1]
    exact hy.top
  obtain ⟨f, hf, hexec⟩ := @BinOp.exec_tail L.label m₂ o (by omega) (by omega)
  rw [hnext, htop, hlower, hupper] at hexec
  refine ⟨f, ?_, hexec⟩
  intro v
  obtain ⟨hsp, hw⟩ := hf v
  rw [hnext] at hw
  refine ⟨hkeep.trans (hw.keeps not_outside_self), ?_, ?_⟩
  · rw [hsp, htop]
  · rw [hw.mem, update_self]

theorem Represents.exec_negTail {x : Word} {m₁ : Machine} (h : Represents L (k + 1) s m)
    (hx : Pushed (k + 1) x m m₁) :
    ∃ m', exec L.label negTail m₁ = some m' ∧ Pushed (k + 1) (-x) m m' := by
  have h₁ := h.pushed hx
  have htop : m₁.reg .sp + 4 = m.reg .sp := by rw [hx.sp, sub_add_four]
  obtain ⟨m', hexec, hsp, hw⟩ := @Cs2210.exec_negTail L.label m₁ h₁.sp_aligned h₁.sp_lt
  rw [htop, hx.top] at hw
  refine ⟨m', hexec, hx.keeps.trans (hw.keeps not_outside_self), ?_, ?_⟩
  · rw [hsp, hx.sp]
  · rw [hw.mem, update_self]

theorem Represents.exec_derefCode {x : Word} {m₁ : Machine} (h : Represents L (k + 1) s m)
    (hx : Pushed (k + 1) x m m₁) (hal : x.toNat % 4 = 0) :
    ∃ m', exec L.label derefCode m₁ = some m' ∧ Pushed (k + 1) (m₁.mem x) m m' := by
  have h₁ := h.pushed hx
  have htop : m₁.reg .sp + 4 = m.reg .sp := by rw [hx.sp, sub_add_four]
  have hal' : (m₁.mem (m₁.reg .sp + 4)).toNat % 4 = 0 := by
    rw [htop, hx.top]
    exact hal
  obtain ⟨m', hexec, hsp, hw⟩ := @Cs2210.exec_derefCode L.label m₁ h₁.sp_aligned h₁.sp_lt hal'
  rw [htop, hx.top] at hw
  refine ⟨m', hexec, hx.keeps.trans (hw.keeps not_outside_self), ?_, ?_⟩
  · rw [hsp, hx.sp]
  · rw [hw.mem, update_self]

/-! ## Selectors -/

/-- Code that added to the word at the top. -/
structure Raised (n : Nat) (d : Word) (m m' : Machine) : Prop where
  keeps : Keeps (n + 1) (m.reg .sp + 4) m m'
  sp : m'.reg .sp = m.reg .sp
  top : m'.mem (m.reg .sp + 4) = m.mem (m.reg .sp + 4) + d

theorem raised_refl (n : Nat) (m : Machine) : Raised n 0 m m :=
  ⟨⟨fun _ _ _ _ => rfl, fun _ _ => rfl⟩, rfl, (BitVec.add_zero _).symm⟩

theorem Raised.trans {d d' : Word} {m₁ m₂ m₃ : Machine} (h : Raised n d m₁ m₂)
    (h' : Raised n d' m₂ m₃) : Raised n (d + d') m₁ m₃ := by
  have hkeeps := h'.keeps
  have htop := h'.top
  rw [h.sp] at hkeeps htop
  refine ⟨h.keeps.trans hkeeps, h'.sp.trans h.sp, ?_⟩
  rw [htop, h.top, BitVec.add_assoc]

theorem Outside.raise {p x : Word} (hp : p.toNat < 2 ^ 31) (hx : Outside (n + 1) (p + 4) x) :
    Outside n p x := by
  unfold Outside at *
  rw [add_four_toNat hp] at hx
  omega

/-- Words that were free before the top was pushed are free after it was raised. -/
theorem Represents.raised {d : Word} (h : Represents L n s m)
    (hfree : ∀ l, Outside (n + 1) (m.reg .sp + 4) (L.addr l)) (hr : Raised n d m m') :
    Represents L n s m' := by
  refine ⟨?_, ?_, ?_, ?_, ?_, ?_, ?_, ?_⟩
  · rw [hr.sp]
    exact h.room
  · rw [hr.sp]
    exact h.sp_lt
  · rw [hr.sp]
    exact h.sp_aligned
  · rw [hr.keeps.reg .fp (by decide) (by decide) (by decide)]
    exact h.fp_lt
  · intro l
    rw [hr.keeps.mem _ (hfree l), h.stored l]
  · intro l
    rw [hr.sp]
    exact h.free l
  · exact fun id path l hl => (h.placed id path l hl).of_reg hr.keeps.reg
  · intro id hid
    obtain ⟨hlt, harg⟩ := h.args id hid
    refine ⟨hlt, ?_⟩
    rw [hr.keeps.reg _ (by simp) (by simp) (by simp)]
    exact harg

theorem Represents.exec_fieldCode (h : Represents L n s m) (id : Nat) :
    ∃ f : Word → Machine,
      exec L.label (fieldCode L.st id) m =
        (addTrap (m.mem (m.reg .sp + 4)) (BitVec.ofNat 32 (L.st id).offset)).map f ∧
      ∀ v, v = m.mem (m.reg .sp + 4) + BitVec.ofNat 32 (L.st id).offset →
        Raised n (BitVec.ofNat 32 (L.st id).offset) m (f v) := by
  obtain ⟨f, hf, hexec⟩ := @Cs2210.exec_fieldCode L.label m L.st id h.sp_aligned h.sp_lt
  refine ⟨f, hexec, ?_⟩
  intro v hv
  obtain ⟨hsp, hw⟩ := hf v
  refine ⟨hw.keeps not_outside_self, hsp, ?_⟩
  rw [hw.mem, update_self, hv]

theorem Represents.exec_indexTail {i : Word} {m₁ : Machine} (h : Represents L (k + 1) s m)
    (hi : Pushed (k + 1) i m m₁) :
    ∃ f : Word → Machine,
      exec L.label indexTail m₁ = (addTrap (m.mem (m.reg .sp + 4)) (4 * i)).map f ∧
      ∀ v, v = m.mem (m.reg .sp + 4) + 4 * i → Raised (k + 1) (4 * i) m (f v) := by
  have h₁ := h.pushed hi
  have hlt := h.sp_lt
  have hfour := h.four_le
  have htop : m₁.reg .sp + 4 = m.reg .sp := by rw [hi.sp, sub_add_four]
  have hlt₁ : (m₁.reg .sp).toNat + 4 < 2 ^ 31 := by
    rw [hi.sp, sub_four_toNat hfour]
    omega
  have habove : Outside (k + 1) (m.reg .sp) (m.reg .sp + 4) := by
    left
    rw [add_four_toNat hlt]
    omega
  have hacc : m₁.mem (m.reg .sp + 4) = m.mem (m.reg .sp + 4) := hi.keeps.mem _ habove
  obtain ⟨f, hf, hexec⟩ := @Cs2210.exec_indexTail L.label m₁ h₁.sp_aligned hlt₁
  rw [htop, hi.top, hacc] at hexec
  refine ⟨f, hexec, ?_⟩
  intro v hv
  obtain ⟨hsp, hw⟩ := hf v
  rw [htop] at hw hsp
  refine ⟨?_, hsp, ?_⟩
  · apply Keeps.trans _ (hw.keeps not_outside_self)
    exact hi.keeps.mono fun x hx => hx.raise hlt
  · rw [hw.mem, update_self, hv]

end Represents

end PittCs.Cs2210
