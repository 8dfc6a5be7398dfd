import Mathlib.Algebra.Group.Int.Defs
import Mathlib.Algebra.GroupWithZero.Nat
import Mathlib.Data.List.Basic

/-!
# The target machine

The part of MIPS32 the code generator uses, with the pseudo-instructions of SPIM as
single steps. `add`, `sub` and `addi` trap when the signed result does not fit. A step
that traps, or that the architecture leaves undefined, has no result: an overflow, a
division by zero, an address that is not aligned, and a register `$a4` or above, which
the assembler rejects.
-/

namespace PittCs.Cs2210

open Option

abbrev Word := BitVec 32

inductive Reg where
  | zero
  | t0
  | t1
  | sp
  | fp
  | ra
  | v0
  | a (n : Nat)
  deriving DecidableEq

inductive Cond where
  | slt
  | sgt
  | seq
  | sne
  | sle
  | sge
  deriving DecidableEq

/-- Instructions without labels. -/
inductive Instr where
  | li (d : Reg) (n : Word)
  | la (d : Reg) (id : Nat)
  | move (d s : Reg)
  | lw (d : Reg) (off : Word) (b : Reg)
  | sw (s : Reg) (off : Word) (b : Reg)
  | addi (d s : Reg) (n : Word)
  | add (d s t : Reg)
  | sub (d s t : Reg)
  | mult (s t : Reg)
  | div (s t : Reg)
  | mflo (d : Reg)
  | set (c : Cond) (d s t : Reg)
  deriving DecidableEq

structure Machine where
  reg : Reg → Word
  lo : Word
  mem : Word → Word

/-- Signed comparison, as `0` or `1`. -/
def Cond.test : Cond → Word → Word → Word
  | .slt, x, y => if x.toInt < y.toInt then 1 else 0
  | .sgt, x, y => if y.toInt < x.toInt then 1 else 0
  | .seq, x, y => if x = y then 1 else 0
  | .sne, x, y => if x = y then 0 else 1
  | .sle, x, y => if x.toInt ≤ y.toInt then 1 else 0
  | .sge, x, y => if y.toInt ≤ x.toInt then 1 else 0

/-- Signed addition that traps. -/
def addTrap (x y : Word) : Option Word := if x.saddOverflow y then none else some (x + y)

/-- Signed subtraction that traps. -/
def subTrap (x y : Word) : Option Word := if x.ssubOverflow y then none else some (x - y)

namespace Machine

/-- The value of a register. -/
def get (m : Machine) : Reg → Option Word
  | .zero => some 0
  | .a n => if n < 4 then some (m.reg (.a n)) else none
  | r => some (m.reg r)

/-- The machine with another value in a register. -/
def put (m : Machine) (d : Reg) (w : Word) : Machine := { m with reg := Function.update m.reg d w }

/-- The machine with another word in memory. -/
def poke (m : Machine) (x w : Word) : Machine := { m with mem := Function.update m.mem x w }

/-- A register written. -/
def set (m : Machine) (d : Reg) (w : Word) : Option Machine :=
  match d with
  | .zero => some m
  | .a n => if n < 4 then some (m.put (.a n) w) else none
  | d => some (m.put d w)

/-- A word of memory. -/
def load (m : Machine) (x : Word) : Option Word :=
  if x.toNat % 4 = 0 then some (m.mem x) else none

/-- A word of memory written. -/
def store (m : Machine) (x w : Word) : Option Machine :=
  if x.toNat % 4 = 0 then some (m.poke x w) else none

@[simp] theorem put_reg_self (m : Machine) (d : Reg) (w : Word) : (m.put d w).reg d = w := by
  simp [put]

theorem put_reg_of_ne (m : Machine) {d r : Reg} (w : Word) (h : r ≠ d) :
    (m.put d w).reg r = m.reg r := by
  simp [put, h]

theorem put_reg (m : Machine) (d : Reg) (w : Word) (r : Reg) :
    (m.put d w).reg r = if r = d then w else m.reg r := by
  simp [put, Function.update_apply]

@[simp] theorem put_mem (m : Machine) (d : Reg) (w : Word) : (m.put d w).mem = m.mem := rfl
@[simp] theorem put_lo (m : Machine) (d : Reg) (w : Word) : (m.put d w).lo = m.lo := rfl

@[simp] theorem poke_mem_self (m : Machine) (x w : Word) : (m.poke x w).mem x = w := by
  simp [poke]

theorem poke_mem_of_ne (m : Machine) {x y : Word} (w : Word) (h : y ≠ x) :
    (m.poke x w).mem y = m.mem y := by
  simp [poke, h]

@[simp] theorem poke_reg (m : Machine) (x w : Word) : (m.poke x w).reg = m.reg := rfl

@[simp] theorem get_zero (m : Machine) : m.get .zero = some 0 := rfl
@[simp] theorem get_t0 (m : Machine) : m.get .t0 = some (m.reg .t0) := rfl
@[simp] theorem get_t1 (m : Machine) : m.get .t1 = some (m.reg .t1) := rfl
@[simp] theorem get_sp (m : Machine) : m.get .sp = some (m.reg .sp) := rfl
@[simp] theorem get_fp (m : Machine) : m.get .fp = some (m.reg .fp) := rfl

@[simp] theorem set_t0 (m : Machine) (w : Word) :
    m.set .t0 w = some (m.put .t0 w) := rfl
@[simp] theorem set_t1 (m : Machine) (w : Word) :
    m.set .t1 w = some (m.put .t1 w) := rfl
@[simp] theorem set_sp (m : Machine) (w : Word) :
    m.set .sp w = some (m.put .sp w) := rfl
@[simp] theorem set_ra (m : Machine) (w : Word) :
    m.set .ra w = some (m.put .ra w) := rfl

theorem load_aligned {m : Machine} {x : Word} (h : x.toNat % 4 = 0) :
    m.load x = some (m.mem x) := if_pos h

theorem store_aligned {m : Machine} {x w : Word} (h : x.toNat % 4 = 0) :
    m.store x w = some (m.poke x w) := if_pos h

end Machine

/-- One instruction; `label` gives the addresses of the variables in the data section. -/
def step (label : Nat → Word) (i : Instr) (m : Machine) : Option Machine :=
  match i with
  | .li d n => m.set d n
  | .la d id => m.set d (label id)
  | .move d s => (m.get s).bind (m.set d)
  | .lw d off b => (m.get b).bind fun x => (m.load (x + off)).bind (m.set d)
  | .sw s off b => (m.get b).bind fun x => (m.get s).bind (m.store (x + off))
  | .addi d s n => (m.get s).bind fun x => (addTrap x n).bind (m.set d)
  | .add d s t => (m.get s).bind fun x => (m.get t).bind fun y => (addTrap x y).bind (m.set d)
  | .sub d s t => (m.get s).bind fun x => (m.get t).bind fun y => (subTrap x y).bind (m.set d)
  | .mult s t => (m.get s).bind fun x => (m.get t).map fun y => { m with lo := x * y }
  | .div s t => (m.get s).bind fun x => (m.get t).bind fun y =>
    if y = 0 then none else some { m with lo := x.sdiv y }
  | .mflo d => m.set d m.lo
  | .set c d s t => (m.get s).bind fun x => (m.get t).bind fun y => m.set d (c.test x y)

/-- Instructions one after the other. -/
def exec (label : Nat → Word) : List Instr → Machine → Option Machine
  | [], m => some m
  | i :: is, m => (step label i m).bind (exec label is)

variable {label : Nat → Word}

theorem exec_append (is js : List Instr) (m : Machine) :
    exec label (is ++ js) m = (exec label is m).bind (exec label js) := by
  induction is generalizing m with
  | nil => rfl
  | cons i is ih =>
    simp only [List.cons_append, exec]
    cases step label i m with
    | none => rfl
    | some m' => exact ih m'

theorem exec_append_some {is js : List Instr} {m m' : Machine}
    (h : exec label (is ++ js) m = some m') :
    ∃ m₁, exec label is m = some m₁ ∧ exec label js m₁ = some m' := by
  rw [exec_append] at h
  exact bind_eq_some_iff.mp h

/-! ## The stack pointer -/

/-- The register an instruction writes. -/
def Instr.dest : Instr → Option Reg
  | .li d _ => some d
  | .la d _ => some d
  | .move d _ => some d
  | .lw d _ _ => some d
  | .sw _ _ _ => none
  | .addi d _ _ => some d
  | .add d _ _ => some d
  | .sub d _ _ => some d
  | .mult _ _ => none
  | .div _ _ => none
  | .mflo d => some d
  | .set _ d _ _ => some d

/-- The change of the stack pointer by an instruction, which may write it by `addi`
only. -/
def Instr.shift : Instr → Option Int
  | .addi .sp .sp n => some n.toInt
  | i => if i.dest = some .sp then none else some 0

/-- The change of the stack pointer by a sequence. -/
def shift : List Instr → Option Int
  | [] => some 0
  | i :: is => i.shift.bind fun x => (shift is).map (x + ·)

theorem Machine.set_reg_of_ne {m m' : Machine} {d r : Reg} {w : Word} (h : m.set d w = some m')
    (hr : r ≠ d) : m'.reg r = m.reg r := by
  unfold Machine.set at h
  split at h
  · rw [← some.inj h]
  · split at h
    · rw [← some.inj h]
      exact m.put_reg_of_ne w hr
    · exact absurd h nofun
  · rw [← some.inj h]
    exact m.put_reg_of_ne w hr

theorem Machine.store_reg {m m' : Machine} {x w : Word} (h : m.store x w = some m') :
    m'.reg = m.reg := by
  unfold Machine.store at h
  split at h
  · rw [← some.inj h, Machine.poke_reg]
  · exact absurd h nofun

/-- A register that an instruction does not write is the same after it. -/
theorem step_reg_of_ne {i : Instr} {m m' : Machine} {r : Reg} (h : step label i m = some m')
    (hr : i.dest ≠ some r) : m'.reg r = m.reg r := by
  have hne {d : Reg} (hd : some d ≠ some r) : r ≠ d := fun hrd => hd (congrArg some hrd.symm)
  cases i with
  | li d n | la d id | mflo d => exact Machine.set_reg_of_ne h (hne hr)
  | move d s =>
    obtain ⟨_, _, h⟩ := bind_eq_some_iff.mp h
    exact Machine.set_reg_of_ne h (hne hr)
  | lw d off b | addi d s n | set c d s t =>
    obtain ⟨_, _, h⟩ := bind_eq_some_iff.mp h
    obtain ⟨_, _, h⟩ := bind_eq_some_iff.mp h
    exact Machine.set_reg_of_ne h (hne hr)
  | sw s off b =>
    obtain ⟨_, _, h⟩ := bind_eq_some_iff.mp h
    obtain ⟨_, _, h⟩ := bind_eq_some_iff.mp h
    rw [Machine.store_reg h]
  | add d s t | sub d s t =>
    obtain ⟨_, _, h⟩ := bind_eq_some_iff.mp h
    obtain ⟨_, _, h⟩ := bind_eq_some_iff.mp h
    obtain ⟨_, _, h⟩ := bind_eq_some_iff.mp h
    exact Machine.set_reg_of_ne h (hne hr)
  | mult s t =>
    obtain ⟨_, _, h⟩ := bind_eq_some_iff.mp h
    obtain ⟨_, _, rfl⟩ := map_eq_some_iff.mp h
    rfl
  | div s t =>
    obtain ⟨_, _, h⟩ := bind_eq_some_iff.mp h
    obtain ⟨_, _, h⟩ := bind_eq_some_iff.mp h
    split at h
    · exact absurd h nofun
    · rw [← some.inj h]

theorem addTrap_toInt {x y z : Word} (h : addTrap x y = some z) : z.toInt = x.toInt + y.toInt := by
  unfold addTrap at h
  split at h
  · exact absurd h nofun
  · rename_i hno
    rw [← some.inj h]
    exact BitVec.toInt_add_of_not_saddOverflow hno

theorem step_shift {i : Instr} {m m' : Machine} {x : Int} (h : step label i m = some m')
    (hx : i.shift = some x) : (m'.reg .sp).toInt = (m.reg .sp).toInt + x := by
  unfold Instr.shift at hx
  split at hx
  · -- `addi` has trapped if the sum is not the sum of the integers
    obtain ⟨z, hz, h⟩ := bind_eq_some_iff.mp h
    obtain rfl := some.inj h
    obtain rfl := some.inj hx
    simpa using addTrap_toInt hz
  · split at hx
    · exact absurd hx nofun
    · rename_i hd
      obtain rfl := some.inj hx
      rw [step_reg_of_ne h hd, Int.add_zero]

theorem exec_shift {is : List Instr} {m m' : Machine} {x : Int} (h : exec label is m = some m')
    (hx : shift is = some x) : (m'.reg .sp).toInt = (m.reg .sp).toInt + x := by
  induction is generalizing m x with
  | nil =>
    obtain rfl := some.inj h
    obtain rfl := some.inj hx
    rw [Int.add_zero]
  | cons i is ih =>
    obtain ⟨m₁, h₁, h⟩ := bind_eq_some_iff.mp h
    obtain ⟨y, hy, hx⟩ := bind_eq_some_iff.mp hx
    obtain ⟨z, hz, rfl⟩ := map_eq_some_iff.mp hx
    rw [ih h hz, step_shift h₁ hy, Int.add_assoc]

theorem shift_append {is js : List Instr} {x y : Int} (hx : shift is = some x)
    (hy : shift js = some y) : shift (is ++ js) = some (x + y) := by
  induction is generalizing x with
  | nil =>
    obtain rfl := some.inj hx
    rw [List.nil_append, hy, Int.zero_add]
  | cons i is ih =>
    obtain ⟨z, hz, hx⟩ := bind_eq_some_iff.mp hx
    obtain ⟨w, hw, rfl⟩ := map_eq_some_iff.mp hx
    simp only [List.cons_append, shift, hz, bind_some, ih hw, map_some, Int.add_assoc]

end PittCs.Cs2210
