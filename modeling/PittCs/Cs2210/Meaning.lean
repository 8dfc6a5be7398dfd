import PittCs.Cs2210.GenExpression

/-!
# The meaning of expressions and the layout of their variables

Integer variables, array elements and fields are locations. A variable of the source
names a location by a symbol and the selectors behind it, with the values of their
indices; parameters by value are held apart. A machine state represents values of the
locations and parameters when every location has its own word at the address that its
label, its place in the frame or the register of a reference parameter gives, outside
the part of the stack that is free.
-/

namespace PittCs.Cs2210

open Option

/-! ## Values -/

/-- A selector with the value of its index. -/
inductive Sel where
  | field (id : Nat)
  | index (i : Nat)
  deriving DecidableEq

/-- The values of the variables. -/
structure Vars (Loc : Type) where
  store : Loc → Word
  args : Nat → Word

/-- The declarations a method sees, and where the compiler put them. -/
structure Layout (Loc : Type) where
  st : SymTab
  label : Nat → Word
  addr : Loc → Word
  place : Nat → List Sel → Option Loc
  params : List Nat
  addr_inj : Function.Injective addr
  addr_aligned : ∀ l, (addr l).toNat % 4 = 0
  addr_lt : ∀ l, (addr l).toNat < 2 ^ 31
  /-- Two parameters never share a register. -/
  reg_inj : ∀ id ∈ params, ∀ id', id' ∈ params ∨ (st id').kind = .REF_ARG ∧ (place id' []).isSome →
    (st id).offset = (st id').offset → id = id'

/-- A truth value. -/
def ofProp (p : Prop) [Decidable p] : Word := if p then 1 else 0

/-- An operator in 32-bit arithmetic. -/
def BinOp.apply : BinOp → Word → Word → Option Word
  | .AddOp, x, y => some (x + y)
  | .SubOp, x, y => some (x - y)
  | .MultOp, x, y => some (x * y)
  | .DivOp, x, y => if y = 0 then none else some (x.sdiv y)
  | .LTOp, x, y => some (ofProp (x.toInt < y.toInt))
  | .GTOp, x, y => some (ofProp (x.toInt > y.toInt))
  | .EQOp, x, y => some (ofProp (x = y))
  | .NEOp, x, y => some (ofProp (x ≠ y))
  | .LEOp, x, y => some (ofProp (x.toInt ≤ y.toInt))
  | .GEOp, x, y => some (ofProp (x.toInt ≥ y.toInt))

def Sels.isNil : Sels → Bool
  | .nil => true
  | _ => false

def Sels.isField : Sels → Bool
  | .field _ _ => true
  | _ => false

def Exprs.isNil : Exprs → Bool
  | .nil => true
  | _ => false

section Value

variable {Loc : Type} (L : Layout Loc) (s : Vars Loc)

mutual

/-- The value of an expression. It has none when a division by zero occurs, or an
element or a field that does not exist. Arrays have one dimension. -/
@[grind =] def Expr.value : Expr → Option Word
  | .num n => some n
  | .bin o l r => l.value.bind fun x => r.value.bind fun y => o.apply x y
  | .unaryNeg e => e.value.map fun x => -x
  | .and l r => l.value.bind fun x => r.value.map fun y => ofProp (x ≠ 0 ∧ y ≠ 0)
  | .or l r => l.value.bind fun x => r.value.map fun y => ofProp (x ≠ 0 ∨ y ≠ 0)
  | .not e => e.value.map fun x => ofProp (x = 0)
  | .var id sels =>
    if (L.st id).kind = .VALUE_ARG then
      if id ∈ L.params ∧ sels.isNil then some (s.args id) else none
    else (sels.path.bind (L.place id)).map s.store

/-- The selectors with the values of their indices. -/
def Sels.path : Sels → Option (List Sel)
  | .nil => some []
  | .field id rest => rest.path.map (.field id :: ·)
  | .index e more rest =>
    if more.isNil then e.value.bind fun i => rest.path.map (.index i.toNat :: ·) else none

end

end Value

/-! ## Conditions on expressions -/

mutual

/-- No `&&`, `||` or `!`. -/
def Expr.NoLogic : Expr → Prop
  | .num _ => True
  | .bin _ l r => l.NoLogic ∧ r.NoLogic
  | .unaryNeg e => e.NoLogic
  | .and _ _ => False
  | .or _ _ => False
  | .not _ => False
  | .var _ sels => sels.NoLogic

def Sels.NoLogic : Sels → Prop
  | .nil => True
  | .field _ rest => rest.NoLogic
  | .index e _ rest => e.NoLogic ∧ rest.NoLogic

end

/-- A sum or difference that is out of the signed range. -/
def BinOp.Overflows : BinOp → Word → Word → Prop
  | .AddOp, x, y => x.saddOverflow y = true
  | .SubOp, x, y => x.ssubOverflow y = true
  | _, _, _ => False

mutual

/-- Every sum and difference is in the signed range. -/
@[grind =] def Expr.Fits {Loc : Type} (L : Layout Loc) (s : Vars Loc) : Expr → Prop
  | .num _ => True
  | .bin o l r => l.Fits L s ∧ r.Fits L s ∧
      ∀ x y, l.value L s = some x → r.value L s = some y → ¬ o.Overflows x y
  | .unaryNeg e => e.Fits L s
  | .and l r => l.Fits L s ∧ r.Fits L s
  | .or l r => l.Fits L s ∧ r.Fits L s
  | .not e => e.Fits L s
  | .var _ sels => sels.Fits L s

def Sels.Fits {Loc : Type} (L : Layout Loc) (s : Vars Loc) : Sels → Prop
  | .nil => True
  | .field _ rest => rest.Fits L s
  | .index e _ rest => e.Fits L s ∧ rest.Fits L s

end

mutual

/-- Every variable exists that is asked for. -/
@[grind =] def Expr.Safe {Loc : Type} (L : Layout Loc) (s : Vars Loc) : Expr → Prop
  | .num _ => True
  | .bin _ l r => l.Safe L s ∧ r.Safe L s
  | .unaryNeg e => e.Safe L s
  | .and l r => l.Safe L s ∧ r.Safe L s
  | .or l r => l.Safe L s ∧ r.Safe L s
  | .not e => e.Safe L s
  | .var id sels => sels.Safe L s ∧
      if (L.st id).kind = .VALUE_ARG then id ∈ L.params ∧ sels.isNil
      else ((L.st id).kind = .CLASS → sels.isField) ∧
        ∀ path, sels.path L s = some path → (L.place id path).isSome

def Sels.Safe {Loc : Type} (L : Layout Loc) (s : Vars Loc) : Sels → Prop
  | .nil => True
  | .field _ rest => rest.Safe L s
  | .index e more rest => more.isNil ∧ e.Safe L s ∧ rest.Safe L s

end

mutual

/-- The words of stack that the code of an expression needs. -/
@[grind =] def Expr.depth : Expr → Nat
  | .num _ => 1
  | .bin _ l r => max l.depth (r.depth + 1)
  | .unaryNeg e => e.depth
  | .and _ _ => 0
  | .or _ _ => 0
  | .not _ => 0
  | .var _ sels => sels.depth + 2

def Sels.depth : Sels → Nat
  | .nil => 0
  | .field _ rest => rest.depth
  | .index e _ rest => max e.depth rest.depth

end

/-! ## Representation -/

/-- The bytes from the start of a variable to what a selector selects. -/
def Sel.offset (st : SymTab) : Sel → Nat
  | .field id => (st id).offset
  | .index i => 4 * i

def pathOffset (st : SymTab) (path : List Sel) : Nat := (path.map (Sel.offset st)).sum

/-- The address of a variable in a frame. Labels and reference parameters count
upwards, the frame counts downwards. -/
inductive Placed (st : SymTab) (label : Nat → Word) (m : Machine) : Nat → List Sel → Word → Prop
  | global {id : Nat} {path : List Sel} {x : Word} (hkind : (st id).kind = .VAR ∨ (st id).kind = .ARR)
      (hnest : (st id).nest = 1) (hx : x.toNat = (label id).toNat + pathOffset st path) :
      Placed st label m id path x
  | frame {id : Nat} {path : List Sel} {x : Word} (hkind : (st id).kind = .VAR ∨ (st id).kind = .ARR)
      (hnest : (st id).nest = 2)
      (hx : x.toNat + (st id).offset + pathOffset st path = (m.reg .fp).toNat) :
      Placed st label m id path x
  | qualified {id f : Nat} {path : List Sel} {x : Word} (hkind : (st id).kind = .CLASS)
      (hx : x.toNat = (label f).toNat + pathOffset st path) :
      Placed st label m id (.field f :: path) x
  | reference {id : Nat} (hkind : (st id).kind = .REF_ARG) (hnest : (st id).nest = 2)
      (hreg : (st id).offset < 4) : Placed st label m id [] (m.reg (.a (st id).offset))

/-- Addresses outside the `n` words of stack from `p` downwards. -/
def Outside (n : Nat) (p x : Word) : Prop := p.toNat < x.toNat ∨ x.toNat + 4 * n ≤ p.toNat

/-- The machine holds the values of the variables and has `n` free words of stack. -/
structure Represents {Loc : Type} (L : Layout Loc) (n : Nat) (s : Vars Loc) (m : Machine) : Prop where
  room : 4 * n ≤ (m.reg .sp).toNat
  sp_lt : (m.reg .sp).toNat < 2 ^ 31
  sp_aligned : (m.reg .sp).toNat % 4 = 0
  fp_lt : (m.reg .fp).toNat < 2 ^ 31
  stored : ∀ l, m.mem (L.addr l) = s.store l
  free : ∀ l, Outside n (m.reg .sp) (L.addr l)
  placed : ∀ id path l, L.place id path = some l → Placed L.st L.label m id path (L.addr l)
  args : ∀ id ∈ L.params, (L.st id).offset < 4 ∧ m.reg (.a (L.st id).offset) = s.args id

/-!
## The stack idioms of the emitted code

What the pieces between the operands do to the words at the top of the stack, one
equation each. The stack pointer is at the next free word.
-/

variable {label : Nat → Word}

/-! ## Stack pointers -/

section Pointers

variable {p : Word}

theorem sub_four_toNat (h : 4 ≤ p.toNat) : (p - 4).toNat = p.toNat - 4 := by
  bv_omega

theorem add_four_toNat (h : p.toNat < 2 ^ 31) : (p + 4).toNat = p.toNat + 4 := by
  bv_omega

theorem addTrap_neg_four (h : p.toNat < 2 ^ 31) : addTrap p (-4) = some (p - 4) := by
  have hint : p.toInt = p.toNat := BitVec.toInt_eq_toNat_of_lt (by omega)
  have hfour : (-4 : Word).toInt = -4 := by decide
  have hno : p.saddOverflow (-4) = false := by
    simp only [BitVec.saddOverflow, hint, hfour, Bool.or_eq_false_iff, decide_eq_false_iff_not]
    omega
  rw [addTrap, hno, if_neg (by decide), BitVec.sub_eq_add_neg]

theorem addTrap_four (h : p.toNat + 4 < 2 ^ 31) : addTrap p 4 = some (p + 4) := by
  have hint : p.toInt = p.toNat := BitVec.toInt_eq_toNat_of_lt (by omega)
  have hfour : (4 : Word).toInt = 4 := by decide
  have hno : p.saddOverflow 4 = false := by
    simp only [BitVec.saddOverflow, hint, hfour, Bool.or_eq_false_iff, decide_eq_false_iff_not]
    omega
  rw [addTrap, hno, if_neg (by decide)]

end Pointers

/-! ## Push and pop -/

theorem exec_push {m : Machine} {r : Reg} {w : Word} (hr : m.get r = some w)
    (hal : (m.reg .sp).toNat % 4 = 0) (hlt : (m.reg .sp).toNat < 2 ^ 31) :
    exec label (push r) m = some ((m.poke (m.reg .sp) w).put .sp (m.reg .sp - 4)) := by
  have hzero : m.reg .sp + 0 = m.reg .sp := BitVec.add_zero _
  simp only [push, exec, step, Machine.get_sp, hr, bind_some, hzero,
    Machine.store_aligned hal, Machine.poke_reg, addTrap_neg_four hlt, Machine.set_sp]

/-- A register that may be written without further effect. -/
def Reg.Writable : Reg → Prop
  | .zero => False
  | .sp => False
  | .a n => n < 4
  | _ => True

theorem Machine.set_writable {d : Reg} (hd : d.Writable) (m : Machine) (w : Word) :
    m.set d w = some (m.put d w) := by
  cases d with
  | zero => exact hd.elim
  | a n => exact if_pos hd
  | _ => rfl

theorem aligned_add_four {p : Word} (hal : p.toNat % 4 = 0) (hlt : p.toNat < 2 ^ 31) :
    (p + 4).toNat % 4 = 0 := by
  rw [add_four_toNat hlt]
  omega

theorem exec_pop {m : Machine} {d : Reg} (hd : d.Writable) (hal : (m.reg .sp).toNat % 4 = 0)
    (hlt : (m.reg .sp).toNat + 4 < 2 ^ 31) :
    exec label (pop d) m =
      some ((m.put d (m.mem (m.reg .sp + 4))).put .sp (m.reg .sp + 4)) := by
  have hne : Reg.sp ≠ d := by
    rintro rfl
    exact hd
  have hal4 := aligned_add_four hal (by omega)
  simp only [pop, exec, step, Machine.get_sp, bind_some, Machine.load_aligned hal4,
    Machine.set_writable hd, Machine.put_reg_of_ne _ _ hne, addTrap_four hlt, Machine.set_sp]

/-! ## Operators -/

/-- What the instructions of an operator compute. -/
def BinOp.trap : BinOp → Word → Word → Option Word
  | .AddOp, x, y => addTrap x y
  | .SubOp, x, y => subTrap x y
  | .MultOp, x, y => some (x * y)
  | .DivOp, x, y => if y = 0 then none else some (x.sdiv y)
  | .LTOp, x, y => some (Cond.slt.test x y)
  | .GTOp, x, y => some (Cond.sgt.test x y)
  | .EQOp, x, y => some (Cond.seq.test x y)
  | .NEOp, x, y => some (Cond.sne.test x y)
  | .LEOp, x, y => some (Cond.sle.test x y)
  | .GEOp, x, y => some (Cond.sge.test x y)

/-- The instructions compute the operator unless they trap. -/
theorem BinOp.trap_eq_some_iff {o : BinOp} {x y v : Word} :
    o.trap x y = some v ↔ o.apply x y = some v ∧ ¬ o.Overflows x y := by
  cases o with
  | AddOp =>
    simp only [BinOp.trap, BinOp.apply, BinOp.Overflows, addTrap]
    cases x.saddOverflow y <;> simp
  | SubOp =>
    simp only [BinOp.trap, BinOp.apply, BinOp.Overflows, subTrap]
    cases x.ssubOverflow y <;> simp
  | NEOp =>
    simp only [BinOp.trap, BinOp.apply, BinOp.Overflows, Cond.test, ofProp]
    by_cases h : x = y <;> simp [h]
  | _ => simp [BinOp.trap, BinOp.apply, BinOp.Overflows, Cond.test, ofProp]

/-- `LO` after an operator. -/
def BinOp.newLo : BinOp → Word → Word → Word
  | .MultOp, _, v => v
  | .DivOp, _, v => v
  | _, lo, _ => lo

theorem BinOp.exec_code (o : BinOp) (m : Machine) :
    exec label o.code m = (o.trap (m.reg .t0) (m.reg .t1)).map fun v =>
      { m.put .t0 v with lo := o.newLo m.lo v } := by
  cases o with
  | AddOp =>
    simp only [BinOp.code, exec, step, Machine.get_t0, Machine.get_t1, bind_some, BinOp.trap]
    cases addTrap (m.reg .t0) (m.reg .t1) <;> rfl
  | SubOp =>
    simp only [BinOp.code, exec, step, Machine.get_t0, Machine.get_t1, bind_some, BinOp.trap]
    cases subTrap (m.reg .t0) (m.reg .t1) <;> rfl
  | DivOp =>
    simp only [BinOp.code, exec, step, Machine.get_t0, Machine.get_t1, bind_some, BinOp.trap]
    split <;> rfl
  | _ => rfl

/-! ## What code keeps -/

/-- The registers other than the two temporaries and the stack pointer, and the memory
outside some words of the stack, are the same. -/
structure Keeps (n : Nat) (p : Word) (m m' : Machine) : Prop where
  reg : ∀ r, r ≠ .t0 → r ≠ .t1 → r ≠ .sp → m'.reg r = m.reg r
  mem : ∀ x, Outside n p x → m'.mem x = m.mem x

theorem Keeps.trans {n : Nat} {p : Word} {m₁ m₂ m₃ : Machine} (h : Keeps n p m₁ m₂)
    (h' : Keeps n p m₂ m₃) : Keeps n p m₁ m₃ :=
  ⟨fun r h₀ h₁ hs => (h'.reg r h₀ h₁ hs).trans (h.reg r h₀ h₁ hs),
    fun x hx => (h'.mem x hx).trans (h.mem x hx)⟩

theorem Keeps.mono {n k : Nat} {p q : Word} {m m' : Machine} (h : Keeps k q m m')
    (hout : ∀ x, Outside n p x → Outside k q x) : Keeps n p m m' :=
  ⟨h.reg, fun x hx => h.mem x (hout x hx)⟩

/-- One word written, and nothing else but temporaries and the stack pointer. -/
structure Writes (q w : Word) (m m' : Machine) : Prop where
  reg : ∀ r, r ≠ .t0 → r ≠ .t1 → r ≠ .sp → m'.reg r = m.reg r
  mem : m'.mem = Function.update m.mem q w

theorem Writes.keeps {n : Nat} {p q w : Word} {m m' : Machine} (h : Writes q w m m')
    (hq : ¬ Outside n p q) : Keeps n p m m' := by
  refine ⟨h.reg, ?_⟩
  intro x hx
  have hne : x ≠ q := by
    rintro rfl
    exact hq hx
  rw [h.mem, Function.update_of_ne hne]

/-! ## Code between operands -/

section Tails

variable {m : Machine}

theorem exec_setTop (hal : (m.reg .sp + 4).toNat % 4 = 0) :
    exec label [.sw .t0 4 .sp] m = some (m.poke (m.reg .sp + 4) (m.reg .t0)) := by
  simp only [exec, step, Machine.get_sp, Machine.get_t0, bind_some, Machine.store_aligned hal]

/-- The operator code takes two words and puts their result in place of the lower one. -/
theorem BinOp.exec_tail (o : BinOp) (hal : (m.reg .sp).toNat % 4 = 0)
    (hlt : (m.reg .sp).toNat + 8 < 2 ^ 31) :
    ∃ f : Word → Machine,
      (∀ v, (f v).reg .sp = m.reg .sp + 4 ∧ Writes (m.reg .sp + 4 + 4) v m (f v)) ∧
      exec label o.tail m =
        (o.trap (m.mem (m.reg .sp + 4 + 4)) (m.mem (m.reg .sp + 4))).map f := by
  have hal4 := aligned_add_four hal (by omega)
  have hlt4 : (m.reg .sp + 4).toNat < 2 ^ 31 := by
    rw [add_four_toNat (by omega)]
    omega
  have hal8 := aligned_add_four hal4 hlt4
  let m₁ := ((m.put .t1 (m.mem (m.reg .sp + 4))).put .sp (m.reg .sp + 4)).put .t0
    (m.mem (m.reg .sp + 4 + 4))
  have hpop : exec label (pop .t1) m =
      some ((m.put .t1 (m.mem (m.reg .sp + 4))).put .sp (m.reg .sp + 4)) :=
    exec_pop trivial hal (by omega)
  have hload : exec label (pop .t1 ++ [.lw .t0 4 .sp]) m = some m₁ := by
    rw [exec_append, hpop]
    simp only [bind_some, exec, step, Machine.get_sp, Machine.put_reg_self,
      Machine.load_aligned hal8, Machine.set_t0, m₁]
    rfl
  refine ⟨fun v => { (m₁.put .t0 v).poke (m.reg .sp + 4 + 4) v with lo := o.newLo m.lo v }, ?_, ?_⟩
  · intro v
    refine ⟨rfl, ?_, rfl⟩
    intro r h₀ h₁ hs
    simp [m₁, Machine.put_reg, h₀, h₁, hs]
  · rw [BinOp.tail, exec_append, exec_append, hload, bind_some, BinOp.exec_code]
    have h0 : m₁.reg .t0 = m.mem (m.reg .sp + 4 + 4) := rfl
    have h1 : m₁.reg .t1 = m.mem (m.reg .sp + 4) := rfl
    rw [h0, h1]
    cases o.trap (m.mem (m.reg .sp + 4 + 4)) (m.mem (m.reg .sp + 4)) with
    | none => rfl
    | some v => exact exec_setTop (m := { m₁.put .t0 v with lo := o.newLo m.lo v }) hal8

/-- Unary minus changes the word at the top. -/
theorem exec_negTail (hal : (m.reg .sp).toNat % 4 = 0) (hlt : (m.reg .sp).toNat < 2 ^ 31) :
    ∃ m', exec label negTail m = some m' ∧ m'.reg .sp = m.reg .sp ∧
      Writes (m.reg .sp + 4) (-m.mem (m.reg .sp + 4)) m m' := by
  have hal4 := aligned_add_four hal hlt
  have hneg : m.mem (m.reg .sp + 4) * -1 = -m.mem (m.reg .sp + 4) := by
    rw [BitVec.mul_neg]
    exact congrArg _ (BitVec.mul_one _)
  let m₁ := (m.put .t0 (m.mem (m.reg .sp + 4))).put .t1 (-1)
  have hload : exec label [.lw .t0 4 .sp, .li .t1 (-1)] m = some m₁ := by
    simp only [exec, step, Machine.get_sp, bind_some, Machine.load_aligned hal4,
      Machine.set_t0, Machine.set_t1, m₁]
  refine ⟨{ (m₁.put .t0 (m.mem (m.reg .sp + 4) * -1)).poke (m.reg .sp + 4)
    (m.mem (m.reg .sp + 4) * -1) with lo := m.mem (m.reg .sp + 4) * -1 }, ?_, rfl, ?_⟩
  · rw [show negTail = [.lw .t0 4 .sp, .li .t1 (-1)] ++ [.mult .t0 .t1, .mflo .t0, .sw .t0 4 .sp]
      from rfl, exec_append, hload]
    exact exec_setTop (m := { m₁.put .t0 (m.mem (m.reg .sp + 4) * -1) with
      lo := m.mem (m.reg .sp + 4) * -1 }) hal4
  · refine ⟨?_, ?_⟩
    · intro r h₀ h₁ hs
      simp [m₁, Machine.put_reg, h₀, h₁]
    · rw [← hneg]
      rfl

/-- `$t1` added to the word at the top. -/
theorem exec_addTop (hal : (m.reg .sp).toNat % 4 = 0) (hlt : (m.reg .sp).toNat < 2 ^ 31) :
    ∃ f : Word → Machine,
      (∀ v, (f v).reg .sp = m.reg .sp ∧ Writes (m.reg .sp + 4) v m (f v)) ∧
      exec label [.lw .t0 4 .sp, .add .t0 .t0 .t1, .sw .t0 4 .sp] m =
        (addTrap (m.mem (m.reg .sp + 4)) (m.reg .t1)).map f := by
  have hal4 := aligned_add_four hal hlt
  let m₁ := m.put .t0 (m.mem (m.reg .sp + 4))
  refine ⟨fun v => (m₁.put .t0 v).poke (m.reg .sp + 4) v, ?_, ?_⟩
  · intro v
    refine ⟨rfl, ?_, rfl⟩
    intro r h₀ h₁ hs
    simp [m₁, Machine.put_reg, h₀]
  · have hload : step label (.lw .t0 4 .sp) m = some m₁ := by
      simp only [step, Machine.get_sp, bind_some, Machine.load_aligned hal4,
        Machine.set_t0, m₁]
    have hadd : step label (.add .t0 .t0 .t1) m₁ =
        (addTrap (m.mem (m.reg .sp + 4)) (m.reg .t1)).bind (m₁.set .t0) := rfl
    rw [exec, hload, bind_some, exec, hadd]
    cases addTrap (m.mem (m.reg .sp + 4)) (m.reg .t1) with
    | none => rfl
    | some v => exact exec_setTop (m := m₁.put .t0 v) hal4

/-- The offset of a field added to the word at the top. -/
theorem exec_fieldCode (st : SymTab) (id : Nat) (hal : (m.reg .sp).toNat % 4 = 0)
    (hlt : (m.reg .sp).toNat < 2 ^ 31) :
    ∃ f : Word → Machine,
      (∀ v, (f v).reg .sp = m.reg .sp ∧ Writes (m.reg .sp + 4) v m (f v)) ∧
      exec label (fieldCode st id) m =
        (addTrap (m.mem (m.reg .sp + 4)) (BitVec.ofNat 32 (st id).offset)).map f := by
  obtain ⟨f, hf, hexec⟩ :=
    @exec_addTop label (m.put .t1 (BitVec.ofNat 32 (st id).offset)) hal hlt
  refine ⟨f, ?_, hexec⟩
  intro v
  obtain ⟨hsp, hw⟩ := hf v
  refine ⟨hsp, ?_, hw.mem⟩
  intro r h₀ h₁ hs
  rw [hw.reg r h₀ h₁ hs, Machine.put_reg_of_ne _ _ h₁]

/-- Four times the word at the top added to the word below it. -/
theorem exec_indexTail (hal : (m.reg .sp).toNat % 4 = 0) (hlt : (m.reg .sp).toNat + 4 < 2 ^ 31) :
    ∃ f : Word → Machine,
      (∀ v, (f v).reg .sp = m.reg .sp + 4 ∧ Writes (m.reg .sp + 4 + 4) v m (f v)) ∧
      exec label indexTail m =
        (addTrap (m.mem (m.reg .sp + 4 + 4)) (4 * m.mem (m.reg .sp + 4))).map f := by
  let m₁ : Machine := { (((m.put .t1 (m.mem (m.reg .sp + 4))).put .sp (m.reg .sp + 4)).put .t0 4).put
    .t1 (4 * m.mem (m.reg .sp + 4)) with lo := 4 * m.mem (m.reg .sp + 4) }
  have hpop : exec label (pop .t1) m =
      some ((m.put .t1 (m.mem (m.reg .sp + 4))).put .sp (m.reg .sp + 4)) :=
    exec_pop trivial hal hlt
  have hscale : exec label (pop .t1 ++ [.li .t0 4, .mult .t0 .t1, .mflo .t1]) m = some m₁ := by
    rw [exec_append, hpop]
    rfl
  have hal4 := aligned_add_four hal (by omega)
  have hlt4 : (m.reg .sp + 4).toNat < 2 ^ 31 := by
    rw [add_four_toNat (by omega)]
    exact hlt
  obtain ⟨f, hf, hexec⟩ := @exec_addTop label m₁ hal4 hlt4
  refine ⟨f, ?_, ?_⟩
  · intro v
    obtain ⟨hsp, hw⟩ := hf v
    refine ⟨hsp, ?_, hw.mem⟩
    intro r h₀ h₁ hs
    rw [hw.reg r h₀ h₁ hs]
    simp [m₁, Machine.put_reg, h₀, h₁, hs]
  · rw [show indexTail = pop .t1 ++ [.li .t0 4, .mult .t0 .t1, .mflo .t1] ++
      [.lw .t0 4 .sp, .add .t0 .t0 .t1, .sw .t0 4 .sp] from rfl, exec_append, hscale]
    exact hexec

/-- The word at the top replaced by the word at its address. -/
theorem exec_derefCode (hal : (m.reg .sp).toNat % 4 = 0) (hlt : (m.reg .sp).toNat < 2 ^ 31)
    (hx : (m.mem (m.reg .sp + 4)).toNat % 4 = 0) :
    ∃ m', exec label derefCode m = some m' ∧ m'.reg .sp = m.reg .sp ∧
      Writes (m.reg .sp + 4) (m.mem (m.mem (m.reg .sp + 4))) m m' := by
  have hal4 := aligned_add_four hal hlt
  have hzero : m.mem (m.reg .sp + 4) + 0 = m.mem (m.reg .sp + 4) := BitVec.add_zero _
  let m₁ := (m.put .t1 (m.mem (m.reg .sp + 4))).put .t0 (m.mem (m.mem (m.reg .sp + 4)))
  have hload : exec label [.lw .t1 4 .sp, .lw .t0 0 .t1] m = some m₁ := by
    simp only [exec, step, Machine.get_sp, Machine.get_t1, bind_some,
      Machine.load_aligned hal4, Machine.set_t0, Machine.set_t1, Machine.put_reg_self, hzero,
      Machine.load_aligned hx, Machine.put_mem, m₁]
  refine ⟨m₁.poke (m.reg .sp + 4) (m.mem (m.mem (m.reg .sp + 4))), ?_, rfl, ?_, rfl⟩
  · rw [show derefCode = [.lw .t1 4 .sp, .lw .t0 0 .t1] ++ [.sw .t0 4 .sp] from rfl, exec_append,
      hload]
    exact exec_setTop (m := m₁) hal4
  · intro r h₀ h₁ hs
    simp [m₁, Machine.put_reg, h₀, h₁]

end Tails

end PittCs.Cs2210
