import PittCs.Cs2210.Mips

/-!
# Code for expressions and variables

`GenExpression` and `GenVar` of `codegen.c`, over the trees that the actions of
`grammar.y` build for `Expression` and `Variable` after `MkST` has put symbol table
indices in place of the names. Method calls and string constants are left out.

`GenVar` copies names of any length into `char var_name[20]`, so a name of 20 letters
or more is undefined behaviour.
-/

namespace PittCs.Cs2210

/-- `KIND_ATTR`. -/
inductive Kind where
  | CLASS
  | VAR
  | ARR
  | FUNC
  | PROCE
  | REF_ARG
  | VALUE_ARG
  deriving DecidableEq

/-- The attributes of a symbol that the generator reads. `name` is what `getname`
returns for `NAME_ATTR`. -/
structure Attrs where
  name : List UInt8
  kind : Kind
  nest : Nat
  offset : Nat

/-- The symbol table. -/
abbrev SymTab := Nat → Attrs

/-- The operators with two operands that have a case in `GenExpression`. -/
inductive BinOp where
  | AddOp
  | SubOp
  | MultOp
  | DivOp
  | LTOp
  | GTOp
  | EQOp
  | NEOp
  | LEOp
  | GEOp
  deriving DecidableEq

mutual

/-- The trees of `Expression`. -/
inductive Expr where
  | num (n : Word)
  | bin (o : BinOp) (l r : Expr)
  | unaryNeg (e : Expr)
  | and (l r : Expr)
  | or (l r : Expr)
  | not (e : Expr)
  | var (id : Nat) (sels : Sels)

/-- The chain of `SelectOp` nodes of a `Variable`. A bracket holds an index and the
indices behind its commas. -/
inductive Sels where
  | nil
  | field (id : Nat) (rest : Sels)
  | index (e : Expr) (more : Exprs) (rest : Sels)

inductive Exprs where
  | nil
  | cons (e : Expr) (more : Exprs)

end

/-! ## Idioms of the emitted code -/

/-- The word in a register pushed. -/
def push (r : Reg) : List Instr := [.sw r 0 .sp, .addi .sp .sp (-4)]

/-- The top of the stack popped to a register. -/
def pop (r : Reg) : List Instr := [.lw r 4 .sp, .addi .sp .sp 4]

/-! ## Variables and expressions -/

/-- The base of a variable of a named class and what is selected from it. A class name
without a field is reported by `varop`. -/
def classBase : Sels → Nat × Sels
  | .nil => (0, .nil)
  | .field id rest => (id, rest)
  | .index _ _ rest => (0, rest)

/-- The load of a base address to `$t0`. -/
def baseCode (st : SymTab) (id : Nat) (sels : Sels) : List Instr :=
  if (st id).kind = .CLASS then [.la .t0 (classBase sels).1]
  else if (st id).kind = .REF_ARG then [.move .t0 (.a (st id).offset)]
  else if (st id).nest = 1 then [.la .t0 id]
  else if (st id).nest = 2 then
    [.move .t0 .fp, .li .t1 (BitVec.ofNat 32 (st id).offset), .sub .t0 .t0 .t1]
  else []

/-- The selectors that are left when the base is loaded. -/
def restSels (st : SymTab) (id : Nat) (sels : Sels) : Sels :=
  if (st id).kind = .CLASS then (classBase sels).2 else sels

/-- The sum or difference of base and offset, on the stack. -/
def combineCode (st : SymTab) (id : Nat) : List Instr :=
  if (st id).nest = 1 ∨ (st id).kind = .CLASS then
    pop .t1 ++ [.lw .t0 4 .sp, .add .t0 .t0 .t1, .sw .t0 4 .sp]
  else if (st id).nest = 2 then
    pop .t1 ++ [.lw .t0 4 .sp, .sub .t0 .t0 .t1, .sw .t0 4 .sp]
  else []

/-- The instructions of an operator on `$t0` and `$t1`. -/
def BinOp.code : BinOp → List Instr
  | .AddOp => [.add .t0 .t0 .t1]
  | .SubOp => [.sub .t0 .t0 .t1]
  | .MultOp => [.mult .t0 .t1, .mflo .t0]
  | .DivOp => [.div .t0 .t1, .mflo .t0]
  | .LTOp => [.set .slt .t0 .t0 .t1]
  | .GTOp => [.set .sgt .t0 .t0 .t1]
  | .EQOp => [.set .seq .t0 .t0 .t1]
  | .NEOp => [.set .sne .t0 .t0 .t1]
  | .LEOp => [.set .sle .t0 .t0 .t1]
  | .GEOp => [.set .sge .t0 .t0 .t1]

/-- The code behind the operands of an operator. -/
def BinOp.tail (o : BinOp) : List Instr :=
  pop .t1 ++ [.lw .t0 4 .sp] ++ o.code ++ [.sw .t0 4 .sp]

/-- The code behind the operand of a unary minus. -/
def negTail : List Instr :=
  [.lw .t0 4 .sp, .li .t1 (-1), .mult .t0 .t1, .mflo .t0, .sw .t0 4 .sp]

/-- A field's offset added to the current offset. -/
def fieldCode (st : SymTab) (id : Nat) : List Instr :=
  [.li .t1 (BitVec.ofNat 32 (st id).offset), .lw .t0 4 .sp, .add .t0 .t0 .t1, .sw .t0 4 .sp]

/-- An index's offset added to the current offset. -/
def indexTail : List Instr :=
  pop .t1 ++ [.li .t0 4, .mult .t0 .t1, .mflo .t1, .lw .t0 4 .sp, .add .t0 .t0 .t1, .sw .t0 4 .sp]

/-- The code before the selectors of a variable. -/
def varHead (st : SymTab) (id : Nat) (sels : Sels) : List Instr :=
  baseCode st id sels ++ push .t0 ++ push .zero

/-- The word at the address on top of the stack put in its place. -/
def derefCode : List Instr := [.lw .t1 4 .sp, .lw .t0 0 .t1, .sw .t0 4 .sp]

mutual

/-- The code that `GenExpression` emits. The operators `&&`, `||` and `!` have no case. -/
@[grind =] def expressionCode (st : SymTab) : Expr → List Instr
  | .num n => .li .t0 n :: push .t0
  | .bin o l r => expressionCode st l ++ expressionCode st r ++ o.tail
  | .unaryNeg e => expressionCode st e ++ negTail
  | .and _ _ => []
  | .or _ _ => []
  | .not _ => []
  | .var id sels =>
    if (st id).kind = .VALUE_ARG then push (.a (st id).offset)
    else
      varHead st id sels ++
        (if (st id).kind = .CLASS then classSelsCode st sels else selsCode st sels) ++
        combineCode st id ++ derefCode

/-- The loop of `GenVar` over the selectors. -/
def selsCode (st : SymTab) : Sels → List Instr
  | .nil => []
  | .field id rest => fieldCode st id ++ selsCode st rest
  | .index e _ rest => expressionCode st e ++ indexTail ++ selsCode st rest

/-- The same loop behind a class name. -/
def classSelsCode (st : SymTab) : Sels → List Instr
  | .nil => []
  | .field _ rest => selsCode st rest
  | .index _ _ rest => selsCode st rest

end

/-- The code that `GenVar` emits. -/
def varCode (st : SymTab) (id : Nat) (sels : Sels) : List Instr :=
  varHead st id sels ++ selsCode st (restSels st id sels) ++ combineCode st id

theorem classSelsCode_eq (st : SymTab) (sels : Sels) :
    classSelsCode st sels = selsCode st (classBase sels).2 := by
  cases sels <;> simp [classSelsCode, classBase, selsCode]

theorem expressionCode_var {st : SymTab} {id : Nat} (sels : Sels) (h : (st id).kind ≠ .VALUE_ARG) :
    expressionCode st (.var id sels) = varCode st id sels ++ derefCode := by
  rw [expressionCode, if_neg h, varCode, restSels]
  split
  · rw [classSelsCode_eq]
  · rfl

/-! ## The names -/

/-- The string is copied by `strcpy` into a `char[20]`: there is room for 19 letters and
the final NUL. -/
def CopyFits (name : List UInt8) : Prop := name.length < 20

instance (name : List UInt8) : Decidable (CopyFits name) :=
  inferInstanceAs (Decidable (name.length < 20))

/-- The names that `GenVar` copies before it comes to the selectors. -/
def headNames (st : SymTab) (id : Nat) (sels : Sels) : List (List UInt8) :=
  if (st id).kind = .CLASS then [(st id).name, (st (classBase sels).1).name] else [(st id).name]

mutual

/-- The names that are copied while the code of an expression is emitted. -/
def Expr.names (st : SymTab) : Expr → List (List UInt8)
  | .num _ => []
  | .bin _ l r => l.names st ++ r.names st
  | .unaryNeg e => e.names st
  | .and _ _ => []
  | .or _ _ => []
  | .not _ => []
  | .var id sels =>
    if (st id).kind = .VALUE_ARG then []
    else
      headNames st id sels ++
        if (st id).kind = .CLASS then sels.classNames st else sels.names st

/-- The names that are copied for the indices of a variable. -/
def Sels.names (st : SymTab) : Sels → List (List UInt8)
  | .nil => []
  | .field _ rest => rest.names st
  | .index e _ rest => e.names st ++ rest.names st

/-- The same behind a class name. -/
def Sels.classNames (st : SymTab) : Sels → List (List UInt8)
  | .nil => []
  | .field _ rest => rest.names st
  | .index _ _ rest => rest.names st

end

/-- All names that are copied fit. -/
def Expr.NamesFit (st : SymTab) (e : Expr) : Prop := ∀ name ∈ e.names st, CopyFits name

instance (st : SymTab) (e : Expr) : Decidable (e.NamesFit st) :=
  inferInstanceAs (Decidable (∀ name ∈ e.names st, CopyFits name))

/-- `GenExpression`: the code, unless a name is too long for the buffer of `GenVar`. -/
def genExpression (st : SymTab) (e : Expr) : Option (List Instr) :=
  if e.NamesFit st then some (expressionCode st e) else none

/-- `GenVar`, in the same way. -/
def genVar (st : SymTab) (id : Nat) (sels : Sels) : Option (List Instr) :=
  if ∀ name ∈ headNames st id sels ++ (restSels st id sels).names st, CopyFits name then
    some (varCode st id sels)
  else none

theorem Sels.classNames_eq (st : SymTab) (sels : Sels) :
    sels.classNames st = (classBase sels).2.names st := by
  cases sels <;> simp [Sels.classNames, classBase, Sels.names]

/-- A variable that is no parameter by value is generated by `GenVar`. -/
theorem genExpression_var {st : SymTab} {id : Nat} (sels : Sels) (h : (st id).kind ≠ .VALUE_ARG) :
    genExpression st (.var id sels) = (genVar st id sels).map fun code => code ++ derefCode := by
  have hnames : (Expr.var id sels).names st =
      headNames st id sels ++ (restSels st id sels).names st := by
    rw [Expr.names, if_neg h, restSels]
    split
    · rw [Sels.classNames_eq]
    · rfl
  have hiff : (Expr.var id sels).NamesFit st ↔
      ∀ name ∈ headNames st id sels ++ (restSels st id sels).names st, CopyFits name := by
    unfold Expr.NamesFit
    rw [hnames]
  unfold genExpression genVar
  by_cases hfit : (Expr.var id sels).NamesFit st
  · rw [if_pos hfit, if_pos (hiff.mp hfit), expressionCode_var sels h]
    rfl
  · rw [if_neg hfit, if_neg (mt hiff.mpr hfit)]
    rfl

theorem exists_genExpression_iff {st : SymTab} {e : Expr} {P : List Instr → Prop} :
    (∃ code, genExpression st e = some code ∧ P code) ↔ e.NamesFit st ∧ P (expressionCode st e) := by
  unfold genExpression
  by_cases hfit : e.NamesFit st
  · simp [hfit]
  · simp [hfit]

end PittCs.Cs2210
