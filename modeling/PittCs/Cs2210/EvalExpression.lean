import PittCs.Cs2210.ExprExact

/-!
# The folding of initialisers

`EvalExpression` of `codegen.c` over the nodes of `proj2.c`, and the trees that the
actions of `grammar.y` build for the expressions of `GenExpression`. Where that code
loads a variable or compares, `EvalExpression` has no case and takes the value 0; the
words it stores are compared with the words that the code pushes.
-/

namespace PittCs.Cs2210

open Option

/-! ## Nodes -/

/-- `NodeKind` of a leaf. -/
inductive LeafKind where
  | IDNode
  | NUMNode
  | STRINGNode
  | INTEGERTNode
  | STNode
  deriving DecidableEq

/-- `NodeOpType` of the nodes of an initialiser. -/
inductive Op where
  | CommaOp
  | ArrayTypeOp
  | TypeIdOp
  | BoundOp
  | RoutineCallOp
  | AddOp
  | SubOp
  | MultOp
  | DivOp
  | LTOp
  | GTOp
  | EQOp
  | NEOp
  | LEOp
  | GEOp
  | AndOp
  | OrOp
  | UnaryNegOp
  | NotOp
  | VarOp
  | SelectOp
  | IndexOp
  | FieldOp
  deriving DecidableEq

/-- `ILTree`: the node of `NullExp`, those of `MakeLeaf` and those of `MakeTree`. -/
inductive Tree where
  | dummy
  | leaf (kind : LeafKind) (val : Word)
  | node (op : Op) (left right : Tree)
  deriving DecidableEq

namespace Tree

/-- `LeftChild`. -/
def leftChild : Tree → Tree
  | .node _ l _ => l
  | _ => .dummy

/-- `RightChild`. -/
def rightChild : Tree → Tree
  | .node _ _ r => r
  | _ => .dummy

/-- `NodeOp`. -/
def nodeOp : Tree → Option Op
  | .node op _ _ => some op
  | _ => none

/-- `IntVal`. An inner node is reported and has the value -1. -/
def intVal : Tree → Word
  | .dummy => 0
  | .leaf _ n => n
  | .node _ _ _ => -1

end Tree

/-! ## Folding -/

/-- The quotient of two `int`s. The compiler dies of a zero divisor, and of `-2^31 / -1`. -/
def divInt (l r : Word) : Option Word :=
  if r = 0 ∨ l = BitVec.intMin 32 ∧ r = -1 then none else some (l.sdiv r)

/-- The `switch` of `EvalExpression`. -/
def Op.eval : Op → Word → Word → Option Word
  | .AddOp, l, r => some (l + r)
  | .SubOp, l, r => some (l - r)
  | .MultOp, l, r => some (l * r)
  | .DivOp, l, r => divInt l r
  | .UnaryNegOp, l, _ => some (-1 * l)
  | _, _, _ => some 0

/-- `EvalExpression`, in two's complement. -/
def evalExpression : Tree → Option Word
  | .dummy => some 0
  | .leaf kind n => some (if kind = .NUMNode then n else 0)
  | .node op left right =>
    (evalExpression left).bind fun l => (evalExpression right).bind fun r => op.eval l r

/-! ## Trees of expressions -/

/-- The operator of a node. -/
def BinOp.op : BinOp → Op
  | .AddOp => .AddOp
  | .SubOp => .SubOp
  | .MultOp => .MultOp
  | .DivOp => .DivOp
  | .LTOp => .LTOp
  | .GTOp => .GTOp
  | .EQOp => .EQOp
  | .NEOp => .NEOp
  | .LEOp => .LEOp
  | .GEOp => .GEOp

mutual

/-- The nodes that `grammar.y` makes for an expression. -/
def Expr.tree : Expr → Tree
  | .num n => .leaf .NUMNode n
  | .bin o l r => .node o.op l.tree r.tree
  | .unaryNeg e => .node .UnaryNegOp e.tree .dummy
  | .and l r => .node .AndOp l.tree r.tree
  | .or l r => .node .OrOp l.tree r.tree
  | .not e => .node .NotOp e.tree .dummy
  | .var id sels => .node .VarOp (.leaf .STNode (BitVec.ofNat 32 id)) sels.tree

def Sels.tree : Sels → Tree
  | .nil => .dummy
  | .field id rest =>
    .node .SelectOp (.node .FieldOp (.leaf .STNode (BitVec.ofNat 32 id)) .dummy) rest.tree
  | .index e more rest => .node .SelectOp (.node .IndexOp e.tree more.tree) rest.tree

def Exprs.tree : Exprs → Tree
  | .nil => .dummy
  | .cons e more => .node .IndexOp e.tree more.tree

end

/-! ## Expressions without their variables -/

/-- The operators that `EvalExpression` knows. -/
def BinOp.isArith : BinOp → Bool
  | .AddOp => true
  | .SubOp => true
  | .MultOp => true
  | .DivOp => true
  | _ => false

/-- Zero, with two operands that are evaluated for their divisions only. -/
def Expr.nought (l r : Expr) : Expr := .bin .MultOp (.num 0) (.bin .AddOp l r)

mutual

/-- The expression with 0 in place of its variables, its comparisons and its logical
operators. What is inside of these is still evaluated. -/
def Expr.zeroed : Expr → Expr
  | .num n => .num n
  | .bin o l r => if o.isArith then .bin o l.zeroed r.zeroed else .nought l.zeroed r.zeroed
  | .unaryNeg e => .unaryNeg e.zeroed
  | .and l r => .nought l.zeroed r.zeroed
  | .or l r => .nought l.zeroed r.zeroed
  | .not e => .nought e.zeroed (.num 0)
  | .var _ sels => .nought (.num 0) sels.zeroed

def Sels.zeroed : Sels → Expr
  | .nil => .num 0
  | .field _ rest => .nought (.nought (.num 0) (.num 0)) rest.zeroed
  | .index e more rest => .nought (.nought e.zeroed more.zeroed) rest.zeroed

def Exprs.zeroed : Exprs → Expr
  | .nil => .num 0
  | .cons e more => .nought e.zeroed more.zeroed

end

variable {Loc : Type} {L : Layout Loc} {s : Vars Loc}

mutual

/-- Nowhere is `-2^31` divided by `-1`. -/
def Expr.QuotientsFit (L : Layout Loc) (s : Vars Loc) : Expr → Prop
  | .num _ => True
  | .bin o l r => l.QuotientsFit L s ∧ r.QuotientsFit L s ∧
      ∀ x y, l.value L s = some x → r.value L s = some y →
        ¬ (o = .DivOp ∧ x = BitVec.intMin 32 ∧ y = -1)
  | .unaryNeg e => e.QuotientsFit L s
  | .and l r => l.QuotientsFit L s ∧ r.QuotientsFit L s
  | .or l r => l.QuotientsFit L s ∧ r.QuotientsFit L s
  | .not e => e.QuotientsFit L s
  | .var _ sels => sels.QuotientsFit L s

def Sels.QuotientsFit (L : Layout Loc) (s : Vars Loc) : Sels → Prop
  | .nil => True
  | .field _ rest => rest.QuotientsFit L s
  | .index e _ rest => e.QuotientsFit L s ∧ rest.QuotientsFit L s

end

variable (L s) in
/-- An expression that stands for the folding of a tree. -/
def Expr.Stands (e : Expr) (t : Tree) : Prop :=
  ∀ c, evalExpression t = some c ↔ e.QuotientsFit L s ∧ e.value L s = some c

/-! ## What is folded -/

theorem divInt_eq_some_iff {x y c : Word} :
    divInt x y = some c ↔
      ¬ (x = BitVec.intMin 32 ∧ y = -1) ∧ BinOp.apply .DivOp x y = some c := by
  have happly : BinOp.apply .DivOp x y = if y = 0 then none else some (x.sdiv y) := rfl
  rw [happly, divInt]
  by_cases hy : y = 0
  · rw [if_pos (Or.inl hy), if_pos hy]
    constructor
    · intro h
      exact absurd h nofun
    · intro h
      exact absurd h.2 nofun
  · rw [if_neg hy]
    by_cases hmin : x = BitVec.intMin 32 ∧ y = -1
    · rw [if_pos (Or.inr hmin)]
      constructor
      · intro h
        exact absurd h nofun
      · intro h
        exact absurd hmin h.1
    · rw [if_neg (not_or.mpr ⟨hy, hmin⟩)]
      exact ⟨fun h => ⟨hmin, h⟩, fun h => h.2⟩

theorem BinOp.eval_op {o : BinOp} (ho : o.isArith = true) {x y c : Word} :
    o.op.eval x y = some c ↔
      ¬ (o = .DivOp ∧ x = BitVec.intMin 32 ∧ y = -1) ∧ o.apply x y = some c := by
  cases o with
  | DivOp =>
    have hop : BinOp.DivOp.op.eval x y = divInt x y := rfl
    rw [hop, divInt_eq_some_iff]
    constructor
    · intro h
      exact ⟨fun hmin => h.1 hmin.2, h.2⟩
    · intro h
      exact ⟨fun hmin => h.1 ⟨rfl, hmin⟩, h.2⟩
  | AddOp | SubOp | MultOp => exact ⟨fun h => ⟨fun hd => absurd hd.1 nofun, h⟩, fun h => h.2⟩
  | _ => exact absurd ho nofun

/-- A comparison has no case. -/
theorem BinOp.eval_op_of_not {o : BinOp} (ho : ¬ o.isArith = true) (x y : Word) :
    o.op.eval x y = some 0 := by
  cases o with
  | AddOp | SubOp | MultOp | DivOp => exact absurd rfl ho
  | _ => rfl

theorem stands_num (n : Word) : (Expr.num n).Stands L s (.leaf .NUMNode n) := by
  intro c
  exact ⟨fun h => ⟨trivial, h⟩, fun h => h.2⟩

theorem stands_dummy : (Expr.num 0).Stands L s .dummy := by
  intro c
  exact ⟨fun h => ⟨trivial, h⟩, fun h => h.2⟩

theorem stands_name (id : Word) : (Expr.num 0).Stands L s (.leaf .STNode id) := by
  intro c
  exact ⟨fun h => ⟨trivial, h⟩, fun h => h.2⟩

theorem stands_bin {o : BinOp} (ho : o.isArith = true) {l r : Expr} {tl tr : Tree}
    (hl : l.Stands L s tl) (hr : r.Stands L s tr) :
    (Expr.bin o l r).Stands L s (.node o.op tl tr) := by
  intro c
  rw [evalExpression, Expr.value, Expr.QuotientsFit]
  constructor
  · intro h
    rcases bind_eq_some_iff.mp h with ⟨x, hx, h⟩
    rcases bind_eq_some_iff.mp h with ⟨y, hy, h⟩
    rcases (hl x).mp hx with ⟨hlfit, hlx⟩
    rcases (hr y).mp hy with ⟨hrfit, hry⟩
    rcases (BinOp.eval_op ho).mp h with ⟨hmin, hv⟩
    refine ⟨⟨hlfit, hrfit, ?_⟩, ?_⟩
    · intro x' y' hx' hy'
      rw [← some.inj (hlx.symm.trans hx'), ← some.inj (hry.symm.trans hy')]
      exact hmin
    · rw [hlx, bind_some, hry, bind_some, hv]
  · rintro ⟨⟨hlfit, hrfit, hmin⟩, h⟩
    rcases bind_eq_some_iff.mp h with ⟨x, hx, h⟩
    rcases bind_eq_some_iff.mp h with ⟨y, hy, h⟩
    rw [(hl x).mpr ⟨hlfit, hx⟩, bind_some, (hr y).mpr ⟨hrfit, hy⟩, bind_some]
    exact (BinOp.eval_op ho).mpr ⟨hmin x y hx hy, h⟩

theorem stands_nought {op : Op} (hop : ∀ x y, op.eval x y = some 0) {l r : Expr} {tl tr : Tree}
    (hl : l.Stands L s tl) (hr : r.Stands L s tr) :
    (Expr.nought l r).Stands L s (.node op tl tr) := by
  intro c
  -- the sum below the product by 0 folds both operands
  have hadd := stands_bin (o := .AddOp) rfl hl hr
  have hmult := stands_bin (o := .MultOp) rfl (stands_num 0) hadd c
  have hzero : evalExpression (.node op tl tr) =
      evalExpression (.node .MultOp (.leaf .NUMNode 0) (.node .AddOp tl tr)) := by
    have hnum : evalExpression (.leaf .NUMNode 0) = some 0 := rfl
    rw [evalExpression, evalExpression, hnum, evalExpression]
    cases evalExpression tl with
    | none => rfl
    | some x =>
      cases evalExpression tr with
      | none => rfl
      | some y =>
        rw [bind_some, bind_some, hop]
        exact congrArg some BitVec.zero_mul.symm
  rw [hzero]
  exact hmult

theorem neg_one_mul_word (x : Word) : -1 * x = -x := x.neg_eq_neg_one_mul.symm

theorem stands_neg {e : Expr} {t : Tree} (he : e.Stands L s t) :
    (Expr.unaryNeg e).Stands L s (.node .UnaryNegOp t .dummy) := by
  intro c
  rw [evalExpression, Expr.value, Expr.QuotientsFit, map_eq_some_iff]
  constructor
  · intro h
    rcases bind_eq_some_iff.mp h with ⟨x, hx, h⟩
    rcases (he x).mp hx with ⟨hfit, hv⟩
    refine ⟨hfit, x, hv, ?_⟩
    rw [← some.inj h, neg_one_mul_word]
  · rintro ⟨hfit, x, hx, hc⟩
    rw [(he x).mpr ⟨hfit, hx⟩, bind_some, ← hc, ← neg_one_mul_word]
    rfl

mutual

/-- `EvalExpression` computes the value of the expression without its variables. -/
theorem Expr.stands : ∀ e : Expr, e.zeroed.Stands L s e.tree
  | .num n => stands_num n
  | .bin o l r => by
    rw [Expr.zeroed, Expr.tree]
    by_cases ho : o.isArith = true
    · rw [if_pos ho]
      exact stands_bin ho l.stands r.stands
    · rw [if_neg ho]
      exact stands_nought (BinOp.eval_op_of_not ho) l.stands r.stands
  | .unaryNeg e => stands_neg e.stands
  | .and l r => stands_nought (fun _ _ => rfl) l.stands r.stands
  | .or l r => stands_nought (fun _ _ => rfl) l.stands r.stands
  | .not e => stands_nought (fun _ _ => rfl) e.stands stands_dummy
  | .var _ sels => stands_nought (fun _ _ => rfl) (stands_name _) sels.stands

theorem Sels.stands : ∀ sels : Sels, sels.zeroed.Stands L s sels.tree
  | .nil => stands_dummy
  | .field _ rest =>
    stands_nought (fun _ _ => rfl)
      (stands_nought (fun _ _ => rfl) (stands_name _) stands_dummy) rest.stands
  | .index e more rest =>
    stands_nought (fun _ _ => rfl) (stands_nought (fun _ _ => rfl) e.stands more.stands)
      rest.stands

theorem Exprs.stands : ∀ es : Exprs, es.zeroed.Stands L s es.tree
  | .nil => stands_dummy
  | .cons e more => stands_nought (fun _ _ => rfl) e.stands more.stands

end

/-! ## Agreement with the code -/

/-- `(8 - 2) / 3`. -/
def quotient : Expr := .bin .DivOp (.bin .SubOp (.num 8) (.num 2)) (.num 3)

end PittCs.Cs2210
