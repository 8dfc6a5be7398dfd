import Mathlib.Data.Int.Interval
import PittCs.Cs2210.EvalExpression

/-!
# The layout of classes

`GenProgram`, `GenClass`, `GenDecl`, `AllocClassDecl`, `PushClassDecl` and the array
functions of `codegen.c`, over the declarations that `grammar.y` builds: `DeclOp` and
`BodyOp` nodes are nested to the left, and the right child of a `DeclOp` node is one
variable with its type and its initialiser. `MkST` has put symbol table indices in place
of the names. Of a method only its name matters, which `GenMethod` copies like `GenDecl`
copies those of the variables; the attributes it sets are those of symbols of its own.
-/

namespace PittCs.Cs2210

open List

/-! ## Declarations -/

/-- What `KIND_ATTR` and the type node tell of a variable. -/
inductive DeclType where
  | int
  | object (class_id : Nat)
  | array
  deriving DecidableEq

/-- The right child of a `DeclOp` node. `name` is what `getname` returns for the
variable. -/
structure VarDecl where
  var_id : Nat
  name : List UInt8
  type : DeclType
  val_node : Tree

/-- The left child of a `DeclOp` node. -/
inductive Decl where
  | null
  | DeclOp (left : Decl) (tail : VarDecl)

/-- The right child of a `BodyOp` node. -/
inductive Member where
  | null
  | MethodOp (method_name : List UInt8)
  | DeclOp (left : Decl) (tail : VarDecl)

/-- The body of a class. -/
inductive Body where
  | null
  | BodyOp (left : Body) (next : Member)

/-- A `ClassDefOp` node. -/
structure ClassDef where
  class_id : Nat
  body : Body

/-- A line of the data section. -/
inductive Line where
  | label (var_id : Nat)
  | word (n : Word)
  deriving DecidableEq

/-- The attributes that the generator sets, and its global variables. -/
structure Gen where
  type_attr : Nat → Option Body
  offset_attr : Nat → Word
  size_attr : Nat → Word
  class_offset : Word
  global_offset : Word
  asm_file : List Line

/-- The attributes before the generation of code. -/
def Gen.init : Gen where
  type_attr _ := none
  offset_attr _ := 0
  size_attr _ := 0
  class_offset := 0
  global_offset := 0
  asm_file := []

/-! ## Arrays -/

/-- The number of values in a chain of `CommaOp` nodes. -/
def Tree.commas : Tree → Nat
  | .node .CommaOp left _ => left.commas + 1
  | _ => 0

/-- `ArrayLength`. -/
def arrayLength (head : Tree) : Word :=
  if head.leftChild.nodeOp = some .BoundOp then head.leftChild.rightChild.intVal
  else BitVec.ofNat 32 head.leftChild.commas

/-- The loop that fills `arr_vals`: the last value of the source comes first. -/
def arrVals : Tree → Option (List Word)
  | .node .CommaOp left right =>
    (evalExpression right).bind fun v => (arrVals left).map fun vs => v :: vs
  | _ => some []

/-- The values that `GenArray` and `PushArray` write, in the order of the source. -/
def arrayValues (head : Tree) : Option (List Word) :=
  if head.leftChild.nodeOp = some .BoundOp then
    some (List.replicate (arrayLength head).toInt.toNat 0)
  else (arrVals head.leftChild).map fun vs => (vs.take (arrayLength head).toInt.toNat).reverse

/-- The variables that `AllocClassDecl` and `PushClassDecl` come to: in each declaration
they read the right child of the `DeclOp` node, and not the nodes to its left. -/
def Body.lasts : Body → List VarDecl
  | .null => []
  | .BodyOp left .null => left.lasts
  | .BodyOp left (.MethodOp _) => left.lasts
  | .BodyOp left (.DeclOp _ tail) => left.lasts ++ [tail]

/-- What is emitted for some variables, one after the other. -/
def gather {β : Type} (emit : VarDecl → Option (List β)) : List VarDecl → Option (List β)
  | [] => some []
  | v :: vs => (emit v).bind fun xs => (gather emit vs).map fun ys => xs ++ ys

/-- `AllocClassDecl`. The recursion through `TYPE_ATTR` does not end for a class that
contains itself, so it is cut off after some levels. -/
def allocClassDecl (type_attr : Nat → Option Body) : Nat → Body → Option (List Word)
  | 0, _ => none
  | fuel + 1, body => gather (fun v => match v.type with
      | .int => (evalExpression v.val_node).map fun n => [n]
      | .object class_id => (type_attr class_id).bind (allocClassDecl type_attr fuel)
      | .array => arrayValues v.val_node) body.lasts

/-- A piece of code that pushes, and what is added to `local_offset` for it. -/
structure Chunk where
  code : List Instr
  bytes : Word

/-- What `GenDecl` writes and sets for one variable. -/
def tailStep (fuel : Nat) (v : VarDecl) (g : Gen) : Option Gen :=
  let offset_attr := Function.update g.offset_attr v.var_id g.class_offset
  match v.type with
  | .int => (evalExpression v.val_node).map fun n =>
    { g with
      offset_attr := offset_attr
      class_offset := g.class_offset + 4
      asm_file := g.asm_file ++ [.label v.var_id, .word n] }
  | .object class_id =>
    (g.type_attr class_id).bind fun class_decl =>
      (allocClassDecl g.type_attr fuel class_decl).map fun words =>
        { g with
          offset_attr := offset_attr
          class_offset := g.class_offset + g.size_attr class_id
          asm_file := g.asm_file ++ .label v.var_id :: words.map .word }
  | .array => (arrayValues v.val_node).map fun words =>
    { g with
      offset_attr := offset_attr
      size_attr := Function.update g.size_attr v.var_id (arrayLength v.val_node * 4)
      class_offset := g.class_offset + arrayLength v.val_node * 4
      asm_file := g.asm_file ++ .label v.var_id :: words.map .word }

/-- What `GenDecl` does for one variable. It copies the name of the variable into
`char var_name[20]` before it does anything else. -/
def genTail (fuel : Nat) (v : VarDecl) (g : Gen) : Option Gen :=
  if CopyFits v.name then tailStep fuel v g else none

/-- `GenDecl`. -/
def genDecl (fuel : Nat) : Decl → Gen → Option Gen
  | .null, g => some g
  | .DeclOp left tail, g => (genDecl fuel left g).bind (genTail fuel tail)

/-- `GenClass`. `GenMethod` copies the name of the method into `char method_name[20]`. -/
def genClass (fuel : Nat) : Body → Gen → Option Gen
  | .null, g => some g
  | .BodyOp left .null, g => genClass fuel left g
  | .BodyOp left (.MethodOp method_name), g =>
    (genClass fuel left g).bind fun g => if CopyFits method_name then some g else none
  | .BodyOp left (.DeclOp decl tail), g =>
    (genClass fuel left g).bind (genDecl fuel (.DeclOp decl tail))

/-- What `GenProgram` sets before it generates a class. -/
def Gen.openClass (g : Gen) (c : ClassDef) : Gen :=
  { g with
    offset_attr := Function.update g.offset_attr c.class_id g.global_offset
    type_attr := Function.update g.type_attr c.class_id (some c.body)
    class_offset := 0 }

/-- What `GenProgram` sets after it has generated a class. -/
def Gen.closeClass (g : Gen) (c : ClassDef) : Gen :=
  { g with
    size_attr := Function.update g.size_attr c.class_id g.class_offset
    global_offset := g.global_offset + g.class_offset }

@[simp] theorem Gen.closeClass_type_attr (g : Gen) (c : ClassDef) :
    (g.closeClass c).type_attr = g.type_attr := rfl

@[simp] theorem Gen.closeClass_offset_attr (g : Gen) (c : ClassDef) :
    (g.closeClass c).offset_attr = g.offset_attr := rfl

theorem Gen.closeClass_size_attr (g : Gen) (c : ClassDef) :
    (g.closeClass c).size_attr = Function.update g.size_attr c.class_id g.class_offset := rfl

theorem Gen.openClass_offset_attr (g : Gen) (c : ClassDef) :
    (g.openClass c).offset_attr = Function.update g.offset_attr c.class_id g.global_offset := rfl

theorem Gen.openClass_type_attr (g : Gen) (c : ClassDef) :
    (g.openClass c).type_attr = Function.update g.type_attr c.class_id (some c.body) := rfl

@[simp] theorem Gen.openClass_size_attr (g : Gen) (c : ClassDef) :
    (g.openClass c).size_attr = g.size_attr := rfl

@[simp] theorem Gen.openClass_class_offset (g : Gen) (c : ClassDef) :
    (g.openClass c).class_offset = 0 := rfl

/-- What `GenProgram` does for a class. -/
def genClassDef (fuel : Nat) (c : ClassDef) (g : Gen) : Option Gen :=
  (genClass fuel c.body (g.openClass c)).map fun g => g.closeClass c

/-- The variables of a declaration, in the order of the source. -/
def Decl.vars : Decl → List VarDecl
  | .null => []
  | .DeclOp left tail => left.vars ++ [tail]

/-- The variables of a class, in the order of the source. -/
def Body.vars : Body → List VarDecl
  | .null => []
  | .BodyOp left .null => left.vars
  | .BodyOp left (.MethodOp _) => left.vars
  | .BodyOp left (.DeclOp decl tail) => left.vars ++ (decl.vars ++ [tail])

/-- The names of the methods of a class. -/
def Body.methods : Body → List (List UInt8)
  | .null => []
  | .BodyOp left .null => left.methods
  | .BodyOp left (.MethodOp method_name) => left.methods ++ [method_name]
  | .BodyOp left (.DeclOp _ _) => left.methods

/-- The names of the variables and methods of a class fit the buffers they are copied
to. -/
structure Body.NamesFit (b : Body) : Prop where
  vars : ∀ v ∈ b.vars, CopyFits v.name
  methods : ∀ name ∈ b.methods, CopyFits name

/-- The variables that are followed by another one in their declaration. -/
def Body.firsts : Body → List VarDecl
  | .null => []
  | .BodyOp left .null => left.firsts
  | .BodyOp left (.MethodOp _) => left.firsts
  | .BodyOp left (.DeclOp decl _) => left.firsts ++ decl.vars

/-- `GenDecl` and `GenClass` go through all the variables. -/
def genTails (fuel : Nat) : List VarDecl → Gen → Option Gen
  | [], g => some g
  | v :: vs, g => (genTail fuel v g).bind (genTails fuel vs)

theorem genTails_append (fuel : Nat) (vs ws : List VarDecl) (g : Gen) :
    genTails fuel (vs ++ ws) g = (genTails fuel vs g).bind (genTails fuel ws) := by
  induction vs generalizing g with
  | nil => rfl
  | cons v vs ih =>
    rw [cons_append, genTails, genTails, Option.bind_assoc]
    exact congrArg _ (funext ih)

theorem genTails_single (fuel : Nat) (v : VarDecl) (g : Gen) :
    genTails fuel [v] g = genTail fuel v g := by
  unfold genTails
  cases genTail fuel v g with
  | none | some g' => rfl

theorem genDecl_eq (fuel : Nat) (d : Decl) (g : Gen) : genDecl fuel d g = genTails fuel d.vars g := by
  induction d with
  | null => rfl
  | DeclOp left tail ih =>
    rw [genDecl, ih, Decl.vars, genTails_append]
    exact congrArg _ (funext fun g' => (genTails_single fuel tail g').symm)

theorem genClass_eq_some_iff {fuel : Nat} {b : Body} {g g' : Gen} :
    genClass fuel b g = some g' ↔
      genTails fuel b.vars g = some g' ∧ ∀ name ∈ b.methods, CopyFits name := by
  induction b generalizing g' with
  | null => simp [genClass, Body.vars, Body.methods, genTails]
  | BodyOp left next ih =>
    cases next with
    | null => exact ih
    | MethodOp method_name =>
      rw [genClass, Option.bind_eq_some_iff, Body.vars, Body.methods, forall_mem_append]
      constructor
      · rintro ⟨g₁, h₁, h⟩
        split at h
        case isTrue hfit =>
          cases h
          rcases ih.mp h₁ with ⟨htails, hmethods⟩
          exact ⟨htails, hmethods, by simpa using hfit⟩
        case isFalse => cases h
      · rintro ⟨htails, hmethods, hfit⟩
        refine ⟨g', ih.mpr ⟨htails, hmethods⟩, ?_⟩
        rw [if_pos (hfit method_name (mem_singleton_self _))]
    | DeclOp decl tail =>
      rw [genClass, Option.bind_eq_some_iff, Body.vars, Body.methods, genTails_append,
        Option.bind_eq_some_iff]
      have hdecl : ∀ g₁, genDecl fuel (.DeclOp decl tail) g₁ =
          genTails fuel (decl.vars ++ [tail]) g₁ := genDecl_eq fuel (.DeclOp decl tail)
      constructor
      · rintro ⟨g₁, h₁, h⟩
        rcases ih.mp h₁ with ⟨htails, hmethods⟩
        exact ⟨⟨g₁, htails, (hdecl g₁).symm.trans h⟩, hmethods⟩
      · rintro ⟨⟨g₁, htails, h⟩, hmethods⟩
        exact ⟨g₁, ih.mpr ⟨htails, hmethods⟩, (hdecl g₁).trans h⟩

end PittCs.Cs2210
