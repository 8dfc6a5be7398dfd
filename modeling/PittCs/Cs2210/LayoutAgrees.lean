import Mathlib.Data.BitVec
import PittCs.Cs2210.ClassLayout

/-!
# Agreement of the layouts of a class

`GenDecl` gives offsets and a size to all the variables of a class, while
`AllocClassDecl` and `PushClassDecl` write the last variable of each declaration only.
The words that an object should consist of are defined from the declarations, and the
three traversals agree on them exactly when the variables that are left out take no
bytes.
-/

namespace PittCs.Cs2210

open Function List

/-! ## Programs -/

/-- Numbers of the lexer are not negative, and lists of values have a length. -/
def Tree.Lexed (head : Tree) : Prop :=
  (∀ left kind n, head.leftChild = .node .BoundOp left (.leaf kind n) → 0 ≤ n.toInt) ∧
    head.leftChild.commas < 2 ^ 31

/-- An object has an earlier class, and initialisers are folded without a division by 0. -/
def VarDecl.Declarable (cs : List ClassDef) (v : VarDecl) : Prop :=
  match v.type with
  | .int => (evalExpression v.val_node).isSome
  | .object class_id => ∃ c ∈ cs, c.class_id = class_id
  | .array => (arrayValues v.val_node).isSome ∧ v.val_node.Lexed

/-- The symbols of a class and its variables. -/
def ClassDef.symbols (c : ClassDef) : List Nat := c.class_id :: c.body.vars.map VarDecl.var_id

/-- Classes in the order of the source, with symbols of their own. -/
inductive Declared : List ClassDef → Prop where
  | nil : Declared []
  | snoc {cs : List ClassDef} {c : ClassDef} (before : Declared cs) (nodup : c.symbols.Nodup)
      (fresh : ∀ c' ∈ cs, ∀ id ∈ c'.symbols, id ∉ c.symbols)
      (vars : ∀ v ∈ c.body.vars, v.Declarable cs) : Declared (cs ++ [c])

/-- The words of a variable with its initial value, where `env` has the words of the
objects of each class. -/
def VarDecl.words (env : Nat → List Word) (v : VarDecl) : List Word :=
  match v.type with
  | .int => [(evalExpression v.val_node).getD 0]
  | .object class_id => env class_id
  | .array => (arrayValues v.val_node).getD []

/-- `xs` stands in `ws` at a byte offset. -/
def LiesAt (ws : List Word) (offset : Word) (xs : List Word) : Prop :=
  ∃ before after, ws = before ++ xs ++ after ∧ offset.toInt = 4 * before.length

/-- The code pushes some words, the first one at the top of the stack as it was. -/
def Pushes (code : List Instr) (ws : List Word) : Prop :=
  ∀ (label : Nat → Word) (m : Machine), (m.reg .sp).toNat % 4 = 0 → (m.reg .sp).toNat < 2 ^ 31 →
    4 * ws.length ≤ (m.reg .sp).toNat →
      ∃ m', exec label code m = some m' ∧
        (m'.reg .sp).toNat = (m.reg .sp).toNat - 4 * ws.length ∧
        (∀ i (h : i < ws.length), m'.mem (BitVec.ofNat 32 ((m.reg .sp).toNat - 4 * i)) = ws[i]) ∧
        ∀ x, (m.reg .sp).toNat < x.toNat → m'.mem x = m.mem x

/-- The variables that are followed by another one in their declaration take no bytes,
arrays have no negative number of elements, the object fits in the signed range, and the
names fit the buffers they are copied to. -/
structure ClassDef.Fits (env : Nat → List Word) (c : ClassDef) : Prop where
  names : c.body.NamesFit
  firsts : ∀ v ∈ c.body.firsts, v.words env = []
  bounds : ∀ v ∈ c.body.vars, v.type = .array → 0 ≤ (arrayLength v.val_node).toInt
  small : 4 * (env c.class_id).length < 2 ^ 31

theorem ClassDef.class_id_mem (c : ClassDef) : c.class_id ∈ c.symbols := mem_cons_self ..

variable {cs : List ClassDef} {v : VarDecl}

theorem ClassDef.var_id_mem {c : ClassDef} (h : v ∈ c.body.vars) :
    v.var_id ∈ c.symbols := mem_cons_of_mem _ (mem_map_of_mem h)

/-- An object in one class is not of that class. -/
theorem class_id_ne {c : ClassDef} (fresh : ∀ c' ∈ cs, ∀ id ∈ c'.symbols, id ∉ c.symbols)
    {c' : ClassDef} (h : c' ∈ cs) : c'.class_id ≠ c.class_id := by
  intro heq
  have hnot := fresh c' h c'.class_id c'.class_id_mem
  rw [heq] at hnot
  exact hnot c.class_id_mem

theorem VarDecl.Declarable.mono {cs' : List ClassDef} (h : v.Declarable cs)
    (hsub : ∀ c ∈ cs, c ∈ cs') : v.Declarable cs' := by
  unfold VarDecl.Declarable at h ⊢
  cases htype : v.type with
  | int | array =>
    rw [htype] at h
    exact h
  | object d =>
    rw [htype] at h
    rcases h with ⟨c, hc, hd⟩
    exact ⟨c, hsub c hc, hd⟩

theorem Declared.declarable (h : Declared cs) : ∀ c ∈ cs, ∀ v ∈ c.body.vars, v.Declarable cs := by
  induction h with
  | nil =>
    intro c hc
    exact absurd hc not_mem_nil
  | @snoc cs c before nodup fresh vars ih =>
    intro d hd v hv
    rcases mem_append.mp hd with hd | hd
    · exact (ih d hd v hv).mono fun _ => mem_append_left _
    · rw [mem_singleton.mp hd] at hv
      exact (vars v hv).mono fun _ => mem_append_left _

theorem Pushes.append {code code' : List Instr} {ws ws' : List Word} (h : Pushes code ws)
    (h' : Pushes code' ws') : Pushes (code ++ code') (ws ++ ws') := by
  intro label m haligned hlt hroom
  rw [length_append] at hroom
  rcases h label m haligned hlt (by omega) with ⟨m₁, hexec, hsp, hmem, habove⟩
  rcases h' label m₁ (by omega) (by omega) (by omega) with ⟨m₂, hexec', hsp', hmem', habove'⟩
  refine ⟨m₂, ?_, ?_, ?_, ?_⟩
  · rw [exec_append, hexec, Option.bind_some, hexec']
  · rw [hsp', hsp, length_append]
    omega
  · intro i hi
    rw [length_append] at hi
    by_cases hlow : i < ws.length
    · -- the second half is pushed below the first
      have hlt32 : (m.reg .sp).toNat - 4 * i < 2 ^ 32 := by omega
      rw [List.getElem_append_left hlow, ← hmem i hlow]
      refine habove' _ ?_
      rw [BitVec.toNat_ofNat, Nat.mod_eq_of_lt hlt32, hsp]
      omega
    · have hi' : i - ws.length < ws'.length := by omega
      rw [List.getElem_append_right (Nat.le_of_not_lt hlow), ← hmem' _ hi', hsp]
      congr 2
      omega
  · intro x hx
    rw [habove' x (by omega), habove x hx]

/-- The bytes that `GenDecl` counts for a variable. -/
def VarDecl.bytes (size_attr : Nat → Word) (v : VarDecl) : Word :=
  match v.type with
  | .int => 4
  | .object class_id => size_attr class_id
  | .array => arrayLength v.val_node * 4

/-- The offsets of some variables go on from a first one. -/
def Offsets (g : Gen) : Word → List VarDecl → Prop
  | _, [] => True
  | o, v :: vs => g.offset_attr v.var_id = o ∧ Offsets g (o + v.bytes g.size_attr) vs

/-- The sum of the bytes of some variables. -/
def totalBytes (size_attr : Nat → Word) (vs : List VarDecl) : Word :=
  (vs.map (VarDecl.bytes size_attr)).sum

/-- What `GenProgram` leaves in the symbol table. -/
structure Laid (cs : List ClassDef) (g : Gen) : Prop where
  names : ∀ c ∈ cs, c.body.NamesFit
  type : ∀ c ∈ cs, g.type_attr c.class_id = some c.body
  offsets : ∀ c ∈ cs, Offsets g 0 c.body.vars
  size : ∀ c ∈ cs, g.size_attr c.class_id = totalBytes g.size_attr c.body.vars

theorem bytes_congr (hv : v.Declarable cs) {size size' : Nat → Word}
    (h : ∀ c ∈ cs, size c.class_id = size' c.class_id) : v.bytes size = v.bytes size' := by
  unfold VarDecl.Declarable at hv
  unfold VarDecl.bytes
  cases htype : v.type with
  | int | array => rfl
  | object d =>
    rw [htype] at hv
    rcases hv with ⟨c, hc, hd⟩
    rw [← hd]
    exact h c hc

theorem totalBytes_congr {vs : List VarDecl} (hvs : ∀ v ∈ vs, v.Declarable cs)
    {size size' : Nat → Word} (h : ∀ c ∈ cs, size c.class_id = size' c.class_id) :
    totalBytes size vs = totalBytes size' vs := by
  unfold totalBytes
  rw [map_congr_left fun v hv => bytes_congr (hvs v hv) h]

theorem Offsets.congr {vs : List VarDecl} (hvs : ∀ v ∈ vs, v.Declarable cs) {g g' : Gen}
    (hsize : ∀ c ∈ cs, g'.size_attr c.class_id = g.size_attr c.class_id)
    (hoffset : ∀ v ∈ vs, g'.offset_attr v.var_id = g.offset_attr v.var_id) {o : Word}
    (h : Offsets g o vs) : Offsets g' o vs := by
  induction vs generalizing o with
  | nil => exact trivial
  | cons v vs ih =>
    rcases h with ⟨ho, hrest⟩
    refine ⟨(hoffset v mem_cons_self).trans ho, ?_⟩
    rw [bytes_congr (hvs v mem_cons_self) hsize]
    exact ih (fun w hw => hvs w (mem_cons_of_mem v hw))
      (fun w hw => hoffset w (mem_cons_of_mem v hw)) hrest

/-- What the declaration of a variable changes. -/
structure TailSpec (v : VarDecl) (g g' : Gen) : Prop where
  name : CopyFits v.name
  type : g'.type_attr = g.type_attr
  offset : g'.offset_attr = Function.update g.offset_attr v.var_id g.class_offset
  size : ∀ id, id ≠ v.var_id → g'.size_attr id = g.size_attr id
  next : g'.class_offset = g.class_offset + v.bytes g.size_attr

theorem genTail_spec {fuel : Nat} {g g' : Gen} (h : genTail fuel v g = some g') :
    TailSpec v g g' := by
  unfold genTail at h
  by_cases hname : CopyFits v.name
  case neg =>
    rw [if_neg hname] at h
    cases h
  rw [if_pos hname] at h
  unfold tailStep at h
  cases htype : v.type with
  | int =>
    rw [htype] at h
    rcases Option.map_eq_some_iff.mp h with ⟨n, -, hg⟩
    rw [← hg]
    refine ⟨hname, rfl, rfl, fun _ _ => rfl, ?_⟩
    rw [VarDecl.bytes, htype]
  | object d =>
    rw [htype] at h
    rcases Option.bind_eq_some_iff.mp h with ⟨b, -, h⟩
    rcases Option.map_eq_some_iff.mp h with ⟨ws, -, hg⟩
    rw [← hg]
    refine ⟨hname, rfl, rfl, fun _ _ => rfl, ?_⟩
    rw [VarDecl.bytes, htype]
  | array =>
    rw [htype] at h
    rcases Option.map_eq_some_iff.mp h with ⟨ws, -, hg⟩
    rw [← hg]
    refine ⟨hname, rfl, rfl, fun id hid => update_of_ne hid .., ?_⟩
    rw [VarDecl.bytes, htype]

/-- What the declarations of a class change. -/
structure TailsSpec (vs : List VarDecl) (g g' : Gen) : Prop where
  names : ∀ v ∈ vs, CopyFits v.name
  type : g'.type_attr = g.type_attr
  offset : ∀ id, id ∉ vs.map VarDecl.var_id → g'.offset_attr id = g.offset_attr id
  size : ∀ id, id ∉ vs.map VarDecl.var_id → g'.size_attr id = g.size_attr id
  next : g'.class_offset = g.class_offset + totalBytes g.size_attr vs
  offsets : Offsets g' g.class_offset vs

theorem genTails_spec {fuel : Nat} {vs : List VarDecl} {g g' : Gen}
    (hvs : ∀ v ∈ vs, v.Declarable cs) (hnodup : (vs.map VarDecl.var_id).Nodup)
    (hfresh : ∀ c ∈ cs, c.class_id ∉ vs.map VarDecl.var_id) (h : genTails fuel vs g = some g') :
    TailsSpec vs g g' := by
  induction vs generalizing g with
  | nil =>
    rw [← Option.some.inj h]
    exact ⟨nofun, rfl, fun _ _ => rfl, fun _ _ => rfl, (BitVec.add_zero _).symm, trivial⟩
  | cons v vs ih =>
    rcases Option.bind_eq_some_iff.mp h with ⟨g₁, h₁, h⟩
    have hv := genTail_spec h₁
    rw [map_cons, nodup_cons] at hnodup
    have hrest := ih (fun w hw => hvs w (mem_cons_of_mem v hw)) hnodup.2
      (fun c hc hmem => hfresh c hc (mem_cons_of_mem _ hmem)) h
    -- the symbols are new, so no size that was read changes
    have hsize₁ : ∀ c ∈ cs, g₁.size_attr c.class_id = g.size_attr c.class_id := by
      intro c hc
      refine hv.size _ ?_
      intro heq
      exact hfresh c hc (heq ▸ mem_cons_self)
    have hsize' : ∀ c ∈ cs, g'.size_attr c.class_id = g.size_attr c.class_id := by
      intro c hc
      rw [hrest.size _ fun hmem => hfresh c hc (mem_cons_of_mem _ hmem), hsize₁ c hc]
    constructor
    case names => exact forall_mem_cons.mpr ⟨hv.name, hrest.names⟩
    case type => rw [hrest.type, hv.type]
    case offset =>
      intro id hid
      rw [map_cons, mem_cons, not_or] at hid
      rw [hrest.offset id hid.2, hv.offset, update_of_ne hid.1]
    case size =>
      intro id hid
      rw [map_cons, mem_cons, not_or] at hid
      rw [hrest.size id hid.2, hv.size id hid.1]
    case next =>
      rw [hrest.next, hv.next,
        totalBytes_congr (fun w hw => hvs w (mem_cons_of_mem v hw)) hsize₁]
      unfold totalBytes
      rw [map_cons, sum_cons, BitVec.add_assoc]
    case offsets =>
      refine ⟨?_, ?_⟩
      · rw [hrest.offset _ hnodup.1, hv.offset, update_self]
      · rw [bytes_congr (hvs v mem_cons_self) hsize', ← hv.next]
        exact hrest.offsets

/-- A class is added to the classes before it. -/
theorem Laid.snoc {c : ClassDef} {fuel : Nat} {g g' : Gen} (hlaid : Laid cs g)
    (before : Declared cs) (nodup : c.symbols.Nodup)
    (fresh : ∀ c' ∈ cs, ∀ id ∈ c'.symbols, id ∉ c.symbols)
    (vars : ∀ v ∈ c.body.vars, v.Declarable cs) (h : genClassDef fuel c g = some g') :
    Laid (cs ++ [c]) g' := by
  rcases Option.map_eq_some_iff.mp h with ⟨g₁, hclass₁, hg⟩
  rcases genClass_eq_some_iff.mp hclass₁ with ⟨h₁, hmethods⟩
  unfold ClassDef.symbols at nodup
  rw [nodup_cons] at nodup
  have hclass : ∀ d ∈ cs, d.class_id ∉ c.body.vars.map VarDecl.var_id := by
    intro d hd hmem
    exact fresh d hd _ d.class_id_mem (mem_cons_of_mem _ hmem)
  have hspec := genTails_spec vars nodup.2 hclass h₁
  -- the symbols of the classes before keep their attributes
  have hsize₁ : ∀ d ∈ cs, g'.size_attr d.class_id = g₁.size_attr d.class_id := by
    intro d hd
    rw [← hg, Gen.closeClass_size_attr, update_of_ne (class_id_ne fresh hd)]
  have hsize : ∀ d ∈ cs, g'.size_attr d.class_id = g.size_attr d.class_id := by
    intro d hd
    rw [hsize₁ d hd, hspec.size _ (hclass d hd), Gen.openClass_size_attr]
  have hoffset : ∀ d ∈ cs, ∀ v ∈ d.body.vars,
      g'.offset_attr v.var_id = g.offset_attr v.var_id := by
    intro d hd v hv
    have hnot := fresh d hd _ (ClassDef.var_id_mem hv)
    unfold ClassDef.symbols at hnot
    rw [mem_cons, not_or] at hnot
    rw [← hg, Gen.closeClass_offset_attr, hspec.offset _ hnot.2, Gen.openClass_offset_attr,
      update_of_ne hnot.1]
  constructor
  case names =>
    intro d hd
    rcases mem_append.mp hd with hd | hd
    · exact hlaid.names d hd
    · rw [mem_singleton.mp hd]
      exact ⟨hspec.names, hmethods⟩
  case type =>
    intro d hd
    rw [← hg, Gen.closeClass_type_attr, hspec.type, Gen.openClass_type_attr]
    rcases mem_append.mp hd with hd | hd
    · rw [update_of_ne (class_id_ne fresh hd)]
      exact hlaid.type d hd
    · rw [mem_singleton.mp hd]
      exact update_self ..
  case offsets =>
    intro d hd
    rcases mem_append.mp hd with hd | hd
    · exact (hlaid.offsets d hd).congr (before.declarable d hd) hsize (hoffset d hd)
    · rw [mem_singleton.mp hd]
      refine hspec.offsets.congr vars hsize₁ ?_
      intro v hv
      rw [← hg, Gen.closeClass_offset_attr]
  case size =>
    intro d hd
    rcases mem_append.mp hd with hd | hd
    · rw [hsize d hd, hlaid.size d hd]
      exact (totalBytes_congr (before.declarable d hd) hsize).symm
    · rw [mem_singleton.mp hd, totalBytes_congr vars hsize, ← hg, Gen.closeClass_size_attr,
        update_self, hspec.next, Gen.openClass_class_offset, Gen.openClass_size_attr]
      exact BitVec.zero_add _

end PittCs.Cs2210
