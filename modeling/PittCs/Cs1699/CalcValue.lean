import PittCs.Cs1699.CalcPostfix

/-!
# Well-formed expressions

The grammar the calculators are for, the value of an expression in 64-bit arithmetic,
and that `calculate` finds it. The only expressions without a division by zero that it
fails on divide the least `Int` by `-1`, where `div` throws.
-/

namespace PittCs.Cs1699

open List Option

inductive Expr where
  | num (n : Numeral)
  | bin (o : Op) (l r : Expr)

/-- The token lists of the infix grammar: factors at level 3, terms at level 2, sums at
level 1. Operators of one level associate to the left. -/
inductive Parses : Nat → List Tok → Expr → Prop
  | num (n : Numeral) : Parses 3 [.num n] (.num n)
  | paren {ts : List Tok} {e : Expr} (b : Bracket) (h : Parses 1 ts e) :
      Parses 3 (.opn b :: (ts ++ [.cls b])) e
  | bin {ts us : List Tok} {l r : Expr} (o : Op) (hl : Parses o.prec ts l)
      (hr : Parses (o.prec + 1) us r) : Parses o.prec (ts ++ .op o :: us) (.bin o l r)
  | up {p : Nat} {ts : List Tok} {e : Expr} (h : Parses (p + 1) ts e) : Parses p ts e

/-- Well-formed infix expressions. -/
def WellFormed (s : HString) : Prop := ∃ ts e, Spells ts s ∧ Parses 1 ts e

/-- An operator on 64-bit integers, with floor division. -/
def Op.apply : Op → Int → Int → Option Int
  | .add, b, a => some (wrap (b + a))
  | .sub, b, a => some (wrap (b - a))
  | .mul, b, a => some (wrap (b * a))
  | .div, b, a => if a = 0 then none else some (wrap (b.fdiv a))

/-- The value of an expression, unless it divides by zero. -/
def Expr.value : Expr → Option Int
  | .num n => some (wrap (digitsValue n.val))
  | .bin o l r => l.value.bind fun b => r.value.bind fun a => o.apply b a

/-- Every quotient is in range: the least `Int` is not divided by `-1`. -/
def Expr.QuotientsFit : Expr → Prop
  | .num _ => True
  | .bin o l r => l.QuotientsFit ∧ r.QuotientsFit ∧
      ¬ (o = .div ∧ l.value = some minBound ∧ r.value = some (-1))

/-- The postfix form of an expression. -/
def Expr.postfixForm : Expr → List Tok
  | .num n => [.num n]
  | .bin o l r => l.postfixForm ++ (r.postfixForm ++ [.op o])

/-- The order of the tokens of an expression is its postfix form. -/
theorem Parses.postfixForm {p : Nat} {ts : List Tok} {e : Expr} (h : Parses p ts e) :
    Postfix p ts e.postfixForm := by
  induction h with
  | num n => exact Postfix.nil.num n
  | paren b h ih => exact Postfix.nil.group b ih
  | bin o hl hr ihl ihr => exact Postfix.op o ihl ihr
  | up h ih => exact ih.up

/-! ## The stages before `evaluate` -/

section Stages

variable {ts : List Tok} {s : HString}

theorem Spells.checkChars_eq (h : Spells ts s) : checkChars s = s := by
  have hvalid : (s.filter fun c => !decide (c ∈ validChars)).length = 0 := by
    simpa using h.valid
  simp only [checkChars, hvalid, if_true]

theorem Spells.tokenizer_eq (h : Spells ts s) : tokenizer (checkChars s) = ts.map Tok.str := by
  rw [h.checkChars_eq]
  simp only [tokenizer, not_isError_of_valid h.valid, Bool.false_eq_true, if_false, h.tokens_eq]

theorem checkBalanced_eq (ts : List Tok) [Decidable (Balanced ts)] :
    checkBalanced (ts.map Tok.str) =
      if Balanced ts then ts.map Tok.str else [unbalanced] := by
  cases ts with
  | nil => simp [checkBalanced, Balanced.nil]
  | cons t ts =>
    have hcheck : (((t :: ts).map Tok.str).foldl balanceStep []).length = 0 ↔ Balanced (t :: ts) :=
      foldl_balanceStep_eq_nil_iff
    rw [map_cons] at hcheck
    simp only [map_cons, checkBalanced, t.not_isError_str, Bool.false_eq_true, if_false, hcheck]

theorem infix2Postfix_eq (ts : List Tok) :
    infix2Postfix (ts.map Tok.str) = toPostfix (ts.map Tok.str) := by
  cases ts with
  | nil => rfl
  | cons t ts =>
    simp only [map_cons, infix2Postfix, t.not_isError_str, Bool.false_eq_true, if_false]

/-- A string with matched brackets gets to `evaluate` in postfix form. -/
theorem Spells.calculate_eq (h : Spells ts s) {p : Nat} {xs : List Tok} (hp : Postfix p ts xs) :
    calculate s = evaluate (xs.map Tok.str) := by
  classical
  rw [calculate, h.tokenizer_eq, checkBalanced_eq, if_pos hp.balanced, infix2Postfix_eq,
    hp.toPostfix_eq]
  rfl

end Stages

/-! ## The value on the stack -/

theorem Op.wrap_apply {o : Op} {b a v : Int} (h : o.apply b a = some v) : wrap v = v := by
  cases o with
  | add | sub | mul => simp only [Op.apply, some.injEq] at h; rw [← h, wrap_wrap]
  | div =>
    simp only [Op.apply] at h
    split at h
    · exact absurd h nofun
    · rw [← some.inj h, wrap_wrap]

/-- The code applies an operator as the specification does, but for the one quotient
that is out of range. -/
theorem applyOp_eq {o : Op} {b a : Int} (h : ¬ (o = .div ∧ b = minBound ∧ a = -1)) :
    applyOp [o.char] b a = o.apply b a := by
  have hlit : lit "+" = [Op.add.char] ∧ lit "-" = [Op.sub.char] ∧ lit "*" = [Op.mul.char] := by
    decide
  have hinj : ∀ o o' : Op, [o.char] = [o'.char] ↔ o = o' := by
    intro o o'
    cases o <;> cases o' <;> decide
  simp only [applyOp, hlit.1, hlit.2.1, hlit.2.2, hinj]
  cases o with
  | add | sub | mul => rfl
  | div =>
    have hfit : ¬ (a = -1 ∧ b = minBound) := fun hab => h ⟨rfl, hab.2, hab.1⟩
    simp [Op.apply, divInt, hfit]

/-- One value on the stack, as a string. -/
def Pushes (xs : List Tok) (v : Int) : Prop :=
  ∃ w, readInt w = some v ∧
    ∀ stack, (xs.map Tok.str).foldl evalStep stack = some w :: stack

theorem pushes_num (n : Numeral) : Pushes [.num n] (wrap (digitsValue n.val)) := by
  refine ⟨n.val, readInt_digits n.property.1 n.property.2, ?_⟩
  intro stack
  simp [Tok.str, evalStep, isNum_numeral]

/-- An operator on two values leaves its result as a string, or an exception. -/
theorem foldl_evalStep_op {xs ys : List Tok} {b a : Int} (hx : Pushes xs b) (hy : Pushes ys a)
    (o : Op) (stack : List (Option HString)) :
    ((xs ++ (ys ++ [Tok.op o])).map Tok.str).foldl evalStep stack =
      (applyOp [o.char] b a).map showInt :: stack := by
  obtain ⟨w, hw, hrun⟩ := hx
  obtain ⟨u, hu, hrun'⟩ := hy
  simp only [map_append, foldl_append, hrun, hrun', map_cons, map_nil, Tok.str,
    foldl_cons, foldl_nil, evalStep, isNum_op, Bool.false_eq_true, if_false,
    bind_some, hw, hu]

theorem pushes_op {xs ys : List Tok} {b a v : Int} (hx : Pushes xs b) (hy : Pushes ys a) {o : Op}
    (hv : o.apply b a = some v) (hfit : ¬ (o = .div ∧ b = minBound ∧ a = -1)) :
    Pushes (xs ++ (ys ++ [.op o])) v := by
  refine ⟨showInt v, ?_, ?_⟩
  · rw [readInt_showInt, Op.wrap_apply hv]
  · intro stack
    rw [foldl_evalStep_op hx hy, applyOp_eq hfit, hv]
    rfl

theorem Expr.pushes {e : Expr} {v : Int} (hv : e.value = some v) (hq : e.QuotientsFit) :
    Pushes e.postfixForm v := by
  induction e generalizing v with
  | num n =>
    obtain rfl := some.inj hv
    exact pushes_num n
  | bin o l r ihl ihr =>
    obtain ⟨hl, hr, hfit⟩ := hq
    obtain ⟨b, hb, hv⟩ := bind_eq_some_iff.mp hv
    obtain ⟨a, ha, hv⟩ := bind_eq_some_iff.mp hv
    apply pushes_op (ihl hb hl) (ihr ha hr) hv
    rintro ⟨ho, rfl, rfl⟩
    exact hfit ⟨ho, hb, ha⟩

theorem Tok.isError_map_str {xs : List Tok} {t : HString} {x : List HString}
    (h : xs.map Tok.str = t :: x) : isError t = false := by
  cases xs with
  | nil => exact absurd h nofun
  | cons y ys =>
    obtain ⟨rfl, -⟩ := List.cons.inj h
    exact y.not_isError_str

/-- One entry left on the stack is the result. -/
theorem evaluate_single {xs : List Tok} {r : Option HString}
    (h : (xs.map Tok.str).foldl evalStep [] = [r]) : evaluate (xs.map Tok.str) = r := by
  cases hx : xs.map Tok.str with
  | nil =>
    rw [hx] at h
    exact absurd h nofun
  | cons t x =>
    rw [hx] at h
    simp only [evaluate, Tok.isError_map_str hx, Bool.false_eq_true, if_false, h]

/-- A well-formed expression that divides neither by zero nor the least `Int` by `-1`
gives its value. -/
theorem calculate_value {ts : List Tok} {s : HString} {e : Expr} {v : Int} (hs : Spells ts s)
    (hp : Parses 1 ts e) (hv : e.value = some v) (hq : e.QuotientsFit) :
    ∃ r, calculate s = some r ∧ readInt r = some v := by
  obtain ⟨w, hw, hrun⟩ := Expr.pushes hv hq
  refine ⟨w, ?_, hw⟩
  rw [hs.calculate_eq hp.postfixForm]
  exact evaluate_single (hrun [])

/-- A number from its digits. -/
def numeral (ds : HString) (h : (decide (ds ≠ []) && isNum ds) = true) : Numeral :=
  ⟨ds, by simpa [isNum] using h⟩

theorem head_not_digit {c : HChar} (h : c ∈ separators) (s : HString) :
    ∀ d ∈ (c :: s).head?, d ∉ digitChars := by
  simpa using separator_not_digit h

theorem calculate_value_negative :
    ∃ r, calculate (lit "(1 - 2) * 3") = some r ∧ readInt r = some (-3) := by
  let one := numeral (lit "1") (by decide)
  let two := numeral (lit "2") (by decide)
  let three := numeral (lit "3") (by decide)
  have hspells : Spells [.opn .round, .num one, .op .sub, .num two, .cls .round, .op .mul,
      .num three] (lit "(1 - 2) * 3") := by
    have hlit : lit "(1 - 2) * 3" = Bracket.round.opnChar :: (one.val ++ chr ' ' ::
        Op.sub.char :: chr ' ' :: (two.val ++ Bracket.round.clsChar :: chr ' ' ::
        Op.mul.char :: chr ' ' :: (three.val ++ []))) := by
      decide
    rw [hlit]
    have hthree : Spells [.num three] (three.val ++ []) := .num three .nil (by simp)
    have htwo := Spells.num two (.cls .round (.space (.op .mul (.space hthree))))
      (head_not_digit (Bracket.clsChar_mem_separators _) _)
    have hone := Spells.num one (.space (.op .sub (.space htwo)))
      (head_not_digit space_mem_separators _)
    exact .opn .round hone
  have hparses : Parses 1 [.opn .round, .num one, .op .sub, .num two, .cls .round, .op .mul,
      .num three] (.bin .mul (.bin .sub (.num one) (.num two)) (.num three)) :=
    .up (.bin .mul (.up (.paren .round (.bin .sub (.up (.up (.num one))) (.up (.num two)))))
      (.num three))
  apply calculate_value hspells hparses
  · decide
  · simp [Expr.QuotientsFit]

/-- The least `Int` divided by `-1`. -/
theorem not_calculate_value :
    ∃ ts s e v, Spells ts s ∧ Parses 1 ts e ∧ e.value = some v ∧
      ¬ ∃ r, calculate s = some r ∧ readInt r = some v := by
  let zero := numeral (lit "0") (by decide)
  let one := numeral (lit "1") (by decide)
  let most := numeral (lit "9223372036854775807") (by decide)
  have hspells : Spells [.opn .round, .num zero, .op .sub, .num most, .op .sub, .num one,
      .cls .round, .op .div, .opn .round, .num zero, .op .sub, .num one, .cls .round]
      (lit "(0-9223372036854775807-1)/(0-1)") := by
    have hlit : lit "(0-9223372036854775807-1)/(0-1)" = Bracket.round.opnChar ::
        (zero.val ++ Op.sub.char :: (most.val ++ Op.sub.char :: (one.val ++
        Bracket.round.clsChar :: Op.div.char :: Bracket.round.opnChar ::
        (zero.val ++ Op.sub.char :: (one.val ++ [Bracket.round.clsChar]))))) := by
      decide
    rw [hlit]
    have hdivisor := Spells.num zero (.op .sub (.num one (.cls .round .nil)
      (head_not_digit (Bracket.clsChar_mem_separators _) _)))
      (head_not_digit (Op.char_mem_separators _) _)
    have hone := Spells.num one (.cls .round (.op .div (.opn .round hdivisor)))
      (head_not_digit (Bracket.clsChar_mem_separators _) _)
    have hmost := Spells.num most (.op .sub hone) (head_not_digit (Op.char_mem_separators _) _)
    exact .opn .round (.num zero (.op .sub hmost) (head_not_digit (Op.char_mem_separators _) _))
  have hleft : Parses 1 [.num zero, .op .sub, .num most, .op .sub, .num one]
      (.bin .sub (.bin .sub (.num zero) (.num most)) (.num one)) :=
    .bin .sub (.bin .sub (.up (.up (.num zero))) (.up (.num most))) (.up (.num one))
  have hright : Parses 1 [.num zero, .op .sub, .num one] (.bin .sub (.num zero) (.num one)) :=
    .bin .sub (.up (.up (.num zero))) (.up (.num one))
  refine ⟨_, _, _, minBound, hspells, .up (.bin .div (.up (.paren .round hleft))
    (.paren .round hright)), ?_, ?_⟩
  · decide
  · rintro ⟨r, hr, -⟩
    have hnone : calculate (lit "(0-9223372036854775807-1)/(0-1)") = none := by decide
    rw [hnone] at hr
    exact absurd hr nofun

end PittCs.Cs1699
