import PittCs.Cs1699.CalcValue

/-!
# The two calculators agree

The basic pipeline tells a result from an error by its first five letters. Sorting its
result by them gives the result of the other pipeline: no token and no number starts
with `Error`, and an error of one stage goes through the later ones unchanged.
-/

namespace PittCs.Cs1699

open List Option

/-- A result of the basic pipeline, as `main'` tells results and errors apart. -/
def sortResult (v : HString) : Except HString HString := if isError v then .error v else .ok v

theorem sortResult_ok_iff {v w : HString} : sortResult v = .ok w ↔ v = w ∧ isError w = false := by
  unfold sortResult
  cases h : isError v with
  | false | true => grind

theorem sortResult_error_iff {v w : HString} :
    sortResult v = .error w ↔ v = w ∧ isError w = true := by
  unfold sortResult
  cases h : isError v with
  | false | true => grind

/-! ## The postfix form has no errors -/

section Postfix

variable {P : HString → Prop}

theorem popOperators_forall {stack : List HString} {op : HString} (hs : ∀ x ∈ stack, P x)
    (hop : P op) :
    (∀ x ∈ (popOperators stack op).1, P x) ∧ ∀ x ∈ (popOperators stack op).2, P x := by
  induction stack with
  | nil => simpa [popOperators] using hop
  | cons s stack ih =>
    obtain ⟨h, hstack⟩ := forall_mem_cons.mp hs
    obtain ⟨ih₁, ih₂⟩ := ih hstack
    unfold popOperators
    split
    · exact ⟨forall_mem_cons.mpr ⟨h, ih₁⟩, ih₂⟩
    · exact ⟨by simp, forall_mem_cons.mpr ⟨hop, hs⟩⟩

theorem popParentheses_forall {stack : List HString} {r : List HString × List HString}
    (hs : ∀ x ∈ stack, P x) (h : popParentheses stack = some r) :
    (∀ x ∈ r.1, P x) ∧ ∀ x ∈ r.2, P x := by
  induction stack generalizing r with
  | nil => simp [popParentheses] at h
  | cons s stack ih =>
    obtain ⟨hhead, hstack⟩ := forall_mem_cons.mp hs
    simp only [popParentheses] at h
    split at h
    · obtain rfl := some.inj h
      exact ⟨by simp, hstack⟩
    · obtain ⟨q, hq, rfl⟩ := map_eq_some_iff.mp h
      obtain ⟨ih₁, ih₂⟩ := ih hstack hq
      exact ⟨forall_mem_cons.mpr ⟨hhead, ih₁⟩, ih₂⟩

/-- Both parts of a state of the shunting yard. -/
def PostfixAll (P : HString → Prop) (st : List HString × List HString) : Prop :=
  (∀ x ∈ st.1, P x) ∧ ∀ x ∈ st.2, P x

theorem PostfixAll.extend {e ls ns s : List HString} (h : PostfixAll P (e, s))
    (hls : ∀ x ∈ ls, P x) (hns : ∀ x ∈ ns, P x) : PostfixAll P (e ++ ls, ns) :=
  ⟨forall_mem_append.mpr ⟨h.1, hls⟩, hns⟩

theorem postfixStep_all (hparen : P (lit "(")) {st st' : List HString × List HString}
    {i : HString} (hst : PostfixAll P st) (hi : P i) (h : postfixStep st i = some st') :
    PostfixAll P st' := by
  obtain ⟨e, s⟩ := st
  simp only [postfixStep] at h
  split at h
  · obtain rfl := some.inj h
    exact hst.extend (by simpa using hi) hst.2
  · split at h
    · cases h
    · split at h
      · obtain rfl := some.inj h
        obtain ⟨hls, hns⟩ := popOperators_forall hst.2 hi
        exact hst.extend hls hns
      · split at h
        · obtain rfl := some.inj h
          exact ⟨hst.1, forall_mem_cons.mpr ⟨hparen, hst.2⟩⟩
        · split at h
          · obtain ⟨r, hr, rfl⟩ := map_eq_some_iff.mp h
            obtain ⟨hls, hns⟩ := popParentheses_forall hst.2 hr
            exact hst.extend hls hns
          · cases h

theorem foldlM_postfixStep_all (hparen : P (lit "(")) {x : List HString} (hx : ∀ i ∈ x, P i)
    {st st' : List HString × List HString} (hst : PostfixAll P st)
    (h : x.foldlM postfixStep st = some st') : PostfixAll P st' := by
  induction x generalizing st with
  | nil =>
    obtain rfl : st = st' := by simpa using h
    exact hst
  | cons i x ih =>
    obtain ⟨hi, hx⟩ := forall_mem_cons.mp hx
    rw [foldlM_cons] at h
    obtain ⟨mid, hmid, hrest⟩ := bind_eq_some_iff.mp h
    exact ih hx (postfixStep_all hparen hst hi hmid) hrest

/-- What holds of every token and of an opening parenthesis holds of the postfix form. -/
theorem toPostfix_forall (hparen : P (lit "(")) {x y : List HString} (hx : ∀ i ∈ x, P i)
    (h : toPostfix x = some y) : ∀ i ∈ y, P i := by
  obtain ⟨st, hst, rfl⟩ := map_eq_some_iff.mp h
  have hall : PostfixAll P st := foldlM_postfixStep_all hparen hx ⟨by simp, by simp⟩ hst
  exact forall_mem_append.mpr hall

end Postfix

/-! ## The stack of `evaluate` has no errors -/

/-- The values of a stack that do not throw. -/
def StackOk (stack : List (Option HString)) : Prop :=
  ∀ r ∈ stack, ∀ v, r = some v → isError v = false

theorem StackOk.cons {stack : List (Option HString)} (h : StackOk stack) {r : Option HString}
    (hr : ∀ v, r = some v → isError v = false) : StackOk (r :: stack) := by
  intro q hq
  rcases mem_cons.mp hq with rfl | hq
  · exact hr
  · exact h q hq

theorem evalStep_ok {stack : List (Option HString)} (h : StackOk stack) (x : HString) :
    StackOk (evalStep stack x) := by
  unfold evalStep
  split
  · rename_i hx
    apply h.cons
    intro v hv
    obtain rfl := some.inj hv
    exact not_isError_of_isNum hx
  · split
    · rename_i a b newStack
      have hrest : StackOk newStack :=
        fun r hr => h r (mem_cons_of_mem _ (mem_cons_of_mem _ hr))
      apply hrest.cons
      intro v hv
      simp only [bind_eq_some_iff, map_eq_some_iff] at hv
      obtain ⟨_, _, _, _, w, _, rfl⟩ := hv
      exact not_isError_showInt w
    · -- the mark of a missing operand
      intro r hr v hv
      rcases mem_append.mp hr with hr | hr
      · exact h r hr v hv
      · rw [mem_singleton.mp hr] at hv
        obtain rfl := some.inj hv
        decide

theorem foldl_evalStep_ok (x : List HString) {stack : List (Option HString)}
    (h : StackOk stack) : StackOk (x.foldl evalStep stack) := by
  induction x generalizing stack with
  | nil => exact h
  | cons t x ih => exact ih (evalStep_ok h t)

theorem isError_tooMany : isError tooMany = true := by decide

theorem eitherEvaluate_eq {x : List HString} (hx : ∀ i ∈ x, isError i = false) :
    eitherEvaluate x = (evaluate x).map sortResult := by
  cases x with
  | nil => rfl
  | cons t x =>
    have ht : isError t = false := hx t (by simp)
    have hok : StackOk ((t :: x).foldl evalStep []) := foldl_evalStep_ok _ (by simp [StackOk])
    simp only [eitherEvaluate, evaluate, ht, Bool.false_eq_true, if_false]
    generalize (t :: x).foldl evalStep [] = result at hok
    split
    · rename_i r
      cases r with
      | none => rfl
      | some v =>
        have hv : isError v = false := hok (some v) (by simp) v rfl
        simp [sortResult, hv]
    · simp [sortResult, isError_tooMany]

/-! ## The pipelines -/

/-- An error is passed on by the stages after `tokenizer`. -/
theorem evaluate_error {v : HString} (h : isError v = true) :
    (infix2Postfix (checkBalanced [v])).bind evaluate = some v := by
  simp [checkBalanced, infix2Postfix, evaluate, h]

theorem isError_unbalanced : isError unbalanced = true := by decide

theorem isError_checkChars (c : HString) :
    isError (lit "Error [checkChars]: The character '" ++ c ++ lit "' is not allowed.") = true := by
  have hlen : 5 ≤ (lit "Error [checkChars]: The character '").length := by decide
  have htake : (lit "Error [checkChars]: The character '").take 5 = lit "Error" := by
    decide
  simp only [isError, append_assoc, take_append_of_le_length hlen, htake, decide_true]

/-- The stages from `checkBalanced` on, on tokens that are no errors. -/
theorem eitherCheckBalanced_eq {x : List HString} (hx : ∀ i ∈ x, isError i = false) :
    (andThen (eitherCheckBalanced x) fun x => (eitherInfix2Postfix x).bind fun x =>
        andThen x eitherEvaluate) =
      ((infix2Postfix (checkBalanced x)).bind evaluate).map sortResult := by
  cases x with
  | nil => rfl
  | cons t x =>
    have ht : isError t = false := hx t (by simp)
    by_cases hb : ((t :: x).foldl balanceStep []).length = 0
    · simp only [eitherCheckBalanced, checkBalanced, ht, Bool.false_eq_true, if_false, hb, if_true,
        andThen, eitherInfix2Postfix, infix2Postfix]
      cases hp : toPostfix (t :: x) with
      | none => rfl
      | some y =>
        have hparen : isError (lit "(") = false := by decide
        have hy : ∀ i ∈ y, isError i = false := toPostfix_forall hparen hx hp
        simpa using eitherEvaluate_eq hy
    · have hbasic : checkBalanced (t :: x) = checkBalanced [unbalanced] := by
        simp only [checkBalanced, ht, Bool.false_eq_true, if_false, hb, isError_unbalanced, if_true]
      rw [hbasic, evaluate_error isError_unbalanced]
      simp only [eitherCheckBalanced, ht, Bool.false_eq_true, if_false, hb, andThen,
        map_some, sortResult, isError_unbalanced, if_true]

/-- The result of one pipeline is the sorted result of the other. -/
theorem eitherCalculate_eq (s : HString) : eitherCalculate s = (calculate s).map sortResult := by
  unfold eitherCalculate calculate
  by_cases hs : (s.filter fun c => !decide (c ∈ validChars)).length = 0
  · have hvalid : ∀ c ∈ s, c ∈ validChars := by simpa using hs
    obtain ⟨ts, hts⟩ := exists_spells hvalid
    have hs' : isError s = false := not_isError_of_valid hvalid
    have htoks : ∀ i ∈ tokens s, isError i = false := by
      rw [hts.tokens_eq]
      simpa using fun t _ => t.not_isError_str
    simp only [eitherCheckChars, checkChars, hs, if_true, andThen, eitherTokenizer, tokenizer, hs',
      Bool.false_eq_true, if_false]
    exact eitherCheckBalanced_eq htoks
  · simp only [eitherCheckChars, checkChars, hs, if_false, andThen, tokenizer, isError_checkChars,
      if_true]
    rw [evaluate_error (isError_checkChars _)]
    simp only [map_some, sortResult, isError_checkChars, if_true]

/-- One calculator returns a value, an error or nothing exactly when the other does. -/
theorem calculators_agree (s : HString) :
    (∀ v, eitherCalculate s = some (.ok v) ↔ calculate s = some v ∧ isError v = false) ∧
    (∀ e, eitherCalculate s = some (.error e) ↔ calculate s = some e ∧ isError e = true) ∧
    (eitherCalculate s = none ↔ calculate s = none) := by
  rw [eitherCalculate_eq]
  refine ⟨?_, ?_, ?_⟩
  · intro v
    simp only [map_eq_some_iff, sortResult_ok_iff]
    grind
  · intro e
    simp only [map_eq_some_iff, sortResult_error_iff]
    grind
  · exact map_eq_none_iff

/-!
## Strings that are no expressions

The stages reject a string for a character, for its brackets, or for the number of
operands that are left when the operators have been applied. An operator that finds
fewer than two operands leaves one more, so a wrong arrangement can end with exactly
one, and a string without numbers and operators has no postfix form to start from.
-/

/-- The number of operands after a token. -/
def operandStep (d : Nat) : Tok → Nat
  | .num _ => d + 1
  | _ => if 2 ≤ d then d - 1 else d + 1

/-- The number of operands left at the end. -/
def operands (xs : List Tok) : Nat := xs.foldl operandStep 0

/-- Strings that fail one of the checks. -/
def Rejected (s : HString) : Prop :=
  (∃ c ∈ s, c ∉ validChars) ∨
  ∃ ts, Spells ts s ∧ (¬ Balanced ts ∨ ∃ xs, Postfix 1 ts xs ∧ xs ≠ [] ∧ operands xs ≠ 1)

/-! ## The stack -/

/-- What is no number takes two entries for one, or adds one. -/
theorem length_evalStep_operator {x : HString} (hx : isNum x = false)
    (stack : List (Option HString)) :
    (evalStep stack x).length =
      if 2 ≤ stack.length then stack.length - 1 else stack.length + 1 := by
  match stack with
  | [] => simp [evalStep, hx]
  | [a] => simp [evalStep, hx]
  | a :: b :: rest => simp [evalStep, hx]

theorem length_evalStep (stack : List (Option HString)) (t : Tok) :
    (evalStep stack t.str).length = operandStep stack.length t := by
  cases t with
  | num n => simp [Tok.str, evalStep, isNum_numeral, operandStep]
  | op o => exact length_evalStep_operator (isNum_op o) stack
  | opn b | cls b => exact length_evalStep_operator (by cases b <;> decide) stack

theorem length_foldl_evalStep (xs : List Tok) (stack : List (Option HString)) :
    ((xs.map Tok.str).foldl evalStep stack).length = xs.foldl operandStep stack.length := by
  induction xs generalizing stack with
  | nil => rfl
  | cons t xs ih =>
    rw [map_cons, foldl_cons, foldl_cons, ih, length_evalStep]

/-! ## The outcomes -/

theorem calculate_of_invalid {s : HString} {c : HChar} (hc : c ∈ s) (hv : c ∉ validChars) :
    ∃ m, calculate s = some m ∧ isError m = true := by
  have hinvalid : (s.filter fun c => !decide (c ∈ validChars)).length ≠ 0 := by
    intro h
    have hall : ∀ c ∈ s, c ∈ validChars := by simpa using h
    exact hv (hall c hc)
  refine ⟨_, ?_, isError_checkChars ((s.filter fun c => !decide (c ∈ validChars)).take 1)⟩
  simp only [calculate, checkChars, hinvalid, if_false, tokenizer, isError_checkChars, if_true]
  exact evaluate_error (isError_checkChars _)

theorem Spells.calculate_of_unbalanced {ts : List Tok} {s : HString} (h : Spells ts s)
    (hb : ¬ Balanced ts) : calculate s = some unbalanced := by
  classical
  rw [calculate, h.tokenizer_eq, checkBalanced_eq, if_neg hb]
  simp only [infix2Postfix, isError_unbalanced, if_true, Option.bind_some, evaluate]

/-- A postfix form that leaves more than one operand is an error. -/
theorem evaluate_tooMany {xs : List Tok} (hne : xs ≠ []) (h : operands xs ≠ 1) :
    evaluate (xs.map Tok.str) = some tooMany := by
  have hlen := length_foldl_evalStep xs []
  cases hx : xs.map Tok.str with
  | nil => exact absurd (map_eq_nil_iff.mp hx) hne
  | cons t x =>
    rw [hx] at hlen
    simp only [evaluate, Tok.isError_map_str hx, Bool.false_eq_true, if_false]
    split
    · rename_i r hr
      rw [hr] at hlen
      exact absurd hlen.symm h
    · rfl

/-- A postfix form that leaves one operand is never an error. -/
theorem evaluate_accepts {xs : List Tok} (h : operands xs = 1) {m : HString}
    (hm : evaluate (xs.map Tok.str) = some m) : isError m = false := by
  have hlen := length_foldl_evalStep xs []
  rw [show xs.foldl operandStep ([] : List (Option HString)).length = 1 from h,
    length_eq_one_iff] at hlen
  obtain ⟨r, hr⟩ := hlen
  have hempty : StackOk [] := by simp [StackOk]
  have hok := foldl_evalStep_ok (xs.map Tok.str) hempty
  rw [hr] at hok
  rw [evaluate_single hr] at hm
  exact hok r (by simp) m hm

/-- Strings are rejected by the checks alone. -/
theorem calculate_isError_iff (s : HString) :
    (∃ m, calculate s = some m ∧ isError m = true) ↔ Rejected s := by
  constructor
  · rintro ⟨m, hm, herr⟩
    by_cases hvalid : ∀ c ∈ s, c ∈ validChars
    · obtain ⟨ts, hts⟩ := exists_spells hvalid
      refine Or.inr ⟨ts, hts, ?_⟩
      by_cases hb : Balanced ts
      · right
        obtain ⟨xs, hxs⟩ := hb.exists_postfix
        rw [hts.calculate_eq hxs] at hm
        refine ⟨xs, hxs, ?_, ?_⟩
        · -- an empty postfix form has no first token
          rintro rfl
          exact absurd hm nofun
        · intro hone
          rw [evaluate_accepts hone hm] at herr
          exact absurd herr nofun
      · exact Or.inl hb
    · push Not at hvalid
      exact Or.inl hvalid
  · rintro (⟨c, hc, hv⟩ | ⟨ts, hts, hb | ⟨xs, hxs, hne, hone⟩⟩)
    · exact calculate_of_invalid hc hv
    · exact ⟨unbalanced, hts.calculate_of_unbalanced hb, isError_unbalanced⟩
    · refine ⟨tooMany, ?_, isError_tooMany⟩
      rw [hts.calculate_eq hxs]
      exact evaluate_tooMany hne hone

/-- Of the strings that are no expressions, those that fail a check give an error, and
no others. -/
theorem calculate_rejects_iff (s : HString) :
    (¬ WellFormed s → ∃ m, calculate s = some m ∧ isError m = true) ↔
      WellFormed s ∨ Rejected s := by
  rw [calculate_isError_iff]
  constructor
  · intro h
    by_cases hs : WellFormed s
    · exact Or.inl hs
    · exact Or.inr (h hs)
  · rintro (hs | hs) hnot
    · exact absurd hs hnot
    · exact hs

/-- An expression ends with a number or a closing bracket. -/
theorem Parses.exists_last {p : Nat} {ts : List Tok} {e : Expr} (h : Parses p ts e) :
    ∃ us t, ts = us ++ [t] ∧ ∀ o : Op, t.str ≠ [o.char] := by
  induction h with
  | num n => exact ⟨[], .num n, rfl, fun o => n.ne_separator o.char_mem_separators⟩
  | paren b h ih =>
    refine ⟨_, .cls b, (cons_append ..).symm, ?_⟩
    intro o
    cases b <;> cases o <;> decide
  | bin o hl hr ihl ihr =>
    obtain ⟨us, t, rfl, ht⟩ := ihr
    exact ⟨_, t, by rw [← cons_append, ← append_assoc], ht⟩
  | up h ih => exact ih

/-- An operator behind its operands. -/
theorem not_calculate_rejects :
    ¬ ∀ s, ¬ WellFormed s → ∃ m, calculate s = some m ∧ isError m = true := by
  intro h
  have hnot : ¬ WellFormed (lit "1 2 +") := by
    rintro ⟨ts, e, hts, hp⟩
    obtain ⟨us, t, rfl, ht⟩ := hp.exists_last
    have htokens : tokens (lit "1 2 +") = [lit "1", lit "2"] ++ [[Op.add.char]] := by
      decide
    rw [hts.tokens_eq, map_append, map_cons, map_nil] at htokens
    exact ht .add (append_singleton_inj.mp htokens).2
  obtain ⟨m, hm, herr⟩ := h _ hnot
  have hthree : calculate (lit "1 2 +") = some (lit "3") := by decide
  rw [hthree] at hm
  obtain rfl := Option.some.inj hm
  exact absurd herr (by decide)

end PittCs.Cs1699
