import Mathlib.Data.List.Induction
import PittCs.Cs1699.CalcTokens

/-!
# The shunting yard

`infix2Postfix` never looks at the grammar: it moves every operator of a balanced token
list behind all that follows it up to the next operator of no greater precedence, or up
to the end of its bracket. `Postfix` says so without a stack. The invariant is that the
operators above the stack a level started with have at least the precedence of the
level, so the next operator of that level pops them all and nothing below.
-/

namespace PittCs.Cs1699

open List Option

/-- `precedenceOrder` of an operator. -/
def Op.prec : Op → Nat
  | .add => 1
  | .sub => 1
  | .mul => 2
  | .div => 2

/-- Token lists with matched brackets. -/
inductive Balanced : List Tok → Prop
  | nil : Balanced []
  | num {ts : List Tok} (h : Balanced ts) (n : Numeral) : Balanced (ts ++ [.num n])
  | op {ts : List Tok} (h : Balanced ts) (o : Op) : Balanced (ts ++ [.op o])
  | group {ts us : List Tok} (h : Balanced ts) (b : Bracket) (hu : Balanced us) :
      Balanced (ts ++ .opn b :: (us ++ [.cls b]))

/-- The order in which the numbers and operators of a token list are applied. Level 3
has no operator outside brackets, level 2 has those of precedence 2, level 1 all. -/
inductive Postfix : Nat → List Tok → List Tok → Prop
  | nil : Postfix 3 [] []
  | num {ts xs : List Tok} (h : Postfix 3 ts xs) (n : Numeral) :
      Postfix 3 (ts ++ [.num n]) (xs ++ [.num n])
  | group {ts xs us ys : List Tok} (h : Postfix 3 ts xs) (b : Bracket) (hu : Postfix 1 us ys) :
      Postfix 3 (ts ++ .opn b :: (us ++ [.cls b])) (xs ++ ys)
  | op {ts xs us ys : List Tok} (o : Op) (h : Postfix o.prec ts xs)
      (hu : Postfix (o.prec + 1) us ys) : Postfix o.prec (ts ++ .op o :: us) (xs ++ (ys ++ [.op o]))
  | up {p : Nat} {ts xs : List Tok} (h : Postfix (p + 1) ts xs) : Postfix p ts xs

/-! ## The balance check -/

theorem opening_eq : [lit "(", lit "[", lit "\x7b"] =
    [[Bracket.round.opnChar], [Bracket.square.opnChar], [Bracket.curly.opnChar]] := by
  decide

theorem closing_eq : [lit ")", lit "]", lit "\x7d"] =
    [[Bracket.round.clsChar], [Bracket.square.clsChar], [Bracket.curly.clsChar]] := by
  decide

theorem Numeral.ne_separator (n : Numeral) {c : HChar} (h : c ∈ separators) : n.val ≠ [c] := by
  intro hn
  exact separator_not_digit h (n.property.2 c (by simp [hn]))

theorem balanceStep_num (stack : List HString) (n : Numeral) :
    balanceStep stack n.val = stack := by
  have hopn : n.val ∉ [lit "(", lit "[", lit "\x7b"] := by
    simp [opening_eq, Numeral.ne_separator, Bracket.opnChar_mem_separators]
  have hcls : n.val ∉ [lit ")", lit "]", lit "\x7d"] := by
    simp [closing_eq, Numeral.ne_separator, Bracket.clsChar_mem_separators]
  simp only [balanceStep, hopn, hcls, if_false]

theorem balanceStep_op (stack : List HString) (o : Op) : balanceStep stack [o.char] = stack := by
  have h : [o.char] ∉ [lit "(", lit "[", lit "\x7b"] ∧ [o.char] ∉ [lit ")", lit "]", lit "\x7d"] := by
    cases o <;> decide
  simp only [balanceStep, h.1, h.2, if_false]

theorem balanceStep_opn (stack : List HString) (b : Bracket) :
    balanceStep stack [b.opnChar] = [b.opnChar] :: stack := by
  have h : [b.opnChar] ∈ [lit "(", lit "[", lit "\x7b"] := by
    cases b <;> decide
  simp only [balanceStep, h, if_true]

/-- A closing bracket takes its opening bracket from the stack and marks every other
stack as unbalanced. -/
theorem balanceStep_cls (stack : List HString) (b : Bracket) :
    balanceStep stack [b.clsChar] =
      match stack with
      | [] => lit "a" :: stack
      | s :: rest => if s = [b.opnChar] then rest else lit "a" :: stack := by
  have hopn : [b.clsChar] ∉ [lit "(", lit "[", lit "\x7b"] := by
    cases b <;> decide
  have hcls : [b.clsChar] ∈ [lit ")", lit "]", lit "\x7d"] := by
    cases b <;> decide
  simp only [balanceStep, hopn, hcls, if_true, if_false]
  cases stack with
  | nil => rfl
  | cons s rest =>
    have hmatch : (([b.clsChar] = lit ")" ∧ s = lit "(") ∨ ([b.clsChar] = lit "]" ∧ s = lit "[") ∨
        ([b.clsChar] = lit "\x7d" ∧ s = lit "\x7b")) ↔ s = [b.opnChar] := by
      have hround : lit ")" = [Bracket.round.clsChar] ∧ lit "(" = [Bracket.round.opnChar] := by
        decide
      have hsquare : lit "]" = [Bracket.square.clsChar] ∧ lit "[" = [Bracket.square.opnChar] := by
        decide
      have hcurly : lit "\x7d" = [Bracket.curly.clsChar] ∧ lit "\x7b" = [Bracket.curly.opnChar] := by
        decide
      rw [hround.1, hround.2, hsquare.1, hsquare.2, hcurly.1, hcurly.2]
      have hinj : ∀ b b' : Bracket, [b.clsChar] = [b'.clsChar] ↔ b = b' := by
        intro b b'
        cases b <;> cases b' <;> decide
      cases b <;> simp [hinj]
    simp only [hmatch]

variable {ts xs us : List Tok} {p : Nat} {stack : List HString}

/-- Balanced tokens leave the stack of brackets as it was. -/
theorem Balanced.foldl_balanceStep (h : Balanced ts) (stack : List HString) :
    (ts.map Tok.str).foldl balanceStep stack = stack := by
  induction h generalizing stack with
  | nil => rfl
  | num h n ih => simp [ih, Tok.str, balanceStep_num]
  | op h o ih => simp [ih, Tok.str, balanceStep_op]
  | group h b hu ih ihu => simp [ih, ihu, Tok.str, balanceStep_opn, balanceStep_cls]

/-- Token lists in which some brackets are still open, the last one first. -/
def Opened (ts : List Tok) : List Bracket → Prop
  | [] => Balanced ts
  | b :: bs => ∃ us vs, ts = us ++ .opn b :: vs ∧ Opened us bs ∧ Balanced vs

theorem Opened.append {bs : List Bracket} (h : Opened ts bs)
    (hu : ∀ vs, Balanced vs → Balanced (vs ++ us)) : Opened (ts ++ us) bs := by
  cases bs with
  | nil => exact hu ts h
  | cons b bs =>
    obtain ⟨ws, vs, rfl, hws, hvs⟩ := h
    exact ⟨ws, vs ++ us, by simp, hws, hu vs hvs⟩

theorem Opened.close {b : Bracket} {bs : List Bracket} (h : Opened ts (b :: bs)) :
    Opened (ts ++ [.cls b]) bs := by
  obtain ⟨us, vs, rfl, hus, hvs⟩ := h
  rw [append_assoc]
  exact hus.append fun ws hws => hws.group b hvs

/-- The mark of an unbalanced list stays on the stack. -/
theorem mark_mem_balanceStep (h : lit "a" ∈ stack) (t : Tok) :
    lit "a" ∈ balanceStep stack t.str := by
  cases t with
  | num n => simpa [Tok.str, balanceStep_num] using h
  | op o => simpa [Tok.str, balanceStep_op] using h
  | opn b => simp [Tok.str, balanceStep_opn, h]
  | cls b =>
    simp only [Tok.str, balanceStep_cls]
    cases stack with
    | nil => simp at h
    | cons s rest =>
      dsimp only
      split
      · rename_i hs
        have hne : lit "a" ≠ [b.opnChar] := by cases b <;> decide
        exact (mem_cons.mp h).resolve_left fun ha => hne (ha.trans hs)
      · simp

/-- The stack of the check holds the open brackets unless it is marked. -/
theorem foldl_balanceStep_cases (ts : List Tok) :
    lit "a" ∈ (ts.map Tok.str).foldl balanceStep [] ∨
      ∃ bs : List Bracket, (ts.map Tok.str).foldl balanceStep [] = bs.map (fun b => [b.opnChar]) ∧
        Opened ts bs := by
  induction ts using List.reverseRecOn with
  | nil => exact Or.inr ⟨[], rfl, .nil⟩
  | append_singleton ts t ih =>
    rw [map_append, foldl_append]
    simp only [map_cons, map_nil, foldl_cons, foldl_nil]
    rcases ih with ih | ⟨bs, hbs, hopen⟩
    · exact Or.inl (mark_mem_balanceStep ih t)
    · rw [hbs]
      cases t with
      | num n => exact Or.inr ⟨bs, balanceStep_num _ n, hopen.append fun vs hvs => hvs.num n⟩
      | op o => exact Or.inr ⟨bs, balanceStep_op _ o, hopen.append fun vs hvs => hvs.op o⟩
      | opn b => exact Or.inr ⟨b :: bs, balanceStep_opn _ b, ts, [], rfl, hopen, .nil⟩
      | cls b =>
        simp only [Tok.str, balanceStep_cls]
        cases bs with
        | nil => exact Or.inl (by simp)
        | cons b' bs =>
          simp only [map_cons]
          split
          · rename_i hb
            have hinj : ∀ b b' : Bracket, [b.opnChar] = [b'.opnChar] → b = b' := by
              intro b b'
              cases b <;> cases b' <;> decide
            obtain rfl := hinj _ _ hb
            exact Or.inr ⟨bs, rfl, hopen.close⟩
          · exact Or.inl (by simp)

/-- The check passes exactly on the balanced token lists. -/
theorem foldl_balanceStep_eq_nil_iff :
    ((ts.map Tok.str).foldl balanceStep []).length = 0 ↔ Balanced ts := by
  constructor
  · intro h
    rw [length_eq_zero_iff] at h
    rcases foldl_balanceStep_cases ts with hmark | ⟨bs, hbs, hopen⟩
    · rw [h] at hmark
      simp at hmark
    · rw [h] at hbs
      obtain rfl : bs = [] := by simpa using hbs.symm
      exact hopen
  · intro h
    rw [h.foldl_balanceStep]
    rfl

/-! ## Every balanced list has an order -/

theorem Op.prec_le (o : Op) : o.prec ≤ 2 := by
  cases o <;> decide

theorem Postfix.empty (h : p ≤ 3) : Postfix p [] [] := by
  match p, h with
  | 0, _ => exact Postfix.nil.up.up.up
  | 1, _ => exact Postfix.nil.up.up
  | 2, _ => exact Postfix.nil.up
  | 3, _ => exact Postfix.nil

/-- What may follow a list without operators may follow every list. -/
theorem Postfix.exists_append (h : Postfix p ts xs)
    (hu : ∀ ts xs, Postfix 3 ts xs → ∃ zs, Postfix 3 (ts ++ us) zs) :
    ∃ zs, Postfix p (ts ++ us) zs := by
  induction h with
  | nil => exact hu _ _ .nil
  | num h n ih => exact hu _ _ (h.num n)
  | group h b hg ih ihg => exact hu _ _ (h.group b hg)
  | op o h hr ih ihr =>
    obtain ⟨zs, hzs⟩ := ihr
    rw [append_assoc, cons_append]
    exact ⟨_, Postfix.op o h hzs⟩
  | up h ih =>
    obtain ⟨zs, hzs⟩ := ih
    exact ⟨zs, hzs.up⟩

theorem Postfix.append_op (o : Op) (h : Postfix o.prec ts xs) :
    ∃ zs, Postfix o.prec (ts ++ [.op o]) zs := by
  have hle : o.prec + 1 ≤ 3 := Nat.succ_le_succ o.prec_le
  exact ⟨_, Postfix.op o h (.empty hle)⟩

/-- An operator may follow every list of its level or a lower one. -/
theorem Postfix.exists_append_op (h : Postfix p ts xs) (o : Op) (hp : p ≤ o.prec) :
    ∃ zs, Postfix p (ts ++ [.op o]) zs := by
  have hle := o.prec_le
  induction h with
  | nil | num h n ih | group h b hg ih ihg => omega
  | op o' h hr ih ihr =>
    rcases Nat.eq_or_lt_of_le hp with heq | hlt
    · rw [heq]
      exact Postfix.append_op o (heq ▸ Postfix.op o' h hr)
    · -- an operator of greater precedence belongs to the right operand
      obtain ⟨zs, hzs⟩ := ihr hlt
      rw [append_assoc, cons_append]
      exact ⟨_, Postfix.op o' h hzs⟩
  | up h ih =>
    rcases Nat.eq_or_lt_of_le hp with heq | hlt
    · rw [heq]
      exact Postfix.append_op o (heq ▸ h.up)
    · obtain ⟨zs, hzs⟩ := ih hlt
      exact ⟨zs, hzs.up⟩

theorem Balanced.exists_postfix (h : Balanced ts) : ∃ xs, Postfix 1 ts xs := by
  induction h with
  | nil => exact ⟨[], .empty (by decide)⟩
  | num h n ih =>
    obtain ⟨xs, hxs⟩ := ih
    exact hxs.exists_append fun ts xs h => ⟨_, h.num n⟩
  | op h o ih =>
    obtain ⟨xs, hxs⟩ := ih
    exact hxs.exists_append_op o (by cases o <;> decide)
  | group h b hu ih ihu =>
    obtain ⟨xs, hxs⟩ := ih
    obtain ⟨ys, hys⟩ := ihu
    exact hxs.exists_append fun ts xs h => ⟨_, h.group b hys⟩

theorem Postfix.balanced_append {ys : List Tok} (h : Postfix p us ys) (ht : Balanced ts) :
    Balanced (ts ++ us) := by
  induction h generalizing ts with
  | nil => simpa using ht
  | num h n ih =>
    rw [← append_assoc]
    exact (ih ht).num n
  | group h b hg ih ihg =>
    rw [← append_assoc]
    exact (ih ht).group b (by simpa using ihg .nil)
  | op o h hr ih ihr =>
    have hop := ihr ((ih ht).op o)
    simpa using hop
  | up h ih => exact ih ht

theorem Postfix.balanced (h : Postfix p ts xs) : Balanced ts :=
  h.balanced_append .nil

/-! ## Steps of the shunting yard -/

theorem isNum_numeral (n : Numeral) : isNum n.val = true := by
  simpa [isNum] using n.property.2

theorem postfixStep_num (e s : List HString) (n : Numeral) :
    postfixStep (e, s) n.val = some (e ++ [n.val], s) := by
  simp only [postfixStep, isNum_numeral, if_true]

theorem isNum_op (o : Op) : isNum [o.char] = false := by
  cases o <;> decide

theorem postfixStep_op (e s : List HString) (o : Op) :
    postfixStep (e, s) [o.char] =
      some (e ++ (popOperators s [o.char]).1, (popOperators s [o.char]).2) := by
  have hmem : o.char ∈ lit "+-*/" := by cases o <;> decide
  simp only [postfixStep, isNum_op, Bool.false_eq_true, if_false, hmem, if_true]

theorem postfixStep_opn (e s : List HString) (b : Bracket) :
    postfixStep (e, s) [b.opnChar] = some (e, lit "(" :: s) := by
  have hnum : isNum [b.opnChar] = false := by cases b <;> decide
  have hop : b.opnChar ∉ lit "+-*/" := by cases b <;> decide
  have hmem : b.opnChar ∈ lit "([\x7b" := by cases b <;> decide
  simp only [postfixStep, hnum, Bool.false_eq_true, if_false, hop, hmem, if_true]

theorem postfixStep_cls (e s : List HString) (b : Bracket) :
    postfixStep (e, s) [b.clsChar] = (popParentheses s).map fun r => (e ++ r.1, r.2) := by
  have hnum : isNum [b.clsChar] = false := by cases b <;> decide
  have hop : b.clsChar ∉ lit "+-*/" := by cases b <;> decide
  have hopn : b.clsChar ∉ lit "([\x7b" := by cases b <;> decide
  have hmem : b.clsChar ∈ lit ")]\x7d" := by cases b <;> decide
  simp only [postfixStep, hnum, Bool.false_eq_true, if_false, hop, hopn, hmem, if_true]

theorem precedenceOrder_op (o : Op) : precedenceOrder [o.char] = o.prec := by
  cases o <;> decide

theorem precedenceOrder_le (s : HString) : precedenceOrder s ≤ 2 := by
  unfold precedenceOrder
  split
  · split
    · exact Nat.le_refl 2
    · split <;> decide
  · decide

/-- A stack on which an operator of this precedence stops popping. -/
def Below (p : Nat) (stack : List HString) : Prop := ∀ s ∈ stack.head?, precedenceOrder s < p

theorem popOperators_append {q : List HString} {op : HString} (hop : precedenceOrder op = p)
    (hq : ∀ s ∈ q, p ≤ precedenceOrder s) (hs : Below p stack) :
    popOperators (q ++ stack) op = (q, op :: stack) := by
  induction q with
  | nil =>
    cases stack with
    | nil => rfl
    | cons s stack =>
      have hlt : precedenceOrder s < p := hs s (by simp)
      have hge : ¬ precedenceOrder s ≥ precedenceOrder op := by omega
      simp only [nil_append, popOperators, hge, if_false]
  | cons s q ih =>
    obtain ⟨hhead, hq⟩ := forall_mem_cons.mp hq
    have hge : precedenceOrder s ≥ precedenceOrder op := by omega
    simp only [cons_append, popOperators, hge, if_true, ih hq]

theorem popParentheses_append {q : List HString} (hq : ∀ s ∈ q, 1 ≤ precedenceOrder s) :
    popParentheses (q ++ lit "(" :: stack) = some (q, stack) := by
  induction q with
  | nil => simp [popParentheses]
  | cons s q ih =>
    obtain ⟨hhead, hq⟩ := forall_mem_cons.mp hq
    have hne : s ≠ lit "(" := by
      intro hs
      have hparen : precedenceOrder (lit "(") = 0 := by decide
      rw [hs, hparen] at hhead
      omega
    simp only [cons_append, popParentheses, hne, if_false, ih hq, map_some]

/-! ## The order found -/

/-- Reading a token list of a level sends a part of its order to the output and leaves
the rest, operators of that level or a higher one, on the stack. -/
def Shunts (p : Nat) (ts xs : List Tok) : Prop :=
  ∀ e stack, Below p stack → ∃ x q,
    (ts.map Tok.str).foldlM postfixStep (e, stack) = some (e ++ x, q ++ stack) ∧
    (∀ s ∈ q, p ≤ precedenceOrder s) ∧ x ++ q = xs.map Tok.str

/-- Level 3 leaves nothing on the stack. -/
theorem Shunts.foldlM_atoms (h : Shunts 3 ts xs) (e : List HString) (hs : Below 3 stack) :
    (ts.map Tok.str).foldlM postfixStep (e, stack) = some (e ++ xs.map Tok.str, stack) := by
  obtain ⟨x, q, hrun, hq, hxq⟩ := h e stack hs
  cases q with
  | nil => simpa [← hxq] using hrun
  | cons s q =>
    have hge := hq s (by simp)
    have hle := precedenceOrder_le s
    omega

theorem Shunts.group {ys : List Tok} (h : Shunts 3 ts xs) (b : Bracket) (hu : Shunts 1 us ys) :
    Shunts 3 (ts ++ .opn b :: (us ++ [.cls b])) (xs ++ ys) := by
  intro e stack hs
  have hparen : Below 1 (lit "(" :: stack) := by
    have hprec : precedenceOrder (lit "(") < 1 := by decide
    simpa [Below] using hprec
  obtain ⟨y, q, hrun, hq, hyq⟩ := hu (e ++ xs.map Tok.str) (lit "(" :: stack) hparen
  refine ⟨xs.map Tok.str ++ ys.map Tok.str, [], ?_, by simp, by simp⟩
  simp only [map_append, map_cons, map_nil, foldlM_append, foldlM_cons,
    foldlM_nil, h.foldlM_atoms e hs, Tok.str, bind_eq_bind, bind_some,
    postfixStep_opn, hrun, postfixStep_cls, popParentheses_append hq, map_some, ← hyq]
  simp

theorem Shunts.op {ys : List Tok} (o : Op) (h : Shunts o.prec ts xs)
    (hu : Shunts (o.prec + 1) us ys) :
    Shunts o.prec (ts ++ .op o :: us) (xs ++ (ys ++ [.op o])) := by
  intro e stack hs
  obtain ⟨x, q, hrun, hq, hxq⟩ := h e stack hs
  have hop : Below (o.prec + 1) ([o.char] :: stack) := by
    simp [Below, precedenceOrder_op]
  obtain ⟨y, r, hrun', hr, hyr⟩ := hu (e ++ (x ++ q)) ([o.char] :: stack) hop
  refine ⟨x ++ q ++ y, r ++ [[o.char]], ?_, ?_, ?_⟩
  · have hpop := popOperators_append (precedenceOrder_op o) hq hs
    simp only [map_append, map_cons, foldlM_append, foldlM_cons, hrun, Tok.str,
      bind_eq_bind, bind_some, postfixStep_op, hpop]
    rw [append_assoc, hrun']
    simp
  · intro s hs
    rcases mem_append.mp hs with hs | hs
    · exact Nat.le_of_succ_le (hr s hs)
    · rw [mem_singleton.mp hs, precedenceOrder_op]
  · simp only [map_append, ← hxq, ← hyr, Tok.str, map_cons, map_nil,
      append_assoc]

theorem Postfix.shunts (h : Postfix p ts xs) : Shunts p ts xs := by
  induction h with
  | nil => exact fun e stack hs => ⟨[], [], by simp, by simp, rfl⟩
  | num h n ih =>
    intro e stack hs
    refine ⟨_, [], ?_, by simp, append_nil _⟩
    simp [foldlM_append, ih.foldlM_atoms e hs, Tok.str, postfixStep_num]
  | group h b hu ih ihu => exact ih.group b ihu
  | op o h hu ih ihu => exact Shunts.op o ih ihu
  | up h ih =>
    intro e stack hs
    obtain ⟨x, q, hrun, hq, hxq⟩ := ih e stack fun s hs' => Nat.lt_succ_of_lt (hs s hs')
    exact ⟨x, q, hrun, fun s hs' => Nat.le_of_succ_le (hq s hs'), hxq⟩

/-- The postfix form of the code is the order in which the tokens are applied. -/
theorem Postfix.toPostfix_eq (h : Postfix p ts xs) :
    toPostfix (ts.map Tok.str) = some (xs.map Tok.str) := by
  obtain ⟨x, q, hrun, -, hxq⟩ := h.shunts [] [] (by simp [Below])
  simp only [toPostfix, hrun, map_some, nil_append, append_nil, hxq]

end PittCs.Cs1699
