import Mathlib.Data.Nat.Digits.Defs
import PittCs.Cs1699.Basic

/-!
# The two calculators

`BasicAlgExp.hs` and `EitherAlgExp.hs`: five stages from a string to a string. The
basic pipeline passes an error on as an ordinary string or token list that starts with
`Error`; the other one stops with a `Left`.

A missing result stands for a run-time exception. Haskell is lazy, so an exception in
an operand of `evaluate` stays in the stack until the value is asked for: the entries
of that stack are optional strings. The result of `calculate` is asked for as a whole,
as `main'` does when it prints it.
-/

namespace PittCs.Cs1699

/-! ## Machine integers -/

/-- The 64-bit `Int` with the value of `v` modulo `2 ^ 64`. -/
def wrap (v : Int) : Int := v.bmod (2 ^ 64)

/-- `minBound`. -/
def minBound : Int := -2 ^ 63

/-- The digits `"0123456789"`. -/
def digitChars : HString := lit "0123456789"

/-- The value of a string of digits. -/
def digitsValue (ds : HString) : Nat := ds.foldl (fun n c => 10 * n + (c.val - 48)) 0

/-- `read` at `Int`, on the strings of the stack: digits, a negative number of `show`,
or the mark of a missing operand, which does not parse. -/
def readInt (s : HString) : Option Int :=
  match s with
  | [] => none
  | c :: cs =>
    if c = chr '-' then
      if cs ≠ [] ∧ cs.all (· ∈ digitChars) then some (wrap (-digitsValue cs)) else none
    else if (c :: cs).all (· ∈ digitChars) then some (wrap (digitsValue (c :: cs)))
    else none

/-- The decimal digits of a natural number. -/
def showNat (n : Nat) : HString :=
  if n = 0 then lit "0" else (Nat.digits 10 n).reverse.map fun d => Fin.ofNat 0x110000 (48 + d)

/-- `show` at `Int`. -/
def showInt (v : Int) : HString := if v < 0 then chr '-' :: showNat v.natAbs else showNat v.toNat

/-- `div` at `Int`: it throws on a zero divisor, and on the one quotient that is out of
range. -/
def divInt (b a : Int) : Option Int :=
  if a = 0 then none
  else if a = -1 ∧ b = minBound then none
  else some (wrap (b.fdiv a))

/-! ## The basic pipeline -/

/-- The mark of an error. -/
def isError (s : HString) : Bool := s.take 5 = lit "Error"

/-- The characters of `validChar`. -/
def validChars : HString := lit "0123456789+-*/()[]\x7b\x7d "

/-- `checkChars`. -/
def checkChars (str : HString) : HString :=
  let invalidChars := str.filter fun c => !decide (c ∈ validChars)
  if invalidChars.length = 0 then str
  else lit "Error [checkChars]: The character '" ++ invalidChars.take 1 ++ lit "' is not allowed."

/-- The characters that end a number. -/
def separators : HString := lit " +-*/()[]\x7b\x7d"

/-- One character of the fold of `tokenizer`. -/
def tokenStep : List HString × HString → HChar → List HString × HString
  | (ls, num), c =>
    if c ∈ separators then
      if num ≠ [] then ([c] :: num :: ls, []) else ([c] :: ls, [])
    else (ls, num ++ [c])

/-- The tokens of a string. -/
def tokens (x : HString) : List HString :=
  let y := x.foldl tokenStep ([], [])
  if y.2.length ≠ 0 then ((y.2 :: y.1).reverse).filter (· ≠ lit " ")
  else y.1.reverse.filter (· ≠ lit " ")

/-- `tokenizer`. -/
def tokenizer (x : HString) : List HString := if isError x then [x] else tokens x

/-- One token of the fold of `checkBalanced`. -/
def balanceStep (stack : List HString) (c : HString) : List HString :=
  if c ∈ [lit "(", lit "[", lit "\x7b"] then c :: stack
  else if c ∈ [lit ")", lit "]", lit "\x7d"] then
    match stack with
    | [] => lit "a" :: stack
    | s :: rest =>
      if (c = lit ")" ∧ s = lit "(") ∨ (c = lit "]" ∧ s = lit "[") ∨
          (c = lit "\x7d" ∧ s = lit "\x7b") then rest
      else lit "a" :: stack
  else stack

/-- The message of `checkBalanced`. -/
def unbalanced : HString := lit "Error [checkBalanced]: The expression is unbalanced"

/-- `checkBalanced`. -/
def checkBalanced : List HString → List HString
  | [] => []
  | t :: x =>
    if isError t then t :: x
    else if ((t :: x).foldl balanceStep []).length = 0 then t :: x
    else [unbalanced]

/-- `isNum`. -/
def isNum (s : HString) : Bool := s.all (· ∈ digitChars)

/-- `precedenceOrder`; the operators are strings of one character. -/
def precedenceOrder (s : HString) : Nat :=
  match s with
  | [a] => if a ∈ lit "*/" then 2 else if a ∈ lit "+-" then 1 else 0
  | _ => 0

/-- `popOperators`. -/
def popOperators : List HString → HString → List HString × List HString
  | [], op => ([], [op])
  | s :: stack, op =>
    if precedenceOrder s ≥ precedenceOrder op then
      let (ls, newStack) := popOperators stack op
      (s :: ls, newStack)
    else ([], op :: s :: stack)

/-- `popParentheses`. -/
def popParentheses : List HString → Option (List HString × List HString)
  | [] => none
  | s :: stack =>
    if s = lit "(" then some ([], stack)
    else (popParentheses stack).map fun (ls, newStack) => (s :: ls, newStack)

/-- One token of the fold of `infix2Postfix`. -/
def postfixStep : List HString × List HString → HString → Option (List HString × List HString)
  | (e, s), i =>
    if isNum i then some (e ++ [i], s)
    else
      match i with
      | [] => none
      | c :: _ =>
        if c ∈ lit "+-*/" then
          let (ls, newStack) := popOperators s i
          some (e ++ ls, newStack)
        else if c ∈ lit "([\x7b" then some (e, lit "(" :: s)
        else if c ∈ lit ")]\x7d" then
          (popParentheses s).map fun (ls, newStack) => (e ++ ls, newStack)
        else none

/-- The postfix form of a token list. -/
def toPostfix (x : List HString) : Option (List HString) :=
  (x.foldlM postfixStep ([], [])).map fun (expression, stack) => expression ++ stack

/-- `infix2Postfix`. -/
def infix2Postfix : List HString → Option (List HString)
  | [] => some []
  | t :: x => if isError t then some (t :: x) else toPostfix (t :: x)

/-- The operation of a token on the values of its operands. -/
def applyOp (x : HString) (b a : Int) : Option Int :=
  if x = lit "+" then some (wrap (b + a))
  else if x = lit "-" then some (wrap (b - a))
  else if x = lit "*" then some (wrap (b * a))
  else divInt b a

/-- One token of the fold of `evaluate`. An operator without two operands leaves a mark
at the bottom of the stack. -/
def evalStep (stack : List (Option HString)) (x : HString) : List (Option HString) :=
  if isNum x then some x :: stack
  else
    match stack with
    | a :: b :: newStack =>
      ((a.bind readInt).bind fun a => (b.bind readInt).bind fun b =>
        (applyOp x b a).map showInt) :: newStack
    | _ => stack ++ [some (lit "a")]

/-- The message of `evaluate`. -/
def tooMany : HString := lit "Error [evaluate]: Too many operator(s)"

/-- `evaluate`. -/
def evaluate : List HString → Option HString
  | [] => none
  | t :: x =>
    if isError t then some t
    else
      match (t :: x).foldl evalStep [] with
      | [r] => r
      | _ => some tooMany

/-- `calculate` of `BasicCalculator.hs`. -/
def calculate (str : HString) : Option HString :=
  (infix2Postfix (checkBalanced (tokenizer (checkChars str)))).bind evaluate

/-! ## The other pipeline -/

/-- `eitherCheckChars`. -/
def eitherCheckChars (str : HString) : Except HString HString :=
  let invalidChars := str.filter fun c => !decide (c ∈ validChars)
  if invalidChars.length = 0 then .ok str
  else .error
    (lit "Error [checkChars]: The character '" ++ invalidChars.take 1 ++ lit "' is not allowed.")

/-- `eitherTokenizer`. -/
def eitherTokenizer (x : HString) : Except HString (List HString) :=
  if isError x then .error x else .ok (tokens x)

/-- `eitherCheckBalanced`. -/
def eitherCheckBalanced : List HString → Except HString (List HString)
  | [] => .ok []
  | t :: x =>
    if isError t then .error t
    else if ((t :: x).foldl balanceStep []).length = 0 then .ok (t :: x)
    else .error unbalanced

/-- `eitherInfix2Postfix`; it takes the head of an empty list. -/
def eitherInfix2Postfix : List HString → Option (Except HString (List HString))
  | [] => none
  | t :: x => if isError t then some (.error t) else (toPostfix (t :: x)).map .ok

/-- `eitherEvaluate`. -/
def eitherEvaluate : List HString → Option (Except HString HString)
  | [] => none
  | t :: x =>
    if isError t then some (.error t)
    else
      match (t :: x).foldl evalStep [] with
      | [r] => r.map .ok
      | _ => some (.error tooMany)

/-- `>>=` of `Either`, where the second stage may throw. -/
def andThen {α β : Type} (x : Except HString α) (f : α → Option (Except HString β)) :
    Option (Except HString β) :=
  match x with
  | .error e => some (.error e)
  | .ok a => f a

/-- `calculate` of `EitherCalculator.hs`. -/
def eitherCalculate (str : HString) : Option (Except HString HString) :=
  andThen (eitherCheckChars str) fun x =>
  andThen (eitherTokenizer x) fun x =>
  andThen (eitherCheckBalanced x) fun x =>
  (eitherInfix2Postfix x).bind fun x =>
  andThen x eitherEvaluate

end PittCs.Cs1699
