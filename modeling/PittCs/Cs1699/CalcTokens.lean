import PittCs.Cs1699.Calculator

/-!
# Tokens of the calculators

A string of allowed characters spells one list of tokens, with spaces anywhere between
them and each number as long as it can be. The tokenizer finds that list.
-/

namespace PittCs.Cs1699

open List Option

/-- A decimal number: one digit at least. -/
abbrev Numeral := { ds : HString // ds ≠ [] ∧ ∀ c ∈ ds, c ∈ digitChars }

inductive Op where
  | add
  | sub
  | mul
  | div
  deriving DecidableEq

inductive Bracket where
  | round
  | square
  | curly
  deriving DecidableEq

inductive Tok where
  | num (n : Numeral)
  | op (o : Op)
  | opn (b : Bracket)
  | cls (b : Bracket)
  deriving DecidableEq

def Op.char : Op → HChar
  | .add => chr '+'
  | .sub => chr '-'
  | .mul => chr '*'
  | .div => chr '/'

def Bracket.opnChar : Bracket → HChar
  | .round => chr '('
  | .square => chr '['
  | .curly => chr '\x7b'

def Bracket.clsChar : Bracket → HChar
  | .round => chr ')'
  | .square => chr ']'
  | .curly => chr '\x7d'

/-- The string of a token. -/
def Tok.str : Tok → HString
  | .num n => n.val
  | .op o => [o.char]
  | .opn b => [b.opnChar]
  | .cls b => [b.clsChar]

/-- The strings that are written for a list of tokens. -/
inductive Spells : List Tok → HString → Prop
  | nil : Spells [] []
  | space {ts : List Tok} {s : HString} (h : Spells ts s) : Spells ts (chr ' ' :: s)
  | op (o : Op) {ts : List Tok} {s : HString} (h : Spells ts s) :
      Spells (.op o :: ts) (o.char :: s)
  | opn (b : Bracket) {ts : List Tok} {s : HString} (h : Spells ts s) :
      Spells (.opn b :: ts) (b.opnChar :: s)
  | cls (b : Bracket) {ts : List Tok} {s : HString} (h : Spells ts s) :
      Spells (.cls b :: ts) (b.clsChar :: s)
  | num (n : Numeral) {ts : List Tok} {s : HString} (h : Spells ts s)
      (hs : ∀ c ∈ s.head?, c ∉ digitChars) : Spells (.num n :: ts) (n.val ++ s)

/-! ## Characters -/

/-- What holds of the characters of a literal is found by going through them. -/
theorem forall_mem_of_all {l : HString} {p : HChar → Prop} [DecidablePred p]
    (h : l.all (p ·) = true) : ∀ c ∈ l, p c := by
  simpa using h

variable {s : HString} {c : HChar} {ts : List Tok}

theorem digit_not_separator (h : c ∈ digitChars) : c ∉ separators :=
  forall_mem_of_all (p := (· ∉ separators)) (by decide) c h

theorem Op.char_mem_separators (o : Op) : o.char ∈ separators := by
  cases o <;> decide

theorem Bracket.opnChar_mem_separators (b : Bracket) : b.opnChar ∈ separators := by
  cases b <;> decide

theorem Bracket.clsChar_mem_separators (b : Bracket) : b.clsChar ∈ separators := by
  cases b <;> decide

theorem space_mem_separators : chr ' ' ∈ separators := by decide

theorem separator_not_digit (h : c ∈ separators) : c ∉ digitChars :=
  fun hd => digit_not_separator hd h

theorem mem_validChars : c ∈ validChars ↔ c ∈ digitChars ∨ c ∈ separators := by
  have hvalid : ∀ c ∈ validChars, c ∈ digitChars ∨ c ∈ separators :=
    forall_mem_of_all (by decide)
  have hdigits : ∀ c ∈ digitChars, c ∈ validChars := forall_mem_of_all (by decide)
  have hseparators : ∀ c ∈ separators, c ∈ validChars := forall_mem_of_all (by decide)
  constructor
  · exact hvalid c
  · intro h
    rcases h with h | h
    · exact hdigits c h
    · exact hseparators c h

/-- A separator is a space, an operator or a bracket. -/
theorem separator_cases (h : c ∈ separators) :
    c = chr ' ' ∨ (∃ o : Op, c = o.char) ∨ (∃ b : Bracket, c = b.opnChar) ∨
      ∃ b : Bracket, c = b.clsChar := by
  have hsep : separators = [chr ' ', Op.add.char, Op.sub.char, Op.mul.char, Op.div.char,
      Bracket.round.opnChar, Bracket.round.clsChar, Bracket.square.opnChar,
      Bracket.square.clsChar, Bracket.curly.opnChar, Bracket.curly.clsChar] := by
    decide
  rw [hsep] at h
  simp only [mem_cons, not_mem_nil, or_false] at h
  rcases h with h | h | h | h | h | h | h | h | h | h | h
  · exact Or.inl h
  · exact Or.inr (Or.inl ⟨_, h⟩)
  · exact Or.inr (Or.inl ⟨_, h⟩)
  · exact Or.inr (Or.inl ⟨_, h⟩)
  · exact Or.inr (Or.inl ⟨_, h⟩)
  · exact Or.inr (Or.inr (Or.inl ⟨_, h⟩))
  · exact Or.inr (Or.inr (Or.inr ⟨_, h⟩))
  · exact Or.inr (Or.inr (Or.inl ⟨_, h⟩))
  · exact Or.inr (Or.inr (Or.inr ⟨_, h⟩))
  · exact Or.inr (Or.inr (Or.inl ⟨_, h⟩))
  · exact Or.inr (Or.inr (Or.inr ⟨_, h⟩))

/-! ## Every valid string spells a list of tokens -/

theorem Spells.valid (h : Spells ts s) : ∀ c ∈ s, c ∈ validChars := by
  induction h with
  | nil => simp
  | space h ih =>
    exact forall_mem_cons.mpr ⟨mem_validChars.mpr (Or.inr space_mem_separators), ih⟩
  | op o h ih =>
    exact forall_mem_cons.mpr ⟨mem_validChars.mpr (Or.inr o.char_mem_separators), ih⟩
  | opn b h ih =>
    exact forall_mem_cons.mpr ⟨mem_validChars.mpr (Or.inr b.opnChar_mem_separators), ih⟩
  | cls b h ih =>
    exact forall_mem_cons.mpr ⟨mem_validChars.mpr (Or.inr b.clsChar_mem_separators), ih⟩
  | num n h hs ih =>
    intro c hc
    rcases mem_append.mp hc with hc | hc
    · exact mem_validChars.mpr (Or.inl (n.property.2 c hc))
    · exact ih c hc

/-- A string that starts with a digit spells a number first. -/
theorem Spells.digit_cases (h : Spells ts s) (hc : c ∈ s.head?) (hd : c ∈ digitChars) :
    ∃ (n : Numeral) (us : List Tok) (u : HString), ts = .num n :: us ∧ s = n.val ++ u ∧
      Spells us u ∧ ∀ c ∈ u.head?, c ∉ digitChars := by
  cases h with
  | nil => simp at hc
  | space h =>
    simp only [head?_cons, mem_some_iff] at hc
    exact absurd (hc ▸ hd) (separator_not_digit space_mem_separators)
  | op o h =>
    simp only [head?_cons, mem_some_iff] at hc
    exact absurd (hc ▸ hd) (separator_not_digit o.char_mem_separators)
  | opn b h =>
    simp only [head?_cons, mem_some_iff] at hc
    exact absurd (hc ▸ hd) (separator_not_digit b.opnChar_mem_separators)
  | cls b h =>
    simp only [head?_cons, mem_some_iff] at hc
    exact absurd (hc ▸ hd) (separator_not_digit b.clsChar_mem_separators)
  | num n h hs => exact ⟨n, _, _, rfl, rfl, h, hs⟩

/-- A digit before a string that spells tokens starts its first number or is one. -/
theorem exists_spells_digit (hc : c ∈ digitChars) (h : Spells ts s) : ∃ us, Spells us (c :: s) := by
  by_cases hs : ∀ d ∈ s.head?, d ∉ digitChars
  · exact ⟨_, Spells.num ⟨[c], by simp, by simpa using hc⟩ h hs⟩
  · push Not at hs
    obtain ⟨d, hd, hdig⟩ := hs
    obtain ⟨n, us, u, -, rfl, hu, hhead⟩ := h.digit_cases hd hdig
    have hn : ∀ x ∈ c :: n.val, x ∈ digitChars := forall_mem_cons.mpr ⟨hc, n.property.2⟩
    exact ⟨_, Spells.num ⟨c :: n.val, by simp, hn⟩ hu hhead⟩

theorem exists_spells (h : ∀ c ∈ s, c ∈ validChars) : ∃ ts, Spells ts s := by
  induction s with
  | nil => exact ⟨[], .nil⟩
  | cons c s ih =>
    obtain ⟨hc, hs⟩ := forall_mem_cons.mp h
    obtain ⟨ts, hts⟩ := ih hs
    rcases mem_validChars.mp hc with hd | hsep
    · exact exists_spells_digit hd hts
    · rcases separator_cases hsep with rfl | ⟨o, rfl⟩ | ⟨b, rfl⟩ | ⟨b, rfl⟩
      · exact ⟨ts, hts.space⟩
      · exact ⟨_, hts.op o⟩
      · exact ⟨_, hts.opn b⟩
      · exact ⟨_, hts.cls b⟩

/-! ## The tokenizer finds the tokens -/

/-- The tokens of a state of the fold. -/
def finishTokens (y : List HString × HString) : List HString :=
  if y.2.length ≠ 0 then ((y.2 :: y.1).reverse).filter (· ≠ lit " ")
  else y.1.reverse.filter (· ≠ lit " ")

theorem tokens_eq (x : HString) : tokens x = finishTokens (x.foldl tokenStep ([], [])) := rfl

theorem tokenStep_separator (ls : List HString) (h : c ∈ separators) :
    tokenStep (ls, []) c = ([c] :: ls, []) := by
  simp [tokenStep, h]

theorem foldl_tokenStep_digits {ds : HString} (h : ∀ c ∈ ds, c ∈ digitChars) (ls : List HString)
    (num : HString) : ds.foldl tokenStep (ls, num) = (ls, num ++ ds) := by
  induction ds generalizing num with
  | nil => simp
  | cons c ds ih =>
    obtain ⟨hc, hds⟩ := forall_mem_cons.mp h
    have hstep : tokenStep (ls, num) c = (ls, num ++ [c]) := by
      simp [tokenStep, digit_not_separator hc]
    rw [foldl_cons, hstep, ih hds]
    simp

/-- The number read so far is complete when a separator or the end follows. -/
theorem finishTokens_number {num : HString} (hn : num ≠ []) (ls : List HString)
    (hs : ∀ c ∈ s.head?, c ∈ separators) :
    finishTokens (s.foldl tokenStep (ls, num)) =
      finishTokens (s.foldl tokenStep (num :: ls, [])) := by
  cases s with
  | nil => simp [finishTokens, hn]
  | cons c s =>
    have hc : c ∈ separators := hs c (by simp)
    have hstep : tokenStep (ls, num) c = tokenStep (num :: ls, []) c := by
      simp [tokenStep, hc, hn]
    rw [foldl_cons, foldl_cons, hstep]

/-- The strings of tokens are not the space that the tokenizer drops. -/
theorem Tok.str_ne_space (t : Tok) : t.str ≠ lit " " := by
  cases t with
  | num n =>
    intro h
    have hmem : chr ' ' ∈ n.val := by
      rw [show n.val = lit " " from h]
      decide
    exact separator_not_digit space_mem_separators (n.property.2 _ hmem)
  | op o => cases o <;> decide
  | opn b | cls b => cases b <;> decide

theorem Spells.head_separator (h : Spells ts s) (hs : ∀ c ∈ s.head?, c ∉ digitChars) :
    ∀ c ∈ s.head?, c ∈ separators := by
  intro c hc
  have hvalid : c ∈ validChars := h.valid c (mem_of_mem_head? hc)
  exact (mem_validChars.mp hvalid).resolve_left (hs c hc)

/-- From any tokens already read, reading a string adds the tokens it spells. -/
theorem Spells.finishTokens_foldl (h : Spells ts s) (ls : List HString) :
    finishTokens (s.foldl tokenStep (ls, [])) =
      ls.reverse.filter (· ≠ lit " ") ++ ts.map Tok.str := by
  induction h generalizing ls with
  | nil => simp [finishTokens]
  | space h ih =>
    rw [foldl_cons, tokenStep_separator ls space_mem_separators, ih]
    have hspace : [chr ' '] = lit " " := by decide
    simp [hspace]
  | op o h ih =>
    have hne : [o.char] ≠ lit " " := (Tok.op o).str_ne_space
    rw [foldl_cons, tokenStep_separator ls o.char_mem_separators, ih]
    simp [hne, Tok.str]
  | opn b h ih =>
    have hne : [b.opnChar] ≠ lit " " := (Tok.opn b).str_ne_space
    rw [foldl_cons, tokenStep_separator ls b.opnChar_mem_separators, ih]
    simp [hne, Tok.str]
  | cls b h ih =>
    have hne : [b.clsChar] ≠ lit " " := (Tok.cls b).str_ne_space
    rw [foldl_cons, tokenStep_separator ls b.clsChar_mem_separators, ih]
    simp [hne, Tok.str]
  | num n h hs ih =>
    have hne : n.val ≠ lit " " := (Tok.num n).str_ne_space
    rw [foldl_append, foldl_tokenStep_digits n.property.2, nil_append,
      finishTokens_number n.property.1 ls (h.head_separator hs), ih]
    simp [hne, Tok.str]

theorem Spells.tokens_eq (h : Spells ts s) : tokens s = ts.map Tok.str := by
  have hfold := h.finishTokens_foldl []
  rw [Cs1699.tokens_eq, hfold]
  simp

/-!
## Numbers as strings

Results travel between the steps of `evaluate` as strings. Reading what `show` wrote
gives the number back, and no such string looks like an error.
-/

/-! ## Digits -/

theorem digitChar_mem {d : Nat} (h : d < 10) : Fin.ofNat 0x110000 (48 + d) ∈ digitChars := by
  have hall : ∀ d < 10, Fin.ofNat 0x110000 (48 + d) ∈ digitChars := by decide
  exact hall d h

theorem showNat_digits (n : Nat) : ∀ c ∈ showNat n, c ∈ digitChars := by
  unfold showNat
  split
  · exact forall_mem_of_all (by decide)
  · intro c hc
    simp only [map_reverse, mem_reverse, List.mem_map] at hc
    obtain ⟨d, hd, rfl⟩ := hc
    exact digitChar_mem (Nat.digits_lt_base (by decide) hd)

theorem showNat_ne_nil (n : Nat) : showNat n ≠ [] := by
  unfold showNat
  split
  · decide
  · rename_i hn
    simpa using Nat.digits_ne_nil_iff_ne_zero.mpr hn

/-- Digits written from the lowest on are read from the highest on. -/
theorem digitsValue_reverse {l : List Nat} (h : ∀ d ∈ l, d < 10) :
    digitsValue (l.reverse.map fun d => Fin.ofNat 0x110000 (48 + d)) = Nat.ofDigits 10 l := by
  induction l with
  | nil => rfl
  | cons d l ih =>
    obtain ⟨hd, hl⟩ := forall_mem_cons.mp h
    have hval : (Fin.ofNat 0x110000 (48 + d)).val = 48 + d := Nat.mod_eq_of_lt (by omega)
    have ih := ih hl
    simp only [digitsValue] at ih
    simp only [digitsValue, reverse_cons, map_append, foldl_append, ih,
      map_cons, map_nil, foldl_cons, foldl_nil, hval, Nat.ofDigits_cons]
    omega

theorem digitsValue_showNat (n : Nat) : digitsValue (showNat n) = n := by
  unfold showNat
  split
  · rename_i hn
    rw [hn]
    decide
  · rw [digitsValue_reverse fun d hd => Nat.digits_lt_base (by decide) hd]
    exact Nat.ofDigits_digits 10 n

/-! ## Reading and showing -/

theorem minus_not_digit : chr '-' ∉ digitChars := by decide

theorem readInt_digits {ds : HString} (hne : ds ≠ []) (h : ∀ c ∈ ds, c ∈ digitChars) :
    readInt ds = some (wrap (digitsValue ds)) := by
  cases ds with
  | nil => exact absurd rfl hne
  | cons c cs =>
    have hc : c ≠ chr '-' := fun hc => minus_not_digit (hc ▸ h c (by simp))
    have hall : (c :: cs).all (· ∈ digitChars) = true := by simpa using h
    simp only [readInt, hc, if_false, hall, if_true]

theorem readInt_minus {ds : HString} (hne : ds ≠ []) (h : ∀ c ∈ ds, c ∈ digitChars) :
    readInt (chr '-' :: ds) = some (wrap (-digitsValue ds)) := by
  have hall : ds ≠ [] ∧ ds.all (· ∈ digitChars) = true := ⟨hne, by simpa using h⟩
  simp only [readInt, if_true]
  rw [if_pos hall]

theorem readInt_showInt (v : Int) : readInt (showInt v) = some (wrap v) := by
  unfold showInt
  split
  · rename_i hv
    rw [readInt_minus (showNat_ne_nil _) (showNat_digits _), digitsValue_showNat]
    congr 2
    omega
  · rename_i hv
    rw [readInt_digits (showNat_ne_nil _) (showNat_digits _), digitsValue_showNat]
    congr 2
    omega

theorem wrap_wrap (v : Int) : wrap (wrap v) = wrap v := by
  unfold wrap
  exact Int.bmod_bmod

/-! ## Strings that are no errors -/

/-- An error has a letter that neither numbers nor tokens have. -/
theorem mem_of_isError {s : HString} (h : isError s = true) : chr 'E' ∈ s := by
  have htake : s.take 5 = lit "Error" := by simpa [isError] using h
  have hmem : chr 'E' ∈ s.take 5 := by
    rw [htake]
    decide
  exact mem_of_mem_take hmem

theorem not_isError {s : HString} (h : chr 'E' ∉ s) : isError s = false := by
  by_contra hs
  exact h (mem_of_isError (by simpa using hs))

theorem not_isError_of_valid {s : HString} (h : ∀ c ∈ s, c ∈ validChars) :
    isError s = false := by
  have hE : chr 'E' ∉ validChars := by decide
  exact not_isError fun hs => hE (h _ hs)

theorem not_isError_of_isNum {s : HString} (h : isNum s = true) : isError s = false := by
  have hs : ∀ c ∈ s, c ∈ digitChars := by simpa [isNum] using h
  exact not_isError_of_valid fun c hc => mem_validChars.mpr (Or.inl (hs c hc))

theorem not_isError_showInt (v : Int) : isError (showInt v) = false := by
  apply not_isError_of_valid
  have hminus : chr '-' ∈ validChars := by decide
  have hdigits (n : Nat) : ∀ c ∈ showNat n, c ∈ validChars :=
    fun c hc => mem_validChars.mpr (Or.inl (showNat_digits n c hc))
  unfold showInt
  split
  · exact forall_mem_cons.mpr ⟨hminus, hdigits _⟩
  · exact hdigits _

theorem Tok.not_isError_str (t : Tok) : isError t.str = false := by
  apply not_isError_of_valid
  intro c hc
  apply mem_validChars.mpr
  cases t with
  | num n => exact Or.inl (n.property.2 c hc)
  | op o =>
    rw [mem_singleton.mp hc]
    exact Or.inr o.char_mem_separators
  | opn b =>
    rw [mem_singleton.mp hc]
    exact Or.inr b.opnChar_mem_separators
  | cls b =>
    rw [mem_singleton.mp hc]
    exact Or.inr b.clsChar_mem_separators

end PittCs.Cs1699
