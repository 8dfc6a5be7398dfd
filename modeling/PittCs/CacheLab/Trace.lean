import PittCs.CacheLab.Csim

/-!
# The trace

`replayTrace` of `csim.c` reads a line into a buffer of 32 characters, cuts it at the
first newline of the buffer and scans it with `" %c %x,%d"`, where `%x` stores into an
`unsigned int`. The size at the end of a line is not used. Here this is a function from
the characters of the file to the addresses that `accessData` is called with.

The loop that looks for a newline leaves the buffer when there is none, and a variable
that was never assigned must not be read; then there is no result.
-/

namespace PittCs.CacheLab

open List Option

/-! ## Reading a line -/

/-- `fgets` for `n` characters and the terminating zero: the line and the rest of the file. -/
def fgets : Nat → List Char → List Char × List Char
  | 0, file => ([], file)
  | _ + 1, [] => ([], [])
  | n + 1, c :: file =>
    if c = '\n' then ([c], file)
    else
      let r := fgets n file
      (c :: r.1, r.2)

/-- `isspace` -/
def isSpace (c : Char) : Bool := c == ' ' || '\t' ≤ c && c ≤ '\r'

/-- `isxdigit` -/
def isHex (c : Char) : Bool := c.isDigit || 'a' ≤ c && c ≤ 'f' || 'A' ≤ c && c ≤ 'F'

/-- The value of a hexadecimal digit. -/
def hexDigit (c : Char) : Nat :=
  if c.isDigit then c.toNat - '0'.toNat
  else if 'a' ≤ c then c.toNat - 'a'.toNat + 10
  else c.toNat - 'A'.toNat + 10

def hexValue (digits : List Char) : Nat := digits.foldl (fun v c => 16 * v + hexDigit c) 0

/-- The sign of a number. -/
def scanSign : List Char → Bool × List Char
  | [] => (false, [])
  | c :: cs => if c = '-' then (true, cs) else if c = '+' then (false, cs) else (false, c :: cs)

/-- The `0x` that a hexadecimal number may start with. -/
def skipBase : List Char → List Char
  | c :: d :: cs => if c = '0' ∧ (d = 'x' ∨ d = 'X') then cs else c :: d :: cs
  | cs => cs

/-- `%x`: the number is an `unsigned long`, the greatest one when it is too large, and
`address` keeps 32 bits of it. -/
def scanHex (cs : List Char) : Option UInt32 :=
  let (negative, cs) := scanSign (cs.dropWhile isSpace)
  let digits := (skipBase cs).takeWhile isHex
  if digits = [] then none
  else
    let v := hexValue digits
    some (UInt32.ofNat
      (if 2 ^ 64 ≤ v then 2 ^ 64 - 1 else if negative then 2 ^ 64 - v else v))

/-- The variables of `replayTrace`; the buffer has the characters written so far. -/
structure Vars where
  fileLine : List Char
  instruction : Option Char
  address : Option UInt32

/-- `sscanf` with the format of a line. What is not matched is not assigned. -/
def Vars.sscanf (vars : Vars) (text : List Char) : Vars :=
  match text.dropWhile isSpace with
  | [] => vars
  | c :: rest =>
    match scanHex rest with
    | none => { vars with instruction := some c }
    | some a => { vars with instruction := some c, address := some a }

/-- The body of the loop up to the `switch`, after `fgets` has read `line`. -/
def Vars.readLine (vars : Vars) (line : List Char) : Option Vars :=
  let fileLine := line ++ '\x00' :: vars.fileLine.drop (line.length + 1)
  if '\n' ∈ fileLine then
    let fileLine := fileLine.set (fileLine.idxOf '\n') '\x00'
    some ({ vars with fileLine }.sscanf (fileLine.takeWhile (· ≠ '\x00')))
  else none

/-- The calls of `accessData` in the `switch`. -/
def Vars.accesses (vars : Vars) : Option (List UInt64) :=
  match vars.instruction with
  | none => none
  | some c =>
    if c = 'M' then vars.address.map fun address => [address.toUInt64, address.toUInt64]
    else if c = 'L' then vars.address.map fun address => [address.toUInt64]
    else if c = 'S' then vars.address.map fun address => [address.toUInt64]
    else some []

/-- The loop of `replayTrace`: the addresses in the order of the calls. -/
def traceLoop : Nat → Vars → List Char → Option (List UInt64)
  | 0, _, _ => none
  | _ + 1, _, [] => some []
  | fuel + 1, vars, c :: cs => do
    let r := fgets 31 (c :: cs)
    let vars ← vars.readLine r.1
    let addrs ← vars.accesses
    let later ← traceLoop fuel vars r.2
    some (addrs ++ later)

/-- The addresses that the calls of `accessData` get for a file. -/
def traceAddresses (file : List Char) : Option (List UInt64) :=
  traceLoop (file.length + 1) ⟨[], none, none⟩ file

/-- The simulator on a file. -/
def replayTrace (s b E : Nat) (file : List Char) : Option Csim :=
  (traceAddresses file).bind (replay s b E)

/-! ## Lines of a trace -/

/-- The instructions of a trace. -/
inductive Op where
  | I
  | L
  | S
  | M
deriving DecidableEq, Repr

def Op.toChar : Op → Char
  | I => 'I'
  | L => 'L'
  | S => 'S'
  | M => 'M'

/-- How many times the data is accessed. -/
def Op.count : Op → Nat
  | I => 0
  | L => 1
  | S => 1
  | M => 2

theorem Op.count_eq_zero_iff (op : Op) : op.count = 0 ↔ op = I := by
  cases op <;> decide

/-- A line of a trace: an instruction, a hexadecimal address of 64 bits and a size. It fits
into the buffer. -/
structure TraceLine where
  indent : Nat
  op : Op
  gap : Nat
  digits : List Char
  size : List Char
  digits_ne : digits ≠ []
  hex : digits.all isHex = true
  fits : hexValue digits < 2 ^ 64
  decimal : size.all Char.isDigit = true
  short : indent + gap + digits.length + size.length ≤ 28

namespace TraceLine

/-- The characters up to the newline. -/
def body (l : TraceLine) : List Char :=
  List.replicate l.indent ' ' ++ l.op.toChar ::
    (List.replicate l.gap ' ' ++ (l.digits ++ ',' :: l.size))

def text (l : TraceLine) : List Char := l.body ++ ['\n']

/-- The address that the line gives. -/
def addr (l : TraceLine) : UInt64 := UInt64.ofNat (hexValue l.digits)

theorem toNat_addr (l : TraceLine) : l.addr.toNat = hexValue l.digits := by
  unfold addr
  rw [UInt64.toNat_ofNat', Nat.mod_eq_of_lt l.fits]

end TraceLine

/-- The addresses of the lines reach `accessData` unchanged. -/
def AddressesReach (lines : List TraceLine) : Prop :=
  traceAddresses (lines.flatMap TraceLine.text) =
    some (lines.flatMap fun l => List.replicate l.op.count l.addr)

/-! ## What is read -/

theorem fgets_line {n : Nat} {l : List Char} (rest : List Char) (hl : '\n' ∉ l) (hlt : l.length < n) :
    fgets n (l ++ '\n' :: rest) = (l ++ ['\n'], rest) := by
  induction l generalizing n with
  | nil =>
    cases n with
    | zero => cases hlt
    | succ n => exact if_pos rfl
  | cons c l ih =>
    cases n with
    | zero => cases hlt
    | succ n =>
      rw [mem_cons, not_or] at hl
      rw [cons_append, fgets, if_neg (Ne.symm hl.1), ih hl.2 (Nat.lt_of_succ_lt_succ hlt)]
      rfl

/-- The buffer holds the line up to the newline. -/
theorem readLine_line (vars : Vars) {l : List Char} (hl : '\n' ∉ l) (hzero : '\x00' ∉ l) :
    ∃ fileLine, vars.readLine (l ++ ['\n']) = some ({ vars with fileLine }.sscanf l) := by
  generalize hold : vars.fileLine.drop ((l ++ ['\n']).length + 1) = old
  have hbuffer : (l ++ ['\n']) ++ '\x00' :: old = l ++ '\n' :: '\x00' :: old := by simp
  have hindex : (l ++ '\n' :: '\x00' :: old).idxOf '\n' = l.length := by
    rw [idxOf_append_of_notMem hl, idxOf_cons_self, Nat.add_zero]
  have hset : (l ++ '\n' :: '\x00' :: old).set l.length '\x00' = l ++ '\x00' :: '\x00' :: old := by
    rw [set_append_right _ _ (Nat.le_refl _), Nat.sub_self]
    rfl
  have htext : (l ++ '\x00' :: '\x00' :: old).takeWhile (· ≠ '\x00') = l := by
    rw [takeWhile_append_of_pos]
    · simp
    · intro c hc
      exact decide_eq_true fun heq => hzero (heq ▸ hc)
  refine ⟨l ++ '\x00' :: '\x00' :: old, ?_⟩
  unfold Vars.readLine
  dsimp only
  rw [hold, hbuffer, if_pos (by simp), hindex, hset, htext]

theorem dropWhile_spaces (n : Nat) {c : Char} (cs : List Char) (hc : isSpace c = false) :
    (List.replicate n ' ' ++ c :: cs).dropWhile isSpace = c :: cs := by
  induction n with
  | zero => exact dropWhile_cons_of_neg (by rw [hc]; decide)
  | succ n ih =>
    rw [replicate_succ, cons_append, dropWhile_cons_of_pos (by decide), ih]

theorem toNat_of_isHex {c : Char} (h : isHex c = true) : 48 ≤ c.toNat := by
  unfold isHex Char.isDigit at h
  simp only [Bool.or_eq_true, Bool.and_eq_true, decide_eq_true_eq, Char.le_def,
    UInt32.le_iff_toNat_le, ge_iff_le] at h
  have hval : c.val.toNat = c.toNat := rfl
  have ha : 'a'.val.toNat = 97 := rfl
  have hA : 'A'.val.toNat = 65 := rfl
  have h0 : '0'.val.toNat = 48 := rfl
  omega

theorem toNat_of_isSpace {c : Char} (h : isSpace c = true) : c.toNat ≤ 32 := by
  unfold isSpace at h
  simp only [Bool.or_eq_true, Bool.and_eq_true, beq_iff_eq, decide_eq_true_eq, Char.le_def,
    UInt32.le_iff_toNat_le] at h
  have hr : '\r'.val.toNat = 13 := rfl
  rcases h with rfl | ⟨-, h⟩
  · exact Nat.le_refl 32
  · have hval : c.val.toNat = c.toNat := rfl
    omega

/-- A digit is not one of the characters that come before the digits in the code table. -/
theorem ne_of_isHex {c d : Char} (h : isHex c = true) (hd : d.toNat < 48) : c ≠ d := by
  intro heq
  have hle := toNat_of_isHex h
  rw [heq] at hle
  omega

theorem isSpace_of_isHex {c : Char} (h : isHex c = true) : isSpace c = false := by
  rw [← Bool.not_eq_true]
  intro hspace
  have hle := toNat_of_isSpace hspace
  have hge := toNat_of_isHex h
  omega

/-- The digits before the comma are scanned; the first 32 bits of their value are kept. -/
theorem scanHex_digits (n : Nat) {digits : List Char} (rest : List Char) (hne : digits ≠ [])
    (hhex : digits.all isHex = true) (hfits : hexValue digits < 2 ^ 64) :
    scanHex (List.replicate n ' ' ++ (digits ++ ',' :: rest)) =
      some (UInt32.ofNat (hexValue digits)) := by
  have hall : ∀ c ∈ digits, isHex c = true := all_eq_true.mp hhex
  have hstart : ∃ c cs, digits ++ ',' :: rest = c :: cs ∧ isHex c = true := by
    cases digits with
    | nil => exact absurd rfl hne
    | cons c cs => exact ⟨c, cs ++ ',' :: rest, rfl, hall c mem_cons_self⟩
  have hspaces : (List.replicate n ' ' ++ (digits ++ ',' :: rest)).dropWhile isSpace =
      digits ++ ',' :: rest := by
    rcases hstart with ⟨c, cs, heq, hc⟩
    rw [heq, dropWhile_spaces n cs (isSpace_of_isHex hc)]
  have hsign : scanSign (digits ++ ',' :: rest) = (false, digits ++ ',' :: rest) := by
    rcases hstart with ⟨c, cs, heq, hc⟩
    rw [heq, scanSign, if_neg (ne_of_isHex hc (by decide)), if_neg (ne_of_isHex hc (by decide))]
  have hbase : skipBase (digits ++ ',' :: rest) = digits ++ ',' :: rest := by
    rcases digits with _ | ⟨c, _ | ⟨d, cs⟩⟩
    · exact absurd rfl hne
    · exact if_neg fun h => absurd h.2 (by decide)
    · -- the second character is a digit too
      have hd : isHex d = true := hall d (by simp)
      refine if_neg fun h => ?_
      rcases h.2 with rfl | rfl
      · exact absurd hd (by decide)
      · exact absurd hd (by decide)
  have hdigits : (digits ++ ',' :: rest).takeWhile isHex = digits := by
    have hcomma : isHex ',' = false := by decide
    rw [takeWhile_append_of_pos hall, takeWhile_cons_of_neg (by rw [hcomma]; decide),
      append_nil]
  unfold scanHex
  rw [hspaces, hsign]
  dsimp only
  rw [hbase, hdigits, if_neg hne, if_neg (Nat.not_le.mpr hfits)]
  rfl

namespace TraceLine

variable (l : TraceLine)

theorem toChar_ne (op : Op) : op.toChar ≠ '\n' ∧ op.toChar ≠ '\x00' ∧ isSpace op.toChar = false := by
  cases op <;> decide

/-- No character of the line ends it. -/
theorem notMem_body {d : Char} (hop : l.op.toChar ≠ d) (hd : d.toNat < 32) : d ∉ l.body := by
  have hdigit : ∀ c ∈ l.size, c ≠ d := by
    intro c hc
    refine ne_of_isHex ?_ (by omega)
    have hdec := all_eq_true.mp l.decimal c hc
    unfold isHex
    rw [hdec]
    rfl
  have hspace : ' ' ≠ d := by
    intro heq
    rw [← heq] at hd
    exact absurd hd (by decide)
  have hcomma : ',' ≠ d := by
    intro heq
    rw [← heq] at hd
    exact absurd hd (by decide)
  intro hmem
  unfold body at hmem
  simp only [mem_append, mem_cons, mem_replicate] at hmem
  rcases hmem with ⟨-, h⟩ | h | ⟨-, h⟩ | h | h | h
  · exact hspace h.symm
  · exact hop h.symm
  · exact hspace h.symm
  · exact ne_of_isHex (all_eq_true.mp l.hex d h) (by omega) rfl
  · exact hcomma h.symm
  · exact hdigit d h rfl

theorem length_body : l.body.length < 31 := by
  have hshort := l.short
  unfold body
  simp only [length_append, length_replicate, length_cons]
  omega

/-- The instruction and the low 32 bits of the address are scanned. -/
theorem sscanf_body (vars : Vars) : vars.sscanf l.body =
    { vars with instruction := some l.op.toChar, address := some (UInt32.ofNat (hexValue l.digits)) } := by
  unfold Vars.sscanf body
  rw [dropWhile_spaces _ _ (toChar_ne l.op).2.2]
  dsimp only
  rw [scanHex_digits _ _ l.digits_ne l.hex l.fits]

/-- What the `switch` does with the line. -/
theorem accesses_line (vars : Vars) (a : UInt32) :
    { vars with instruction := some l.op.toChar, address := some a }.accesses =
      some (List.replicate l.op.count a.toUInt64) := by
  cases hop : l.op <;> rfl

end TraceLine

/-- Every line of a trace gives the low 32 bits of its address. -/
theorem traceLoop_lines (fuel : Nat) (vars : Vars) (lines : List TraceLine)
    (hfuel : lines.length < fuel) :
    traceLoop fuel vars (lines.flatMap TraceLine.text) = some (lines.flatMap fun l =>
      List.replicate l.op.count (UInt32.ofNat (hexValue l.digits)).toUInt64) := by
  induction lines generalizing fuel vars with
  | nil =>
    cases fuel with
    | zero => cases hfuel
    | succ fuel => rfl
  | cons l lines ih =>
    cases fuel with
    | zero => cases hfuel
    | succ fuel =>
      have hfile : (l :: lines).flatMap TraceLine.text =
          l.body ++ '\n' :: lines.flatMap TraceLine.text := by
        rw [flatMap_cons, TraceLine.text, append_assoc]
        rfl
      have hend : '\n' ∉ l.body := l.notMem_body (TraceLine.toChar_ne l.op).1 (by decide)
      have hzero : '\x00' ∉ l.body := l.notMem_body (TraceLine.toChar_ne l.op).2.1 (by decide)
      have hgets := fgets_line (lines.flatMap TraceLine.text) hend l.length_body
      rcases readLine_line vars hend hzero with ⟨fileLine, hread⟩
      obtain ⟨c, cs, hcons⟩ : ∃ c cs, l.body ++ '\n' :: lines.flatMap TraceLine.text = c :: cs :=
        exists_cons_of_ne_nil (by simp)
      rw [hfile, hcons, traceLoop, ← hcons, hgets]
      dsimp only
      rw [hread]
      dsimp only [bind_eq_bind, bind_some]
      rw [l.sscanf_body, l.accesses_line, bind_some,
        ih fuel _ (Nat.lt_of_succ_lt_succ hfuel), bind_some, flatMap_cons]

theorem lines_le (lines : List TraceLine) :
    lines.length ≤ (lines.flatMap TraceLine.text).length := by
  induction lines with
  | nil => exact Nat.le_refl 0
  | cons l lines ih =>
    rw [flatMap_cons, length_append, length_cons, TraceLine.text,
      length_append, length_singleton]
    omega

/-- The low 32 bits are the address if and only if there are no others. -/
theorem toUInt64_eq_addr_iff (l : TraceLine) :
    (UInt32.ofNat (hexValue l.digits)).toUInt64 = l.addr ↔ l.addr.toNat < 2 ^ 32 := by
  rw [toUInt64_eq_iff, UInt32.toNat_ofNat', l.toNat_addr]
  exact Nat.mod_eq_iff_lt (by decide)

theorem flatMap_replicate_eq_iff {lines : List TraceLine} {f g : TraceLine → UInt64} :
    (lines.flatMap fun l => List.replicate l.op.count (f l)) =
        (lines.flatMap fun l => List.replicate l.op.count (g l)) ↔
      ∀ l ∈ lines, l.op ≠ .I → f l = g l := by
  induction lines with
  | nil => simp
  | cons l lines ih =>
    have hline : List.replicate l.op.count (f l) = List.replicate l.op.count (g l) ↔
        (l.op ≠ .I → f l = g l) := by
      rw [replicate_inj, l.op.count_eq_zero_iff]
      tauto
    rw [flatMap_cons, flatMap_cons, forall_mem_cons, ← ih, ← hline]
    constructor
    · intro h
      exact append_inj h (by rw [length_replicate, length_replicate])
    · intro ⟨hfirst, hlater⟩
      rw [hfirst, hlater]

theorem addressesReach_iff (lines : List TraceLine) :
    AddressesReach lines ↔ ∀ l ∈ lines, l.op ≠ .I → l.addr.toNat < 2 ^ 32 := by
  have hle := lines_le lines
  unfold AddressesReach traceAddresses
  rw [traceLoop_lines _ _ _ (by omega), some_inj, flatMap_replicate_eq_iff]
  simp only [toUInt64_eq_addr_iff]

end PittCs.CacheLab
