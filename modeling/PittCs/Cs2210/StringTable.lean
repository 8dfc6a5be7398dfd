import Mathlib.Algebra.Order.BigOperators.Group.List
import Mathlib.Algebra.Order.Ring.Nat
import Mathlib.Data.List.Dedup
import Mathlib.Data.List.Find
import Mathlib.Data.List.TakeWhile
import PittCs.Lib.Layout
import PittCs.Lib.Outcome

/-!
# The string table

`install_id` and `loc_str` of `table.c`. Texts are lists of bytes; `yytext` has a zero
byte behind them. Distinct texts are packed one behind the other, each with a zero byte,
and found again through hash buckets. A write behind the end of `strg_tbl` and the exit
with the message about the space end a run.
-/

namespace PittCs.Cs2210.StringTable

open Function List PittCs.Lib

abbrev Byte := BitVec 8

abbrev Text := List Byte

def TBL_LEN : Nat := 101

def STRTBL_LEN : Nat := 3001

structure HashEle where
  id : Int
  len : Nat
  index : Nat

structure Tables where
  hashTbl : Nat → List HashEle
  strgTbl : Nat → Byte
  last : Nat

/-- After `init_hash_tbl` and `init_string_tbl`. -/
def Tables.init : Tables := ⟨fun _ => [], fun _ => 0, 0⟩

inductive Stop where
  | exit
  | outOfBounds
deriving DecidableEq

/-- The string that starts at an index. -/
def cstr (tbl : Nat → Byte) (i : Nat) : Text :=
  ((List.range' i (STRTBL_LEN - i)).map tbl).takeWhile (· != 0)

/-! ## Installing -/

/-- One round of the loop of `hashpjw`; `char` is signed. -/
def hashStep (h : BitVec 32) (c : Byte) : BitVec 32 :=
  let h := (h <<< 4) + c.signExtend 32
  let g := h &&& 0xf0000000
  if g = 0 then h else (h ^^^ (g >>> 24)) ^^^ g

def hashpjw (s : Text) : Nat := (s.foldl hashStep 0).toNat % TBL_LEN

/-- `strncmp(a, text, yyleng) == 0`. -/
def matchesStart (a text : Text) : Bool :=
  a.take text.length == (text.takeWhile (· != 0)).take text.length

def backslash : Byte := 92

/-- The `switch` over the character behind a backslash: `t`, `n`, `\\` and `'`. -/
def escape (c : Byte) : Option Byte :=
  if c = 116 then some 9
  else if c = 110 then some 10
  else if c = 92 then some 92
  else if c = 39 then some 39
  else none

/-- `strg_tbl[last] = c; last++`. -/
def put (t : Tables) (c : Byte) : Except Stop Tables :=
  if t.last < STRTBL_LEN then
    .ok { t with strgTbl := Function.update t.strgTbl t.last c, last := t.last + 1 }
  else .error .outOfBounds

/-- The loop that copies the text. A backslash that no `case` takes is copied, and the
character behind it is looked at again. -/
@[grind =] def copy : Text → Tables → Except Stop Tables
  | [], t => .ok t
  | [c], t => put t c
  | c :: d :: rest, t =>
    if c = backslash then
      match escape d with
      | some e => (put t e).bind (copy rest)
      | none => (put t backslash).bind (copy (d :: rest))
    else (put t c).bind (copy (d :: rest))

/-- `install_id`, with the value of `yylval`. -/
def installId (t : Tables) (text : Text) (tokenid : Int) : Except Stop (Tables × Nat) :=
  let ind := hashpjw text
  match (t.hashTbl ind).find? fun p => matchesStart (cstr t.strgTbl p.index) text with
  | some p => .ok (t, p.index)
  | none =>
    if t.last + text.length > STRTBL_LEN then .error .exit
    else
      let p : HashEle := { id := tokenid, len := text.length, index := t.last }
      (copy text { t with hashTbl := Function.update t.hashTbl ind (t.hashTbl ind ++ [p]) }).bind
        fun t' => (put t' 0).map fun t'' => (t'', t.last)

/-- A sequence of calls, with the values of `yylval`. -/
@[grind =] def installAll (t : Tables) : List (Text × Int) → Except Stop (Tables × List Nat)
  | [] => .ok (t, [])
  | c :: calls => (installId t c.1 c.2).bind fun r =>
    (installAll r.1 calls).map fun q => (q.1, r.2 :: q.2)

/-- The loop of `loc_str`, which returns nothing if it runs past `last`. -/
@[grind =] def locFrom (t : Tables) (s : Text) (i : Nat) : Option Int :=
  if i < t.last then
    if cstr t.strgTbl i = s then some i else locFrom t s (i + (cstr t.strgTbl i).length + 1)
  else if i = t.last then some (-1)
  else none
termination_by t.last - i

def locStr (t : Tables) (s : Text) : Option Int := locFrom t s 0

/-! ## Escapes -/

/-- A text after escape processing. -/
@[grind =] def unescape : Text → Text
  | [] => []
  | [c] => [c]
  | c :: d :: rest =>
    if c = backslash then
      match escape d with
      | some e => e :: unescape rest
      | none => c :: unescape (d :: rest)
    else c :: unescape (d :: rest)

theorem copy_eq_foldlM (text : Text) (t : Tables) : copy text t = (unescape text).foldlM put t := by
  induction text using unescape.induct generalizing t with
  | case1 => rfl
  | case2 c =>
    rw [copy, unescape, foldlM_cons]
    cases put t c <;> rfl
  | case3 d rest e he ih | case4 d rest he ih =>
    rw [copy, unescape, if_pos rfl, if_pos rfl]
    simp only [he, foldlM_cons]
    exact congrArg _ (funext ih)
  | case5 c d rest hc ih =>
    rw [copy, unescape, if_neg hc, if_neg hc, foldlM_cons]
    exact congrArg _ (funext ih)

/-- A backslash stands before a character of the `switch`. -/
def HasEscape (text : Text) : Prop :=
  ∃ l c r, text = l ++ backslash :: c :: r ∧ (escape c).isSome

variable {t : Tables} {ts seen : List Text} {text s : Text} {idxs : List Nat} {i : Nat}
  {p : Text × Nat}

theorem HasEscape.cons (h : HasEscape text) (c : Byte) : HasEscape (c :: text) := by
  rcases h with ⟨l, d, r, rfl, hd⟩
  exact ⟨c :: l, d, r, rfl, hd⟩

theorem hasEscape_cons_cons {c d : Byte} {rest : Text} (h : HasEscape (c :: d :: rest)) :
    (c = backslash ∧ (escape d).isSome) ∨ HasEscape (d :: rest) := by
  rcases h with ⟨l, e, r, heq, he⟩
  cases l with
  | nil =>
    obtain ⟨rfl, hrest⟩ := List.cons.inj heq
    obtain ⟨rfl, -⟩ := List.cons.inj hrest
    exact Or.inl ⟨rfl, he⟩
  | cons x l => exact Or.inr ⟨l, e, r, (List.cons.inj heq).2, he⟩

theorem length_unescape_le (text : Text) : (unescape text).length ≤ text.length := by
  induction text using unescape.induct with
  | case1 | case2 c => exact Nat.le_refl _
  | case3 d rest e he ih =>
    rw [unescape, if_pos rfl]
    simp only [he, length_cons]
    omega
  | case4 d rest he ih =>
    rw [unescape, if_pos rfl]
    simp only [he, length_cons] at ih ⊢
    omega
  | case5 c d rest hc ih =>
    rw [unescape, if_neg hc]
    simp only [length_cons] at ih ⊢
    omega

theorem length_unescape_lt (text : Text) (h : HasEscape text) :
    (unescape text).length < text.length := by
  induction text using unescape.induct with
  | case1 =>
    rcases h with ⟨l, c, r, heq, -⟩
    exact absurd heq (by simp)
  | case2 c =>
    rcases h with ⟨l, d, r, heq, -⟩
    have hlen := congrArg List.length heq
    simp at hlen
    omega
  | case3 d rest e he ih =>
    have hle := length_unescape_le rest
    rw [unescape, if_pos rfl]
    simp only [he, length_cons]
    omega
  | case4 d rest he ih =>
    have hrest : HasEscape (d :: rest) := by
      rcases hasEscape_cons_cons h with ⟨-, hd⟩ | hrest
      · rw [he] at hd
        exact absurd hd (by simp)
      · exact hrest
    have hlt := ih hrest
    rw [unescape, if_pos rfl]
    simp only [he, length_cons] at hlt ⊢
    omega
  | case5 c d rest hc ih =>
    have hrest : HasEscape (d :: rest) := (hasEscape_cons_cons h).resolve_left fun hcd => hc hcd.1
    have hlt := ih hrest
    rw [unescape, if_neg hc]
    simp only [length_cons] at hlt ⊢
    omega

theorem unescape_eq_self_iff (text : Text) : unescape text = text ↔ ¬ HasEscape text := by
  constructor
  · intro heq h
    have hlt := length_unescape_lt text h
    rw [heq] at hlt
    exact lt_irrefl _ hlt
  · induction text using unescape.induct with
    | case1 | case2 c => exact fun _ => rfl
    | case3 d rest e he ih =>
      intro h
      exact absurd ⟨[], d, rest, rfl, by rw [he]; rfl⟩ h
    | case4 d rest he ih =>
      intro h
      rw [unescape, if_pos rfl]
      simp only [he]
      rw [ih fun hrest => h (hrest.cons _)]
    | case5 c d rest hc ih =>
      intro h
      rw [unescape, if_neg hc, ih fun hrest => h (hrest.cons c)]

theorem unescape_of_not_hasEscape (h : ¬ HasEscape text) : unescape text = text :=
  (unescape_eq_self_iff text).mpr h

/-! ## Packed texts -/

/-- Texts one behind the other, each with its zero byte. -/
def packed (ts : List Text) : Text := ts.flatMap (· ++ [0])

@[simp] theorem packed_nil : packed [] = [] := rfl

@[simp] theorem packed_cons (s : Text) (ts : List Text) : packed (s :: ts) = s ++ 0 :: packed ts := by
  simp [packed]

theorem packed_append (ts us : List Text) : packed (ts ++ us) = packed ts ++ packed us :=
  flatMap_append

theorem length_packed (ts : List Text) : (packed ts).length = (ts.map (·.length + 1)).sum := by
  induction ts with
  | nil => rfl
  | cons s ts ih =>
    rw [packed_cons, length_append, length_cons, ih, map_cons, sum_cons]
    omega

/-- The texts with the indexes they are packed at, the first at `i`. -/
@[grind =] def placed : Nat → List Text → List (Text × Nat)
  | _, [] => []
  | i, s :: ts => (s, i) :: placed (i + (s.length + 1)) ts

theorem placed_eq (i : Nat) (ts : List Text) :
    placed i ts = (layout (·.length + 1) i ts).map Prod.swap := by
  induction ts generalizing i with
  | nil => rfl
  | cons s ts ih => exact congrArg ((s, i) :: ·) (ih _)

theorem swap_mem_layout : p.swap ∈ layout (·.length + 1) i ts ↔ p ∈ placed i ts := by
  rw [placed_eq, ← mem_map_of_injective Prod.swap_injective, Prod.swap_swap]

theorem total_eq_length_packed (ts : List Text) : total (·.length + 1) ts = (packed ts).length := by
  induction ts with
  | nil => rfl
  | cons s ts ih =>
    rw [packed_cons, length_append, length_cons, total_cons, ih]
    omega

theorem mem_placed : p ∈ placed i ts ↔ ∃ l r, ts = l ++ p.1 :: r ∧ p.2 = i + (packed l).length := by
  rw [← swap_mem_layout]
  refine (mem_layout_iff _).trans ?_
  simp only [total_eq_length_packed]

theorem placed_append (i : Nat) (ts us : List Text) :
    placed i (ts ++ us) = placed i ts ++ placed (i + (packed ts).length) us := by
  rw [placed_eq, layout_append, map_append, total_eq_length_packed, ← placed_eq, ← placed_eq]

theorem mem_of_mem_placed (h : p ∈ placed i ts) : p.1 ∈ ts := by
  rcases mem_placed.mp h with ⟨l, r, rfl, -⟩
  simp

theorem exists_mem_placed (h : s ∈ ts) (i : Nat) : ∃ k, (s, k) ∈ placed i ts := by
  rcases append_of_mem h with ⟨l, r, rfl⟩
  exact ⟨_, mem_placed.mpr ⟨l, r, rfl, rfl⟩⟩

/-- One text at one index. -/
theorem placed_index_inj {q : Text × Nat} (hp : p ∈ placed i ts) (hq : q ∈ placed i ts)
    (h : p.2 = q.2) : p = q :=
  Prod.swap_injective (layout_eq_of_overlap _ (swap_mem_layout.mpr hp) (swap_mem_layout.mpr hq)
    (Nat.succ_pos _) (Nat.succ_pos _) h)

theorem placed_text_inj {q : Text × Nat} (hts : ts.Nodup) (hp : p ∈ placed i ts)
    (hq : q ∈ placed i ts) (h : p.1 = q.1) : p = q := by
  induction ts generalizing i with
  | nil => exact absurd hp (by simp [placed])
  | cons s ts ih =>
    have hs := (nodup_cons.mp hts).1
    rcases mem_cons.mp hp with rfl | hp <;> rcases mem_cons.mp hq with rfl | hq
    · rfl
    · have hmem : s ∈ ts := Eq.subst (motive := (· ∈ ts)) h.symm (mem_of_mem_placed hq)
      exact absurd hmem hs
    · have hmem : s ∈ ts := Eq.subst (motive := (· ∈ ts)) h (mem_of_mem_placed hp)
      exact absurd hmem hs
    · exact ih (nodup_cons.mp hts).2 hp hq

/-! ## Tables that hold packed texts -/

/-- The tables hold exactly the texts, in this order. -/
structure Holds (t : Tables) (ts : List Text) : Prop where
  clean : ∀ s ∈ ts, 0 ∉ s
  last : t.last = (packed ts).length
  le : t.last ≤ STRTBL_LEN
  bytes : (List.range' 0 t.last).map t.strgTbl = packed ts
  buckets : ∀ k, (t.hashTbl k).map (·.index) =
    ((placed 0 ts).filter fun p => hashpjw p.1 = k).map (·.2)

theorem Holds.init : Holds Tables.init [] where
  clean := by simp
  last := rfl
  le := Nat.zero_le _
  bytes := rfl
  buckets _ := rfl

theorem takeWhile_zero (hs : 0 ∉ s) (rest : Text) : (s ++ 0 :: rest).takeWhile (· != 0) = s := by
  have hall : ∀ b ∈ s, (b != 0) = true := fun b hb => bne_iff_ne.mpr fun h => hs (h ▸ hb)
  rw [takeWhile_append_of_pos hall]
  simp

theorem takeWhile_clean (hs : 0 ∉ s) : s.takeWhile (· != 0) = s :=
  takeWhile_eq_self_iff.mpr fun _ hb => bne_iff_ne.mpr fun h => hs (h ▸ hb)

theorem zero_not_mem_cstr (tbl : Nat → Byte) (i : Nat) : 0 ∉ cstr tbl i := by
  intro h
  have hb := mem_takeWhile_imp h
  simp at hb

theorem Holds.cstr_eq {l r : List Text} (h : Holds t (l ++ s :: r)) :
    cstr t.strgTbl (packed l).length = s := by
  have hlast := h.last
  have hle := h.le
  have hlen : (packed l).length ≤ t.last := by
    rw [hlast, packed_append, length_append]
    omega
  have hsplit : List.range' (packed l).length (STRTBL_LEN - (packed l).length) =
      List.range' (packed l).length (t.last - (packed l).length) ++
        List.range' t.last (STRTBL_LEN - t.last) := by
    have happ := @List.range'_append (packed l).length (t.last - (packed l).length)
      (STRTBL_LEN - t.last) 1
    rw [Nat.one_mul, Nat.add_sub_cancel' hlen] at happ
    rw [happ]
    congr 1
    omega
  have hdrop : (List.range' (packed l).length (t.last - (packed l).length)).map t.strgTbl =
      s ++ 0 :: packed r := by
    have hbytes := congrArg (List.drop (packed l).length) h.bytes
    rw [packed_append, drop_left, packed_cons, ← map_drop, drop_range'] at hbytes
    rw [← hbytes, Nat.zero_add, Nat.mul_one]
  have hs : 0 ∉ s := h.clean s (by simp)
  rw [cstr, hsplit, map_append, hdrop, append_assoc]
  exact takeWhile_zero hs _

theorem Holds.cstr_placed (h : Holds t ts) (hp : p ∈ placed 0 ts) : cstr t.strgTbl p.2 = p.1 := by
  rcases mem_placed.mp hp with ⟨l, r, rfl, hi⟩
  rw [hi, Nat.zero_add]
  exact h.cstr_eq

theorem matchesStart_iff (h : 0 ∉ text) (a : Text) : matchesStart a text = true ↔ text <+: a := by
  rw [matchesStart, takeWhile_clean h, take_length, beq_iff_eq, prefix_iff_eq_take]
  exact eq_comm

/-! ## One call -/

theorem Holds.find_eq (h : Holds t ts) (htext : 0 ∉ text) :
    ((t.hashTbl (hashpjw text)).find? fun p => matchesStart (cstr t.strgTbl p.index) text).map
        (·.index) =
      ((placed 0 ts).find? fun p => hashpjw p.1 = hashpjw text ∧ text <+: p.1).map (·.2) := by
  let same : Nat → Bool := fun i => matchesStart (cstr t.strgTbl i) text
  have hindex : ((t.hashTbl (hashpjw text)).map (·.index)).find? same =
      ((t.hashTbl (hashpjw text)).find? (same ∘ (·.index))).map (·.index) := find?_map
  rw [h.buckets, find?_map, find?_filter] at hindex
  refine hindex.symm.trans (congrArg _ (find?_congr ?_))
  intro p hp
  have hstart : same p.2 = true ↔ text <+: p.1 := by
    rw [← matchesStart_iff htext p.1, ← h.cstr_placed hp]
  rw [Bool.eq_iff_iff]
  simp only [decide_eq_true_eq, comp, hstart]

theorem put_last (c : Byte) (h : t.last < STRTBL_LEN) :
    put t c = .ok { t with strgTbl := Function.update t.strgTbl t.last c, last := t.last + 1 } :=
  if_pos h

/-- What writing bytes at the end leaves. -/
structure Extends (t t' : Tables) (bs : Text) : Prop where
  hashTbl : t'.hashTbl = t.hashTbl
  last : t'.last = t.last + bs.length
  bytes : (List.range' 0 t'.last).map t'.strgTbl = (List.range' 0 t.last).map t.strgTbl ++ bs

theorem Extends.put (c : Byte) (h : t.last < STRTBL_LEN) :
    ∃ t', put t c = .ok t' ∧ Extends t t' [c] := by
  refine ⟨_, put_last c h, rfl, rfl, ?_⟩
  rw [range'_concat, map_append]
  congr 1
  · refine map_congr_left fun i hi => update_of_ne ?_ _ _
    have hlt := mem_range'_1.mp hi
    omega
  · simp

theorem Extends.trans {t' t'' : Tables} {bs cs : Text} (h : Extends t t' bs)
    (h' : Extends t' t'' cs) : Extends t t'' (bs ++ cs) where
  hashTbl := h'.hashTbl.trans h.hashTbl
  last := by rw [h'.last, h.last, length_append, Nat.add_assoc]
  bytes := by rw [h'.bytes, h.bytes, append_assoc]

/-- Either all bytes fit, or a write behind the end stops the run. -/
theorem foldlM_put (bs : Text) (t : Tables) :
    (t.last + bs.length ≤ STRTBL_LEN ∧ ∃ t', bs.foldlM put t = .ok t' ∧ Extends t t' bs) ∨
      (t.last + bs.length > STRTBL_LEN ∧
        (t.last ≤ STRTBL_LEN → bs.foldlM put t = .error .outOfBounds)) := by
  induction bs generalizing t with
  | nil =>
    by_cases hle : t.last ≤ STRTBL_LEN
    · exact Or.inl ⟨hle, t, rfl, rfl, rfl, (append_nil _).symm⟩
    · exact Or.inr ⟨Nat.lt_of_not_le hle, fun hle' => absurd hle' hle⟩
  | cons c bs ih =>
    rw [length_cons, foldlM_cons]
    by_cases hlt : t.last < STRTBL_LEN
    · rcases Extends.put c hlt with ⟨t', hput, hext⟩
      have hlast : t'.last = t.last + 1 := hext.last
      rw [hput]
      rcases ih t' with ⟨hle, t'', hrun, hext'⟩ | ⟨hgt, herr⟩
      · exact Or.inl ⟨by omega, t'', hrun, hext.trans hext'⟩
      · exact Or.inr ⟨by omega, fun _ => herr (by omega)⟩
    · refine Or.inr ⟨by omega, fun _ => ?_⟩
      rw [put, if_neg hlt]
      rfl

/-- The first text the search stops at. -/
def firstMatch (ts : List Text) (text : Text) : Option (Text × Nat) :=
  (placed 0 ts).find? fun p => hashpjw p.1 = hashpjw text ∧ text <+: p.1

theorem Holds.installId_found (h : Holds t ts) (htext : 0 ∉ text) (hp : firstMatch ts text = some p)
    (tokenid : Int) : installId t text tokenid = .ok (t, p.2) := by
  have hfind := h.find_eq htext
  rw [← firstMatch, hp, Option.map_some] at hfind
  rcases Option.map_eq_some_iff.mp hfind with ⟨e, he, hindex⟩
  rw [installId]
  simp only [he, hindex]

/-- A new text without zero bytes and escapes. -/
theorem Holds.installId_new (h : Holds t ts) (htext : 0 ∉ text) (hesc : ¬ HasEscape text)
    (hp : firstMatch ts text = none) (tokenid : Int) :
    (t.last + (text.length + 1) ≤ STRTBL_LEN ∧
        ∃ t', installId t text tokenid = .ok (t', t.last) ∧ Holds t' (ts ++ [text])) ∨
      (t.last + (text.length + 1) > STRTBL_LEN ∧ ∃ e, installId t text tokenid = .error e) := by
  have hfind := h.find_eq htext
  rw [← firstMatch, hp, Option.map_none, Option.map_eq_none_iff] at hfind
  rw [installId]
  simp only [hfind]
  by_cases hfull : t.last + text.length > STRTBL_LEN
  · right
    rw [if_pos hfull]
    exact ⟨by omega, _, rfl⟩
  · rw [if_neg hfull]
    simp only [copy_eq_foldlM, unescape_of_not_hasEscape hesc]
    generalize hbuckets : Function.update t.hashTbl (hashpjw text)
      (t.hashTbl (hashpjw text) ++ [⟨tokenid, text.length, t.last⟩]) = buckets
    rcases foldlM_put text { t with hashTbl := buckets } with ⟨hle, t', hrun, hext⟩ | ⟨hgt, -⟩
    case inr => exact absurd hgt hfull
    simp only at hle
    have hlast : t'.last = t.last + text.length := hext.last
    rw [hrun]
    -- the text has been copied, its zero byte not yet
    by_cases hroom : t'.last < STRTBL_LEN
    · left
      rcases Extends.put 0 hroom with ⟨t'', hput, hext'⟩
      have hall := hext.trans hext'
      refine ⟨by omega, t'', by simp only [Except.bind, hput, Except.map], ?_⟩
      constructor
      case clean =>
        intro s hs
        rcases mem_append.mp hs with hs | hs
        · exact h.clean s hs
        · rw [mem_singleton.mp hs]
          exact htext
      case last =>
        have hlen : t''.last = t.last + (text ++ [0]).length := hall.last
        rw [hlen, h.last, packed_append, length_append]
        simp
      case le =>
        have hlast' : t''.last = t'.last + 1 := hext'.last
        omega
      case bytes =>
        have hbytes := h.bytes
        rw [hall.bytes, packed_append, ← hbytes]
        simp
      case buckets =>
        intro k
        have hk := h.buckets k
        rw [hall.hashTbl, ← hbuckets, placed_append, filter_append, map_append, ← hk]
        by_cases hkt : k = hashpjw text
        · subst hkt
          simp [placed, h.last]
        · simp [placed, update_of_ne hkt, Ne.symm hkt]
    · right
      refine ⟨by omega, .outOfBounds, ?_⟩
      simp only [Except.bind, put, if_neg hroom, Except.map]

/-! ## Looking a text up -/

theorem Holds.locFrom_eq (r : List Text) :
    ∀ l : List Text, Holds t (l ++ r) →
      (∃ k, (s, k) ∈ placed (packed l).length r ∧ locFrom t s (packed l).length = some (k : Int)) ∨
        (s ∉ r ∧ locFrom t s (packed l).length = some (-1)) := by
  induction r with
  | nil =>
    intro l h
    right
    have hlast := h.last
    rw [append_nil] at hlast
    rw [locFrom, if_neg (by omega), if_pos hlast.symm]
    exact ⟨not_mem_nil, rfl⟩
  | cons u r ih =>
    intro l h
    have hlast := h.last
    rw [packed_append, packed_cons, length_append, length_append, length_cons] at hlast
    rw [locFrom, if_pos (by omega), h.cstr_eq]
    by_cases hus : u = s
    · left
      rw [if_pos hus]
      exact ⟨_, by rw [hus]; exact mem_cons_self, rfl⟩
    · rw [if_neg hus]
      have hnext : (packed l).length + u.length + 1 = (packed (l ++ [u])).length := by
        simp [packed_append]
        omega
      rw [hnext]
      have hsplit : l ++ [u] ++ r = l ++ u :: r := by simp
      have hplaced : placed (packed l).length (u :: r) =
          (u, (packed l).length) :: placed (packed (l ++ [u])).length r := by
        rw [placed, ← hnext, Nat.add_assoc]
      rcases ih (l ++ [u]) (hsplit ▸ h) with ⟨k, hk, hloc⟩ | ⟨hs, hloc⟩
      · exact Or.inl ⟨k, by rw [hplaced]; exact mem_cons_of_mem _ hk, hloc⟩
      · exact Or.inr ⟨fun hmem => (mem_cons.mp hmem).elim (fun he => hus he.symm) hs, hloc⟩

theorem Holds.locStr_eq (h : Holds t ts) (hts : ts.Nodup) (hs : (s, i) ∈ placed 0 ts) :
    locStr t s = some (i : Int) := by
  rcases Holds.locFrom_eq (s := s) ts [] h with ⟨k, hk, hloc⟩ | ⟨hno, -⟩
  · have hp := placed_text_inj hts hk hs rfl
    have hki : k = i := congrArg Prod.snd hp
    rw [← hki]
    exact hloc
  · exact absurd (mem_of_mem_placed hs) hno

theorem Holds.locStr_absent (h : Holds t ts) (hs : s ∉ ts) : locStr t s = some (-1) := by
  rcases Holds.locFrom_eq (s := s) ts [] h with ⟨k, hk, -⟩ | ⟨-, hloc⟩
  · exact absurd (mem_of_mem_placed hk) hs
  · exact hloc

theorem cstr_of_locFrom {k : Nat} (h : locFrom t s i = some (k : Int)) : cstr t.strgTbl k = s := by
  induction i using locFrom.induct t s with
  | case1 i hlt heq =>
    rw [locFrom, if_pos hlt, if_pos heq] at h
    have hik : i = k := by exact_mod_cast Option.some.inj h
    rw [← hik]
    exact heq
  | case2 i hlt hne ih =>
    rw [locFrom, if_pos hlt, if_neg hne] at h
    exact ih h
  | case3 hge =>
    rw [locFrom, if_neg hge, if_pos rfl] at h
    have hk := Option.some.inj h
    omega
  | case4 i hge hne =>
    rw [locFrom, if_neg hge, if_neg hne] at h
    exact absurd h (by simp)

/-! ## Sequences of calls -/

/-- The calls for these texts set `yylval` to these indexes and leave the table as it is
meant to be. -/
structure Faithful (texts : List Text) (idxs : List Nat) (t : Tables) : Prop where
  same : ∀ p ∈ texts.zip idxs, ∀ q ∈ texts.zip idxs, p.2 = q.2 ↔ p.1 = q.1
  stored : ∀ p ∈ texts.zip idxs, cstr t.strgTbl p.2 = unescape p.1
  located : ∀ p ∈ texts.zip idxs, locStr t p.1 = some (p.2 : Int)
  absent : ∀ s, 0 ∉ s → s ∉ texts → locStr t s = some (-1)

/-- No write leaves the table, the space suffices, and the indexes are faithful. -/
def Right (calls : List (Text × Int)) : Prop :=
  ∃ t idxs, installAll Tables.init calls = .ok (t, idxs) ∧ Faithful (calls.map (·.1)) idxs t

def Plain (text : Text) : Prop := 0 ∉ text ∧ ¬ HasEscape text

/-- No new text starts an earlier one with its hash value. -/
def Clear : List Text → List Text → Prop
  | _, [] => True
  | seen, text :: texts =>
    (text ∈ seen ∨ ∀ u ∈ seen, text <+: u → hashpjw u ≠ hashpjw text) ∧ Clear (text :: seen) texts

/-- The bytes of the different texts, zero bytes included. -/
def space (texts : List Text) : Nat := (texts.dedup.map (·.length + 1)).sum

theorem length_packed_le_space (texts : List Text) (hts : ts.Nodup) (hsub : ∀ s ∈ ts, s ∈ texts) :
    (packed ts).length ≤ space texts := by
  have hsubperm : ts.Subperm texts.dedup :=
    subperm_of_subset hts fun s hs => mem_dedup.mpr (hsub s hs)
  rcases hsubperm with ⟨l, hl, hsublist⟩
  rw [length_packed, space, ← (hl.map _).sum_nat]
  exact (hsublist.map _).sum_le_sum fun _ _ => Nat.zero_le _

theorem length_packed_eq_space (texts : List Text) {ts : List Text} (hts : ts.Nodup)
    (hmem : ∀ s, s ∈ ts ↔ s ∈ texts) : (packed ts).length = space texts := by
  have hperm : ts.Perm texts.dedup := (perm_ext_iff_of_nodup hts (nodup_dedup _)).mpr
    fun s => (hmem s).trans mem_dedup.symm
  rw [length_packed, space]
  exact (hperm.map _).sum_nat

theorem fresh_of_firstMatch (hp : firstMatch ts text = none) :
    ∀ u ∈ ts, text <+: u → hashpjw u ≠ hashpjw text := by
  intro u hu hpre heq
  rcases exists_mem_placed hu 0 with ⟨i, hi⟩
  have hno := find?_eq_none.mp hp _ hi
  simp only [decide_eq_true_eq] at hno
  exact hno ⟨heq, hpre⟩

theorem firstMatch_placed {k : Nat} (hts : ts.Pairwise fun u s => s <+: u → hashpjw u ≠ hashpjw s)
    (hk : (text, k) ∈ placed i ts) :
    ((placed i ts).find? fun p => hashpjw p.1 = hashpjw text ∧ text <+: p.1) = some (text, k) := by
  induction ts generalizing i with
  | nil => exact absurd hk (by simp [placed])
  | cons s ts ih =>
    rw [placed, find?_cons]
    by_cases hmatch : hashpjw s = hashpjw text ∧ text <+: s
    · simp only [hmatch, and_self, decide_true]
      rcases mem_cons.mp hk with heq | htail
      · rw [heq]
      · exact absurd hmatch.1
          ((pairwise_cons.mp hts).1 text (mem_of_mem_placed htail) hmatch.2)
    · simp only [hmatch, decide_false]
      rcases mem_cons.mp hk with heq | htail
      · have hst : text = s := congrArg Prod.fst heq
        rw [hst] at hmatch
        exact absurd ⟨rfl, prefix_refl _⟩ hmatch
      · exact ih (pairwise_cons.mp hts).2 htail

/-- What a run has installed so far, the seen texts with their indexes. -/
structure Installed (t : Tables) (ts seen : List Text) (idxs : List Nat) : Prop where
  holds : Holds t ts
  fresh : ts.Pairwise fun u s => s <+: u → hashpjw u ≠ hashpjw s
  mem : ∀ s, s ∈ ts ↔ s ∈ seen
  len : seen.length = idxs.length
  index : ∀ p ∈ seen.zip idxs, p ∈ placed 0 ts

theorem Installed.nodup (h : Installed t ts seen idxs) : ts.Nodup := by
  refine h.fresh.imp ?_
  intro u s hne heq
  subst heq
  exact hne (prefix_refl u) rfl

theorem Installed.init : Installed Tables.init [] [] [] where
  holds := Holds.init
  fresh := List.Pairwise.nil
  mem _ := Iff.rfl
  len := rfl
  index := by simp

theorem Installed.found (h : Installed t ts seen idxs) (hi : (text, i) ∈ placed 0 ts) :
    Installed t ts (text :: seen) (i :: idxs) where
  holds := h.holds
  fresh := h.fresh
  mem s := by
    have htext : text ∈ ts := mem_of_mem_placed hi
    rw [mem_cons, ← h.mem]
    constructor
    · exact Or.inr
    · rintro (rfl | hs)
      · exact htext
      · exact hs
  len := by rw [length_cons, length_cons, h.len]
  index := by
    intro p hp
    rw [zip_cons_cons] at hp
    rcases mem_cons.mp hp with rfl | hp
    · exact hi
    · exact h.index p hp

theorem Installed.new {t' : Tables} (h : Installed t ts seen idxs) (hp : firstMatch ts text = none)
    (ht' : Holds t' (ts ++ [text])) :
    Installed t' (ts ++ [text]) (text :: seen) (t.last :: idxs) where
  holds := ht'
  fresh := by
    rw [pairwise_append]
    refine ⟨h.fresh, pairwise_singleton _ _, ?_⟩
    intro u hu s hs
    rw [mem_singleton.mp hs]
    exact fresh_of_firstMatch hp u hu
  mem s := by
    rw [mem_append, mem_singleton, mem_cons, h.mem, or_comm]
  len := by rw [length_cons, length_cons, h.len]
  index := by
    intro p hp
    rw [placed_append, mem_append]
    rw [zip_cons_cons] at hp
    rcases mem_cons.mp hp with rfl | hp
    · right
      rw [h.holds.last, Nat.zero_add]
      exact mem_cons_self
    · exact Or.inl (h.index p hp)

theorem Installed.mem_zip (h : Installed t ts seen idxs) (hp : p ∈ placed 0 ts) :
    p ∈ seen.zip idxs := by
  have hseen : p.1 ∈ seen := (h.mem _).mp (mem_of_mem_placed hp)
  rcases List.getElem_of_mem hseen with ⟨n, hn, hget⟩
  have hn' : n < (seen.zip idxs).length := by
    rw [length_zip, ← h.len]
    omega
  have hmem := List.getElem_mem hn'
  have hq := placed_text_inj h.nodup (h.index _ hmem) hp (by rw [List.getElem_zip, hget])
  rw [← hq]
  exact hmem

theorem Installed.faithful {texts : List Text} {idxs' : List Nat} (h : Installed t ts seen idxs)
    (hclean : ∀ s ∈ seen, Plain s) (hmem : ∀ s, s ∈ seen ↔ s ∈ texts)
    (hzip : ∀ p ∈ texts.zip idxs', p ∈ seen.zip idxs) : Faithful texts idxs' t := by
  constructor
  case same =>
    intro p hp q hq
    have hpp := h.index p (hzip p hp)
    have hqp := h.index q (hzip q hq)
    constructor
    · exact fun heq => congrArg Prod.fst (placed_index_inj hpp hqp heq)
    · exact fun heq => congrArg Prod.snd (placed_text_inj h.nodup hpp hqp heq)
  case stored =>
    intro p hp
    have hseen : p.1 ∈ seen := (of_mem_zip (hzip p hp)).1
    rw [h.holds.cstr_placed (h.index p (hzip p hp)),
      unescape_of_not_hasEscape (hclean _ hseen).2]
  case located =>
    intro p hp
    exact h.holds.locStr_eq h.nodup (h.index p (hzip p hp))
  case absent =>
    intro s _ hs
    exact h.holds.locStr_absent fun hts => hs ((hmem s).mp ((h.mem s).mp hts))

/-- One call for a plain text: it was seen, or it meets the first text it matches, or it is
new and fits, or it is new and the run stops. -/
theorem Installed.step (h : Installed t ts seen idxs) (htext : Plain text) (tokenid : Int) :
    (text ∈ seen ∧ ∃ i, installId t text tokenid = .ok (t, i) ∧
        Installed t ts (text :: seen) (i :: idxs)) ∨
      (text ∉ seen ∧ ∃ p ∈ seen.zip idxs, text <+: p.1 ∧ hashpjw p.1 = hashpjw text ∧
        installId t text tokenid = .ok (t, p.2)) ∨
      (text ∉ seen ∧ (∀ u ∈ seen, text <+: u → hashpjw u ≠ hashpjw text) ∧
        ((t.last + (text.length + 1) ≤ STRTBL_LEN ∧ ∃ t', installId t text tokenid = .ok (t', t.last) ∧
            Installed t' (ts ++ [text]) (text :: seen) (t.last :: idxs)) ∨
          (t.last + (text.length + 1) > STRTBL_LEN ∧
            ∃ e, installId t text tokenid = .error e))) := by
  by_cases hseen : text ∈ seen
  · left
    rcases exists_mem_placed ((h.mem _).mpr hseen) 0 with ⟨k, hk⟩
    have hfirst : firstMatch ts text = some (text, k) := firstMatch_placed h.fresh hk
    exact ⟨hseen, k, h.holds.installId_found htext.1 hfirst tokenid, h.found hk⟩
  · right
    cases hp : firstMatch ts text with
    | some p =>
      left
      have hmatch := find?_some hp
      simp only [decide_eq_true_eq] at hmatch
      have hplaced := mem_of_find?_eq_some hp
      exact ⟨hseen, p, h.mem_zip hplaced, hmatch.2, hmatch.1,
        h.holds.installId_found htext.1 hp tokenid⟩
    | none =>
      right
      refine ⟨hseen, fun u hu => fresh_of_firstMatch hp u ((h.mem u).mpr hu), ?_⟩
      rcases h.holds.installId_new htext.1 htext.2 hp tokenid with ⟨hle, t', hok, ht'⟩ | hfull
      · exact Or.inl ⟨hle, t', hok, h.new hp ht'⟩
      · exact Or.inr hfull

theorem installAll_cons {t' : Tables} {c : Text × Int} {calls : List (Text × Int)} :
    installAll t (c :: calls) = .ok (t', idxs) ↔ ∃ t₁ i new,
      installId t c.1 c.2 = .ok (t₁, i) ∧ installAll t₁ calls = .ok (t', new) ∧
        idxs = i :: new := by
  rw [installAll]
  constructor
  · intro h
    rcases Lib.bind_eq_ok.mp h with ⟨⟨t₁, i⟩, hcall, hrest⟩
    cases hrun : installAll t₁ calls with
    | error e =>
      rw [hrun] at hrest
      cases hrest
    | ok q =>
      rw [hrun] at hrest
      cases hrest
      exact ⟨t₁, i, q.2, hcall, hrun, rfl⟩
  · rintro ⟨t₁, i, new, hcall, hrun, rfl⟩
    rw [hcall]
    simp only [Except.bind, hrun, Except.map]

theorem length_installAll {calls : List (Text × Int)} {t' : Tables}
    (h : installAll t calls = .ok (t', idxs)) : idxs.length = calls.length := by
  induction calls generalizing t t' idxs with
  | nil =>
    cases h
    rfl
  | cons c calls ih =>
    rcases installAll_cons.mp h with ⟨t₁, i, new, -, hrun, rfl⟩
    rw [length_cons, length_cons, ih hrun]

/-- What a run adds. -/
structure Reached (t : Tables) (seen : List Text) (idxs : List Nat) (texts : List Text)
    (new : List Nat) : Prop where
  installed : ∃ ts seen' idxs', Installed t ts seen' idxs' ∧
    (∀ s, s ∈ seen' ↔ s ∈ seen ∨ s ∈ texts) ∧
    (∀ p ∈ seen.zip idxs, p ∈ seen'.zip idxs') ∧ ∀ p ∈ texts.zip new, p ∈ seen'.zip idxs'

theorem Reached.nil (h : Installed t ts seen idxs) : Reached t seen idxs [] [] where
  installed := ⟨ts, seen, idxs, h, by simp, fun _ hp => hp, by simp⟩

theorem Reached.cons {texts : List Text} {new : List Nat}
    (h : Reached t (text :: seen) (i :: idxs) texts new) :
    Reached t seen idxs (text :: texts) (i :: new) := by
  rcases h.installed with ⟨ts, seen', idxs', hinst, hmem, hold, hnew⟩
  refine ⟨ts, seen', idxs', hinst, ?_, ?_, ?_⟩
  · intro s
    rw [hmem, mem_cons, mem_cons, or_assoc, or_left_comm]
  · exact fun p hp => hold p (mem_cons_of_mem _ hp)
  · intro p hp
    rw [zip_cons_cons] at hp
    rcases mem_cons.mp hp with rfl | hp
    · exact hold _ mem_cons_self
    · exact hnew p hp

theorem Installed.run {all : List Text} (hspace : space all ≤ STRTBL_LEN)
    (calls : List (Text × Int)) :
    ∀ {t : Tables} {ts seen : List Text} {idxs : List Nat}, Installed t ts seen idxs →
      (∀ c ∈ calls, Plain c.1) → Clear seen (calls.map (·.1)) → (∀ s ∈ seen, s ∈ all) →
      (∀ c ∈ calls, c.1 ∈ all) →
      ∃ t' new, installAll t calls = .ok (t', new) ∧
        Reached t' seen idxs (calls.map (·.1)) new := by
  induction calls with
  | nil => exact fun h _ _ _ _ => ⟨_, [], rfl, Reached.nil h⟩
  | cons c calls ih =>
    intro t ts seen idxs h hplain hclear hseen hall
    have hc := hall c mem_cons_self
    have hseen' : ∀ s ∈ c.1 :: seen, s ∈ all := forall_mem_cons.mpr ⟨hc, hseen⟩
    -- the call ends and leaves the tables ready for the rest
    have hcall : ∃ t' ts' i, installId t c.1 c.2 = .ok (t', i) ∧
        Installed t' ts' (c.1 :: seen) (i :: idxs) := by
      rcases h.step (hplain c mem_cons_self) c.2 with
        ⟨-, i, hok, h'⟩ | ⟨hnew, p, hp, hpre, hhash, -⟩ | ⟨hnew, -, ⟨-, t', hok, h'⟩ | ⟨hfull, -⟩⟩
      · exact ⟨t, ts, i, hok, h'⟩
      · have hu : p.1 ∈ seen := (of_mem_zip hp).1
        exact absurd hhash (hclear.1.resolve_left hnew p.1 hu hpre)
      · exact ⟨t', _, _, hok, h'⟩
      · have hnodup : (ts ++ [c.1]).Nodup := by
          rw [nodup_append]
          refine ⟨h.nodup, nodup_singleton _, ?_⟩
          intro s hs u hu hsu
          rw [mem_singleton.mp hu] at hsu
          exact hnew (hsu ▸ (h.mem s).mp hs)
        have hle := length_packed_le_space all hnodup fun s hs => by
          rcases mem_append.mp hs with hs | hs
          · exact hseen s ((h.mem s).mp hs)
          · rw [mem_singleton.mp hs]
            exact hc
        have hlast := h.holds.last
        rw [packed_append, length_append, packed_cons, length_append] at hle
        simp at hle
        omega
    rcases hcall with ⟨t', ts', i, hok, h'⟩
    rcases ih h' (fun d hd => hplain d (mem_cons_of_mem _ hd)) hclear.2 hseen'
      (fun d hd => hall d (mem_cons_of_mem _ hd)) with ⟨t'', new, hrun, hreach⟩
    exact ⟨t'', i :: new, installAll_cons.mpr ⟨t', i, new, hok, hrun, rfl⟩, hreach.cons⟩

theorem Installed.clear_of_run {pairs : List (Text × Nat)}
    (hsame : ∀ p ∈ pairs, ∀ q ∈ pairs, p.2 = q.2 → p.1 = q.1) (calls : List (Text × Int)) :
    ∀ {t t' : Tables} {ts seen : List Text} {idxs new : List Nat}, Installed t ts seen idxs →
      (∀ c ∈ calls, Plain c.1) → installAll t calls = .ok (t', new) →
      (∀ p ∈ seen.zip idxs, p ∈ pairs) → (∀ p ∈ (calls.map (·.1)).zip new, p ∈ pairs) →
      Clear seen (calls.map (·.1)) ∧ Reached t' seen idxs (calls.map (·.1)) new := by
  induction calls with
  | nil =>
    intro t t' ts seen idxs new h _ hrun _ _
    cases hrun
    exact ⟨trivial, Reached.nil h⟩
  | cons c calls ih =>
    intro t t' ts seen idxs new h hplain hrun hold hnew
    rcases installAll_cons.mp hrun with ⟨t₁, i, new₂, hcall, hrun₂, rfl⟩
    rw [map_cons, zip_cons_cons] at hnew
    have hhead : (c.1, i) ∈ pairs := hnew _ mem_cons_self
    have hclear : (c.1 ∈ seen ∨ ∀ u ∈ seen, c.1 <+: u → hashpjw u ≠ hashpjw c.1) ∧
        ∃ ts', Installed t₁ ts' (c.1 :: seen) (i :: idxs) := by
      rcases h.step (hplain c mem_cons_self) c.2 with
        ⟨hmem, k, hok, h'⟩ | ⟨hno, p, hp, -, -, hok⟩ | ⟨-, hfresh, ⟨-, t₃, hok, h'⟩ | ⟨-, e, herr⟩⟩
      · cases hcall.symm.trans hok
        exact ⟨Or.inl hmem, ts, h'⟩
      · cases hcall.symm.trans hok
        have hpc : p.1 = c.1 := hsame p (hold p hp) _ hhead rfl
        exact absurd (hpc ▸ (of_mem_zip hp).1) hno
      · cases hcall.symm.trans hok
        exact ⟨Or.inr hfresh, _, h'⟩
      · cases hcall.symm.trans herr
    rcases hclear with ⟨hclear, ts', h'⟩
    have hold' : ∀ p ∈ (c.1 :: seen).zip (i :: idxs), p ∈ pairs :=
      forall_mem_cons.mpr ⟨hhead, hold⟩
    have hih := ih h' (fun d hd => hplain d (mem_cons_of_mem _ hd)) hrun₂ hold'
      fun p hp => hnew p (mem_cons_of_mem _ hp)
    exact ⟨⟨hclear, hih.1⟩, hih.2.cons⟩

/-- A text that `loc_str` finds where its escaped form is stored has nothing to escape. -/
theorem Faithful.plain {texts : List Text} (h : Faithful texts idxs t) (hp : p ∈ texts.zip idxs) :
    Plain p.1 := by
  have hcstr : cstr t.strgTbl p.2 = p.1 := cstr_of_locFrom (h.located p hp)
  constructor
  · rw [← hcstr]
    exact zero_not_mem_cstr _ _
  · exact (unescape_eq_self_iff p.1).mp ((h.stored p hp).symm.trans hcstr)

/-- Exactly when the string table does its work: no text has a zero byte or an escape, no
new text starts an earlier one of its bucket, and the table takes all texts with their
terminators. -/
theorem right_iff (calls : List (Text × Int)) :
    Right calls ↔ (∀ c ∈ calls, Plain c.1) ∧ Clear [] (calls.map (·.1)) ∧
      space (calls.map (·.1)) ≤ STRTBL_LEN := by
  constructor
  · rintro ⟨t, idxs, hrun, hfaith⟩
    have hlen := length_installAll hrun
    have hplain : ∀ c ∈ calls, Plain c.1 := by
      intro c hc
      rcases List.getElem_of_mem (mem_map_of_mem (f := (·.1)) hc) with ⟨n, hn, hget⟩
      have hn' : n < ((calls.map (·.1)).zip idxs).length := by
        rw [length_zip, length_map, hlen]
        simpa using hn
      have hp := hfaith.plain (List.getElem_mem hn')
      rw [List.getElem_zip, hget] at hp
      exact hp
    rcases Installed.init.clear_of_run
      (fun p hp q hq => (hfaith.same p hp q hq).mp) calls hplain hrun (by simp) fun _ hp => hp with
      ⟨hclear, hreach⟩
    rcases hreach.installed with ⟨ts, seen', idxs', hinst, hmem, -, -⟩
    refine ⟨hplain, hclear, ?_⟩
    have hspace := length_packed_eq_space (calls.map (·.1)) hinst.nodup fun s => by
      rw [hinst.mem, hmem]
      simp
    rw [← hspace, ← hinst.holds.last]
    exact hinst.holds.le
  · rintro ⟨hplain, hclear, hspace⟩
    rcases Installed.init.run hspace calls hplain hclear (by simp)
      (fun c hc => mem_map_of_mem (f := (·.1)) hc) with ⟨t, new, hrun, hreach⟩
    rcases hreach.installed with ⟨ts, seen', idxs', hinst, hmem, -, hzip⟩
    have hmem' : ∀ s, s ∈ seen' ↔ s ∈ calls.map (·.1) := fun s => by
      rw [hmem]
      simp
    refine ⟨t, new, hrun, hinst.faithful ?_ hmem' hzip⟩
    intro s hs
    rcases mem_map.mp ((hmem' s).mp hs) with ⟨c, hc, rfl⟩
    exact hplain c hc

/-- The identifiers `ari` and `a`: the second is taken for the first. -/
def clashing : List (Text × Int) := [([97, 114, 105], 0), ([97], 0)]

theorem indexes_clashing : (installAll Tables.init clashing).toOption.map (·.2) = some [0, 0] := by
  rfl

theorem not_right_clashing : ¬ Right clashing := by
  rintro ⟨t, idxs, hrun, hfaith⟩
  have hidxs := indexes_clashing
  rw [hrun] at hidxs
  cases Option.some.inj hidxs
  have hsame := hfaith.same ([97, 114, 105], 0) (by decide) ([97], 0) (by decide)
  exact absurd (hsame.mp rfl) (by decide)

end PittCs.Cs2210.StringTable
