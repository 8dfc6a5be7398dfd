import PittCs.Cs445.ListSpecs
import PittCs.Cs445.ReallyLongInt
import PittCs.Lib.Numeral

/-!
# What the arithmetic does

Each loop is related to what it does with the lists of digits that it reads. `Holds` says
that an object is the canonical numeral of a number, and every method gives such an object
from such objects.
-/

namespace PittCs.Cs445.ReallyLongInt

open Lib Lib.Numeral List Option

variable {h h' h₁ : Heap Int} {this rOp num ans : Ref} {ps ps' qs : List Ptr}
  {ds es xs ys zs rest : List Int} {p q cx cy : Option Ptr} {k : Nat} {x y : Nat}

/-! ## Loops that only read -/

theorem toString_digit {d : Int} (hd : 0 ≤ d ∧ d < 10) :
    toString d = String.singleton d.toNat.digitChar := by
  obtain ⟨n, rfl⟩ := Int.eq_ofNat_of_zero_le hd.1
  have hn : n < 10 := by omega
  have hdigits : ∀ n : Nat, n < 10 → toString (n : Int) = String.singleton n.digitChar := by decide
  exact hdigits n hn

theorem appendDigits_run (hr : Reads h h.prev k p ds) (hds : Digits 10 ds) (b : String) :
    appendDigits ds.length p b h =
      .ok (b ++ String.ofList (ds.map fun d => d.toNat.digitChar)) h := by
  induction ds generalizing p b with
  | nil =>
    show EStateM.Result.ok b h = _
    simp
  | cons d ds ih =>
    obtain ⟨a, rfl, -, had, hrest⟩ := hr
    obtain ⟨hd, hds⟩ := digits_cons.mp hds
    have htext : String.ofList ((d :: ds).map fun d => d.toNat.digitChar) =
        toString d ++ String.ofList (ds.map fun d => d.toNat.digitChar) := by
      rw [toString_digit hd, String.singleton_eq_ofList, ← String.ofList_append]
      rfl
    rw [length_cons, appendDigits, bind_ok (getData_run had), bind_ok (getPrevNode_run a),
      ih hrest hds, htext, String.append_assoc]

/-- The digits are compared from the most significant on. -/
theorem compareDigits_run (hx : Reads h h.prev k p xs) (hy : Reads h h.prev k q ys)
    (hxs : Digits 10 xs) (hys : Digits 10 ys) (hlen : xs.length = ys.length) :
    compareDigits xs.length p q h = .ok (value 10 xs.reverse - value 10 ys.reverse).sign h := by
  induction xs generalizing p q ys with
  | nil =>
    obtain rfl := length_eq_zero_iff.mp hlen.symm
    rfl
  | cons x xs ih =>
    cases ys with
    | nil => cases hlen
    | cons y ys =>
      obtain ⟨a, rfl, -, hax, hxrest⟩ := hx
      obtain ⟨b, rfl, -, hby, hyrest⟩ := hy
      obtain ⟨-, hxs'⟩ := digits_cons.mp hxs
      obtain ⟨-, hys'⟩ := digits_cons.mp hys
      have hlen' := Nat.succ.inj hlen
      have hxr : Digits 10 xs.reverse := fun d hd => hxs' d (mem_reverse.mp hd)
      have hyr : Digits 10 ys.reverse := fun d hd => hys' d (mem_reverse.mp hd)
      have hlenr : xs.reverse.length = ys.reverse.length := by
        rw [length_reverse, length_reverse, hlen']
      rw [length_cons, compareDigits, bind_ok (getData_run hax),
        bind_ok (getData_run hby), reverse_cons, reverse_cons]
      rcases lt_trichotomy x y with hlt | rfl | hgt
      · have hvalue := value_concat_lt (by decide) hxr hyr hlenr hlt
        rw [if_neg (by omega), if_pos hlt, Int.sign_eq_neg_one_of_neg (by omega)]
        rfl
      · have hsub : value 10 (xs.reverse ++ [x]) - value 10 (ys.reverse ++ [x]) =
            value 10 xs.reverse - value 10 ys.reverse := by
          rw [value_concat, value_concat, hlenr]
          ring
        rw [if_neg (Int.lt_irrefl x), if_neg (Int.lt_irrefl x), bind_ok (getPrevNode_run a),
          bind_ok (getPrevNode_run b), ih hxrest hyrest hxs' hys' hlen', hsub]
      · have hvalue := value_concat_lt (by decide) hyr hxr hlenr.symm hgt
        rw [if_pos hgt, Int.sign_eq_one_of_pos (by omega)]
        rfl

theorem countZeros_run {n : Nat} (hr : Reads h h.prev k p ds) (hn : n < ds.length) :
    countZeros n p h = .ok (leadingZeros n ds) h := by
  induction n generalizing p ds with
  | zero =>
    cases ds with
    | nil => cases hn
    | cons d ds =>
      obtain ⟨a, rfl, -, had, -⟩ := hr
      rw [countZeros, bind_ok (getData_run had)]
      rfl
  | succ n ih =>
    cases ds with
    | nil => cases hn
    | cons d ds =>
      obtain ⟨a, rfl, -, had, hrest⟩ := hr
      rw [countZeros, leadingZeros, bind_ok (getData_run had)]
      by_cases hd : d = 0
      · rw [if_pos hd, if_pos hd, bind_ok (getPrevNode_run a),
          bind_ok (ih hrest (Nat.lt_of_succ_lt_succ hn))]
        rfl
      · rw [if_neg hd, if_neg hd]
        rfl

/-! ## Loops that append to the answer -/

/-- Appending to the answer, whose nodes are all from `k` on, does not disturb a reader below
`k`. -/
theorem reads_of_frame (hr : Reads h h.next k p rest) (hframe : Frame ans h ps h' ps')
    (hk : k ≤ h.nodes) (hps : ∀ q ∈ ps, k ≤ q) : Reads h' h'.next k p rest := by
  have hout : ∀ a < k, a < h.nodes ∧ a ∉ ps := fun a ha =>
    ⟨Nat.lt_of_lt_of_le ha hk, fun hin => absurd ha (Nat.not_lt.mpr (hps a hin))⟩
  exact hr.congr (fun a ha => hframe.data a (hout a ha).1 (hout a ha).2)
    fun a ha => hframe.next a (hout a ha).1 (hout a ha).2

/-- The nodes of the answer stay from `k` on. -/
theorem owned_of_frame (hframe : Frame ans h ps h' ps') (hk : k ≤ h.nodes)
    (hps : ∀ q ∈ ps, k ≤ q) : ∀ q ∈ ps', k ≤ q := by
  intro q hq
  rcases hframe.owned q hq with hold | hnew
  · exact hps q hold
  · exact Nat.le_trans hk hnew

theorem restLoop_run (adjust : Int → Bool → Int × Bool) (c : Bool)
    (hx : Reads h h.next k cx xs) (hans : IsList h ans ps zs)
    (hk : k ≤ h.nodes) (hps : ∀ q ∈ ps, k ≤ q) : ∃ h' ps',
      restLoop adjust ans xs.length cx c h = .ok (carryDigits adjust xs c).2 h' ∧
      IsList h' ans ps' (zs ++ (carryDigits adjust xs c).1) ∧ Frame ans h ps h' ps' := by
  induction xs generalizing h ps zs cx c with
  | nil =>
    refine ⟨h, ps, rfl, ?_, .refl ans h ps⟩
    rw [carryDigits, append_nil]
    exact hans
  | cons x xs ih =>
    obtain ⟨a, rfl, hak, hax, hrest⟩ := hx
    obtain ⟨h₁, q, hadd, hlist₁, hframe₁⟩ := Cs445.add_spec hans (adjust x c).1
    have hnext : h₁.next a = h.next a := hframe₁.next a (Nat.lt_of_lt_of_le hak hk)
      fun hin => absurd hak (Nat.not_lt.mpr (hps a hin))
    have hrest₁ := reads_of_frame hrest hframe₁ hk hps
    obtain ⟨h', ps', hrun, hlist, hframe⟩ := ih (adjust x c).2 hrest₁ hlist₁
      (Nat.le_trans hk hframe₁.nodes) (owned_of_frame hframe₁ hk hps)
    refine ⟨h', ps', ?_, ?_, hframe₁.trans hframe⟩
    · rw [length_cons, restLoop, bind_ok (getData_run hax)]
      show (Cs445.add ans (adjust x c).1 >>= fun _ => getNextNode (some a) >>= fun next =>
        restLoop adjust ans xs.length next (adjust x c).2) h = _
      rw [bind_ok hadd, bind_ok (getNextNode_run a), hnext, hrun]
      rfl
    · rw [append_assoc] at hlist
      exact hlist

theorem pairLoop_run (op : Int → Int → Int) (adjust : Int → Bool → Int × Bool) (c : Bool)
    (hlen : xs.length = ys.length) (hx : Reads h h.next k cx (xs ++ rest))
    (hy : Reads h h.next k cy ys) (hans : IsList h ans ps zs) (hk : k ≤ h.nodes)
    (hps : ∀ q ∈ ps, k ≤ q) : ∃ h' ps' cx',
      pairLoop op adjust ans ys.length cx cy c h =
        .ok (cx', (carryDigits adjust (zipWith op xs ys) c).2) h' ∧
      IsList h' ans ps' (zs ++ (carryDigits adjust (zipWith op xs ys) c).1) ∧
      Frame ans h ps h' ps' ∧ Reads h' h'.next k cx' rest := by
  induction ys generalizing h ps zs cx cy xs c with
  | nil =>
    obtain rfl := length_eq_zero_iff.mp hlen
    refine ⟨h, ps, cx, rfl, ?_, .refl ans h ps, hx⟩
    rw [zipWith_nil_left, carryDigits, append_nil]
    exact hans
  | cons y ys ih =>
    cases xs with
    | nil => cases hlen
    | cons x xs =>
      obtain ⟨a, rfl, hak, hax, hxrest⟩ := hx
      obtain ⟨b, rfl, hbk, hby, hyrest⟩ := hy
      obtain ⟨h₁, q, hadd, hlist₁, hframe₁⟩ := Cs445.add_spec hans (adjust (op x y) c).1
      have hnext : ∀ e < k, h₁.next e = h.next e := fun e he =>
        hframe₁.next e (Nat.lt_of_lt_of_le he hk)
          fun hin => absurd he (Nat.not_lt.mpr (hps e hin))
      obtain ⟨h', ps', cx', hrun, hlist, hframe, hreads⟩ :=
        ih (adjust (op x y) c).2 (Nat.succ.inj hlen)
          (reads_of_frame hxrest hframe₁ hk hps) (reads_of_frame hyrest hframe₁ hk hps) hlist₁
          (Nat.le_trans hk hframe₁.nodes) (owned_of_frame hframe₁ hk hps)
      refine ⟨h', ps', cx', ?_, ?_, hframe₁.trans hframe, hreads⟩
      · rw [length_cons, pairLoop, bind_ok (getData_run hax), bind_ok (getData_run hby)]
        show (Cs445.add ans (adjust (op x y) c).1 >>= fun _ =>
          getNextNode (some a) >>= fun next => getNextNode (some b) >>= fun next' =>
            pairLoop op adjust ans ys.length next next' (adjust (op x y) c).2) h = _
        rw [bind_ok hadd, bind_ok (getNextNode_run a), bind_ok (getNextNode_run b),
          hnext a hak, hnext b hbk, hrun]
        rfl
      · rw [append_assoc] at hlist
        exact hlist

theorem addZeros_run (hl : IsList h this ps ds) (n : Nat) : ∃ h' ps',
    addZeros this n h = .ok () h' ∧ IsList h' this ps' (List.replicate n 0 ++ ds) ∧
      Frame this h ps h' ps' := by
  induction n generalizing h ps ds with
  | zero => exact ⟨h, ps, rfl, hl, .refl this h ps⟩
  | succ n ih =>
    obtain ⟨h₁, q, hadd, hlist₁, hframe₁⟩ := addAt_spec hl 0
    obtain ⟨h', ps', hrun, hlist, hframe⟩ := ih hlist₁
    refine ⟨h', ps', ?_, ?_, hframe₁.trans hframe⟩
    · rw [addZeros, bind_ok (discard_ok hadd), hrun]
    · rw [replicate_succ', append_assoc]
      exact hlist

/-! ## Numbers -/

/-- An object is the canonical numeral of a number. -/
structure Holds (h : Heap Int) (this : Ref) (ps : List Ptr) (ds : List Int) (x : Nat) : Prop where
  list : IsList h this ps ds
  canonical : Canonical 10 ds
  value : value 10 ds = x

theorem Holds.digits_reverse (hx : Holds h this ps ds x) : Digits 10 ds.reverse := fun d hd =>
  hx.canonical.digits d (mem_reverse.mp hd)

theorem Holds.length_pos (hx : Holds h this ps ds x) : 0 < ds.length :=
  length_pos_iff.mpr hx.canonical.ne_nil

/-- The text is the decimal numeral. -/
theorem text_run (hx : Holds h this ps ds x) : text this h = .ok (toString x) h := by
  obtain ⟨a, z, hfirst, hprev, hreads⟩ := hx.list.exists_reads_prev hx.canonical.ne_nil
  have happend := appendDigits_run hreads hx.digits_reverse ""
  have hdigits : ds.reverse.map (fun d => d.toNat.digitChar) = Nat.toDigits 10 x := by
    have hvalue : (Numeral.value 10 ds).toNat = x := by
      rw [hx.value, Int.toNat_natCast]
    rw [← hvalue]
    exact Canonical.toDigits (by decide) hx.canonical
  rw [length_reverse, String.empty_append, hdigits] at happend
  unfold text
  rw [bind_ok getFirstNode_run, hfirst, bind_ok (getPrevNode_run a), hprev,
    bind_ok getNumberOfEntries_run, hx.list.numberOfEntries, happend]
  rfl

theorem compareTo_run (hx : Holds h this ps ds x) (hy : Holds h rOp qs es y) :
    compareTo this rOp h = .ok ((x : Int) - y).sign h := by
  obtain ⟨a, z, hfirst, hprev, hreads⟩ := hx.list.exists_reads_prev hx.canonical.ne_nil
  obtain ⟨a', z', hfirst', hprev', hreads'⟩ := hy.list.exists_reads_prev hy.canonical.ne_nil
  unfold compareTo
  rw [bind_ok getNumberOfEntries_run, bind_ok getNumberOfEntries_run, hx.list.numberOfEntries,
    hy.list.numberOfEntries, ← hx.value, ← hy.value]
  rcases Nat.lt_trichotomy ds.length es.length with hlt | heq | hgt
  · have hvalue := Canonical.lt_of_length_lt (by decide) hx.canonical.digits hx.canonical.ne_nil
      hy.canonical hlt
    rw [if_neg (Nat.not_lt.mpr (Nat.le_of_lt hlt)), if_pos hlt,
      Int.sign_eq_neg_one_of_neg (by omega)]
    rfl
  · have hcompare := compareDigits_run hreads hreads' hx.digits_reverse hy.digits_reverse
      (by rw [length_reverse, length_reverse, heq])
    rw [length_reverse, reverse_reverse, reverse_reverse] at hcompare
    rw [if_neg (by omega), if_neg (by omega), bind_ok getFirstNode_run, hfirst,
      bind_ok (getPrevNode_run a), hprev, bind_ok getFirstNode_run, hfirst',
      bind_ok (getPrevNode_run a'), hprev', hcompare]
  · have hvalue := Canonical.lt_of_length_lt (by decide) hy.canonical.digits hy.canonical.ne_nil
      hx.canonical hgt
    rw [if_pos hgt, Int.sign_eq_one_of_pos (by omega)]
    rfl

/-! ## From texts -/

/-- What the constructor takes as a number: at least one digit, and digits only. -/
def IsNumeral (s : String) : Prop := s.toList ≠ [] ∧ ∀ c ∈ s.toList, c.isDigit

instance (s : String) : Decidable (IsNumeral s) :=
  have : Decidable (∀ c ∈ s.toList, c.isDigit) := decidableBAll _ _
  inferInstanceAs (Decidable (_ ∧ ∀ c ∈ s.toList, c.isDigit))

/-- The number that a text of digits stands for. -/
def decimal (s : String) : Nat := Nat.ofDigitChars 10 s.toList 0

/-- The list of the digits that were read, without the zeros in front, and the digit that was
read last. -/
structure Reading (h : Heap Int) (this : Ref) (ps : List Ptr) (ds : List Int) (x : Nat)
    (digit : Int) : Prop where
  list : IsList h this ps ds
  digits : Digits 10 ds
  lead : ds.getLast? ≠ some 0
  value : value 10 ds = x
  last : ds = [] → digit = 0

/-- One turn; before the first one no digit was read. -/
theorem addDigits_cons {c : Char} (cs : List Char) (digit : Int) (hl : IsList h this ps ds)
    (hdigits : Digits 10 ds) (hlead : ds.getLast? ≠ some 0) (hvalue : value 10 ds = x)
    (hc : c.isDigit) : ∃ h₁ ps₁ ds₁ digit₁,
      addDigits this (c :: cs) digit h = addDigits this cs digit₁ h₁ ∧
      Reading h₁ this ps₁ ds₁ (10 * x + (c.toNat - '0'.toNat)) digit₁ ∧
      Frame this h ps h₁ ps₁ := by
  obtain ⟨hlo, hhi⟩ := Char.isDigit_iff_toNat.mp hc
  have hrange : '0' ≤ c ∧ c ≤ '9' := ⟨hlo, hhi⟩
  have hlo' : 48 ≤ c.toNat := hlo
  have hhi' : c.toNat ≤ 57 := hhi
  obtain ⟨d, hd⟩ : ∃ d : Int, d = c.toNat - (48 : Nat) := ⟨_, rfl⟩
  have hzero : '0'.toNat = 48 := rfl
  rw [addDigits, if_pos hrange, hzero, ← hd]
  dsimp only
  rw [bind_ok getNumberOfEntries_run, hl.numberOfEntries]
  by_cases hskip : d = 0 ∧ ds = []
  · obtain ⟨hdigit, rfl⟩ := hskip
    have hx : (0 : Int) = x := hvalue
    refine ⟨h, ps, [], d, ?_, ⟨hl, hdigits, hlead, ?_, fun _ => hdigit⟩, .refl this h ps⟩
    · rw [hdigit]
      rfl
    · show (0 : Int) = _
      omega
  · obtain ⟨h₁, p, hadd, hlist, hframe⟩ := addAt_spec hl d
    refine ⟨h₁, p :: ps, d :: ds, d, ?_, ⟨hlist, ?_, ?_, ?_, ?_⟩, hframe⟩
    · have hcond : (!(d == 0 && ds.length == 0)) = true := by
        simp only [Bool.not_eq_true', Bool.and_eq_false_iff, beq_eq_false_iff_ne, ne_eq,
          length_eq_zero_iff]
        exact Decidable.not_and_iff_not_or_not.mp hskip
      rw [if_pos hcond, bind_ok (discard_ok hadd)]
    · exact digits_cons.mpr ⟨by omega, hdigits⟩
    · cases ds with
      | nil =>
        intro hnil
        exact hskip ⟨some.inj hnil, rfl⟩
      | cons e ds =>
        rw [getLast?_cons_cons]
        exact hlead
    · rw [Numeral.value, hvalue]
      omega
    · exact fun hnil => absurd hnil (cons_ne_nil _ _)

theorem addDigits_run {cs : List Char} {digit : Int} (hr : Reading h this ps ds x digit)
    (hcs : ∀ c ∈ cs, c.isDigit) : ∃ h' ps' es digit', addDigits this cs digit h = .ok digit' h' ∧
      Reading h' this ps' es (Nat.ofDigitChars 10 cs x) digit' ∧ Frame this h ps h' ps' := by
  induction cs generalizing h ps ds x digit with
  | nil => exact ⟨h, ps, ds, digit, rfl, hr, .refl this h ps⟩
  | cons c cs ih =>
    obtain ⟨hc, hcs⟩ := forall_mem_cons.mp hcs
    obtain ⟨h₁, ps₁, ds₁, digit₁, hstep, hr₁, hframe₁⟩ :=
      addDigits_cons cs digit hr.list hr.digits hr.lead hr.value hc
    obtain ⟨h', ps', es, digit', hrun, hr', hframe⟩ := ih hr₁ hcs
    exact ⟨h', ps', es, digit', hstep.trans hrun, hr', hframe₁.trans hframe⟩

theorem ofString_run {s : String} (hs : IsNumeral s) (h : Heap Int) : ∃ h' ps' ds,
    ofString s h = .ok h.lists h' ∧ Holds h' h.lists ps' ds (decimal s) ∧
      Frame h.lists h [] h' ps' := by
  obtain ⟨hne, hcs⟩ := hs
  obtain ⟨c, cs, hs⟩ := exists_cons_of_ne_nil hne
  rw [hs] at hcs
  obtain ⟨hc, hcs⟩ := forall_mem_cons.mp hcs
  obtain ⟨h₀, hnew, hempty, hframe₀⟩ := newList_spec h
  have hnone : Digits 10 [] := fun _ hd => absurd hd not_mem_nil
  obtain ⟨h₁, ps₁, ds₁, digit₁, hstep, hr₁, hframe₁⟩ :=
    addDigits_cons (x := 0) cs (-1) hempty hnone (by decide) rfl hc
  obtain ⟨h', ps', ds, digit, hrun, hr, hframe⟩ := addDigits_run hr₁ hcs
  have hread := hframe₀.trans (hframe₁.trans hframe)
  unfold ofString decimal
  rw [bind_ok hnew, hs, bind_ok (hstep.trans hrun), Nat.ofDigitChars_cons]
  by_cases hds : ds = []
  · -- all digits are zeros
    subst hds
    obtain ⟨h₂, p, hadd, hlist, hframe₂⟩ := addAt_spec hr.list digit
    have hzero := hr.last rfl
    subst hzero
    refine ⟨h₂, _, _, ?_, ⟨hlist, canonical_zero (by decide), hr.value⟩, hread.trans hframe₂⟩
    rw [bind_ok getNumberOfEntries_run, hr.list.numberOfEntries, if_pos ⟨rfl, rfl⟩,
      bind_ok (discard_ok hadd)]
    rfl
  · have hcanonical : Canonical 10 ds := ⟨hds, hr.digits, fun hone => absurd hone hr.lead⟩
    refine ⟨h', ps', ds, ?_, ⟨hr.list, hcanonical, hr.value⟩, hread⟩
    have hlength : ¬ (digit = 0 ∧ ds.length = 0) := fun hboth =>
      hds (length_eq_zero_iff.mp hboth.2)
    rw [bind_ok getNumberOfEntries_run, hr.list.numberOfEntries, if_neg hlength]
    rfl

/-! ## Shifting -/

/-- Zeros in front are removed, if `this` is as long as `num`. -/
theorem removeZero_run (hl : IsList h num ps ds) (hdigits : Digits 10 ds) (hne : ds ≠ [])
    (hthis : (h.list this).numberOfEntries = ds.length) : ∃ h' ps' es,
      removeZero this num h = .ok num h' ∧ IsList h' num ps' es ∧ Frame num h ps h' ps' ∧
        Canonical 10 es ∧ value 10 es = value 10 ds := by
  obtain ⟨a, z, hfirst, hprev, hreads⟩ := hl.exists_reads_prev hne
  obtain ⟨hcanonical, hvalue⟩ := strip_spec hdigits hne
  have hpos := length_pos_iff.mpr hne
  have hcount := countZeros_run (n := ds.length - 1) hreads (by rw [length_reverse]; omega)
  obtain ⟨h', hshift, hlist, hframe⟩ :=
    rightShift_spec hl (leadingZeros (ds.length - 1) ds.reverse)
  rw [hl.length_eq] at hlist hframe
  refine ⟨h', _, _, ?_, hlist, hframe, hcanonical, hvalue⟩
  unfold removeZero
  rw [bind_ok getFirstNode_run, hfirst, bind_ok (getPrevNode_run a), hprev,
    bind_ok getNumberOfEntries_run, hthis, bind_ok hcount, bind_ok hshift]
  rfl

theorem multTenToThe_run (hx : Holds h this ps ds x) (n : Nat) : ∃ h' ps' es,
    multTenToThe this n h = .ok () h' ∧ Holds h' this ps' es (x * 10 ^ n) ∧
      Frame this h ps h' ps' := by
  obtain ⟨h₁, ps₁, hadd, hlist₁, hframe₁⟩ := addZeros_run hx.list n
  have hzeros : Digits 10 (List.replicate n (0 : Int)) := fun d hd => by
    rw [eq_of_mem_replicate hd]
    decide
  have hdigits := digits_append.mpr ⟨hzeros, hx.canonical.digits⟩
  have hne : List.replicate n (0 : Int) ++ ds ≠ [] := fun hnil =>
    hx.canonical.ne_nil (append_eq_nil_iff.mp hnil).2
  obtain ⟨h', ps', es, hremove, hlist, hframe, hcanonical, hvalue⟩ :=
    removeZero_run hlist₁ hdigits hne hlist₁.numberOfEntries
  refine ⟨h', ps', es, ?_, ⟨hlist, hcanonical, ?_⟩, hframe₁.trans hframe⟩
  · unfold multTenToThe
    rw [Int.toNat_natCast, bind_ok hadd, discard_ok hremove]
  · rw [hvalue, value_append, value_replicate_zero, length_replicate, hx.value]
    push_cast
    ring

theorem divTenToThe_run (hx : Holds h this ps ds x) (n : Nat) : ∃ h' ps' es,
    divTenToThe this n h = .ok () h' ∧ Holds h' this ps' es (x / 10 ^ n) ∧
      Frame this h ps h' ps' := by
  obtain ⟨h₁, hshift, hlist₁, hframe₁⟩ := leftShift_spec hx.list n
  have hvalue : value 10 (ds.drop n) = ((x / 10 ^ n : Nat) : Int) := by
    rw [hx.canonical.digits.value_drop (by decide), hx.value]
    push_cast
    rfl
  unfold divTenToThe
  rw [bind_ok hshift, bind_ok getFirstNode_run, hlist₁.list]
  rcases Nat.lt_or_ge n ds.length with hlt | hge
  · -- some digits are left
    obtain ⟨a, ha⟩ : ∃ a, (ps.drop n).head? = some a := by
      rw [head?_drop]
      exact ⟨_, List.getElem?_eq_getElem (hx.list.length_eq ▸ hlt)⟩
    refine ⟨h₁, _, _, ?_, ⟨hlist₁, hx.canonical.drop hlt, hvalue⟩, hframe₁⟩
    dsimp only
    rw [ha, if_neg (some_ne_none a)]
    rfl
  · have hps : ps.drop n = [] := drop_eq_nil_of_le (hx.list.length_eq ▸ hge)
    have hds : ds.drop n = [] := drop_eq_nil_of_le hge
    rw [hps, hds] at hlist₁
    rw [hps] at hframe₁ ⊢
    obtain ⟨h', p, hadd, hlist, hframe⟩ := Cs445.add_spec hlist₁ 0
    refine ⟨h', _, _, hadd, ⟨hlist, canonical_zero (by decide), ?_⟩, hframe₁.trans hframe⟩
    rw [← hvalue, hds]
    rfl

/-! ## Adding and subtracting -/

/-- What the two loops see: sums or differences of digits, then the digits that only the
longer operand has. -/
def rawDigits (op : Int → Int → Int) (ds es : List Int) : List Int :=
  zipWith op (ds.take es.length) es ++ ds.drop es.length

section

variable {op : Int → Int → Int} {adjust : Int → Bool → Int × Bool} {s : Int}

theorem length_rawDigits (hlen : es.length ≤ ds.length) :
    (rawDigits op ds es).length = ds.length := by
  unfold rawDigits
  rw [length_append, length_zipWith, length_take, length_drop]
  omega

theorem value_rawDigits (hop : ∀ x y, op x y = x + s * y) (hlen : es.length ≤ ds.length) :
    value 10 (rawDigits op ds es) = value 10 ds + s * value 10 es := by
  have htake : (ds.take es.length).length = es.length := length_take_of_le hlen
  have hsplit := value_append 10 (ds.take es.length) (ds.drop es.length)
  rw [take_append_drop, htake] at hsplit
  unfold rawDigits
  rw [value_append, value_zipWith hop htake, length_zipWith, htake, Nat.min_self, hsplit]
  ring

/-- The digits of the answer are in range if `adjust` brings every sum of digits into range. -/
theorem digits_rawDigits {c : Bool} {lo hi : Int} (hds : Digits 10 ds) (hes : Digits 10 es)
    (hlo : lo ≤ 0) (hhi : 9 ≤ hi)
    (hop : ∀ x y, 0 ≤ x ∧ x < 10 → 0 ≤ y ∧ y < 10 → lo ≤ op x y ∧ op x y ≤ hi)
    (hadjust : ∀ d c, lo ≤ d → d ≤ hi → 0 ≤ (adjust d c).1 ∧ (adjust d c).1 < 10) :
    Digits 10 (carryDigits adjust (rawDigits op ds es) c).1 := by
  refine digits_carryDigits fun d hd c => ?_
  rcases mem_append.mp hd with hd | hd
  · obtain ⟨i, hi', rfl⟩ := List.getElem_of_mem hd
    rw [List.getElem_zipWith]
    have hx := hds _ (mem_of_mem_take (List.getElem_mem (by
      rw [length_zipWith] at hi'
      omega : i < (ds.take es.length).length)))
    have hy := hes _ (List.getElem_mem (by
      rw [length_zipWith] at hi'
      omega : i < es.length))
    exact hadjust _ c (hop _ _ hx hy).1 (hop _ _ hx hy).2
  · have hd := hds d (mem_of_mem_drop hd)
    exact hadjust d c (by omega) (by omega)

/-- Both loops, for an answer that is empty at first. -/
theorem loops_run (op : Int → Int → Int) (adjust : Int → Bool → Int × Bool)
    (hx : IsList h this ps ds) (hy : IsList h rOp qs es) (hlen : es.length ≤ ds.length)
    (hans : IsList h ans [] []) : ∃ h₁ h' ps' cx c,
      pairLoop op adjust ans es.length (h.list this).firstNode (h.list rOp).firstNode false h =
        .ok (cx, c) h₁ ∧
      restLoop adjust ans (ds.length - es.length) cx c h₁ =
        .ok (carryDigits adjust (rawDigits op ds es) false).2 h' ∧
      IsList h' ans ps' (carryDigits adjust (rawDigits op ds es) false).1 ∧
      Frame ans h [] h' ps' := by
  have htake : (ds.take es.length).length = es.length := length_take_of_le hlen
  have hreads := hx.reads_next
  rw [← take_append_drop es.length ds] at hreads
  obtain ⟨h₁, ps₁, cx, hpair, hlist₁, hframe₁, hrest⟩ := pairLoop_run op adjust false htake hreads
    hy.reads_next hans (Nat.le_refl _) (fun _ hq => absurd hq not_mem_nil)
  obtain ⟨h', ps', hrun, hlist, hframe⟩ := restLoop_run adjust _ hrest hlist₁ hframe₁.nodes
     (owned_of_frame hframe₁ (Nat.le_refl _) fun _ hq => absurd hq not_mem_nil)
  have happend : carryDigits adjust (rawDigits op ds es) false = _ :=
    carryDigits_append (zipWith op (ds.take es.length) es) (ds.drop es.length) false
  refine ⟨h₁, h', ps', cx, _, hpair, ?_, ?_, hframe₁.trans hframe⟩
  · rw [length_drop] at hrun
    rw [hrun, happend]
  · rw [happend]
    exact hlist

end

theorem carrySum_eq (d : Int) (c : Bool) : carrySum d c =
    if d + c.toInt > 9 then (d + c.toInt - 10, true) else (d + c.toInt, false) := by
  cases c
  · have hzero : false.toInt = 0 := rfl
    rw [hzero, Int.add_zero]
    rfl
  · rfl

theorem borrowDiff_eq (d : Int) (c : Bool) : borrowDiff d c =
    if d - c.toInt < 0 then (d - c.toInt + 10, true) else (d - c.toInt, false) := by
  cases c
  · have hzero : false.toInt = 0 := rfl
    rw [hzero, Int.sub_zero]
    rfl
  · rfl

theorem toInt_range (c : Bool) : 0 ≤ c.toInt ∧ c.toInt ≤ 1 := by
  cases c <;> decide

theorem carrySum_adjust (d : Int) (c : Bool) :
    (carrySum d c).1 + 1 * 10 * (carrySum d c).2.toInt = d + 1 * c.toInt := by
  rw [carrySum_eq]
  split
  · show d + c.toInt - 10 + 1 * 10 * 1 = _
    ring
  · show d + c.toInt + 1 * 10 * 0 = _
    ring

theorem borrowDiff_adjust (d : Int) (c : Bool) :
    (borrowDiff d c).1 + -1 * 10 * (borrowDiff d c).2.toInt = d + -1 * c.toInt := by
  rw [borrowDiff_eq]
  split
  · show d - c.toInt + 10 + -1 * 10 * 1 = _
    ring
  · show d - c.toInt + -1 * 10 * 0 = _
    ring

theorem carrySum_range (d : Int) (c : Bool) (hlo : 0 ≤ d) (hhi : d ≤ 18) :
    0 ≤ (carrySum d c).1 ∧ (carrySum d c).1 < 10 := by
  have hc := toInt_range c
  rw [carrySum_eq]
  split <;> dsimp only <;> omega

theorem borrowDiff_range (d : Int) (c : Bool) (hlo : -9 ≤ d) (hhi : d ≤ 9) :
    0 ≤ (borrowDiff d c).1 ∧ (borrowDiff d c).1 < 10 := by
  have hc := toInt_range c
  rw [borrowDiff_eq]
  split <;> dsimp only <;> omega

/-- Of two numbers the one that is not smaller has not fewer digits. -/
theorem Holds.length_le (hx : Holds h this ps ds x) (hy : Holds h rOp qs es y) (hle : y ≤ x) :
    es.length ≤ ds.length := by
  by_contra hlt
  have hvalue := Canonical.lt_of_length_lt (by decide) hx.canonical.digits hx.canonical.ne_nil
    hy.canonical (Nat.lt_of_not_le hlt)
  rw [hx.value, hy.value] at hvalue
  omega

theorem addSmaller_run (hx : Holds h this ps ds x) (hy : Holds h rOp qs es y) (hle : y ≤ x)
    (hans : IsList h ans [] []) : ∃ h' ps' zs, addSmaller ans this rOp h = .ok ans h' ∧
      Holds h' ans ps' zs (x + y) ∧ Frame ans h [] h' ps' := by
  have hlen := hx.length_le hy hle
  obtain ⟨h₁, h₂, ps₂, cx, c, hpair, hrest, hlist, hframe⟩ :=
    loops_run (· + ·) carrySum hx.list hy.list hlen hans
  have hdigits : Digits 10 (carryDigits carrySum (rawDigits (· + ·) ds es) false).1 :=
    digits_rawDigits hx.canonical.digits hy.canonical.digits (by decide) (by decide : (9 : Int) ≤ 18)
      (fun x y hx hy => by omega) carrySum_range
  have hlength : (carryDigits carrySum (rawDigits (· + ·) ds es) false).1.length = ds.length := by
    rw [length_carryDigits, length_rawDigits hlen]
  have hraw : value 10 (rawDigits (· + ·) ds es) = x + 1 * y := by
    rw [value_rawDigits (s := 1) (fun x y => by ring) hlen, hx.value, hy.value]
  have hvalue : value 10 (carryDigits carrySum (rawDigits (· + ·) ds es) false).1 +
      1 * 10 ^ (rawDigits (· + ·) ds es).length *
        (carryDigits carrySum (rawDigits (· + ·) ds es) false).2.toInt =
      value 10 (rawDigits (· + ·) ds es) + 1 * false.toInt := value_carryDigits carrySum_adjust
  rw [hraw, length_rawDigits hlen, ← hlength] at hvalue
  unfold addSmaller
  rw [bind_ok getFirstNode_run, bind_ok getFirstNode_run, bind_ok getNumberOfEntries_run,
    bind_ok getNumberOfEntries_run, hx.list.numberOfEntries, hy.list.numberOfEntries,
    bind_ok hpair]
  dsimp only
  rw [bind_ok hrest]
  generalize carryDigits carrySum (rawDigits (· + ·) ds es) false = digits at *
  obtain ⟨zs, c'⟩ := digits
  dsimp only at *
  cases c' with
  | true =>
    have hfalse : false.toInt = 0 := rfl
    have htrue : true.toInt = 1 := rfl
    rw [hfalse, htrue] at hvalue
    obtain ⟨h', p, hadd, hlist', hframe'⟩ := Cs445.add_spec hlist 1
    refine ⟨h', _, _, ?_, ⟨hlist', ?_, ?_⟩, hframe.trans hframe'⟩
    · rw [if_pos rfl, bind_ok hadd]
      rfl
    · constructor
      · exact append_ne_nil_of_right_ne_nil _ (cons_ne_nil _ _)
      · exact digits_append.mpr ⟨hdigits, digits_singleton.mpr (by decide)⟩
      · rw [getLast?_concat]
        exact fun hone => absurd (some.inj hone) (by decide)
    · rw [value_concat]
      push_cast
      linarith
  | false =>
    have hfalse : false.toInt = 0 := rfl
    rw [hfalse] at hvalue
    have hsum : value 10 zs = ((x + y : Nat) : Int) := by
      push_cast
      linarith
    refine ⟨h₂, ps₂, zs, ?_, ⟨hlist, ?_, hsum⟩, hframe⟩
    · rw [if_neg (by decide)]
      rfl
    · -- the sum is at least the longer operand, which has no zero in front
      refine canonical_of_pow_le (by decide) hdigits ?_ fun hone => ?_
      · exact length_pos_iff.mp (hlength ▸ hx.length_pos)
      · have hpow := hx.canonical.pow_le_value (by decide) (hlength ▸ hone)
        rw [hx.value] at hpow
        rw [hsum, hlength]
        push_cast
        omega

theorem Holds.frame {other : Ref} {qs' : List Ptr} (hx : Holds h this ps ds x)
    (hframe : Frame other h qs h' qs') (hne : this ≠ other) (hdisjoint : ∀ p ∈ ps, p ∉ qs) :
    Holds h' this ps ds x :=
  ⟨hframe.isList hx.list hne hdisjoint, hx.canonical, hx.value⟩

/-- A new list does not disturb a number. -/
theorem Holds.newList (hx : Holds h this ps ds x) (hframe : Frame h.lists h [] h' ps') :
    Holds h' this ps ds x :=
  hx.frame hframe (Nat.ne_of_lt hx.list.lists) fun _ _ => not_mem_nil

theorem add_run (hx : Holds h this ps ds x) (hy : Holds h rOp qs es y) : ∃ h' ps' zs,
    add this rOp h = .ok h.lists h' ∧ Holds h' h.lists ps' zs (x + y) ∧
      Frame h.lists h [] h' ps' := by
  obtain ⟨h₁, hnew, hempty, hframe₁⟩ := newList_spec h
  have hx₁ := hx.newList hframe₁
  have hy₁ := hy.newList hframe₁
  unfold add
  rw [bind_ok hnew, bind_ok (compareTo_run hx₁ hy₁)]
  rcases Nat.lt_or_ge x y with hlt | hge
  · obtain ⟨h', ps', zs, hrun, hsum, hframe⟩ := addSmaller_run hy₁ hx₁ (Nat.le_of_lt hlt) hempty
    refine ⟨h', ps', zs, ?_, Nat.add_comm y x ▸ hsum, hframe₁.trans hframe⟩
    rw [Int.sign_eq_neg_one_of_neg (by omega), if_neg (by decide), hrun]
  · obtain ⟨h', ps', zs, hrun, hsum, hframe⟩ := addSmaller_run hx₁ hy₁ hge hempty
    refine ⟨h', ps', zs, ?_, hsum, hframe₁.trans hframe⟩
    have hsign : ((x : Int) - y).sign = 1 ∨ ((x : Int) - y).sign = 0 := by
      rcases Nat.eq_or_lt_of_le hge with heq | hgt
      · exact Or.inr (Int.sign_eq_zero_iff_zero.mpr (by omega))
      · exact Or.inl (Int.sign_eq_one_of_pos (by omega))
    rw [if_pos hsign, hrun]

/-- The first operand is the smaller one: nothing but an empty list was made. -/
theorem subtract_throws (hx : Holds h this ps ds x) (hy : Holds h rOp qs es y) (hlt : x < y) :
    ∃ h', subtract this rOp h = .error (.arithmetic "first term less than second term") h' ∧
      Frame h.lists h [] h' [] := by
  obtain ⟨h₁, hnew, -, hframe₁⟩ := newList_spec h
  refine ⟨h₁, ?_, hframe₁⟩
  unfold subtract
  rw [bind_ok hnew, bind_ok getFirstNode_run, bind_ok getFirstNode_run,
    bind_ok (compareTo_run (hx.newList hframe₁) (hy.newList hframe₁)),
    Int.sign_eq_neg_one_of_neg (by omega), if_pos rfl]
  rfl

theorem subtract_run (hx : Holds h this ps ds x) (hy : Holds h rOp qs es y) (hle : y ≤ x) :
    ∃ h' ps' zs, subtract this rOp h = .ok h.lists h' ∧ Holds h' h.lists ps' zs (x - y) ∧
      Frame h.lists h [] h' ps' := by
  obtain ⟨h₁, hnew, hempty, hframe₁⟩ := newList_spec h
  have hx₁ := hx.newList hframe₁
  have hy₁ := hy.newList hframe₁
  have hlen := hx.length_le hy hle
  obtain ⟨h₂, h₃, ps₃, cx, c, hpair, hrest, hlist, hframe₃⟩ :=
    loops_run (· - ·) borrowDiff hx₁.list hy₁.list hlen hempty
  have hdigits : Digits 10 (carryDigits borrowDiff (rawDigits (· - ·) ds es) false).1 :=
    digits_rawDigits hx.canonical.digits hy.canonical.digits (by decide : (-9 : Int) ≤ 0) (by decide)
      (fun x y hx hy => by omega) borrowDiff_range
  have hlength : (carryDigits borrowDiff (rawDigits (· - ·) ds es) false).1.length = ds.length := by
    rw [length_carryDigits, length_rawDigits hlen]
  have hraw : value 10 (rawDigits (· - ·) ds es) = x + -1 * y := by
    rw [value_rawDigits (s := -1) (fun x y => by ring) hlen, hx.value, hy.value]
  have hvalue : value 10 (carryDigits borrowDiff (rawDigits (· - ·) ds es) false).1 +
      -1 * 10 ^ (rawDigits (· - ·) ds es).length *
        (carryDigits borrowDiff (rawDigits (· - ·) ds es) false).2.toInt =
      value 10 (rawDigits (· - ·) ds es) + -1 * false.toInt := value_carryDigits borrowDiff_adjust
  rw [hraw, length_rawDigits hlen, ← hlength] at hvalue
  have hthis : (h₃.list this).numberOfEntries = ds.length := by
    rw [hframe₃.list this (Nat.ne_of_lt hx.list.lists)]
    exact hx₁.list.numberOfEntries
  generalize carryDigits borrowDiff (rawDigits (· - ·) ds es) false = digits at *
  obtain ⟨zs, c'⟩ := digits
  dsimp only at *
  -- nothing is borrowed from beyond the leading digit
  have hdiff : value 10 zs = ((x - y : Nat) : Int) := by
    have hbound := hdigits.value_lt (by decide)
    have hfalse : false.toInt = 0 := rfl
    have htrue : true.toInt = 1 := rfl
    rw [hfalse] at hvalue
    push_cast [hle]
    cases c' with
    | false =>
      rw [hfalse] at hvalue
      linarith
    | true =>
      rw [htrue] at hvalue
      have hle' : (y : Int) ≤ x := by exact_mod_cast hle
      linarith
  have hne : zs ≠ [] := length_pos_iff.mp (hlength ▸ hx.length_pos)
  obtain ⟨h', ps', es', hremove, hlist', hframe', hcanonical, hstrip⟩ :=
    removeZero_run hlist hdigits hne (hthis.trans hlength.symm)
  refine ⟨h', ps', es', ?_, ⟨hlist', hcanonical, hstrip.trans hdiff⟩,
    (hframe₁.trans hframe₃).trans hframe'⟩
  have hsign : ¬ ((x : Int) - y).sign = -1 := by
    rw [Int.sign_eq_neg_one_iff_neg]
    omega
  unfold subtract
  rw [bind_ok hnew, bind_ok getFirstNode_run, bind_ok getFirstNode_run,
    bind_ok (compareTo_run hx₁ hy₁), if_neg hsign, bind_ok getNumberOfEntries_run,
    bind_ok getNumberOfEntries_run, hx₁.list.numberOfEntries, hy₁.list.numberOfEntries,
    bind_ok hpair]
  dsimp only
  rw [bind_ok (discard_ok hrest), hremove]

end PittCs.Cs445.ReallyLongInt
