import PittCs.Cs2210.ExprValue

/-!
# When a compiled expression pushes its value

The code of an expression with a value pushes it if and only if the expression has no
`&&`, `||` or `!` and no sum or difference overflows. An operator without a case leaves
the stack pointer one word too high, which no other piece of code makes up for.
-/

namespace PittCs.Cs2210

open Option

variable {Loc : Type} {L : Layout Loc} {s : Vars Loc}

/-! ## Code that comes to its end -/

theorem exprRuns_var {id : Nat} {sels : Sels} {path : List Sel} {l : Loc}
    (hkind : (L.st id).kind ≠ .VALUE_ARG) (hpath : sels.path L s = some path)
    (hplace : L.place id path = some l)
    (hruns : SelsRuns L s (restSels L.st id sels) (restPath L.st id path))
    (hspec : SelsSpec L s (restSels L.st id sels)) : ExprRuns L s (.var id sels) := by
  intro n m h hdepth
  rw [Expr.depth] at hdepth
  have hrest := restSels_depth_le L.st id sels
  obtain ⟨k, rfl⟩ : ∃ k, n = k + 2 := ⟨n - 2, by omega⟩
  obtain ⟨m₁, hvar⟩ := genVar_runs h hpath hplace hruns hspec (by omega)
  have hsafe : ∀ path', sels.path L s = some path' → (L.place id path').isSome := by
    intro path' hpath'
    obtain rfl := some.inj (hpath.symm.trans hpath')
    rw [hplace]
    rfl
  obtain ⟨_, l', _, _, _, hp⟩ :=
    genVar_of_exec h hspec (by omega) (h.isField_of_class hpath hplace) hsafe hvar
  obtain ⟨m₂, hderef, -⟩ := h.exec_derefCode hp (L.addr_aligned l')
  refine ⟨m₂, ?_⟩
  rw [expressionCode_var sels hkind, exec_append, hvar, bind_some, hderef]

theorem selsRuns_nil : SelsRuns L s .nil [] := by
  intro n m h hfree hdepth hlt
  exact ⟨m, by rw [selsCode, exec]⟩

theorem pathOffset_cons_nat (st : SymTab) (sel : Sel) (path : List Sel) :
    pathOffset st (sel :: path) = sel.offset st + pathOffset st path := by
  rw [pathOffset, List.map_cons, List.sum_cons, pathOffset]

/-- The top after an offset in range was added. -/
theorem Raised.top_toNat {n d : Nat} {m m' : Machine} (h : Raised n (BitVec.ofNat 32 d) m m')
    (hlt : (m.mem (m.reg .sp + 4)).toNat + d < 2 ^ 31) :
    (m'.mem (m'.reg .sp + 4)).toNat = (m.mem (m.reg .sp + 4)).toNat + d := by
  rw [h.sp, h.top, BitVec.toNat_add, ofNat_toNat_of_lt (by omega)]
  omega

theorem selsRuns_field {id : Nat} {rest : Sels} {path : List Sel} (hrest : SelsRuns L s rest path) :
    SelsRuns L s (.field id rest) (.field id :: path) := by
  intro n m h hfree hdepth hlt
  rw [Sels.depth] at hdepth
  rw [pathOffset_cons_nat, Sel.offset] at hlt
  obtain ⟨f, hcode, hraise⟩ := h.exec_fieldCode id
  have hoff : (BitVec.ofNat 32 (L.st id).offset : Word).toNat = (L.st id).offset :=
    ofNat_toNat_of_lt (by omega)
  rw [addTrap_of_lt (by omega), map_some] at hcode
  have hr := hraise _ rfl
  have hfree₁ : ∀ l, Outside (n + 1) ((f (m.mem (m.reg .sp + 4) +
      BitVec.ofNat 32 (L.st id).offset)).reg .sp + 4) (L.addr l) := by
    rw [hr.sp]
    exact hfree
  obtain ⟨m', hexec⟩ := hrest n _ (h.raised hfree hr) hfree₁ hdepth (by
    rw [hr.top_toNat (by omega)]
    omega)
  refine ⟨m', ?_⟩
  rw [selsCode, exec_append, hcode, bind_some, hexec]

theorem selsRuns_index {e : Expr} {more : Exprs} {rest : Sels} {i : Word} {path : List Sel}
    (he : ExprRuns L s e) (hes : ExprSpec L s e) (hi : e.value L s = some i) (hpos : 1 ≤ e.depth)
    (hrest : SelsRuns L s rest path) : SelsRuns L s (.index e more rest) (.index i.toNat :: path) := by
  intro n m h hfree hdepth hlt
  rw [Sels.depth] at hdepth
  rw [pathOffset_cons_nat, Sel.offset] at hlt
  have hde : e.depth ≤ n := Nat.le_trans (Nat.le_max_left ..) hdepth
  have hdr : rest.depth ≤ n := Nat.le_trans (Nat.le_max_right ..) hdepth
  obtain ⟨k, rfl⟩ : ∃ k, n = k + 1 := ⟨n - 1, by omega⟩
  obtain ⟨m₁, hexec₁⟩ := he _ m h hde
  obtain ⟨i', hi', -, hp⟩ := hes _ m m₁ h hde hexec₁
  obtain rfl := some.inj (hi.symm.trans hi')
  obtain ⟨f, hcode, hraise⟩ := h.exec_indexTail hp
  rw [four_mul_eq] at hcode hraise
  have hoff : (BitVec.ofNat 32 (4 * i.toNat) : Word).toNat = 4 * i.toNat :=
    ofNat_toNat_of_lt (by omega)
  rw [addTrap_of_lt (by omega), map_some] at hcode
  have hr := hraise _ rfl
  have hfree₁ : ∀ l, Outside (k + 1 + 1) ((f (m.mem (m.reg .sp + 4) +
      BitVec.ofNat 32 (4 * i.toNat))).reg .sp + 4) (L.addr l) := by
    rw [hr.sp]
    exact hfree
  obtain ⟨m', hexec⟩ := hrest _ _ (h.raised hfree hr) hfree₁ hdr (by
    rw [hr.top_toNat (by omega)]
    omega)
  refine ⟨m', ?_⟩
  rw [selsCode, exec_append, exec_append, hexec₁, bind_some, hcode, bind_some, hexec]

theorem Represents.safe_sels {n : Nat} {m : Machine} (h : Represents L n s m) {id : Nat}
    {sels : Sels} {path : List Sel} (hpath : sels.path L s = some path) :
    (restSels L.st id sels).Safe L s := by
  have hsafe := sels.safe_of_path h hpath
  unfold restSels
  split
  · cases sels with
    | nil => trivial
    | field f rest => exact hsafe
    | index e more rest => exact hsafe.2.2
  · exact hsafe

mutual

/-- The code of an expression with a value in range comes to its end. -/
theorem Expr.runs {n₀ : Nat} {m₀ : Machine} (h₀ : Represents L n₀ s m₀) :
    ∀ (e : Expr) {v : Word}, e.NoLogic → e.Fits L s → e.value L s = some v → ExprRuns L s e
  | .num n, _, _, _, _ => exprRuns_num n
  | .bin o l r, v, hn, hf, hv => by
    rw [Expr.value] at hv
    obtain ⟨x, hx, hv⟩ := bind_eq_some_iff.mp hv
    obtain ⟨y, hy, hv⟩ := bind_eq_some_iff.mp hv
    exact exprRuns_bin (l.runs h₀ hn.1 hf.1 hx) (l.spec hn.1 (l.safe_of_value h₀ hx)) hx
      (r.runs h₀ hn.2 hf.2.1 hy) (r.spec hn.2 (r.safe_of_value h₀ hy)) hy (Expr.depth_pos hn.2) hv
      (hf.2.2 x y hx hy)
  | .unaryNeg e, v, hn, hf, hv => by
    rw [Expr.value] at hv
    obtain ⟨x, hx, -⟩ := map_eq_some_iff.mp hv
    exact exprRuns_neg (e.runs h₀ hn hf hx) (e.spec hn (e.safe_of_value h₀ hx)) (Expr.depth_pos hn)
  | .and _ _, _, hn, _, _ => hn.elim
  | .or _ _, _, hn, _, _ => hn.elim
  | .not _, _, hn, _, _ => hn.elim
  | .var id sels, v, hn, hf, hv => by
    rcases Expr.value_var hv with ⟨hkind, hid⟩ | ⟨hkind, path, l, hpath, hplace⟩
    · exact exprRuns_valueArg hkind hid.1
    · refine exprRuns_var hkind hpath hplace ?_ ?_
      · unfold restSels restPath
        split
        · rename_i hk
          match sels, hn, hf, hpath, h₀.isField_of_class hpath hplace hk with
          | .field f rest, hn, hf, hpath, _ =>
            rw [Sels.path] at hpath
            obtain ⟨path', hpath', rfl⟩ := map_eq_some_iff.mp hpath
            exact rest.runs h₀ hn hf hpath'
        · exact sels.runs h₀ hn hf hpath
      · refine Sels.spec _ ?_ (h₀.safe_sels hpath)
        unfold restSels
        split
        · match sels, hn with
          | .nil, _ => trivial
          | .field f rest, hn => exact hn
          | .index e more rest, hn => exact hn.2
        · exact hn

theorem Sels.runs {n₀ : Nat} {m₀ : Machine} (h₀ : Represents L n₀ s m₀) :
    ∀ (sels : Sels) {path : List Sel}, sels.NoLogic → sels.Fits L s →
      sels.path L s = some path → SelsRuns L s sels path
  | .nil, _, _, _, hp => by
    rw [Sels.path] at hp
    obtain rfl := some.inj hp
    exact selsRuns_nil
  | .field id rest, _, hn, hf, hp => by
    rw [Sels.path] at hp
    obtain ⟨path, hpath, rfl⟩ := map_eq_some_iff.mp hp
    exact selsRuns_field (rest.runs h₀ hn hf hpath)
  | .index e more rest, _, hn, hf, hp => by
    rw [Sels.path] at hp
    split at hp
    · obtain ⟨i, hi, hp⟩ := bind_eq_some_iff.mp hp
      obtain ⟨path, hpath, rfl⟩ := map_eq_some_iff.mp hp
      exact selsRuns_index (e.runs h₀ hn.1 hf.1 hi) (e.spec hn.1 (e.safe_of_value h₀ hi)) hi
        (Expr.depth_pos hn.1) (rest.runs h₀ hn.2 hf.2 hpath)
    · exact absurd hp nofun

end

/-! ## The stack pointer -/

theorem BinOp.shift_tail (o : BinOp) : shift o.tail = some 4 := by
  cases o <;> rfl

theorem shift_push (r : Reg) : shift (push r) = some (-4) := rfl

theorem shift_baseCode (st : SymTab) (id : Nat) (sels : Sels) :
    shift (baseCode st id sels) = some 0 := by
  unfold baseCode
  split
  · rfl
  · split
    · rfl
    · split
      · rfl
      · split <;> rfl

theorem shift_varHead (st : SymTab) (id : Nat) (sels : Sels) :
    shift (varHead st id sels) = some (-8) :=
  shift_append (shift_append (shift_baseCode st id sels) (shift_push .t0)) (shift_push .zero)

mutual

/-- Expressions move the stack pointer down by at most one word, and those with an
operator that has no case by less. -/
theorem Expr.shift_spec {n : Nat} {m : Machine} (h : Represents L n s m) :
    ∀ (e : Expr) {v : Word}, e.value L s = some v →
      ∃ x, shift (expressionCode L.st e) = some x ∧ -4 ≤ x ∧ (x = -4 → e.NoLogic)
  | .num n, _, _ => ⟨-4, by rw [expressionCode]; rfl, by decide, fun _ => trivial⟩
  | .bin o l r, _, hv => by
    rw [Expr.value] at hv
    obtain ⟨x, hx, hv⟩ := bind_eq_some_iff.mp hv
    obtain ⟨y, hy, -⟩ := bind_eq_some_iff.mp hv
    obtain ⟨a, ha, hal, han⟩ := l.shift_spec h hx
    obtain ⟨b, hb, hbl, hbn⟩ := r.shift_spec h hy
    refine ⟨a + b + 4, ?_, by omega, fun hab => ⟨han (by omega), hbn (by omega)⟩⟩
    rw [expressionCode]
    exact shift_append (shift_append ha hb) o.shift_tail
  | .unaryNeg e, _, hv => by
    rw [Expr.value] at hv
    obtain ⟨x, hx, -⟩ := map_eq_some_iff.mp hv
    obtain ⟨a, ha, hal, han⟩ := e.shift_spec h hx
    refine ⟨a + 0, ?_, by omega, fun hab => han (by omega)⟩
    rw [expressionCode]
    exact shift_append ha rfl
  -- nothing is emitted for these three
  | .and _ _, _, _ => ⟨0, by rw [expressionCode]; rfl, by decide, fun h0 => absurd h0 (by decide)⟩
  | .or _ _, _, _ => ⟨0, by rw [expressionCode]; rfl, by decide, fun h0 => absurd h0 (by decide)⟩
  | .not _, _, _ => ⟨0, by rw [expressionCode]; rfl, by decide, fun h0 => absurd h0 (by decide)⟩
  | .var id sels, _, hv => by
    rcases Expr.value_var hv with ⟨hkind, hid⟩ | ⟨hkind, path, l, hpath, hplace⟩
    · refine ⟨-4, by rw [expressionCode, if_pos hkind, shift_push], by decide, fun _ => ?_⟩
      cases sels with
      | nil => trivial
      | _ => exact absurd hid.2 nofun
    · have hsels : ∃ x, shift (selsCode L.st (restSels L.st id sels)) = some x ∧ 0 ≤ x ∧
          (x = 0 → sels.NoLogic) := by
        unfold restSels
        split
        · rename_i hk
          match sels, hpath, h.isField_of_class hpath hplace hk with
          | .field f rest, hpath, _ =>
            rw [Sels.path] at hpath
            obtain ⟨path', hpath', -⟩ := map_eq_some_iff.mp hpath
            exact rest.shift_spec h hpath'
        · exact sels.shift_spec h hpath
      obtain ⟨x, hx, hle, hn⟩ := hsels
      refine ⟨-8 + x + 4 + 0, ?_, by omega, fun hx4 => hn (by omega)⟩
      rw [expressionCode_var sels hkind, varCode, (h.placed id path l hplace).combineCode_eq]
      exact shift_append (shift_append (shift_append (shift_varHead L.st id sels) hx)
        (BinOp.shift_tail _)) rfl

theorem Sels.shift_spec {n : Nat} {m : Machine} (h : Represents L n s m) :
    ∀ (sels : Sels) {path : List Sel}, sels.path L s = some path →
      ∃ x, shift (selsCode L.st sels) = some x ∧ 0 ≤ x ∧ (x = 0 → sels.NoLogic)
  | .nil, _, _ => ⟨0, by rw [selsCode]; rfl, by decide, fun _ => trivial⟩
  | .field id rest, _, hp => by
    rw [Sels.path] at hp
    obtain ⟨path, hpath, -⟩ := map_eq_some_iff.mp hp
    obtain ⟨x, hx, hle, hn⟩ := rest.shift_spec h hpath
    refine ⟨0 + x, ?_, by omega, fun hx0 => hn (by omega)⟩
    rw [selsCode]
    exact shift_append rfl hx
  | .index e more rest, _, hp => by
    rw [Sels.path] at hp
    split at hp
    · obtain ⟨i, hi, hp⟩ := bind_eq_some_iff.mp hp
      obtain ⟨path, hpath, -⟩ := map_eq_some_iff.mp hp
      obtain ⟨a, ha, hal, han⟩ := e.shift_spec h hi
      obtain ⟨x, hx, hle, hn⟩ := rest.shift_spec h hpath
      refine ⟨a + 4 + x, ?_, by omega, fun hax => ⟨han (by omega), hn (by omega)⟩⟩
      rw [selsCode]
      exact shift_append (shift_append ha rfl) hx
    · exact absurd hp nofun

end

/-! ## The exact condition -/

/-- One word was pushed, and the frame, the arguments, the variables and the stack above
are as before. -/
structure PushesValue (L : Layout Loc) (v : Word) (m m' : Machine) : Prop where
  sp : m'.reg .sp = m.reg .sp - 4
  top : m'.mem (m.reg .sp) = v
  fp : m'.reg .fp = m.reg .fp
  args : ∀ i, m'.reg (.a i) = m.reg (.a i)
  vars : ∀ l, m'.mem (L.addr l) = m.mem (L.addr l)
  above : ∀ x, (m.reg .sp).toNat < x.toNat → m'.mem x = m.mem x

theorem Pushed.pushesValue {n : Nat} {v : Word} {m m' : Machine} (h : Represents L n s m)
    (hp : Pushed n v m m') : PushesValue L v m m' where
  sp := hp.sp
  top := hp.top
  fp := hp.keeps.reg .fp (by decide) (by decide) (by decide)
  args i := hp.keeps.reg (.a i) (by simp) (by simp) (by simp)
  vars l := hp.keeps.mem _ (h.free l)
  above x hx := hp.keeps.mem x (Or.inl hx)

theorem toInt_sub_four {p : Word} (h : p.toNat < 2 ^ 31) : (p - 4).toInt = p.toInt - 4 :=
  addTrap_toInt (addTrap_neg_four h)

/-- A word is pushed by the code of an expression with a value if and only if it is the
value, there is no operator without a case and no sum or difference overflows. -/
theorem pushes_iff {n : Nat} {m : Machine} {e : Expr} {v c : Word} (h : Represents L n s m)
    (hdepth : e.depth ≤ n) (hv : e.value L s = some v) :
    (∃ m', exec L.label (expressionCode L.st e) m = some m' ∧ PushesValue L c m m') ↔
      (e.NoLogic ∧ e.Fits L s) ∧ c = v := by
  have hsafe := e.safe_of_value h hv
  constructor
  · rintro ⟨m', hexec, hp⟩
    obtain ⟨x, hx, -, hn⟩ := e.shift_spec h hv
    have hsp := exec_shift hexec hx
    rw [hp.sp, toInt_sub_four h.sp_lt] at hsp
    have hno : e.NoLogic := hn (by omega)
    obtain ⟨v', hv', hfits, hp'⟩ := e.spec hno hsafe n m m' h hdepth hexec
    refine ⟨⟨hno, hfits⟩, ?_⟩
    rw [← hp.top, (hp'.pushesValue h).top]
    exact some.inj (hv'.symm.trans hv)
  · rintro ⟨⟨hno, hfits⟩, hc⟩
    obtain ⟨m', hexec⟩ := e.runs h hno hfits hv n m h hdepth
    obtain ⟨v', hv', -, hp⟩ := e.spec hno hsafe n m m' h hdepth hexec
    rw [hc, some.inj (hv.symm.trans hv')]
    exact ⟨m', hexec, hp.pushesValue h⟩

/-- The code of an expression with a value is emitted and, run in a frame with enough
free stack, pushes the value if and only if the names in the expression fit their
buffer, there is no operator without a case and no sum or difference that overflows. -/
theorem genExpression_pushes_iff {n : Nat} {m : Machine} {e : Expr} {v : Word}
    (h : Represents L n s m) (hdepth : e.depth ≤ n) (hv : e.value L s = some v) :
    (∃ code, genExpression L.st e = some code ∧
      ∃ m', exec L.label code m = some m' ∧ PushesValue L v m m') ↔
      e.NamesFit L.st ∧ e.NoLogic ∧ e.Fits L s :=
  exists_genExpression_iff.trans
    (and_congr_right fun _ => (pushes_iff h hdepth hv).trans (and_iff_left rfl))

/-! ## One global variable -/

/-- One integer variable `x` of a class, with symbol 5. -/
def oneGlobal : Layout Unit where
  st _ := { name := [120], kind := .VAR, nest := 1, offset := 0 }
  label _ := 0x10010000
  addr _ := 0x10010000
  place id path := if id = 5 ∧ path = [] then some () else none
  params := []
  addr_inj := fun _ _ _ => rfl
  addr_aligned _ := by decide
  addr_lt _ := by decide
  reg_inj := by simp

/-- The variable holds 7, the stack starts below `0x7ffff000`. -/
def oneGlobalMachine : Machine where
  reg r := if r = .sp then 0x7fffeffc else 0x7ffff000
  lo := 0
  mem _ := 7

theorem oneGlobal_represents {n : Nat} (hn : n ≤ 1024) :
    Represents oneGlobal n ⟨fun _ => 7, fun _ => 0⟩ oneGlobalMachine := by
  have hsp : (oneGlobalMachine.reg .sp).toNat = 0x7fffeffc := by decide
  refine ⟨?_, by decide, by decide, by decide, fun _ => rfl, ?_, ?_, by simp [oneGlobal]⟩
  · omega
  · intro l
    right
    rw [hsp, show (oneGlobal.addr l).toNat = 0x10010000 from rfl]
    omega
  · intro id path l hl
    have hpath : path = [] := by
      by_contra hne
      have hnone : oneGlobal.place id path = none := if_neg fun h => hne h.2
      rw [hnone] at hl
      exact absurd hl nofun
    subst hpath
    exact .global (Or.inl rfl) rfl rfl

/-- `x + 2`. -/
theorem genExpression_pushes_iff_sum :
    ∃ code, genExpression oneGlobal.st (.bin .AddOp (.var 5 .nil) (.num 2)) = some code ∧
      ∃ m', exec oneGlobal.label code oneGlobalMachine = some m' ∧
        PushesValue oneGlobal 9 oneGlobalMachine m' := by
  refine (genExpression_pushes_iff (n := 2) (oneGlobal_represents (by decide)) (by decide)
    rfl).mpr ⟨by decide, ⟨trivial, trivial⟩, trivial, trivial, ?_⟩
  intro x y hx hy
  obtain rfl : 7 = x := some.inj hx
  obtain rfl : 2 = y := some.inj hy
  change ¬ (7 : Word).saddOverflow 2 = true
  decide

/-- For `1 && 1` nothing is emitted. -/
theorem not_genExpression_pushes :
    ∃ (e : Expr) (n : Nat) (v : Word),
      Represents oneGlobal n ⟨fun _ => 7, fun _ => 0⟩ oneGlobalMachine ∧ e.depth ≤ n ∧
        e.value oneGlobal ⟨fun _ => 7, fun _ => 0⟩ = some v ∧
        ¬ ∃ code, genExpression oneGlobal.st e = some code ∧
          ∃ m', exec oneGlobal.label code oneGlobalMachine = some m' ∧
            PushesValue oneGlobal v oneGlobalMachine m' := by
  refine ⟨.and (.num 1) (.num 1), 2, 1, oneGlobal_represents (by decide), by decide, rfl, ?_⟩
  rintro ⟨code, hcode, m', hexec, hp⟩
  obtain rfl : [] = code := some.inj hcode
  obtain rfl := some.inj hexec
  exact absurd hp.sp (by decide)

end PittCs.Cs2210
