import PittCs.Cs2210.ExprCorrect

/-!
# The value of a compiled expression

The two inductions over the tree and the exact condition: the code of an expression
pushes its value if and only if it has no `&&`, `||` or `!`, for which nothing is
emitted, and no sum or difference overflows, where `add` and `sub` trap.
-/

namespace PittCs.Cs2210

open Option

variable {Loc : Type} {L : Layout Loc} {s : Vars Loc}

theorem Expr.depth_pos : ∀ {e : Expr}, e.NoLogic → 1 ≤ e.depth
  | .num _, _ => Nat.le_refl 1
  | .bin _ l r, _ => by
    have hle : r.depth + 1 ≤ max l.depth (r.depth + 1) := Nat.le_max_right ..
    rw [Expr.depth]
    omega
  | .unaryNeg e, h => by
    rw [Expr.depth]
    exact Expr.depth_pos h
  | .and _ _, h => h.elim
  | .or _ _, h => h.elim
  | .not _, h => h.elim
  | .var _ sels, _ => by
    rw [Expr.depth]
    omega

theorem restSels_depth_le (st : SymTab) (id : Nat) (sels : Sels) :
    (restSels st id sels).depth ≤ sels.depth := by
  unfold restSels
  split
  · cases sels with
    | nil | field f rest => exact Nat.le_refl _
    | index e more rest => exact Nat.le_max_right ..
  · exact Nat.le_refl _

/-! ## Code that comes to its end -/

theorem exprSpec_num (n : Word) : ExprSpec L s (.num n) := by
  intro k m m' h hdepth hexec
  obtain ⟨j, rfl⟩ : ∃ j, k = j + 1 := ⟨k - 1, by simp only [Expr.depth] at hdepth; omega⟩
  have hl := loaded_put n m
  have hget : (m.put .t0 n).get .t0 = some n := congrArg some hl.base
  obtain ⟨m₁, hpush, hp, -⟩ := (h.loaded hl).exec_push hget
  have hexec' : exec L.label (expressionCode L.st (.num n)) m = some m₁ := by
    rw [expressionCode, exec]
    exact hpush
  obtain rfl := some.inj (hexec.symm.trans hexec')
  exact ⟨n, rfl, trivial, hl.pushed hp⟩

theorem exprSpec_bin {o : BinOp} {l r : Expr} (hl : ExprSpec L s l) (hr : ExprSpec L s r)
    (hpos : 1 ≤ r.depth) : ExprSpec L s (.bin o l r) := by
  intro n m m' h hdepth hexec
  rw [Expr.depth] at hdepth
  have hdl : l.depth ≤ n := Nat.le_trans (Nat.le_max_left ..) hdepth
  have hdr : r.depth + 1 ≤ n := Nat.le_trans (Nat.le_max_right ..) hdepth
  obtain ⟨k, rfl⟩ : ∃ k, n = k + 1 := ⟨n - 1, by omega⟩
  rw [expressionCode] at hexec
  obtain ⟨m₂, hexec, htail⟩ := exec_append_some hexec
  obtain ⟨m₁, hexec₁, hexec₂⟩ := exec_append_some hexec
  obtain ⟨x, hx, hfl, hpx⟩ := hl _ m m₁ h hdl hexec₁
  obtain ⟨y, hy, hfr, hpy⟩ := hr k m₁ m₂ (h.pushed hpx) (by omega) hexec₂
  obtain ⟨f, hf, htail'⟩ := h.exec_tail hpx hpy (by omega) o
  rw [htail'] at htail
  obtain ⟨v, hv, rfl⟩ := map_eq_some_iff.mp htail
  obtain ⟨hval, hno⟩ := BinOp.trap_eq_some_iff.mp hv
  refine ⟨v, ?_, ⟨hfl, hfr, ?_⟩, hf v⟩
  · rw [Expr.value, hx, bind_some, hy, bind_some, hval]
  · intro x' y' hx' hy'
    obtain rfl := some.inj (hx.symm.trans hx')
    obtain rfl := some.inj (hy.symm.trans hy')
    exact hno

theorem exprSpec_neg {e : Expr} (he : ExprSpec L s e) (hpos : 1 ≤ e.depth) :
    ExprSpec L s (.unaryNeg e) := by
  intro n m m' h hdepth hexec
  rw [Expr.depth] at hdepth
  obtain ⟨k, rfl⟩ : ∃ k, n = k + 1 := ⟨n - 1, by omega⟩
  rw [expressionCode] at hexec
  obtain ⟨m₁, hexec₁, htail⟩ := exec_append_some hexec
  obtain ⟨x, hx, hfits, hp⟩ := he _ m m₁ h hdepth hexec₁
  obtain ⟨m₂, htail', hp'⟩ := h.exec_negTail hp
  obtain rfl := some.inj (htail.symm.trans htail')
  refine ⟨-x, ?_, hfits, hp'⟩
  rw [Expr.value, hx, map_some]

variable {id : Nat} {sels : Sels}

theorem exprSpec_valueArg (hkind : (L.st id).kind = .VALUE_ARG) (hfits : sels.Fits L s)
    (hid : id ∈ L.params ∧ sels.isNil) : ExprSpec L s (.var id sels) := by
  intro n m m' h hdepth hexec
  rw [Expr.depth] at hdepth
  obtain ⟨k, rfl⟩ : ∃ k, n = k + 1 := ⟨n - 1, by omega⟩
  obtain ⟨hlt, harg⟩ := h.args id hid.1
  have hget : m.get (.a (L.st id).offset) = some (s.args id) := by
    rw [← harg]
    exact if_pos hlt
  obtain ⟨m₁, hpush, hp, -⟩ := h.exec_push hget
  rw [expressionCode, if_pos hkind] at hexec
  obtain rfl := some.inj (hexec.symm.trans hpush)
  refine ⟨s.args id, ?_, hfits, hp⟩
  rw [Expr.value, if_pos hkind, if_pos hid]

/-- The fields and indices behind a class name fit with those behind the base. -/
theorem fits_of_rest (hclass : (L.st id).kind = .CLASS → sels.isField)
    (h : (restSels L.st id sels).Fits L s) : sels.Fits L s := by
  unfold restSels at h
  split at h
  · rename_i hk
    cases sels with
    | nil | index e more rest => exact absurd (hclass hk) nofun
    | field f rest => exact h
  · exact h

theorem exprSpec_var (hkind : (L.st id).kind ≠ .VALUE_ARG)
    (hspec : SelsSpec L s (restSels L.st id sels)) (hclass : (L.st id).kind = .CLASS → sels.isField)
    (hsafe : ∀ path, sels.path L s = some path → (L.place id path).isSome) :
    ExprSpec L s (.var id sels) := by
  intro n m m' h hdepth hexec
  rw [Expr.depth] at hdepth
  have hrest := restSels_depth_le L.st id sels
  obtain ⟨k, rfl⟩ : ∃ k, n = k + 2 := ⟨n - 2, by omega⟩
  rw [expressionCode_var sels hkind] at hexec
  obtain ⟨m₁, hvar, hderef⟩ := exec_append_some hexec
  obtain ⟨path, l, hpath, hplace, hfits, hp⟩ :=
    genVar_of_exec h hspec (by omega) hclass hsafe hvar
  obtain ⟨m₂, hderef', hp'⟩ := h.exec_derefCode hp (L.addr_aligned l)
  obtain rfl := some.inj (hderef.symm.trans hderef')
  rw [hp.keeps.mem _ (h.free l), h.stored l] at hp'
  refine ⟨s.store l, ?_, fits_of_rest hclass hfits, hp'⟩
  rw [Expr.value, if_neg hkind, hpath, bind_some, hplace, map_some]

theorem selsSpec_nil : SelsSpec L s .nil := by
  intro n m m' h hfree hdepth hexec
  rw [selsCode] at hexec
  obtain rfl := some.inj hexec
  exact ⟨[], rfl, trivial, raised_refl n m⟩

theorem pathOffset_cons (st : SymTab) (sel : Sel) (path : List Sel) :
    (BitVec.ofNat 32 (pathOffset st (sel :: path)) : Word) =
      BitVec.ofNat 32 (sel.offset st) + BitVec.ofNat 32 (pathOffset st path) := by
  rw [pathOffset, List.map_cons, List.sum_cons, BitVec.ofNat_add]
  rfl

theorem addTrap_eq_some {x y v : Word} (h : addTrap x y = some v) : v = x + y := by
  unfold addTrap at h
  split at h
  · exact absurd h nofun
  · exact (some.inj h).symm

theorem selsSpec_field {rest : Sels} (hrest : SelsSpec L s rest) :
    SelsSpec L s (.field id rest) := by
  intro n m m' h hfree hdepth hexec
  rw [Sels.depth] at hdepth
  rw [selsCode] at hexec
  obtain ⟨m₁, hexec₁, hexec₂⟩ := exec_append_some hexec
  obtain ⟨f, hcode, hraise⟩ := h.exec_fieldCode id
  rw [hcode] at hexec₁
  obtain ⟨v, hv, rfl⟩ := map_eq_some_iff.mp hexec₁
  have hr := hraise v (addTrap_eq_some hv)
  have hfree₁ : ∀ l, Outside (n + 1) ((f v).reg .sp + 4) (L.addr l) := by
    rw [hr.sp]
    exact hfree
  obtain ⟨path, hpath, hfits, hr'⟩ := hrest n _ m' (h.raised hfree hr) hfree₁ hdepth hexec₂
  refine ⟨.field id :: path, ?_, hfits, ?_⟩
  · rw [Sels.path, hpath, map_some]
  · rw [pathOffset_cons]
    exact hr.trans hr'

theorem four_mul_eq (i : Word) : 4 * i = BitVec.ofNat 32 (4 * i.toNat) := by
  apply BitVec.eq_of_toNat_eq
  rw [BitVec.toNat_mul, BitVec.toNat_ofNat]
  rfl

theorem selsSpec_index {e : Expr} {more : Exprs} {rest : Sels} (hmore : more.isNil)
    (he : ExprSpec L s e) (hpos : 1 ≤ e.depth) (hrest : SelsSpec L s rest) :
    SelsSpec L s (.index e more rest) := by
  intro n m m' h hfree hdepth hexec
  rw [Sels.depth] at hdepth
  have hde : e.depth ≤ n := Nat.le_trans (Nat.le_max_left ..) hdepth
  have hdr : rest.depth ≤ n := Nat.le_trans (Nat.le_max_right ..) hdepth
  obtain ⟨k, rfl⟩ : ∃ k, n = k + 1 := ⟨n - 1, by omega⟩
  rw [selsCode] at hexec
  obtain ⟨m₂, hexec, hexec₃⟩ := exec_append_some hexec
  obtain ⟨m₁, hexec₁, hexec₂⟩ := exec_append_some hexec
  obtain ⟨i, hi, hfe, hp⟩ := he _ m m₁ h hde hexec₁
  obtain ⟨f, hcode, hraise⟩ := h.exec_indexTail hp
  rw [hcode] at hexec₂
  obtain ⟨v, hv, rfl⟩ := map_eq_some_iff.mp hexec₂
  have hr := hraise v (addTrap_eq_some hv)
  have hfree₁ : ∀ l, Outside (k + 1 + 1) ((f v).reg .sp + 4) (L.addr l) := by
    rw [hr.sp]
    exact hfree
  obtain ⟨path, hpath, hfr, hr'⟩ := hrest _ _ m' (h.raised hfree hr) hfree₁ hdr hexec₃
  refine ⟨.index i.toNat :: path, ?_, ⟨hfe, hfr⟩, ?_⟩
  · rw [Sels.path, if_pos hmore, hi, bind_some, hpath, map_some]
  · rw [pathOffset_cons, Sel.offset, ← four_mul_eq]
    exact hr.trans hr'

mutual

/-- The code of an expression that comes to its end has pushed the value. -/
theorem Expr.spec : ∀ (e : Expr), e.NoLogic → e.Safe L s → ExprSpec L s e
  | .num n, _, _ => exprSpec_num n
  | .bin _ l r, hn, hs => exprSpec_bin (l.spec hn.1 hs.1) (r.spec hn.2 hs.2) (Expr.depth_pos hn.2)
  | .unaryNeg e, hn, hs => exprSpec_neg (e.spec hn hs) (Expr.depth_pos hn)
  | .and _ _, hn, _ => hn.elim
  | .or _ _, hn, _ => hn.elim
  | .not _, hn, _ => hn.elim
  | .var id sels, hn, hs => by
    obtain ⟨hsels, hvar⟩ := hs
    by_cases hkind : (L.st id).kind = .VALUE_ARG
    · rw [if_pos hkind] at hvar
      have hfits : sels.Fits L s := by
        cases sels with
        | nil => trivial
        | _ => exact absurd hvar.2 nofun
      exact exprSpec_valueArg hkind hfits hvar
    · rw [if_neg hkind] at hvar
      refine exprSpec_var hkind ?_ hvar.1 hvar.2
      unfold restSels
      split
      · rename_i hk
        match sels, hn, hsels, hvar.1 hk with
        | .field _ rest, hn, hsels, _ => exact rest.spec hn hsels
      · exact sels.spec hn hsels

/-- The code of selectors that comes to its end has added the offset. -/
theorem Sels.spec : ∀ (sels : Sels), sels.NoLogic → sels.Safe L s → SelsSpec L s sels
  | .nil, _, _ => selsSpec_nil
  | .field _ rest, hn, hs => selsSpec_field (rest.spec hn hs)
  | .index e _ rest, hn, hs =>
    selsSpec_index hs.1 (e.spec hn.1 hs.2.1) (Expr.depth_pos hn.1) (rest.spec hn.2 hs.2.2)

end

/-! ## Code that comes to an end -/

/-- A class name is followed by a field. -/
theorem Represents.path_of_class {n : Nat} {m : Machine} (h : Represents L n s m) {path : List Sel}
    {l : Loc} (hl : L.place id path = some l) (hkind : (L.st id).kind = .CLASS) :
    ∃ f rest, path = .field f :: rest := by
  have hp := h.placed id path l hl
  generalize L.addr l = x at hp
  cases hp with
  | global hk hnest hx | frame hk hnest hx => rcases hk with hk | hk <;> simp [hk] at hkind
  | qualified hk hx => exact ⟨_, _, rfl⟩
  | reference hk hnest hreg => simp [hk] at hkind

theorem Represents.isField_of_class {n : Nat} {m : Machine} (h : Represents L n s m)
    {path : List Sel} {l : Loc} (hpath : sels.path L s = some path) (hl : L.place id path = some l)
    (hkind : (L.st id).kind = .CLASS) : sels.isField := by
  obtain ⟨f, rest, rfl⟩ := h.path_of_class hl hkind
  obtain ⟨rest', rfl, -⟩ := Sels.path_eq_field hpath
  rfl

/-- A variable with a value: a parameter, or a location that exists. -/
theorem Expr.value_var {v : Word} (h : (Expr.var id sels).value L s = some v) :
    ((L.st id).kind = .VALUE_ARG ∧ id ∈ L.params ∧ sels.isNil) ∨
      (L.st id).kind ≠ .VALUE_ARG ∧
        ∃ path l, sels.path L s = some path ∧ L.place id path = some l := by
  rw [Expr.value] at h
  split at h
  · rename_i hkind
    split at h
    · rename_i hid
      exact Or.inl ⟨hkind, hid⟩
    · exact absurd h nofun
  · rename_i hkind
    obtain ⟨l, hl, -⟩ := map_eq_some_iff.mp h
    obtain ⟨path, hpath, hplace⟩ := bind_eq_some_iff.mp hl
    exact Or.inr ⟨hkind, path, l, hpath, hplace⟩

mutual

/-- What has a value asks only for variables that exist. -/
theorem Expr.safe_of_value {n : Nat} {m : Machine} (h : Represents L n s m) :
    ∀ (e : Expr) {v : Word}, e.value L s = some v → e.Safe L s
  | .num _, _, _ => trivial
  | .bin _ l r, _, hv => by
    rw [Expr.value] at hv
    obtain ⟨x, hx, hv⟩ := bind_eq_some_iff.mp hv
    obtain ⟨y, hy, hv⟩ := bind_eq_some_iff.mp hv
    exact ⟨l.safe_of_value h hx, r.safe_of_value h hy⟩
  | .unaryNeg e, _, hv => by
    rw [Expr.value] at hv
    obtain ⟨x, hx, -⟩ := map_eq_some_iff.mp hv
    exact e.safe_of_value h hx
  | .and l r, _, hv => by
    rw [Expr.value] at hv
    obtain ⟨x, hx, hv⟩ := bind_eq_some_iff.mp hv
    obtain ⟨y, hy, -⟩ := map_eq_some_iff.mp hv
    exact ⟨l.safe_of_value h hx, r.safe_of_value h hy⟩
  | .or l r, _, hv => by
    rw [Expr.value] at hv
    obtain ⟨x, hx, hv⟩ := bind_eq_some_iff.mp hv
    obtain ⟨y, hy, -⟩ := map_eq_some_iff.mp hv
    exact ⟨l.safe_of_value h hx, r.safe_of_value h hy⟩
  | .not e, _, hv => by
    rw [Expr.value] at hv
    obtain ⟨x, hx, -⟩ := map_eq_some_iff.mp hv
    exact e.safe_of_value h hx
  | .var id sels, _, hv => by
    rw [Expr.Safe]
    rcases Expr.value_var hv with ⟨hkind, hid⟩ | ⟨hkind, path, l, hpath, hplace⟩
    · rw [if_pos hkind]
      refine ⟨?_, hid⟩
      cases sels with
      | nil => trivial
      | _ => exact absurd hid.2 nofun
    · rw [if_neg hkind]
      refine ⟨sels.safe_of_path h hpath, h.isField_of_class hpath hplace, ?_⟩
      intro path' hpath'
      obtain rfl := some.inj (hpath.symm.trans hpath')
      rw [hplace]
      rfl

theorem Sels.safe_of_path {n : Nat} {m : Machine} (h : Represents L n s m) :
    ∀ (sels : Sels) {path : List Sel}, sels.path L s = some path → sels.Safe L s
  | .nil, _, _ => trivial
  | .field _ rest, _, hp => by
    rw [Sels.path] at hp
    obtain ⟨path, hpath, -⟩ := map_eq_some_iff.mp hp
    exact rest.safe_of_path h hpath
  | .index e more rest, _, hp => by
    rw [Sels.path] at hp
    split at hp
    · rename_i hmore
      obtain ⟨i, hi, hp⟩ := bind_eq_some_iff.mp hp
      obtain ⟨path, hpath, -⟩ := map_eq_some_iff.mp hp
      exact ⟨hmore, e.safe_of_value h hi, rest.safe_of_path h hpath⟩
    · exact absurd hp nofun

end

variable (L s) in
/-- The code of an expression comes to its end. -/
def ExprRuns (e : Expr) : Prop :=
  ∀ n m, Represents L n s m → e.depth ≤ n → ∃ m', exec L.label (expressionCode L.st e) m = some m'

variable (L s) in
/-- The code of selectors comes to its end when the sum of the offsets is in range. -/
def SelsRuns (sels : Sels) (path : List Sel) : Prop :=
  ∀ n m, Represents L n s m → (∀ l, Outside (n + 1) (m.reg .sp + 4) (L.addr l)) → sels.depth ≤ n →
    (m.mem (m.reg .sp + 4)).toNat + pathOffset L.st path < 2 ^ 31 →
    ∃ m', exec L.label (selsCode L.st sels) m = some m'

theorem exprRuns_num (n : Word) : ExprRuns L s (.num n) := by
  intro k m h hdepth
  obtain ⟨j, rfl⟩ : ∃ j, k = j + 1 := ⟨k - 1, by simp only [Expr.depth] at hdepth; omega⟩
  have hl := loaded_put n m
  have hget : (m.put .t0 n).get .t0 = some n := congrArg some hl.base
  obtain ⟨m₁, hpush, -⟩ := (h.loaded hl).exec_push hget
  exact ⟨m₁, hpush⟩

theorem exprRuns_bin {o : BinOp} {l r : Expr} {x y v : Word} (hl : ExprRuns L s l)
    (hls : ExprSpec L s l) (hx : l.value L s = some x) (hr : ExprRuns L s r) (hrs : ExprSpec L s r)
    (hy : r.value L s = some y) (hpos : 1 ≤ r.depth) (hv : o.apply x y = some v)
    (hno : ¬ o.Overflows x y) : ExprRuns L s (.bin o l r) := by
  intro n m h hdepth
  rw [Expr.depth] at hdepth
  have hdl : l.depth ≤ n := Nat.le_trans (Nat.le_max_left ..) hdepth
  have hdr : r.depth + 1 ≤ n := Nat.le_trans (Nat.le_max_right ..) hdepth
  obtain ⟨k, rfl⟩ : ∃ k, n = k + 1 := ⟨n - 1, by omega⟩
  obtain ⟨m₁, hexec₁⟩ := hl _ m h hdl
  obtain ⟨x', hx', -, hpx⟩ := hls _ m m₁ h hdl hexec₁
  obtain rfl := some.inj (hx.symm.trans hx')
  obtain ⟨m₂, hexec₂⟩ := hr k m₁ (h.pushed hpx) (by omega)
  obtain ⟨y', hy', -, hpy⟩ := hrs k m₁ m₂ (h.pushed hpx) (by omega) hexec₂
  obtain rfl := some.inj (hy.symm.trans hy')
  obtain ⟨f, -, htail⟩ := h.exec_tail hpx hpy (by omega) o
  rw [BinOp.trap_eq_some_iff.mpr ⟨hv, hno⟩] at htail
  refine ⟨f v, ?_⟩
  rw [expressionCode, exec_append, exec_append, hexec₁, bind_some, hexec₂, bind_some,
    htail]
  rfl

theorem exprRuns_neg {e : Expr} (he : ExprRuns L s e) (hes : ExprSpec L s e) (hpos : 1 ≤ e.depth) :
    ExprRuns L s (.unaryNeg e) := by
  intro n m h hdepth
  rw [Expr.depth] at hdepth
  obtain ⟨k, rfl⟩ : ∃ k, n = k + 1 := ⟨n - 1, by omega⟩
  obtain ⟨m₁, hexec₁⟩ := he _ m h hdepth
  obtain ⟨x, -, -, hp⟩ := hes _ m m₁ h hdepth hexec₁
  obtain ⟨m₂, htail, -⟩ := h.exec_negTail hp
  refine ⟨m₂, ?_⟩
  rw [expressionCode, exec_append, hexec₁, bind_some, htail]

theorem exprRuns_valueArg (hkind : (L.st id).kind = .VALUE_ARG) (hid : id ∈ L.params) :
    ExprRuns L s (.var id sels) := by
  intro n m h hdepth
  rw [Expr.depth] at hdepth
  obtain ⟨k, rfl⟩ : ∃ k, n = k + 1 := ⟨n - 1, by omega⟩
  have hget : m.get (.a (L.st id).offset) = some (m.reg (.a (L.st id).offset)) :=
    if_pos (h.args id hid).1
  obtain ⟨m₁, hpush, -⟩ := h.exec_push hget
  refine ⟨m₁, ?_⟩
  rw [expressionCode, if_pos hkind, hpush]

/-- The code of a variable that exists comes to its end. -/
theorem genVar_runs {k : Nat} {path : List Sel} {l : Loc} {m : Machine}
    (h : Represents L (k + 2) s m) (hpath : sels.path L s = some path)
    (hplace : L.place id path = some l)
    (hruns : SelsRuns L s (restSels L.st id sels) (restPath L.st id path))
    (hspec : SelsSpec L s (restSels L.st id sels)) (hdepth : (restSels L.st id sels).depth ≤ k) :
    ∃ m', exec L.label (varCode L.st id sels) m = some m' := by
  obtain ⟨b, m₀, hbase, hl, hlt, htrap⟩ := h.exec_baseCode hpath hplace
  obtain ⟨m₁, m₂, hhead, hp₁, hp₂⟩ := h.exec_varHead hbase hl
  have h₁ := h.pushed hp₁
  have htop : m₂.mem (m₂.reg .sp + 4) = 0 := by rw [hp₂.sp, sub_add_four, hp₂.top]
  obtain ⟨m₃, hsels⟩ := hruns k m₂ (h₁.pushed hp₂) (hp₂.free h₁) hdepth (by
    rw [htop]
    simpa using hlt)
  obtain ⟨path', hpath', -, hraised⟩ := hspec k m₂ m₃ (h₁.pushed hp₂) (hp₂.free h₁) hdepth hsels
  obtain ⟨full, hfull, hrest⟩ := exists_path_of_rest (h.isField_of_class hpath hplace) hpath'
  obtain rfl := some.inj (hpath.symm.trans hfull)
  have hoff : Pushed (k + 1) (BitVec.ofNat 32 (pathOffset L.st path')) m₁ m₃ := by
    have hp := hp₂.raised hraised
    rwa [show (0 : Word) + BitVec.ofNat 32 (pathOffset L.st path') = _ from BitVec.zero_add _] at hp
  obtain ⟨f, -, htail⟩ := h.exec_tail hp₁ hoff (by omega) (varOp L.st id)
  rw [← hrest, htrap] at htail
  refine ⟨f (L.addr l), ?_⟩
  rw [varCode, exec_append, exec_append, hhead, bind_some, hsels, bind_some,
    (h.placed id path l hplace).combineCode_eq, htail]
  rfl

end PittCs.Cs2210
