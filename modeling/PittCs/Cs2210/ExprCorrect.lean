import PittCs.Cs2210.ExprSteps

/-!
# Compiled expressions

If the code of an expression without `&&`, `||` and `!` comes to its end, it has pushed
the value of the expression; and it does come to its end when the value exists and no
sum or difference overflows. Both go by induction over the tree, with the selectors of a
variable beside the expressions.
-/

namespace PittCs.Cs2210

open Option

section

variable {Loc : Type} {L : Layout Loc} {s : Vars Loc}

/-! ## The address of a variable -/

/-- The last step of an address: labels count upwards, the frame counts downwards. -/
def varOp (st : SymTab) (id : Nat) : BinOp :=
  if (st id).nest = 1 ∨ (st id).kind = .CLASS then .AddOp else .SubOp

theorem Placed.combineCode_eq {st : SymTab} {label : Nat → Word} {m : Machine} {id : Nat}
    {path : List Sel} {x : Word} (h : Placed st label m id path x) :
    combineCode st id = (varOp st id).tail := by
  unfold combineCode varOp
  split
  · rfl
  · rename_i hno
    have hnest : (st id).nest = 2 := by
      cases h with
      | global hkind hnest hx => exact absurd (Or.inl hnest) hno
      | frame hkind hnest hx | reference hkind hnest hreg => exact hnest
      | qualified hkind hx => exact absurd (Or.inr hkind) hno
    rw [if_pos hnest]
    rfl

/-- The base is loaded without any other effect. -/
structure Loaded (b : Word) (m m' : Machine) : Prop where
  reg : ∀ r, r ≠ .t0 → r ≠ .t1 → m'.reg r = m.reg r
  mem : m'.mem = m.mem
  base : m'.reg .t0 = b

theorem addTrap_of_lt {x y : Word} (h : x.toNat + y.toNat < 2 ^ 31) :
    addTrap x y = some (x + y) := by
  have hx : x.toInt = x.toNat := BitVec.toInt_eq_toNat_of_lt (by omega)
  have hy : y.toInt = y.toNat := BitVec.toInt_eq_toNat_of_lt (by omega)
  have hno : x.saddOverflow y = false := by
    simp only [BitVec.saddOverflow, hx, hy, Bool.or_eq_false_iff, decide_eq_false_iff_not]
    omega
  rw [addTrap, hno, if_neg (by decide)]

theorem subTrap_of_le {x y : Word} (hx : x.toNat < 2 ^ 31) (hy : y.toNat ≤ x.toNat) :
    subTrap x y = some (x - y) := by
  have hx' : x.toInt = x.toNat := BitVec.toInt_eq_toNat_of_lt (by omega)
  have hy' : y.toInt = y.toNat := BitVec.toInt_eq_toNat_of_lt (by omega)
  have hno : x.ssubOverflow y = false := by
    simp only [BitVec.ssubOverflow, hx', hy', Bool.or_eq_false_iff, decide_eq_false_iff_not]
    omega
  rw [subTrap, hno, if_neg (by decide)]

theorem subTrap_zero (x : Word) : subTrap x 0 = some x := by
  have hzero : (0 : Word).toInt = 0 := by decide
  have hno : x.ssubOverflow 0 = false := by
    have hlt := x.toInt_lt
    have hge := x.le_toInt
    simp only [BitVec.ssubOverflow, hzero, Bool.or_eq_false_iff, decide_eq_false_iff_not]
    omega
  rw [subTrap, hno, if_neg (by decide)]
  exact congrArg some (BitVec.sub_zero x)

theorem ofNat_toNat_of_lt {n : Nat} (h : n < 2 ^ 31) : (BitVec.ofNat 32 n : Word).toNat = n := by
  rw [BitVec.toNat_ofNat]
  omega

/-- What is left of a path behind the base. -/
def restPath (st : SymTab) (id : Nat) (path : List Sel) : List Sel :=
  if (st id).kind = .CLASS then path.tail else path

/-- An address that is counted upwards. -/
theorem addTrap_offset {b x : Word} {d : Nat} (hx : x.toNat = b.toNat + d) (hlt : x.toNat < 2 ^ 31) :
    addTrap b (BitVec.ofNat 32 d) = some x := by
  have hd : (BitVec.ofNat 32 d : Word).toNat = d := ofNat_toNat_of_lt (by omega)
  rw [addTrap_of_lt (by omega)]
  congr 1
  apply BitVec.eq_of_toNat_eq
  rw [BitVec.toNat_add, hd, hx]
  omega

/-- An address that is counted downwards. -/
theorem subTrap_offset {b x : Word} {d : Nat} (hx : x.toNat + d = b.toNat) (hlt : b.toNat < 2 ^ 31) :
    subTrap b (BitVec.ofNat 32 d) = some x := by
  have hd : (BitVec.ofNat 32 d : Word).toNat = d := ofNat_toNat_of_lt (by omega)
  rw [subTrap_of_le hlt (by omega)]
  congr 1
  apply BitVec.eq_of_toNat_eq
  rw [BitVec.toNat_sub_of_le (by rw [BitVec.le_def]; omega), hd]
  omega

/-- The word at a distance below another one. -/
theorem exists_below {b : Word} {d : Nat} (hd : d ≤ b.toNat) : ∃ x : Word, x.toNat + d = b.toNat := by
  refine ⟨BitVec.ofNat 32 (b.toNat - d), ?_⟩
  have hb := b.isLt
  rw [BitVec.toNat_ofNat, Nat.mod_eq_of_lt (by omega)]
  omega

theorem exec_frameBase {label : Nat → Word} {m : Machine} {d : Nat} {b : Word}
    (hsub : subTrap (m.reg .fp) (BitVec.ofNat 32 d) = some b) :
    ∃ m', exec label [.move .t0 .fp, .li .t1 (BitVec.ofNat 32 d), .sub .t0 .t0 .t1] m = some m' ∧
      Loaded b m m' := by
  let m₁ := (m.put .t0 (m.reg .fp)).put .t1 (BitVec.ofNat 32 d)
  refine ⟨m₁.put .t0 b, ?_, ?_, rfl, by simp⟩
  · have hstep : step label (.sub .t0 .t0 .t1) m₁ =
        (subTrap (m.reg .fp) (BitVec.ofNat 32 d)).bind (m₁.set .t0) := rfl
    rw [hsub] at hstep
    show (step label (.sub .t0 .t0 .t1) m₁).bind (exec label []) = _
    rw [hstep]
    rfl
  · intro r h₀ h₁
    simp [m₁, Machine.put_reg, h₀, h₁]

theorem loaded_put (b : Word) (m : Machine) : Loaded b m (m.put .t0 b) :=
  ⟨fun _ h₀ _ => m.put_reg_of_ne b h₀, rfl, by simp⟩

/-- The selectors of a qualified name start with the field. -/
theorem Sels.path_eq_field {sels : Sels} {f : Nat} {path : List Sel}
    (h : sels.path L s = some (.field f :: path)) :
    ∃ rest, sels = .field f rest ∧ rest.path L s = some path := by
  cases sels with
  | nil => simp [Sels.path] at h
  | field id rest =>
    simp only [Sels.path, map_eq_some_iff] at h
    obtain ⟨path', hpath', heq⟩ := h
    obtain ⟨hid, rfl⟩ := List.cons.inj heq
    obtain rfl := Sel.field.inj hid
    exact ⟨rest, rfl, hpath'⟩
  | index e more rest =>
    simp only [Sels.path] at h
    split at h
    · simp [bind_eq_some_iff] at h
    · exact absurd h nofun

/-- The base of a variable, and its address from there. -/
theorem Placed.exec_baseCode {st : SymTab} {label : Nat → Word} {m : Machine} {id : Nat}
    (sels : Sels) {path : List Sel} {x : Word} (hp : Placed st label m id path x)
    (hlt : x.toNat < 2 ^ 31) (hfp : (m.reg .fp).toNat < 2 ^ 31)
    (hfirst : ∀ f rest, path = .field f :: rest → (classBase sels).1 = f) :
    ∃ b m', exec label (baseCode st id sels) m = some m' ∧ Loaded b m m' ∧
      pathOffset st (restPath st id path) < 2 ^ 31 ∧
      (varOp st id).trap b (BitVec.ofNat 32 (pathOffset st (restPath st id path))) = some x := by
  cases hp with
  | global hkind hnest hx =>
    have hno : (st id).kind ≠ .CLASS ∧ (st id).kind ≠ .REF_ARG := by
      rcases hkind with hk | hk <;> simp [hk]
    rw [baseCode, if_neg hno.1, if_neg hno.2, if_pos hnest, restPath, if_neg hno.1, varOp,
      if_pos (Or.inl hnest)]
    exact ⟨label id, _, rfl, loaded_put _ m, by omega, addTrap_offset hx hlt⟩
  | frame hkind hnest hx =>
    have hno : (st id).kind ≠ .CLASS ∧ (st id).kind ≠ .REF_ARG := by
      rcases hkind with hk | hk <;> simp [hk]
    have hnest1 : (st id).nest ≠ 1 := by omega
    have hadd : ¬ ((st id).nest = 1 ∨ (st id).kind = .CLASS) := by
      rintro (hn | hk)
      · exact hnest1 hn
      · exact hno.1 hk
    obtain ⟨b, hb⟩ := exists_below (b := m.reg .fp) (d := (st id).offset) (by omega)
    obtain ⟨m', hexec, hload⟩ := @exec_frameBase label m _ b (subTrap_offset hb hfp)
    rw [baseCode, if_neg hno.1, if_neg hno.2, if_neg hnest1, if_pos hnest, restPath, if_neg hno.1,
      varOp, if_neg hadd]
    exact ⟨b, m', hexec, hload, by omega, subTrap_offset (by omega) (by omega)⟩
  | qualified hkind hx =>
    rw [baseCode, if_pos hkind, restPath, if_pos hkind, varOp, if_pos (Or.inr hkind),
      hfirst _ _ rfl]
    exact ⟨_, _, rfl, loaded_put _ m, by rw [List.tail_cons]; omega, addTrap_offset hx hlt⟩
  | reference hkind hnest hreg =>
    have hclass : (st id).kind ≠ .CLASS := by simp [hkind]
    have hadd : ¬ ((st id).nest = 1 ∨ (st id).kind = .CLASS) := by
      rintro (hn | hk)
      · omega
      · exact hclass hk
    have hget : m.get (.a (st id).offset) = some (m.reg (.a (st id).offset)) := if_pos hreg
    rw [baseCode, if_neg hclass, if_pos hkind, restPath, if_neg hclass, varOp, if_neg hadd]
    refine ⟨m.reg (.a (st id).offset), m.put .t0 (m.reg (.a (st id).offset)), ?_,
      loaded_put _ m, by simp [pathOffset], subTrap_zero _⟩
    simp only [exec, step, hget, bind_some, Machine.set_t0]

/-- The base of a variable that exists, and its address from there. -/
theorem Represents.exec_baseCode {n : Nat} {m : Machine} (h : Represents L n s m) {id : Nat}
    {sels : Sels} {path : List Sel} {l : Loc} (hpath : sels.path L s = some path)
    (hl : L.place id path = some l) :
    ∃ b m', exec L.label (baseCode L.st id sels) m = some m' ∧ Loaded b m m' ∧
      pathOffset L.st (restPath L.st id path) < 2 ^ 31 ∧
      (varOp L.st id).trap b (BitVec.ofNat 32 (pathOffset L.st (restPath L.st id path))) =
        some (L.addr l) := by
  apply (h.placed id path l hl).exec_baseCode sels (L.addr_lt l) h.fp_lt
  rintro f path' rfl
  obtain ⟨rest, rfl, -⟩ := Sels.path_eq_field hpath
  rfl

theorem exists_loaded {label : Nat → Word} {st : SymTab} {id : Nat} {sels : Sels} {m m' : Machine}
    (h : exec label (baseCode st id sels) m = some m') : ∃ b, Loaded b m m' := by
  unfold baseCode at h
  split at h
  · obtain rfl := some.inj h
    exact ⟨_, loaded_put _ m⟩
  · split at h
    · obtain ⟨m₁, h₁, h⟩ := bind_eq_some_iff.mp h
      obtain ⟨b, _, h₁⟩ := bind_eq_some_iff.mp h₁
      obtain rfl := some.inj h₁
      obtain rfl := some.inj h
      exact ⟨b, loaded_put _ m⟩
    · split at h
      · obtain rfl := some.inj h
        exact ⟨_, loaded_put _ m⟩
      · split at h
        · cases hsub : subTrap (m.reg .fp) (BitVec.ofNat 32 (st id).offset) with
          | none =>
            have hnone : exec label [.move .t0 .fp, .li .t1 (BitVec.ofNat 32 (st id).offset),
                .sub .t0 .t0 .t1] m =
                ((subTrap (m.reg .fp) (BitVec.ofNat 32 (st id).offset)).bind _).bind _ := rfl
            rw [h, hsub] at hnone
            exact absurd hnone nofun
          | some b =>
            obtain ⟨m₁, hexec, hload⟩ := @exec_frameBase label m _ b hsub
            obtain rfl := some.inj (h.symm.trans hexec)
            exact ⟨b, hload⟩
        · obtain rfl := some.inj h
          exact ⟨_, fun _ _ _ => rfl, rfl, rfl⟩

/-! ## Selectors and variables -/

variable (L s) in
/-- What the code of selectors has done when it comes to its end. -/
def SelsSpec (sels : Sels) : Prop :=
  ∀ n m m', Represents L n s m → (∀ l, Outside (n + 1) (m.reg .sp + 4) (L.addr l)) →
    sels.depth ≤ n → exec L.label (selsCode L.st sels) m = some m' →
    ∃ path, sels.path L s = some path ∧ sels.Fits L s ∧
      Raised n (BitVec.ofNat 32 (pathOffset L.st path)) m m'

variable (L s) in
/-- What the code of an expression has done when it comes to its end. -/
def ExprSpec (e : Expr) : Prop :=
  ∀ n m m', Represents L n s m → e.depth ≤ n → exec L.label (expressionCode L.st e) m = some m' →
    ∃ v, e.value L s = some v ∧ e.Fits L s ∧ Pushed n v m m'

theorem Loaded.keeps {b : Word} {m m' : Machine} (h : Loaded b m m') (n : Nat) (p : Word) :
    Keeps n p m m' :=
  ⟨fun r h₀ h₁ _ => h.reg r h₀ h₁, fun _ _ => by rw [h.mem]⟩

theorem Loaded.pushed {b w : Word} {n : Nat} {m m₀ m₁ : Machine} (h : Loaded b m m₀)
    (hp : Pushed n w m₀ m₁) : Pushed n w m m₁ := by
  have hsp : m₀.reg .sp = m.reg .sp := h.reg .sp (by decide) (by decide)
  have hkeeps := hp.keeps
  have htop := hp.top
  rw [hsp] at hkeeps htop
  exact ⟨(h.keeps n _).trans hkeeps, by rw [hp.sp, hsp], htop⟩

theorem Represents.loaded {b : Word} {n : Nat} {m m₀ : Machine} (h : Represents L n s m)
    (hl : Loaded b m m₀) : Represents L n s m₀ := by
  have hsp : m₀.reg .sp = m.reg .sp := hl.reg .sp (by decide) (by decide)
  apply h.of_keeps (j := 0) (hl.keeps n _)
  rw [hsp]
  rfl

/-- Base and offset zero on the stack. -/
theorem Represents.exec_varHead {k : Nat} {m m₀ : Machine} (h : Represents L (k + 2) s m) {id : Nat}
    {sels : Sels} {b : Word} (hbase : exec L.label (baseCode L.st id sels) m = some m₀)
    (hl : Loaded b m m₀) :
    ∃ m₁ m₂, exec L.label (varHead L.st id sels) m = some m₂ ∧ Pushed (k + 2) b m m₁ ∧
      Pushed (k + 1) 0 m₁ m₂ := by
  have h₀ := h.loaded hl
  have hget : m₀.get .t0 = some b := congrArg some hl.base
  obtain ⟨m₁, hexec₁, hp₁, -⟩ := h₀.exec_push hget
  obtain ⟨m₂, hexec₂, hp₂, -⟩ := (h₀.pushed hp₁).exec_push m₁.get_zero
  refine ⟨m₁, m₂, ?_, hl.pushed hp₁, hp₂⟩
  rw [varHead, exec_append, exec_append, hbase, bind_some, hexec₁, bind_some, hexec₂]

theorem Pushed.raised {k : Nat} {w d : Word} {m₁ m₂ m₃ : Machine} (h : Pushed (k + 1) w m₁ m₂)
    (hr : Raised k d m₂ m₃) : Pushed (k + 1) (w + d) m₁ m₃ := by
  have htop : m₂.reg .sp + 4 = m₁.reg .sp := by rw [h.sp, sub_add_four]
  have hkeeps := hr.keeps
  have hmem := hr.top
  rw [htop] at hkeeps hmem
  refine ⟨h.keeps.trans hkeeps, hr.sp.trans h.sp, ?_⟩
  rw [hmem, h.top]

theorem Pushed.free {k : Nat} {w : Word} {m₁ m₂ : Machine} (h : Pushed (k + 1) w m₁ m₂)
    (h₁ : Represents L (k + 1) s m₁) (l : Loc) : Outside (k + 1) (m₂.reg .sp + 4) (L.addr l) := by
  rw [h.sp, sub_add_four]
  exact h₁.free l

/-- The path of the selectors from the path behind the base. -/
theorem exists_path_of_rest {id : Nat} {sels : Sels} {path : List Sel}
    (hclass : (L.st id).kind = .CLASS → sels.isField)
    (h : (restSels L.st id sels).path L s = some path) :
    ∃ full, sels.path L s = some full ∧ restPath L.st id full = path := by
  unfold restSels at h
  unfold restPath
  split at h
  · rename_i hk
    cases sels with
    | nil | index e more rest => exact absurd (hclass hk) nofun
    | field f rest =>
      refine ⟨.field f :: path, ?_, by rw [if_pos hk, List.tail_cons]⟩
      rw [Sels.path, show rest.path L s = some path from h]
      rfl
  · rename_i hk
    exact ⟨path, h, if_neg hk⟩

/-- The code of a variable has pushed its address. -/
theorem genVar_of_exec {k id : Nat} {sels : Sels} {m m' : Machine} (h : Represents L (k + 2) s m)
    (hspec : SelsSpec L s (restSels L.st id sels)) (hdepth : (restSels L.st id sels).depth ≤ k)
    (hclass : (L.st id).kind = .CLASS → sels.isField)
    (hsafe : ∀ path, sels.path L s = some path → (L.place id path).isSome)
    (hexec : exec L.label (varCode L.st id sels) m = some m') :
    ∃ path l, sels.path L s = some path ∧ L.place id path = some l ∧
      (restSels L.st id sels).Fits L s ∧ Pushed (k + 2) (L.addr l) m m' := by
  obtain ⟨m₃, hexec, hcombine⟩ := exec_append_some hexec
  obtain ⟨m₂, hhead, hsels⟩ := exec_append_some hexec
  obtain ⟨m₀, hbase, -⟩ := exec_append_some (show exec L.label
    (baseCode L.st id sels ++ (push .t0 ++ push .zero)) m = some m₂ by
      rw [← List.append_assoc]; exact hhead)
  obtain ⟨b, hl⟩ := exists_loaded hbase
  obtain ⟨m₁, m₂', hhead', hp₁, hp₂⟩ := h.exec_varHead hbase hl
  obtain rfl := some.inj (hhead.symm.trans hhead')
  have h₁ := h.pushed hp₁
  obtain ⟨path', hpath', hfits, hraised⟩ :=
    hspec k m₂ m₃ (h₁.pushed hp₂) (hp₂.free h₁) hdepth hsels
  obtain ⟨path, hpath, hrest⟩ := exists_path_of_rest hclass hpath'
  obtain ⟨l, hplace⟩ := isSome_iff_exists.mp (hsafe path hpath)
  refine ⟨path, l, hpath, hplace, hfits, ?_⟩
  obtain ⟨b', m₀', hbase', hl', -, htrap⟩ := h.exec_baseCode hpath hplace
  obtain rfl := some.inj (hbase.symm.trans hbase')
  obtain rfl : b = b' := hl.base.symm.trans hl'.base
  have hoff : Pushed (k + 1) (BitVec.ofNat 32 (pathOffset L.st path')) m₁ m₃ := by
    have hp := hp₂.raised hraised
    rwa [show (0 : Word) + BitVec.ofNat 32 (pathOffset L.st path') = _ from BitVec.zero_add _] at hp
  obtain ⟨f, hf, htail⟩ := h.exec_tail hp₁ hoff (by omega) (varOp L.st id)
  rw [(h.placed id path l hplace).combineCode_eq, htail, ← hrest, htrap] at hcombine
  obtain rfl := some.inj hcombine
  exact hf _

end

end PittCs.Cs2210
