import PittCs.CacheLab.Trace

/-!
# Two accesses in a row

After an access the line with the address is in its set, under the low 32 bits of the
tag. The next access compares them with the whole tag.
-/

namespace PittCs.CacheLab

open PittCs.Lib List Option

/-- `accessData`, where a shift by 64 bits or more is undefined. -/
def shiftedAccess (s b : Nat) (c : Csim) (addr : UInt64) : Option Csim :=
  if s + b < 64 then accessData s b c addr else none

/-- What an access finds. -/
def outcome (s b : Nat) (c : Csim) (addr : UInt64) : Option Lru.Outcome :=
  (c.sets[(setVal s b addr).toNat]?).map fun lines =>
    (accessSet (tagVal s b addr) c.lruCounter lines).2

/-- After the accesses `before` the address is accessed twice, and the second access is a
hit. -/
def SecondAccessHits (s b E : Nat) (before : List UInt64) (addr : UInt64) : Prop :=
  ∃ S c c₁, numSets s = some S ∧ before.foldlM (shiftedAccess s b) (initCache S E) = some c ∧
    shiftedAccess s b c addr = some c₁ ∧ outcome s b c₁ addr = some .hit

/-! ## One set -/

section AccessSet

variable {tagVal lruCounter : UInt64} {lines : List Line}

theorem hit_iff : (accessSet tagVal lruCounter lines).2 = .hit ↔
    ∃ line ∈ lines, line.valid = true ∧ line.tag.toUInt64 = tagVal := by
  rcases search_spec tagVal lines 0 ⟨true, none⟩ with
    ⟨-, ⟨hnone, hmiss⟩ | ⟨j, line, hhit, hj, hvalid, htag⟩⟩
  · refine iff_of_false ?_ fun ⟨line, hline, hvalid, htag⟩ => hmiss line hline hvalid htag
    unfold accessSet
    dsimp only
    rw [hnone]
    dsimp only
    split
    · exact fun h => Lru.Outcome.noConfusion h
    · exact fun h => Lru.Outcome.noConfusion h
  · refine iff_of_true ?_ ⟨line, mem_of_getElem? hj, hvalid, htag⟩
    unfold accessSet
    dsimp only
    rw [hhit]

theorem mem_fill {new : Line} (hroom : ∃ line ∈ lines, line.valid = false) : new ∈ fill new lines := by
  induction lines with
  | nil =>
    rcases hroom with ⟨line, hline, -⟩
    cases hline
  | cons line rest ih =>
    unfold fill
    by_cases hvalid : line.valid = false
    · rw [if_pos hvalid]
      exact mem_cons_self
    · rw [if_neg hvalid]
      refine mem_cons_of_mem _ (ih ?_)
      rcases hroom with ⟨x, hx, hinvalid⟩
      rcases mem_cons.mp hx with heq | hx
      · exact absurd (heq ▸ hinvalid) hvalid
      · exact ⟨x, hx, hinvalid⟩

theorem length_accessSet : (accessSet tagVal lruCounter lines).1.length = lines.length := by
  unfold accessSet
  dsimp only
  split
  · exact length_modify _ _ _
  · split
    · exact length_fill _ _
    · exact length_modify _ _ _

theorem lowest_lt (hne : lines ≠ []) (lowVal : UInt32) :
    lowest lines 0 lowVal 0 < lines.length := by
  rcases lowest_spec lines 0 lowVal 0 with ⟨hsame, -⟩ | ⟨j, line, hindex, hj, -⟩
  · rw [hsame]
    exact length_pos_iff.mpr hne
  · rw [hindex, Nat.zero_add]
    exact (List.getElem?_eq_some_iff.mp hj).1

theorem mem_modify {j : Nat} (hj : j < lines.length) (f : Line → Line) :
    f lines[j] ∈ lines.modify j f := by
  refine mem_of_getElem? (i := j) ?_
  rw [List.getElem?_modify_eq, List.getElem?_eq_getElem hj]
  rfl

/-- A line of the set is valid and has the low bits of the tag. -/
theorem exists_line_accessSet (hne : lines ≠ []) : ∃ line ∈ (accessSet tagVal lruCounter lines).1,
    line.valid = true ∧ line.tag = tagVal.toUInt32 := by
  rcases search_spec tagVal lines 0 ⟨true, none⟩ with
    ⟨hfull, ⟨hnone, -⟩ | ⟨j, line, hhit, hj, hvalid, htag⟩⟩
  · unfold accessSet
    dsimp only
    rw [hnone, hfull, Bool.true_and]
    dsimp only
    by_cases hroom : lines.all Line.valid = false
    · rw [if_pos hroom]
      have hinvalid : ∃ line ∈ lines, line.valid = false := by simpa using hroom
      exact ⟨_, mem_fill hinvalid, rfl, rfl⟩
    · -- all lines are valid, so the one that is replaced is too
      rw [if_neg hroom]
      have hall : ∀ line ∈ lines, line.valid = true := by simpa using hroom
      have hlt := lowest_lt hne lruCounter.toUInt32
      have hvalid := hall _ (List.getElem_mem hlt)
      exact ⟨_, mem_modify hlt _, hvalid, rfl⟩
  · unfold accessSet
    dsimp only
    rw [hhit, Nat.zero_add]
    dsimp only
    rcases List.getElem?_eq_some_iff.mp hj with ⟨hlt, hline⟩
    refine ⟨_, mem_modify hlt _, ?_, ?_⟩
    · dsimp only
      rw [hline, hvalid]
    · dsimp only
      rw [hline, ← htag, UInt32.toUInt32_toUInt64]

/-- The second access compares the low bits with the tag. -/
theorem second_hit_iff (hne : lines ≠ []) (lruCounter' : UInt64) :
    (accessSet tagVal lruCounter' (accessSet tagVal lruCounter lines).1).2 = .hit ↔
      tagVal.toNat < 2 ^ 32 := by
  rw [hit_iff]
  constructor
  · intro ⟨line, _, _, htag⟩
    rw [← htag, UInt32.toNat_toUInt64]
    exact line.tag.toNat_lt
  · intro hsmall
    obtain ⟨line, hline, hvalid, htag⟩ : ∃ line ∈ (accessSet tagVal lruCounter lines).1,
        line.valid = true ∧ line.tag = tagVal.toUInt32 := exists_line_accessSet hne
    refine ⟨line, hline, hvalid, ?_⟩
    rw [toUInt64_eq_iff, htag, toNat_toUInt32 hsmall]

end AccessSet

/-! ## All sets -/

/-- The cache has all sets, and each has `E` lines. -/
structure Sized (s E : Nat) (c : Csim) : Prop where
  length : c.sets.length = 2 ^ s
  lines : ∀ lines ∈ c.sets, lines.length = E

section Run

variable {s b E : Nat} {c c' : Csim} {addr : UInt64}

theorem sized_init (s E : Nat) : Sized s E (initCache (2 ^ s) E) where
  length := (simulates_init s E).length
  lines := by
    intro lines hlines
    rw [eq_of_mem_replicate hlines, length_replicate]

/-- An access finds its set. -/
theorem Sized.access (h : Sized s E c) (hsb : s + b < 64) (addr : UInt64) :
    ∃ lines, c.sets[(setVal s b addr).toNat]? = some lines ∧ lines.length = E ∧
      ∃ c', shiftedAccess s b c addr = some c' ∧ Sized s E c' ∧
        c'.sets[(setVal s b addr).toNat]? =
          some (accessSet (tagVal s b addr) c.lruCounter lines).1 := by
  have hindex : (setVal s b addr).toNat < c.sets.length := by
    rw [setVal_eq hsb, h.length]
    exact Nat.mod_lt _ (Nat.two_pow_pos s)
  have hlength := h.lines _ (List.getElem_mem hindex)
  refine ⟨_, List.getElem?_eq_getElem hindex, hlength, ?_⟩
  unfold shiftedAccess accessData
  rw [if_pos hsb]
  dsimp only
  rw [List.getElem?_eq_getElem hindex, map_some]
  refine ⟨_, rfl, ⟨?_, ?_⟩, ?_⟩
  · rw [length_set]
    exact h.length
  · intro lines hlines
    rcases mem_or_eq_of_mem_set hlines with hold | hnew
    · exact h.lines lines hold
    · rw [hnew, length_accessSet, hlength]
  · exact List.getElem?_set_self hindex

theorem Sized.run (h : Sized s E c) (hsb : s + b < 64) (before : List UInt64) :
    ∃ c', before.foldlM (shiftedAccess s b) c = some c' ∧ Sized s E c' := by
  induction before generalizing c with
  | nil => exact ⟨c, rfl, h⟩
  | cons addr before ih =>
    rcases h.access hsb addr with ⟨-, -, -, c₁, hstep, h₁, -⟩
    rcases ih h₁ with ⟨c', hrun, h'⟩
    refine ⟨c', ?_, h'⟩
    rw [foldlM_cons, hstep]
    exact hrun

/-- With 31 bits for the set index there are no sets, and with more bits their number is
undefined. -/
theorem few_of_secondAccessHits {before : List UInt64} (h : SecondAccessHits s b E before addr) :
    s ≤ 30 ∧ s + b < 64 := by
  rcases h with ⟨S, c, c₁, hS, hrun, hstep, -⟩
  have hsb : s + b < 64 := by
    by_contra hbig
    rw [shiftedAccess, if_neg hbig] at hstep
    cases hstep
  refine ⟨?_, hsb⟩
  by_contra hmany
  have hempty : (initCache S E).sets = [] := by
    by_cases hlast : s = 31
    · subst hlast
      have hneg : numSets 31 = some (-2 ^ 31) := by decide
      rw [hneg] at hS
      cases hS
      rfl
    · rw [numSets, if_neg (by omega)] at hS
      cases hS
  have hnone : ∀ a, shiftedAccess s b (initCache S E) a = none := by
    intro a
    unfold shiftedAccess accessData
    rw [if_pos hsb, hempty]
    rfl
  cases before with
  | nil =>
    cases hrun
    rw [hnone] at hstep
    cases hstep
  | cons a before =>
    rw [foldlM_cons, hnone] at hrun
    cases hrun

theorem secondAccessHits_iff (hs : 1 ≤ s) (hE : 1 ≤ E) (before : List UInt64) (addr : UInt64) :
    SecondAccessHits s b E before addr ↔
      s ≤ 30 ∧ s + b < 64 ∧ LruCache.tag s b addr < 2 ^ 32 := by
  have key (hfew : s ≤ 30) (hsb : s + b < 64) :
      ∃ c lines c₁, before.foldlM (shiftedAccess s b) (initCache (2 ^ s) E) = some c ∧
        shiftedAccess s b c addr = some c₁ ∧ lines ≠ [] ∧ outcome s b c₁ addr =
          some (accessSet (tagVal s b addr) c₁.lruCounter
            (accessSet (tagVal s b addr) c.lruCounter lines).1).2 := by
    rcases (sized_init s E).run hsb before with ⟨c, hrun, hsized⟩
    rcases hsized.access hsb addr with ⟨lines, -, hlength, c₁, hstep, -, hset⟩
    refine ⟨c, lines, c₁, hrun, hstep, ?_, ?_⟩
    · exact length_pos_iff.mp (by omega)
    · unfold outcome
      rw [hset]
      rfl
  rw [← and_assoc]
  constructor
  · intro h
    rcases few_of_secondAccessHits h with ⟨hfew, hsb⟩
    rcases key hfew hsb with ⟨c, lines, c₁, hrun, hstep, hne, houtcome⟩
    rcases h with ⟨S, d, d₁, hS, hrun', hstep', hhit⟩
    rw [numSets_eq hfew] at hS
    cases hS
    rw [hrun] at hrun'
    cases hrun'
    rw [hstep] at hstep'
    cases hstep'
    rw [houtcome, some_inj, second_hit_iff hne, tagVal_eq (by omega) hsb] at hhit
    exact ⟨⟨hfew, hsb⟩, hhit⟩
  · intro ⟨⟨hfew, hsb⟩, htag⟩
    rcases key hfew hsb with ⟨c, lines, c₁, hrun, hstep, hne, houtcome⟩
    refine ⟨2 ^ s, c, c₁, numSets_eq hfew, hrun, hstep, ?_⟩
    rw [houtcome, some_inj, second_hit_iff hne, tagVal_eq (by omega) hsb]
    exact htag

end Run

/-- The second of two accesses is a hit if and only if the geometry fits and the tag has 32
bits, and the addresses of a trace arrive if and only if they have 32 bits. -/
theorem access_twice_iff (s b E : Nat) (hs : 1 ≤ s) (_hb : 1 ≤ b) (hE : 1 ≤ E)
    (before : List UInt64) (addr : UInt64) (lines : List TraceLine) :
    (SecondAccessHits s b E before addr ↔
      s ≤ 30 ∧ s + b < 64 ∧ LruCache.tag s b addr < 2 ^ 32) ∧
    (AddressesReach lines ↔ ∀ l ∈ lines, l.op ≠ .I → l.addr.toNat < 2 ^ 32) :=
  ⟨secondAccessHits_iff hs hE before addr, addressesReach_iff lines⟩

/-- ` M 0421c7f0,4` -/
def exampleLine : TraceLine where
  indent := 1
  op := .M
  gap := 1
  digits := ['0', '4', '2', '1', 'c', '7', 'f', '0']
  size := ['4']
  digits_ne := cons_ne_nil _ _
  hex := by decide
  fits := by decide
  decimal := by decide
  short := by decide

/-- Sixteen sets of one line, with blocks of sixteen bytes. -/
theorem access_twice_small :
    SecondAccessHits 4 4 1 [0x7f0] 0x0421c7f0 ∧ AddressesReach [exampleLine] := by
  have hiff := access_twice_iff 4 4 1 (by decide) (by decide) (by decide) [0x7f0] 0x0421c7f0
    [exampleLine]
  refine ⟨hiff.1.mpr (by decide), hiff.2.mpr ?_⟩
  exact forall_mem_singleton.mpr fun _ => by decide

/-- The address `2 ^ 63`, whose tag does not fit. -/
theorem not_access_twice : ¬ ∀ s b E : Nat, 1 ≤ s → 1 ≤ b → 1 ≤ E → s + b < 64 →
    ∀ (before : List UInt64) (addr : UInt64), SecondAccessHits s b E before addr := by
  intro hall
  have hhits := hall 1 1 1 (by decide) (by decide) (by decide) (by decide) [] 0x8000000000000000
  rw [secondAccessHits_iff (by decide) (by decide)] at hhits
  exact absurd hhits.2.2 (by decide)

end PittCs.CacheLab
