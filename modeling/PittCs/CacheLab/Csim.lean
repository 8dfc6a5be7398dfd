import Mathlib.Algebra.Group.Int.Defs
import Mathlib.Algebra.Group.Nat.Defs
import PittCs.Lib.Lru

/-!
# The cache simulator

`csim.c`. A cache of `2^s` sets of `E` lines. Every line has the time of its last
use, and the line of a full set with the lowest time is replaced. The time is a
counter of 64 bits of which a line keeps 32, and the loop that looks for the lowest
one holds it in an `int`, which is compared as an unsigned number.

An access outside an array, and the conversion of a number that does not fit, is
undefined; such a step gives nothing. `malloc` is taken to succeed for an array that
fits into memory; an array of a negative number of sets has no element.
-/

namespace PittCs.CacheLab

open PittCs.Lib Function List

/-- `my_line`; the valid field is 0 or 1. -/
structure Line where
  valid : Bool
  tag : UInt32
  lastUse : UInt32
deriving DecidableEq

/-- The cache and the global counters. -/
structure Csim where
  sets : List (List Line)
  missCount : Nat
  hitCount : Nat
  evictionCount : Nat
  lruCounter : UInt64

/-- `S = (unsigned int) pow(2, s)`, where `S` is an `int`. -/
def numSets (s : Nat) : Option Int :=
  if s < 32 then some (Int.bmod (2 ^ s) (2 ^ 32)) else none

def initCache (S : Int) (E : Nat) : Csim where
  sets := List.replicate S.toNat (List.replicate E ⟨false, 0, 0⟩)
  missCount := 0
  hitCount := 0
  evictionCount := 0
  lruCounter := 1

def mask : UInt64 := 0xffffffffffffffff

/-- The set index of an address. -/
def setVal (s b : Nat) (addr : UInt64) : UInt64 :=
  (addr >>> UInt64.ofNat b) &&& ~~~(mask <<< UInt64.ofNat s)

/-- The tag of an address. -/
def tagVal (s b : Nat) (addr : UInt64) : UInt64 :=
  (addr >>> UInt64.ofNat (s + b)) &&& ~~~(mask <<< UInt64.ofNat (64 - s - b))

/-- What the first loop finds: whether all lines are valid, and the line that is
hit. -/
structure Search where
  setFull : Bool
  hit : Option Nat

/-- The first loop, from line `i` on. -/
def search (tagVal : UInt64) : List Line → Nat → Search → Search
  | [], _, r => r
  | line :: rest, i, r =>
    if line.valid = false then search tagVal rest (i + 1) { r with setFull := false }
    else if line.tag.toUInt64 = tagVal then search tagVal rest (i + 1) { r with hit := some i }
    else search tagVal rest (i + 1) r

/-- The first line that is not valid is replaced. -/
def fill (new : Line) : List Line → List Line
  | [] => []
  | line :: rest => if line.valid = false then new :: rest else line :: fill new rest

/-- The index of the line with the lowest time, from line `i` on. -/
def lowest : List Line → Nat → UInt32 → Nat → Nat
  | [], _, _, lowIndex => lowIndex
  | line :: rest, i, lowVal, lowIndex =>
    if line.lastUse < lowVal then lowest rest (i + 1) line.lastUse i
    else lowest rest (i + 1) lowVal lowIndex

/-- `accessData` in one set, at the time `lruCounter`. -/
def accessSet (tagVal lruCounter : UInt64) (lines : List Line) : List Line × Lru.Outcome :=
  let r := search tagVal lines 0 ⟨true, none⟩
  match r.hit with
  | some hitIndex =>
    (lines.modify hitIndex fun line => { line with lastUse := lruCounter.toUInt32 }, .hit)
  | none =>
    if r.setFull = false then (fill ⟨true, tagVal.toUInt32, lruCounter.toUInt32⟩ lines, .miss)
    else
      let lowIndex := lowest lines 0 lruCounter.toUInt32 0
      (lines.modify lowIndex fun line =>
        { line with tag := tagVal.toUInt32, lastUse := lruCounter.toUInt32 }, .eviction)

/-- The counters after an access. -/
def Csim.count (c : Csim) : Lru.Outcome → Csim
  | .hit => { c with hitCount := c.hitCount + 1 }
  | .miss => { c with missCount := c.missCount + 1 }
  | .eviction =>
    { c with missCount := c.missCount + 1, evictionCount := c.evictionCount + 1 }

def accessData (s b : Nat) (c : Csim) (addr : UInt64) : Option Csim :=
  let index := (setVal s b addr).toNat
  (c.sets[index]?).map fun lines =>
    let (lines, outcome) := accessSet (tagVal s b addr) c.lruCounter lines
    { c.count outcome with
      sets := c.sets.set index lines
      lruCounter := c.lruCounter + 1 }

/-- The simulator on the addresses of a trace. -/
def replay (s b E : Nat) (trace : List UInt64) : Option Csim := do
  let S ← numSets s
  trace.foldlM (accessData s b) (initCache S E)

/-! ## The reference -/

/-- A set-associative cache: for each set its tags, the most recently used first. -/
structure LruCache where
  sets : Nat → List Nat
  missCount : Nat
  hitCount : Nat
  evictionCount : Nat

namespace LruCache

def init : LruCache := ⟨fun _ => [], 0, 0, 0⟩

def setIndex (s b : Nat) (addr : UInt64) : Nat := addr.toNat / 2 ^ b % 2 ^ s

def tag (s b : Nat) (addr : UInt64) : Nat := addr.toNat / 2 ^ (s + b)

def count (c : LruCache) : Lru.Outcome → LruCache
  | .hit => { c with hitCount := c.hitCount + 1 }
  | .miss => { c with missCount := c.missCount + 1 }
  | .eviction =>
    { c with missCount := c.missCount + 1, evictionCount := c.evictionCount + 1 }

def access (s b E : Nat) (c : LruCache) (addr : UInt64) : LruCache :=
  let index := setIndex s b addr
  let (tags, outcome) := Lru.access E (c.sets index) (tag s b addr)
  { c.count outcome with sets := Function.update c.sets index tags }

def replay (s b E : Nat) (trace : List UInt64) : LruCache := trace.foldl (access s b E) init

end LruCache

/-! ## Addresses -/

theorem toNat_lowMask {k : Nat} (hk : k < 64) :
    (~~~(mask <<< UInt64.ofNat k)).toNat = 2 ^ k - 1 := by
  have hmod : (UInt64.ofNat k).toNat % 64 = k := by
    rw [UInt64.toNat_ofNat']
    omega
  have hmask : mask.toNat = 2 ^ 64 - 1 := rfl
  have hnot : (~~~(mask <<< UInt64.ofNat k)).toNat = 2 ^ 64 - 1 - (mask <<< UInt64.ofNat k).toNat := by
    exact UInt64.toNat_not _
  have hle : 2 ^ k ≤ 2 ^ 64 := Nat.pow_le_pow_right (by decide) (by omega)
  have hpos : 0 < 2 ^ k := Nat.two_pow_pos k
  have hshift : (2 ^ 64 - 1) * 2 ^ k % 2 ^ 64 = 2 ^ 64 - 2 ^ k := by
    have hsplit : (2 ^ 64 - 1) * 2 ^ k = (2 ^ 64 - 2 ^ k) + 2 ^ 64 * (2 ^ k - 1) := by
      rw [Nat.sub_mul, Nat.one_mul, Nat.mul_sub, Nat.mul_one]
      have hbig : 2 ^ 64 ≤ 2 ^ 64 * 2 ^ k := Nat.le_mul_of_pos_right _ hpos
      omega
    rw [hsplit, Nat.add_mul_mod_self_left, Nat.mod_eq_of_lt (by omega)]
  rw [hnot, UInt64.toNat_shiftLeft, hmod, hmask, Nat.shiftLeft_eq, hshift]
  omega

theorem setVal_eq {s b : Nat} (hsb : s + b < 64) (addr : UInt64) :
    (setVal s b addr).toNat = LruCache.setIndex s b addr := by
  have hmod : (UInt64.ofNat b).toNat % 64 = b := by
    rw [UInt64.toNat_ofNat']
    omega
  unfold setVal LruCache.setIndex
  rw [UInt64.toNat_and, toNat_lowMask (by omega), UInt64.toNat_shiftRight, hmod,
    Nat.and_two_pow_sub_one_eq_mod, Nat.shiftRight_eq_div_pow]

theorem tagVal_eq {s b : Nat} (hpos : 0 < s + b) (hsb : s + b < 64) (addr : UInt64) :
    (tagVal s b addr).toNat = LruCache.tag s b addr := by
  have hmod : (UInt64.ofNat (s + b)).toNat % 64 = s + b := by
    rw [UInt64.toNat_ofNat']
    omega
  have hlt : addr.toNat / 2 ^ (s + b) < 2 ^ (64 - s - b) := by
    rw [Nat.div_lt_iff_lt_mul (Nat.two_pow_pos _), ← Nat.pow_add]
    have hexp : 64 - s - b + (s + b) = 64 := by omega
    rw [hexp]
    exact addr.toNat_lt
  unfold tagVal LruCache.tag
  rw [UInt64.toNat_and, toNat_lowMask (by omega), UInt64.toNat_shiftRight, hmod,
    Nat.and_two_pow_sub_one_eq_mod, Nat.shiftRight_eq_div_pow, Nat.mod_eq_of_lt hlt]

/-! ## One set -/

/-- The entries of the valid lines. -/
def entries (lines : List Line) : List (Nat × Nat) :=
  (lines.filter Line.valid).map fun line => (line.tag.toNat, line.lastUse.toNat)

/-- The lines hold the tags, in the order of their last use before `now`. -/
structure SetOk (E now : Nat) (lines : List Line) (tags : List Nat) : Prop where
  length : lines.length = E
  nodup : tags.Nodup
  stamped : Lru.Stamped tags (entries lines)
  past : ∀ e ∈ entries lines, e.2 < now

theorem entries_perm {lines lines' : List Line} (h : lines.Perm lines') :
    (entries lines).Perm (entries lines') := (h.filter _).map _

theorem entries_cons_valid {line : Line} {lines : List Line} (h : line.valid = true) :
    entries (line :: lines) = (line.tag.toNat, line.lastUse.toNat) :: entries lines := by
  unfold entries
  rw [filter_cons_of_pos h, map_cons]

theorem entries_cons_invalid {line : Line} {lines : List Line} (h : line.valid = false) :
    entries (line :: lines) = entries lines := by
  unfold entries
  rw [filter_cons_of_neg (by rw [h]; exact Bool.false_ne_true)]

/-- The first loop finds a valid line with the tag, if there is one. -/
theorem search_spec (tagVal : UInt64) (lines : List Line) (i : Nat) (r : Search) :
    (search tagVal lines i r).setFull = (r.setFull && lines.all Line.valid) ∧
      (((search tagVal lines i r).hit = r.hit ∧
        ∀ line ∈ lines, line.valid = true → line.tag.toUInt64 ≠ tagVal) ∨
      ∃ j line, (search tagVal lines i r).hit = some (i + j) ∧ lines[j]? = some line ∧
        line.valid = true ∧ line.tag.toUInt64 = tagVal) := by
  induction lines generalizing i r with
  | nil => exact ⟨(Bool.and_true _).symm, .inl ⟨rfl, fun _ h => (nomatch h)⟩⟩
  | cons line rest ih =>
    unfold search
    by_cases hvalid : line.valid = false
    · rw [if_pos hvalid]
      rcases ih (i + 1) { r with setFull := false } with ⟨hfull, hhit⟩
      refine ⟨by rw [hfull, all_cons, hvalid]; simp, ?_⟩
      rcases hhit with ⟨hsame, hnone⟩ | ⟨j, x, hhit, hx, hmatch⟩
      · refine .inl ⟨hsame, fun x hx hxvalid => ?_⟩
        rcases mem_cons.mp hx with rfl | hx
        · rw [hvalid] at hxvalid
          cases hxvalid
        · exact hnone x hx hxvalid
      · exact .inr ⟨j + 1, x, by rw [hhit]; congr 1; omega, hx, hmatch⟩
    · rw [if_neg hvalid]
      have htrue : line.valid = true := by simpa using hvalid
      by_cases htag : line.tag.toUInt64 = tagVal
      · rw [if_pos htag]
        rcases ih (i + 1) { r with hit := some i } with ⟨hfull, hhit⟩
        refine ⟨by rw [hfull, all_cons, htrue]; simp, .inr ?_⟩
        rcases hhit with ⟨hsame, -⟩ | ⟨j, x, hhit, hx, hmatch⟩
        · exact ⟨0, line, hsame, rfl, htrue, htag⟩
        · exact ⟨j + 1, x, by rw [hhit]; congr 1; omega, hx, hmatch⟩
      · rw [if_neg htag]
        rcases ih (i + 1) r with ⟨hfull, hhit⟩
        refine ⟨by rw [hfull, all_cons, htrue]; simp, ?_⟩
        rcases hhit with ⟨hsame, hnone⟩ | ⟨j, x, hhit, hx, hmatch⟩
        · refine .inl ⟨hsame, fun x hx hxvalid => ?_⟩
          rcases mem_cons.mp hx with rfl | hx
          · exact htag
          · exact hnone x hx hxvalid
        · exact .inr ⟨j + 1, x, by rw [hhit]; congr 1; omega, hx, hmatch⟩

/-- The last loop finds a line with the lowest time. -/
theorem lowest_spec (lines : List Line) (i : Nat) (lowVal : UInt32) (lowIndex : Nat) :
    (lowest lines i lowVal lowIndex = lowIndex ∧ ∀ line ∈ lines, lowVal ≤ line.lastUse) ∨
      ∃ j line, lowest lines i lowVal lowIndex = i + j ∧ lines[j]? = some line ∧
        line.lastUse < lowVal ∧ ∀ x ∈ lines, line.lastUse ≤ x.lastUse := by
  induction lines generalizing i lowVal lowIndex with
  | nil => exact .inl ⟨rfl, fun _ h => (nomatch h)⟩
  | cons line rest ih =>
    unfold lowest
    by_cases hlt : line.lastUse < lowVal
    · rw [if_pos hlt]
      rcases ih (i + 1) line.lastUse i with ⟨hsame, hall⟩ | ⟨j, x, hindex, hx, hxlt, hall⟩
      · refine .inr ⟨0, line, hsame, rfl, hlt, fun x hx => ?_⟩
        rcases mem_cons.mp hx with rfl | hx
        · exact UInt32.le_refl _
        · exact hall x hx
      · refine .inr ⟨j + 1, x, by rw [hindex]; omega, hx, UInt32.lt_trans hxlt hlt, fun y hy => ?_⟩
        rcases mem_cons.mp hy with rfl | hy
        · exact UInt32.le_of_lt hxlt
        · exact hall y hy
    · rw [if_neg hlt]
      have hge : lowVal ≤ line.lastUse := UInt32.not_lt.mp hlt
      rcases ih (i + 1) lowVal lowIndex with ⟨hsame, hall⟩ | ⟨j, x, hindex, hx, hxlt, hall⟩
      · refine .inl ⟨hsame, fun x hx => ?_⟩
        rcases mem_cons.mp hx with rfl | hx
        · exact hge
        · exact hall x hx
      · refine .inr ⟨j + 1, x, by rw [hindex]; omega, hx, hxlt, fun y hy => ?_⟩
        rcases mem_cons.mp hy with rfl | hy
        · exact UInt32.le_trans (UInt32.le_of_lt hxlt) hge
        · exact hall y hy

theorem length_fill (new : Line) (lines : List Line) : (fill new lines).length = lines.length := by
  induction lines with
  | nil => rfl
  | cons line rest ih =>
    unfold fill
    split
    · rfl
    · rw [length_cons, ih, length_cons]

/-- A line that is not valid takes the new entry. -/
theorem entries_fill (new : Line) {lines : List Line} (hnew : new.valid = true)
    (hroom : lines.all Line.valid = false) :
    (entries (fill new lines)).Perm ((new.tag.toNat, new.lastUse.toNat) :: entries lines) := by
  induction lines with
  | nil => cases hroom
  | cons line rest ih =>
    unfold fill
    by_cases hvalid : line.valid = false
    · rw [if_pos hvalid, entries_cons_valid hnew, entries_cons_invalid hvalid]
    · have htrue : line.valid = true := by simpa using hvalid
      rw [all_cons, htrue, Bool.true_and] at hroom
      rw [if_neg hvalid, entries_cons_valid htrue, entries_cons_valid htrue]
      exact ((ih hroom).cons _).trans (List.Perm.swap ..)

/-- A full set has as many entries as lines. -/
theorem length_entries_iff {lines : List Line} :
    (entries lines).length < lines.length ↔ lines.all Line.valid = false := by
  unfold entries
  rw [length_map, length_filter_lt_length_iff_exists]
  simp

/-- One line is changed; the others are as they were. -/
theorem modify_perm {lines : List Line} {j : Nat} {line : Line} (hj : lines[j]? = some line)
    (f : Line → Line) :
    lines.Perm (line :: lines.eraseIdx j) ∧ (lines.modify j f).Perm (f line :: lines.eraseIdx j) := by
  rcases List.getElem?_eq_some_iff.mp hj with ⟨hlt, hval⟩
  have hset : lines.modify j f = lines.set j (f line) := by
    rw [modify_eq_set_getElem? , hj]
    rfl
  refine ⟨?_, ?_⟩
  · rw [← hval]
    exact (List.getElem_cons_eraseIdx_perm hlt).symm
  · rw [hset]
    exact set_perm_cons_eraseIdx hlt _

theorem toNat_toUInt32 {x : UInt64} (h : x.toNat < 2 ^ 32) : x.toUInt32.toNat = x.toNat := by
  rw [UInt64.toNat_toUInt32, Nat.mod_eq_of_lt h]

theorem toUInt64_eq_iff {x : UInt32} {y : UInt64} : x.toUInt64 = y ↔ x.toNat = y.toNat := by
  rw [← UInt64.toNat_inj, UInt32.toNat_toUInt64]

section AccessSet

variable {E : Nat} {tagVal lruCounter : UInt64} {lines : List Line} {tags : List Nat}

/-- A line is used now. -/
theorem SetOk.use {lines' : List Line} {tags' : List Nat} {rest : List (Nat × Nat)} {now tag : Nat}
    (hlength : lines'.length = E) (hnodup : (tag :: tags').Nodup) (hrest : Lru.Stamped tags' rest)
    (hpast : ∀ e ∈ rest, e.2 < now) (hentries : (entries lines').Perm ((tag, now) :: rest)) :
    SetOk E (now + 1) lines' (tag :: tags') where
  length := hlength
  nodup := hnodup
  stamped := (hrest.push hpast).congr hentries.symm
  past := by
    intro e he
    rcases mem_cons.mp (hentries.mem_iff.mp he) with rfl | he
    · exact Nat.lt_succ_self now
    · exact Nat.lt_succ_of_lt (hpast e he)

/-- An access to a set does what it does in the reference. -/
theorem SetOk.access (h : SetOk E lruCounter.toNat lines tags) (hE : 1 ≤ E)
    (htag : tagVal.toNat < 2 ^ 32) (hnow : lruCounter.toNat < 2 ^ 32) :
    (accessSet tagVal lruCounter lines).2 = (Lru.access E tags tagVal.toNat).2 ∧
      SetOk E (lruCounter.toNat + 1) (accessSet tagVal lruCounter lines).1
        (Lru.access E tags tagVal.toNat).1 := by
  have hnodup := Lru.nodup_access E tagVal.toNat h.nodup
  rcases search_spec tagVal lines 0 ⟨true, none⟩ with ⟨hfull, hhit⟩
  rw [Bool.true_and] at hfull
  unfold accessSet
  dsimp only
  unfold Lru.access at hnodup ⊢
  rcases hhit with ⟨hnone, hmiss⟩ | ⟨j, line, hhit, hj, hvalid, hmatch⟩
  · -- no line has the tag
    have hout : tagVal.toNat ∉ tags := by
      rw [h.stamped.mem_iff]
      rintro ⟨e, he, heq⟩
      rcases mem_map.mp he with ⟨line, hline, rfl⟩
      rcases mem_filter.mp hline with ⟨hline, hvalid⟩
      exact hmiss line hline hvalid (toUInt64_eq_iff.mpr heq)
    have hcount : tags.length < E ↔ lines.all Line.valid = false := by
      rw [h.stamped.length_eq, ← h.length]
      exact length_entries_iff
    rw [if_neg hout] at hnodup ⊢
    rw [hnone, hfull]
    dsimp only
    by_cases hroom : lines.all Line.valid = false
    · rw [if_pos (hcount.mpr hroom)] at hnodup ⊢
      rw [if_pos hroom]
      refine ⟨rfl, SetOk.use ?_ hnodup h.stamped h.past ?_⟩
      · rw [length_fill]
        exact h.length
      · have hperm := entries_fill ⟨true, tagVal.toUInt32, lruCounter.toUInt32⟩ rfl hroom
        rw [toNat_toUInt32 htag, toNat_toUInt32 hnow] at hperm
        exact hperm
    · rw [if_neg fun hlt => hroom (hcount.mp hlt)] at hnodup ⊢
      rw [if_neg hroom]
      have hall : ∀ line ∈ lines, line.valid = true := by simpa using hroom
      have hpast : ∀ line ∈ lines, line.lastUse < lruCounter.toUInt32 := by
        intro line hline
        have hlt := h.past (line.tag.toNat, line.lastUse.toNat)
          (mem_map.mpr ⟨line, mem_filter.mpr ⟨hline, hall line hline⟩, rfl⟩)
        rw [UInt32.lt_iff_toNat_lt, toNat_toUInt32 hnow]
        exact hlt
      rcases lowest_spec lines 0 lruCounter.toUInt32 0 with ⟨-, hge⟩ | ⟨j, line, hindex, hj, -, hlow⟩
      · -- the set has a line, and its time is in the past
        cases lines with
        | nil =>
          have hzero := h.length
          rw [length_nil] at hzero
          omega
        | cons line rest =>
          have hlt := hpast line mem_cons_self
          exact absurd hlt (UInt32.not_lt.mpr (hge line mem_cons_self))
      · rw [hindex, Nat.zero_add]
        rcases modify_perm hj fun line =>
          { line with tag := tagVal.toUInt32, lastUse := lruCounter.toUInt32 } with ⟨hold, hnew⟩
        have hlive : line.valid = true := hall line (mem_of_getElem? hj)
        have hentries := entries_perm hold
        rw [entries_cons_valid hlive] at hentries
        have hstamped := h.stamped.congr hentries
        have hleast : ∀ e ∈ entries (lines.eraseIdx j), line.lastUse.toNat < e.2 := by
          intro e he
          have htimes := hstamped.nodup_times
          rw [map_cons, nodup_cons] at htimes
          rcases mem_map.mp he with ⟨x, hx, rfl⟩
          have hxmem := hold.mem_iff.mpr (mem_cons_of_mem _ (mem_filter.mp hx).1)
          have hle := UInt32.le_iff_toNat_le.mp (hlow x hxmem)
          have hne : line.lastUse.toNat ≠ x.lastUse.toNat := by
            intro heq
            exact htimes.1 (mem_map.mpr ⟨_, he, heq.symm⟩)
          dsimp only
          omega
        rcases hstamped.dropLast hleast with ⟨hrest, -⟩
        have hentries' := entries_perm hnew
        rw [entries_cons_valid (by exact hlive)] at hentries'
        dsimp only at hentries'
        rw [toNat_toUInt32 htag, toNat_toUInt32 hnow] at hentries'
        refine ⟨rfl, SetOk.use ?_ hnodup hrest ?_ hentries'⟩
        · rw [length_modify]
          exact h.length
        · intro e he
          exact h.past e (hentries.mem_iff.mpr (mem_cons_of_mem _ he))
  · -- the line that is hit
    rw [Nat.zero_add] at hhit
    rcases modify_perm hj fun line => { line with lastUse := lruCounter.toUInt32 } with ⟨hold, hnew⟩
    have heq : line.tag.toNat = tagVal.toNat := toUInt64_eq_iff.mp hmatch
    have hentries := entries_perm hold
    rw [entries_cons_valid hvalid, heq] at hentries
    have hin : tagVal.toNat ∈ tags :=
      h.stamped.mem_iff.mpr ⟨_, hentries.mem_iff.mpr mem_cons_self, rfl⟩
    have hentries' := entries_perm hnew
    rw [entries_cons_valid (by exact hvalid)] at hentries'
    dsimp only at hentries'
    rw [toNat_toUInt32 hnow, heq] at hentries'
    rw [if_pos hin] at hnodup ⊢
    rw [hhit]
    refine ⟨rfl, SetOk.use ?_ hnodup ((h.stamped.congr hentries).erase h.nodup) ?_ hentries'⟩
    · rw [length_modify]
      exact h.length
    · intro e he
      exact h.past e (hentries.mem_iff.mpr (mem_cons_of_mem _ he))

end AccessSet

/-! ## All sets -/

/-- The simulator after `k` accesses and the reference. -/
structure Simulates (s E k : Nat) (c : Csim) (ref : LruCache) : Prop where
  length : c.sets.length = 2 ^ s
  sets : ∀ i lines, c.sets[i]? = some lines → SetOk E c.lruCounter.toNat lines (ref.sets i)
  missCount : c.missCount = ref.missCount
  hitCount : c.hitCount = ref.hitCount
  evictionCount : c.evictionCount = ref.evictionCount
  lruCounter : c.lruCounter.toNat = k + 1

section Run

variable {s b E k now : Nat} {c : Csim} {ref : LruCache} {addr : UInt64}

theorem SetOk.later {lines : List Line} {tags : List Nat} (h : SetOk E now lines tags) :
    SetOk E (now + 1) lines tags where
  length := h.length
  nodup := h.nodup
  stamped := h.stamped
  past := fun e he => Nat.lt_succ_of_lt (h.past e he)

/-- An access to an address of a tag of 32 bits. -/
theorem Simulates.access (h : Simulates s E k c ref) (hE : 1 ≤ E) (hs : 1 ≤ s) (hsb : s + b < 64)
    (htag : LruCache.tag s b addr < 2 ^ 32) (hk : k + 1 < 2 ^ 32) :
    ∃ c', accessData s b c addr = some c' ∧ Simulates s E (k + 1) c' (ref.access s b E addr) := by
  rw [← tagVal_eq (by omega) hsb] at htag
  have hnow : c.lruCounter.toNat < 2 ^ 32 := by
    rw [h.lruCounter]
    exact hk
  have hnext : (c.lruCounter + 1).toNat = c.lruCounter.toNat + 1 := by
    rw [UInt64.toNat_add, UInt64.toNat_one]
    omega
  have hindex : LruCache.setIndex s b addr < c.sets.length := by
    rw [h.length]
    exact Nat.mod_lt _ (Nat.two_pow_pos s)
  obtain ⟨lines, hlines⟩ : ∃ lines, c.sets[LruCache.setIndex s b addr]? = some lines :=
    ⟨_, List.getElem?_eq_getElem hindex⟩
  rcases (h.sets _ _ hlines).access hE htag hnow with ⟨houtcome, hset⟩
  unfold accessData LruCache.access
  dsimp only
  rw [setVal_eq hsb, hlines, ← tagVal_eq (by omega) hsb]
  refine ⟨_, rfl, ?_⟩
  dsimp only
  rw [← houtcome]
  refine ⟨?_, ?_, ?_, ?_, ?_, ?_⟩
  · rw [length_set]
    exact h.length
  · intro i found hfound
    dsimp only at hfound ⊢
    rw [hnext]
    by_cases hi : LruCache.setIndex s b addr = i
    · subst hi
      rw [List.getElem?_set_self hindex] at hfound
      cases hfound
      rw [update_self]
      exact hset
    · -- the other sets keep their lines and grow older
      rw [List.getElem?_set_ne hi] at hfound
      rw [update_of_ne (Ne.symm hi)]
      exact (h.sets i found hfound).later
  · cases (accessSet (tagVal s b addr) c.lruCounter lines).2 <;>
      simp [Csim.count, LruCache.count, h.missCount]
  · cases (accessSet (tagVal s b addr) c.lruCounter lines).2 <;>
      simp [Csim.count, LruCache.count, h.hitCount]
  · cases (accessSet (tagVal s b addr) c.lruCounter lines).2 <;>
      simp [Csim.count, LruCache.count, h.evictionCount]
  · dsimp only
    rw [hnext, h.lruCounter]

/-- A trace that ends before the counter leaves 32 bits. -/
theorem Simulates.replay {trace : List UInt64} (h : Simulates s E k c ref) (hE : 1 ≤ E)
    (hs : 1 ≤ s) (hsb : s + b < 64) (htag : ∀ addr ∈ trace, LruCache.tag s b addr < 2 ^ 32)
    (hk : k + trace.length < 2 ^ 32) :
    ∃ c', trace.foldlM (accessData s b) c = some c' ∧
      Simulates s E (k + trace.length) c' (trace.foldl (LruCache.access s b E) ref) := by
  induction trace generalizing k c ref with
  | nil => exact ⟨c, rfl, h⟩
  | cons addr trace ih =>
    rw [length_cons] at hk
    rcases h.access hE hs hsb (htag addr mem_cons_self) (by omega) with ⟨c₁, hstep, h₁⟩
    rcases ih h₁ (fun a ha => htag a (mem_cons_of_mem _ ha)) (by omega) with ⟨c', hrun, h'⟩
    refine ⟨c', ?_, ?_⟩
    · rw [foldlM_cons, hstep]
      exact hrun
    · rw [foldl_cons, length_cons]
      have hlen : k + (trace.length + 1) = k + 1 + trace.length := by omega
      rw [hlen]
      exact h'

theorem simulates_init (s E : Nat) :
    Simulates s E 0 (initCache (2 ^ s) E) LruCache.init where
  length := by
    have htoNat : ((2 : Int) ^ s).toNat = 2 ^ s := by
      rw [← Int.toNat_natCast (2 ^ s)]
      congr 1
    unfold initCache
    rw [length_replicate, htoNat]
  sets := by
    intro i lines hi
    have hlines := eq_of_mem_replicate (mem_of_getElem? hi)
    subst hlines
    have hempty : entries (List.replicate E ⟨false, 0, 0⟩) = [] := by
      unfold entries
      rw [filter_replicate]
      rfl
    refine ⟨length_replicate, nodup_nil, ?_, ?_⟩
    · rw [hempty]
      exact Lru.stamped_nil
    · rw [hempty]
      intro e he
      cases he
  missCount := rfl
  hitCount := rfl
  evictionCount := rfl
  lruCounter := rfl

/-- Up to 30 index bits the number of sets fits into an `int`. -/
theorem numSets_eq (hs : s ≤ 30) : numSets s = some (2 ^ s) := by
  have hle : (2 : Int) ^ s ≤ 2 ^ 30 := by exact_mod_cast Nat.pow_le_pow_right (by decide) hs
  have hpos : (0 : Int) < 2 ^ s := Int.pow_pos (by decide)
  unfold numSets
  rw [if_pos (by omega)]
  refine congrArg some ?_
  rw [Int.bmod_def]
  omega

/-- From 31 index bits on there is no set to access. -/
theorem replay_none (hs : 31 ≤ s) : replay s b E [addr] = none := by
  unfold replay
  by_cases hlast : s = 31
  · subst hlast
    rfl
  · have hnone : numSets s = none := if_neg (by omega)
    rw [hnone]
    rfl

end Run

/-- The simulator counts on a trace what the reference counts. -/
def CountsAgree (s b E : Nat) (trace : List UInt64) : Prop :=
  ∃ c, replay s b E trace = some c ∧
    c.hitCount = (LruCache.replay s b E trace).hitCount ∧
    c.missCount = (LruCache.replay s b E trace).missCount ∧
    c.evictionCount = (LruCache.replay s b E trace).evictionCount

/-- The simulator is an LRU cache as long as the number of its sets is an `int`. -/
theorem csim_eq_lru {s b E : Nat} (hs : 1 ≤ s) (_hb : 1 ≤ b) (hE : 1 ≤ E) (hsb : s + b < 64) :
    (∀ trace : List UInt64, trace.length < 2 ^ 31 →
      (∀ addr ∈ trace, LruCache.tag s b addr < 2 ^ 32) → CountsAgree s b E trace) ↔ s ≤ 30 := by
  constructor
  · intro hall
    by_contra hmany
    have hzero : ∀ addr ∈ [(0 : UInt64)], LruCache.tag s b addr < 2 ^ 32 := by
      intro addr haddr
      rw [mem_singleton.mp haddr]
      unfold LruCache.tag
      rw [UInt64.toNat_zero, Nat.zero_div]
      decide
    rcases hall [0] (by decide) hzero with ⟨c, hrun, -⟩
    rw [replay_none (by omega)] at hrun
    cases hrun
  · intro hfew trace hlength htags
    rcases (simulates_init s E).replay hE hs hsb htags (by omega) with ⟨c, hrun, hsim⟩
    refine ⟨c, ?_, hsim.hitCount, hsim.missCount, hsim.evictionCount⟩
    unfold replay
    rw [numSets_eq hfew]
    exact hrun

/-- Sixteen sets of two lines, with blocks of sixteen bytes. -/
theorem csim_eq_lru_small : CountsAgree 4 4 2 [0, 256, 512, 0] := by
  have htags : ∀ addr ∈ ([0, 256, 512, 0] : List UInt64), LruCache.tag 4 4 addr < 2 ^ 32 := by
    simp only [forall_mem_cons, not_mem_nil, false_implies, implies_true, and_true]
    decide
  exact (csim_eq_lru (by decide) (by decide) (by decide) (by decide)).mpr (by decide) _
    (by decide) htags

/-- With 31 index bits the first access already fails. -/
theorem not_csim_eq_lru : ¬ ∀ s b E : Nat, 1 ≤ s → 1 ≤ b → 1 ≤ E → s + b < 64 →
    ∀ trace : List UInt64, trace.length < 2 ^ 31 →
      (∀ addr ∈ trace, LruCache.tag s b addr < 2 ^ 32) → CountsAgree s b E trace := by
  intro hall
  have htag : ∀ addr ∈ ([0] : List UInt64), LruCache.tag 31 1 addr < 2 ^ 32 :=
    forall_mem_singleton.mpr (by decide)
  rcases hall 31 1 1 (by decide) (by decide) (by decide) (by decide) [0] (by decide) htag
    with ⟨c, hrun, -⟩
  rw [replay_none (by decide)] at hrun
  cases hrun

end PittCs.CacheLab
