import PittCs.Cs1550.Cache
import PittCs.Lib.Paging

/-!
# The eviction of the OPT cache

An entry is an access to a page with its time. `past` are the accesses that were made and
`rest` those to come; the times increase along both. What the tables say of the resident
pages, `Knows`, is enough for the loop of `evict` to find a page whose next use is
farthest, and among the pages that are not used again the one used least recently.
-/

namespace PittCs.Cs1550

open Lib List

/-- A page and the time of an access to it. -/
abbrev Entry := Long × Int

/-- The times at which a page is accessed. -/
def timesOf (x : Long) (es : List Entry) : List Int := (es.filter (·.1 = x)).map Prod.snd

/-- The times that the caller numbers the accesses with: they increase, and they leave the
two ends of the type alone, which `evict` uses for itself. -/
structure Timed (times : List Int) : Prop where
  increasing : times.Pairwise (· < ·)
  range : ∀ t ∈ times, 0 ≤ t ∧ t < Long.MAX_VALUE

variable {x y w : Long} {t : Int} {es past rest : List Entry}

theorem mem_timesOf : t ∈ timesOf x es ↔ (x, t) ∈ es := by
  unfold timesOf
  simp

theorem timesOf_append : timesOf x (past ++ rest) = timesOf x past ++ timesOf x rest := by
  unfold timesOf
  rw [filter_append, map_append]

theorem timesOf_cons : timesOf x ((y, t) :: es) =
    if y = x then t :: timesOf x es else timesOf x es := by
  unfold timesOf
  rw [filter_cons]
  split <;> rename_i h
  · rw [if_pos (by simpa using h)]
    rfl
  · rw [if_neg (by simpa using h)]

theorem timesOf_eq_nil : timesOf x es = [] ↔ x ∉ es.map Prod.fst := by
  rw [eq_nil_iff_forall_not_mem]
  simp only [mem_timesOf, mem_map, Prod.exists, exists_and_right, exists_eq_right, not_exists]

namespace Timed

theorem sublist {l l' : List Int} (h : Timed l) (hsub : l'.Sublist l) : Timed l' :=
  ⟨h.increasing.sublist hsub, fun t ht => h.range t (hsub.subset ht)⟩

theorem timesOf (h : Timed (es.map Prod.snd)) (x : Long) : Timed (timesOf x es) :=
  h.sublist (filter_sublist.map _)

/-- An earlier entry of the list has an earlier time. -/
theorem lt (h : Timed (es.map Prod.snd)) {k : Nat} {e e' : Entry} (he : e ∈ es.take k)
    (he' : e' ∈ es.drop k) : e.2 < e'.2 := by
  have hsplit : es.map Prod.snd = (es.take k).map Prod.snd ++ (es.drop k).map Prod.snd := by
    rw [← map_append, take_append_drop]
  have hpair := h.increasing
  rw [hsplit] at hpair
  exact (pairwise_append.mp hpair).2.2 _ (mem_map_of_mem he) _ (mem_map_of_mem he')

end Timed

/-! ## Next and last use -/

/-- The time of the next use, as `evict` reads it. -/
def nextUse (x : Long) (rest : List Entry) : Int := (timesOf x rest).headD Long.MAX_VALUE

theorem nextUse_nonneg (h : Timed (rest.map Prod.snd)) (x : Long) : 0 ≤ nextUse x rest := by
  have htimes := h.timesOf x
  unfold nextUse
  cases hx : timesOf x rest with
  | nil => decide
  | cons t ts =>
    rw [hx] at htimes
    exact (htimes.range t mem_cons_self).1

theorem nextUse_le (h : Timed (rest.map Prod.snd)) (hx : (x, t) ∈ rest) : nextUse x rest ≤ t := by
  have htimes := h.timesOf x
  have hmem := mem_timesOf.mpr hx
  unfold nextUse
  cases hl : timesOf x rest with
  | nil =>
    rw [hl] at hmem
    cases hmem
  | cons u us =>
    rw [hl] at hmem htimes
    rcases mem_cons.mp hmem with rfl | hmem
    · exact Int.le_refl _
    · exact Int.le_of_lt ((pairwise_cons.mp htimes.increasing).1 t hmem)

/-- A next use before the end of time is an access to come. -/
theorem mem_of_nextUse_lt (h : nextUse x rest < Long.MAX_VALUE) : (x, nextUse x rest) ∈ rest := by
  unfold nextUse at h ⊢
  cases hl : timesOf x rest with
  | nil =>
    rw [hl] at h
    exact absurd h (Int.lt_irrefl _)
  | cons u us =>
    refine mem_timesOf.mp ?_
    rw [hl]
    exact mem_cons_self

/-- The order of the next uses is the order in the list. -/
theorem mem_take_of_nextUse_le (h : Timed (rest.map Prod.snd))
    (hle : nextUse y rest ≤ nextUse w rest) {k : Nat} (hw : w ∈ (rest.map Prod.fst).take k) :
    y ∈ (rest.map Prod.fst).take k := by
  rw [← map_take, mem_map] at hw ⊢
  obtain ⟨⟨w, t⟩, hwt, rfl⟩ := hw
  have hwrest := mem_of_mem_take hwt
  have hnext := nextUse_le h hwrest
  have hmax := (h.range t (mem_map_of_mem hwrest)).2
  dsimp only at hle
  have hy : (y, nextUse y rest) ∈ rest := mem_of_nextUse_lt (by omega)
  -- the next access to `y` is not behind the one to `w`
  have hmem : (y, nextUse y rest) ∈ rest.take k ++ rest.drop k := by
    rw [take_append_drop]
    exact hy
  rcases mem_append.mp hmem with hmem | hmem
  · exact ⟨_, hmem, rfl⟩
  · have hlt := h.lt hwt hmem
    dsimp only at hlt
    omega

/-- The time of the last use. -/
def lastUse (x : Long) (past : List Entry) : Option Int := (timesOf x past).getLast?

theorem le_lastUse (h : Timed (past.map Prod.snd)) (hx : (x, t) ∈ past) {u : Int}
    (hu : lastUse x past = some u) : t ≤ u := by
  have htimes := h.timesOf x
  obtain ⟨ts, hts⟩ := getLast?_eq_some_iff.mp hu
  have hmem := mem_timesOf.mpr hx
  rw [hts] at hmem htimes
  rcases mem_append.mp hmem with hmem | hmem
  · exact Int.le_of_lt ((pairwise_append.mp htimes.increasing).2.2 t hmem u (by simp))
  · exact Int.le_of_eq (mem_singleton.mp hmem)

theorem mem_of_lastUse {u : Int} (hu : lastUse x past = some u) : (x, u) ∈ past :=
  mem_timesOf.mp (mem_of_getLast? hu)

/-- The order of the last uses is the order in the list. -/
theorem mem_drop_of_lastUse_le (h : Timed (past.map Prod.snd)) {u v : Int}
    (hu : lastUse w past = some u) (hv : lastUse y past = some v) (hle : u ≤ v) {k : Nat}
    (hw : w ∈ (past.map Prod.fst).drop k) : y ∈ (past.map Prod.fst).drop k := by
  rw [← map_drop, mem_map] at hw ⊢
  obtain ⟨⟨w, t⟩, hwt, rfl⟩ := hw
  have htu := le_lastUse h (mem_of_mem_drop hwt) hu
  have hy := mem_of_lastUse hv
  rw [← take_append_drop k past] at hy
  rcases mem_append.mp hy with hy | hy
  · have hlt := h.lt hy hwt
    dsimp only at hlt
    omega
  · exact ⟨_, hy, rfl⟩

/-! ## The loop of `evict` -/

/-- What the tables say of the resident pages. -/
structure Knows (c : OptCache) (past rest : List Entry) : Prop where
  accessTimes : ∀ x ∈ c.cacheState, c.accessTimes x = some (timesOf x rest)
  lastAccess : ∀ x ∈ c.cacheState, ∃ u, c.lastAccess x = some u ∧ lastUse x past = some u

/-- The page to evict: its next use is latest, and among the pages whose next use is as
late its last use is earliest. -/
structure Best (past rest : List Entry) (seen : List Long) (best : Candidate) : Prop where
  mem : best.toEvict ∈ seen
  next : best.highestNextUse = nextUse best.toEvict rest
  last : lastUse best.toEvict past = some best.lowestLruTime
  latest : ∀ y ∈ seen, nextUse y rest ≤ best.highestNextUse
  tie : ∀ y ∈ seen, nextUse y rest = best.highestNextUse →
    ∀ v, lastUse y past = some v → best.lowestLruTime ≤ v

variable {c : OptCache} {seen : List Long} {best : Candidate}

/-- A page that beats all pages before it. -/
theorem Best.of_new {u : Int} (hlast : lastUse x past = some u)
    (hseen : ∀ y ∈ seen, nextUse y rest ≤ nextUse x rest ∧
      (nextUse y rest = nextUse x rest → ∀ v, lastUse y past = some v → u ≤ v)) :
    Best past rest (seen ++ [x]) ⟨x, nextUse x rest, u⟩ := by
  refine ⟨by simp, rfl, hlast, ?_, ?_⟩
  · intro y hy
    rcases mem_append.mp hy with hy | hy
    · exact (hseen y hy).1
    · rw [mem_singleton.mp hy]
  · intro y hy heq v hv
    rcases mem_append.mp hy with hy | hy
    · exact (hseen y hy).2 heq v hv
    · rw [mem_singleton.mp hy, hlast] at hv
      exact Int.le_of_eq (Option.some.inj hv)

/-- A page that does not beat the best one. -/
theorem Best.of_old (h : Best past rest seen best) (hle : nextUse x rest ≤ best.highestNextUse)
    (htie : nextUse x rest = best.highestNextUse →
      ∀ v, lastUse x past = some v → best.lowestLruTime ≤ v) :
    Best past rest (seen ++ [x]) best := by
  refine ⟨mem_append_left _ h.mem, h.next, h.last, ?_, ?_⟩
  · intro y hy
    rcases mem_append.mp hy with hy | hy
    · exact h.latest y hy
    · rw [mem_singleton.mp hy]
      exact hle
  · intro y hy
    rcases mem_append.mp hy with hy | hy
    · exact h.tie y hy
    · rw [mem_singleton.mp hy]
      exact htie

theorem Knows.consider_eq (h : Knows c past rest) (hx : x ∈ c.cacheState) {u : Int}
    (hu : c.lastAccess x = some u) (best : Candidate) :
    c.consider best x = .ok (
      if nextUse x rest > best.highestNextUse then ⟨x, nextUse x rest, u⟩
      else if nextUse x rest = best.highestNextUse ∧ u < best.lowestLruTime then
        ⟨x, nextUse x rest, u⟩
      else best) := by
  unfold OptCache.consider
  rw [h.accessTimes x hx, nonNull_some_bind, hu]
  dsimp only
  rw [show (timesOf x rest).headD Long.MAX_VALUE = nextUse x rest from rfl]
  by_cases hgt : nextUse x rest > best.highestNextUse
  · rw [if_pos hgt, if_pos hgt]
    rfl
  rw [if_neg hgt, if_neg hgt]
  by_cases heq : nextUse x rest = best.highestNextUse
  · rw [if_pos heq, nonNull_some_bind]
    by_cases hlt : u < best.lowestLruTime
    · rw [if_pos hlt, if_pos ⟨heq, hlt⟩]
      rfl
    · rw [if_neg hlt, if_neg fun hc => hlt hc.2]
      rfl
  · rw [if_neg heq, if_neg fun hc => heq hc.1]
    rfl

/-- The first page of the loop replaces the initial values. -/
theorem Knows.consider_first (h : Knows c past rest) (htimed : Timed (rest.map Prod.snd))
    (hx : x ∈ c.cacheState) : ∃ best, c.consider ⟨-1, -1, Long.MAX_VALUE⟩ x = .ok best ∧
      Best past rest [x] best := by
  obtain ⟨u, hu, hlast⟩ := h.lastAccess x hx
  have hnonneg := nextUse_nonneg htimed x
  refine ⟨_, h.consider_eq hx hu _, ?_⟩
  rw [if_pos (show nextUse x rest > -1 by omega)]
  have hnone : ∀ y ∈ ([] : List Long), nextUse y rest ≤ nextUse x rest ∧
      (nextUse y rest = nextUse x rest → ∀ v, lastUse y past = some v → u ≤ v) := fun _ hy =>
    absurd hy not_mem_nil
  exact Best.of_new hlast hnone

theorem Knows.consider_next (h : Knows c past rest) (hx : x ∈ c.cacheState)
    (hbest : Best past rest seen best) : ∃ best', c.consider best x = .ok best' ∧
      Best past rest (seen ++ [x]) best' := by
  obtain ⟨u, hu, hlast⟩ := h.lastAccess x hx
  refine ⟨_, h.consider_eq hx hu best, ?_⟩
  split
  case isTrue hgt =>
    -- used later than all before
    refine Best.of_new hlast fun y hy => ?_
    have hle := hbest.latest y hy
    exact ⟨by omega, fun heq => by omega⟩
  case isFalse hle =>
    split
    case isTrue htie =>
      -- used at the same time, and longer ago
      refine Best.of_new hlast fun y hy => ?_
      have hy' := hbest.latest y hy
      refine ⟨by omega, fun heq v hv => ?_⟩
      have hv' := hbest.tie y hy (by omega) v hv
      omega
    case isFalse hno =>
      refine hbest.of_old (by omega) fun heq v hv => ?_
      obtain rfl := Option.some.inj (hlast.symm.trans hv)
      omega

theorem Knows.foldlM_consider (h : Knows c past rest) {iter : List Long}
    (hiter : ∀ y ∈ iter, y ∈ c.cacheState) (hbest : Best past rest seen best) :
    ∃ best', iter.foldlM c.consider best = .ok best' ∧ Best past rest (seen ++ iter) best' := by
  induction iter generalizing seen best with
  | nil => exact ⟨best, rfl, by rwa [append_nil]⟩
  | cons y iter ih =>
    obtain ⟨best₁, hrun₁, h₁⟩ := h.consider_next (hiter y mem_cons_self) hbest
    obtain ⟨best', hrun, h'⟩ := ih (fun z hz => hiter z (mem_cons_of_mem _ hz)) h₁
    refine ⟨best', ?_, ?_⟩
    · rw [foldlM_cons, hrun₁]
      exact hrun
    · rw [append_assoc] at h'
      exact h'

/-- What `evict` is for. -/
structure Victim (s : Finset Long) (past rest : List Long) (w : Long) : Prop where
  farthest : Paging.Farthest s rest w
  leastRecent : w ∉ rest → ∀ y ∈ s, y ∉ rest → ∀ k, w ∈ past.drop k → y ∈ past.drop k

theorem Best.victim {iter : List Long} {s : Finset Long} (h : Best past rest iter best)
    (hpast : Timed (past.map Prod.snd)) (hrest : Timed (rest.map Prod.snd))
    (hiter : ∀ y, y ∈ iter ↔ y ∈ s) (hlast : ∀ y ∈ s, ∃ v, lastUse y past = some v) :
    Victim s (past.map Prod.fst) (rest.map Prod.fst) best.toEvict := by
  refine ⟨⟨(hiter _).mp h.mem, ?_⟩, ?_⟩
  · intro y hy k hk
    have hle := h.latest y ((hiter y).mpr hy)
    rw [h.next] at hle
    exact mem_take_of_nextUse_le hrest hle hk
  · intro hw y hy hyr k hk
    -- neither page is used again
    have heq : nextUse y rest = best.highestNextUse := by
      rw [h.next, nextUse, nextUse, timesOf_eq_nil.mpr hw, timesOf_eq_nil.mpr hyr]
    obtain ⟨v, hv⟩ := hlast y hy
    exact mem_drop_of_lastUse_le hpast h.last hv (h.tie y ((hiter y).mpr hy) heq v hv) hk

theorem Knows.evict (h : Knows c past rest) (hpast : Timed (past.map Prod.snd))
    (hrest : Timed (rest.map Prod.snd)) {iter : List Long}
    (hiter : ∀ y, y ∈ iter ↔ y ∈ c.cacheState) (hne : c.cacheState.Nonempty) :
    ∃ w, c.evict iter = .ok (w, { c with cacheState := c.cacheState.erase w }) ∧
      Victim c.cacheState (past.map Prod.fst) (rest.map Prod.fst) w := by
  have hbest : ∃ best, iter.foldlM c.consider ⟨-1, -1, Long.MAX_VALUE⟩ = .ok best ∧
      Best past rest iter best := by
    cases iter with
    | nil =>
      obtain ⟨y, hy⟩ := hne
      exact absurd ((hiter y).mpr hy) not_mem_nil
    | cons y iter =>
      obtain ⟨best₁, hrun₁, h₁⟩ := h.consider_first hrest ((hiter y).mp mem_cons_self)
      obtain ⟨best, hrun, hb⟩ := h.foldlM_consider
        (fun z hz => (hiter z).mp (mem_cons_of_mem _ hz)) h₁
      refine ⟨best, ?_, hb⟩
      rw [foldlM_cons, hrun₁]
      exact hrun
  obtain ⟨best, hrun, hb⟩ := hbest
  refine ⟨best.toEvict, ?_, hb.victim hpast hrest hiter fun y hy => ?_⟩
  · unfold OptCache.evict
    rw [hrun]
    rfl
  · obtain ⟨u, -, hu⟩ := h.lastAccess y hy
    exact ⟨u, hu⟩

end PittCs.Cs1550
