import PittCs.Cs1550.LruCache
import PittCs.Cs1550.OptCache

/-!
# The OPT cache has the fewest faults

The caller reads the trace twice: first it gives the cache the time of every access, then
it makes the accesses. `Foresees` is what holds in between and after every access: the
table has for each page exactly the accesses to come. So the run is one of `Belady`,
which no demand paging policy beats.
-/

namespace PittCs.Cs1550

open Lib Function List Option

/-- A line of the trace with its time. -/
abbrev Line := Int × Inst × Long

/-- The first pass over the trace. -/
def prepare (c : Cache OptCache) (lines : List Line) : Cache OptCache :=
  lines.foldl (fun c l => initAccessTime l.1 l.2.2 c) c

def entriesOf (pageOffset : Nat) (lines : List Line) : List Entry :=
  lines.map fun l => (Cache.frameOf pageOffset l.2.2, l.1)

/-- The second pass. -/
def traceOf (lines : List Line) : Trace := lines.map Prod.snd

variable {n pageOffset : Nat} {c : Cache OptCache} {o : OptCache} {x y : Long} {t : Int}
  {past rest : List Entry}

theorem entriesOf_fst (pageOffset : Nat) (lines : List Line) :
    (entriesOf pageOffset lines).map Prod.fst = pagesOf pageOffset (traceOf lines) := by
  unfold entriesOf pagesOf traceOf
  rw [List.map_map, List.map_map]
  rfl

theorem entriesOf_snd (pageOffset : Nat) (lines : List Line) :
    (entriesOf pageOffset lines).map Prod.snd = lines.map Prod.fst := by
  unfold entriesOf
  rw [List.map_map]
  rfl

/-! ## The first pass -/

theorem initTable_accessTimes (o : OptCache) (t : Int) (x y : Long) :
    (o.initTable t x).accessTimes y =
      if y = x then some ((o.accessTimes x).getD [] ++ [t]) else o.accessTimes y := by
  unfold OptCache.initTable
  cases hx : o.accessTimes x with
  | none =>
    show Function.update o.accessTimes x (some [t]) y = _
    rw [update_apply]
    rfl
  | some times =>
    show Function.update o.accessTimes x (some (times ++ [t])) y = _
    rw [update_apply]
    rfl

theorem initTable_cacheState (o : OptCache) (t : Int) (x : Long) :
    (o.initTable t x).cacheState = o.cacheState := by
  unfold OptCache.initTable
  split <;> rfl

/-- The state before the second pass. -/
structure Prepared (n pageOffset : Nat) (es : List Entry) (c : Cache OptCache) : Prop where
  numFrames : c.numFrames = n
  pageOffset : c.pageOffset = pageOffset
  pageFaults : c.pageFaults = 0
  cacheState : c.pages.cacheState = ∅
  accessTimes : ∀ y, c.pages.accessTimes y = if timesOf y es = [] then none else some (timesOf y es)

theorem prepared (n pageOffset : Nat) (lines : List Line) :
    Prepared n pageOffset (entriesOf pageOffset lines)
      (prepare (Cache.init n pageOffset OptCache.init) lines) := by
  induction lines using List.reverseRecOn with
  | nil => exact ⟨rfl, rfl, rfl, rfl, fun _ => rfl⟩
  | append_singleton lines l ih =>
    unfold prepare at ih ⊢
    rw [foldl_concat]
    refine ⟨ih.numFrames, ih.pageOffset, ih.pageFaults,
      (initTable_cacheState _ _ _).trans ih.cacheState, fun y => ?_⟩
    have hsplit : entriesOf pageOffset (lines ++ [l]) =
        entriesOf pageOffset lines ++ [(Cache.frameOf pageOffset l.2.2, l.1)] := map_append
    have hone : timesOf y [(Cache.frameOf pageOffset l.2.2, l.1)] =
        if Cache.frameOf pageOffset l.2.2 = y then [l.1] else [] := timesOf_cons
    show (OptCache.initTable _ _ _).accessTimes y = _
    rw [initTable_accessTimes, ih.pageOffset, ih.accessTimes, ih.accessTimes, hsplit,
      timesOf_append, hone]
    by_cases hy : y = Cache.frameOf pageOffset l.2.2
    · -- the time is the last one of its page
      subst hy
      have hne : timesOf (Cache.frameOf pageOffset l.2.2) (entriesOf pageOffset lines) ++ [l.1] ≠
        [] := append_ne_nil_of_right_ne_nil _ (cons_ne_nil _ _)
      rw [if_pos rfl, if_pos rfl, if_neg hne]
      by_cases hnil : timesOf (Cache.frameOf pageOffset l.2.2) (entriesOf pageOffset lines) = []
      · rw [if_pos hnil, hnil, getD_none]
      · rw [if_neg hnil, getD_some]
    · rw [if_neg hy, if_neg (Ne.symm hy), append_nil]

/-! ## One access -/

/-- The table knows the accesses to come, also of the pages that are not resident. -/
structure Foresees (n pageOffset : Nat) (past rest : List Entry) (c : Cache OptCache) : Prop where
  numFrames : c.numFrames = n
  pageOffset : c.pageOffset = pageOffset
  card : c.pages.cacheState.card ≤ n
  times : ∀ y ∈ rest.map Prod.fst, c.pages.accessTimes y = some (timesOf y rest)
  knows : Knows c.pages past rest
  dirty : ∀ y ∈ c.pages.cacheState, (c.dirty y).isSome = true

theorem Prepared.foresees (h : Prepared n pageOffset rest c) : Foresees n pageOffset [] rest c := by
  have hempty : ∀ y, y ∉ c.pages.cacheState := by
    intro y
    rw [h.cacheState]
    exact Finset.notMem_empty y
  refine ⟨h.numFrames, h.pageOffset, ?_, ?_, ⟨fun y hy => absurd hy (hempty y), fun y hy =>
    absurd hy (hempty y)⟩, fun y hy => absurd hy (hempty y)⟩
  · rw [h.cacheState]
    exact Nat.zero_le n
  · intro y hy
    rw [h.accessTimes, if_neg]
    rw [timesOf_eq_nil]
    exact not_not_intro hy

/-- Pages other than the one accessed now keep what the table says of them. -/
theorem Knows.skip (h : Knows o past ((x, t) :: rest)) (hx : x ∉ o.cacheState) :
    Knows o past rest := by
  refine ⟨fun y hy => ?_, h.lastAccess⟩
  rw [h.accessTimes y hy, timesOf_cons, if_neg]
  rintro rfl
  exact hx hy

/-- The access is recorded, and afterwards the pages `s` are resident. -/
theorem Knows.record (h : Knows o past ((x, t) :: rest)) {s : Finset Long}
    (hs : ∀ y ∈ s, y = x ∨ y ∈ o.cacheState) :
    Knows { o.record x t (timesOf x rest) with cacheState := s } (past ++ [(x, t)]) rest := by
  have hlast : ∀ y, lastUse y (past ++ [(x, t)]) = if x = y then some t else lastUse y past := by
    intro y
    unfold lastUse
    rw [timesOf_append, timesOf_cons]
    split
    · exact getLast?_concat
    · show (timesOf y past ++ []).getLast? = _
      rw [append_nil]
  refine ⟨fun y hy => ?_, fun y hy => ?_⟩
  · show Function.update o.accessTimes x (some (timesOf x rest)) y = _
    rw [update_apply]
    split
    case isTrue hyx => rw [hyx]
    case isFalse hyx =>
      rw [h.accessTimes y ((hs y hy).resolve_left hyx), timesOf_cons, if_neg (Ne.symm hyx)]
  · show ∃ u, Function.update o.lastAccess x (some t) y = some u ∧ _
    rw [update_apply, hlast]
    split
    case isTrue hyx => exact ⟨t, rfl, if_pos hyx.symm⟩
    case isFalse hyx =>
      rw [if_neg (Ne.symm hyx)]
      exact h.lastAccess y ((hs y hy).resolve_left hyx)

/-- A page that is loaded takes the first of its times. -/
theorem OptCache.add_eq (hx : o.accessTimes x = some (timesOf x ((x, t) :: rest))) :
    o.add x = .ok { o.record x t (timesOf x rest) with cacheState := insert x o.cacheState } := by
  rw [timesOf_cons, if_pos rfl] at hx
  unfold OptCache.add
  rw [hx]
  rfl

theorem OptCache.hit_eq (hx : o.accessTimes x = some (timesOf x ((x, t) :: rest))) :
    o.hit x = .ok (o.record x t (timesOf x rest)) := by
  rw [timesOf_cons, if_pos rfl] at hx
  unfold OptCache.hit
  rw [hx]
  rfl

/-- What an eviction takes out, when the access to `x` is made. -/
theorem Foresees.evict (O : IterationOrder) (h : Foresees n pageOffset past ((x, t) :: rest) c)
    (htimed : Timed ((past ++ (x, t) :: rest).map Prod.snd)) (hx : x ∉ c.pages.cacheState)
    (hne : c.pages.cacheState.Nonempty) :
    ∃ w, (optTable O).evict c.memAccesses c.pages =
        .ok (w, { c.pages with cacheState := c.pages.cacheState.erase w }) ∧
      Victim c.pages.cacheState (past.map Prod.fst) (rest.map Prod.fst) w := by
  rw [map_append, map_cons] at htimed
  refine (h.knows.skip hx).evict (htimed.sublist (sublist_append_left _ _))
    (htimed.sublist ?_) (O.mem _ _) hne
  exact (sublist_cons_self _ _).trans (sublist_append_right _ _)

/-- One access is a step of `Belady`. -/
theorem Foresees.access (O : IterationOrder) (hn : 0 < n)
    (h : Foresees n pageOffset past ((x, t) :: rest) c)
    (htimed : Timed ((past ++ (x, t) :: rest).map Prod.snd)) (i : Inst) :
    ∃ c', Cache.access (optTable O) i.letter x c = .ok c' ∧
      Foresees n pageOffset (past ++ [(x, t)]) rest c' ∧
      Paging.Belady n c.pages.cacheState x (rest.map Prod.fst) c'.pages.cacheState ∧
      c'.pageFaults = c.pageFaults + Paging.fault c.pages.cacheState x := by
  have hnow : c.pages.accessTimes x = some (timesOf x ((x, t) :: rest)) :=
    h.times x mem_cons_self
  -- the times that are left, whatever becomes of the resident pages
  have htimes : ∀ y ∈ rest.map Prod.fst,
      Function.update c.pages.accessTimes x (some (timesOf x rest)) y = some (timesOf y rest) := by
    intro y hy
    rw [update_apply]
    split
    case isTrue hyx => rw [hyx]
    case isFalse hyx =>
      rw [h.times y (mem_cons_of_mem _ hy), timesOf_cons, if_neg (Ne.symm hyx)]
  have hcontains : (optTable O).contains c.pages x = true ↔ x ∈ c.pages.cacheState :=
    decide_eq_true_iff
  have hsize : (optTable O).size c.pages = c.pages.cacheState.card := rfl
  unfold Cache.access Paging.fault
  by_cases hx : x ∈ c.pages.cacheState
  · -- a hit
    have hhit : (optTable O).hit c.pages x = .ok (c.pages.record x t (timesOf x rest)) :=
      OptCache.hit_eq hnow
    rw [if_pos (hcontains.mpr hx), hhit, if_pos hx]
    refine ⟨_, rfl, ⟨h.numFrames, h.pageOffset, h.card, htimes, ?_, ?_⟩, .of_hit hx, rfl⟩
    · exact h.knows.record fun y hy => Or.inr hy
    · intro y hy
      dsimp only
      split
      · rw [update_apply]
        split
        · rfl
        · exact h.dirty y hy
      · exact h.dirty y hy
  rw [if_neg fun hc => hx (hcontains.mp hc), if_neg hx]
  by_cases hroom : c.pages.cacheState.card < n
  · -- a free frame
    have hlt : (optTable O).size c.pages < c.numFrames := by
      rw [hsize, h.numFrames]
      omega
    have hadd : (optTable O).add c.pages x = .ok { c.pages.record x t (timesOf x rest) with
        cacheState := insert x c.pages.cacheState } := OptCache.add_eq hnow
    rw [if_pos hlt, hadd]
    refine ⟨_, rfl, ⟨h.numFrames, h.pageOffset, ?_, htimes, ?_, ?_⟩, .of_room hx hroom, rfl⟩
    · show (insert x c.pages.cacheState).card ≤ n
      rw [Finset.card_insert_of_notMem hx]
      exact hroom
    · exact h.knows.record fun y hy => Finset.mem_insert.mp hy
    · intro y hy
      dsimp only
      rw [update_apply]
      split
      · rfl
      case isFalse hyx => exact h.dirty y ((Finset.mem_insert.mp hy).resolve_left hyx)
  · -- the farthest page makes room
    have hlt : ¬ (optTable O).size c.pages < c.numFrames := by
      rw [hsize, h.numFrames]
      omega
    have hne : c.pages.cacheState.Nonempty := Finset.card_pos.mp (by omega)
    obtain ⟨w, hevict, hw⟩ := h.evict O htimed hx hne
    have hwmem := hw.farthest.1
    let p : OptCache := { c.pages with cacheState := c.pages.cacheState.erase w }
    have hadd : (optTable O).add p x = .ok { p.record x t (timesOf x rest) with
        cacheState := insert x p.cacheState } := OptCache.add_eq hnow
    obtain ⟨modified, hflag⟩ := isSome_iff_exists.mp (h.dirty w hwmem)
    have hxw : x ∉ c.pages.cacheState.erase w := fun hin => hx (Finset.mem_of_mem_erase hin)
    rw [if_neg hlt, hevict]
    refine ⟨{ c with
      pages := { p.record x t (timesOf x rest) with cacheState := insert x p.cacheState }
      dirty := Function.update (Function.update c.dirty w none) x
        (some (decide (i.letter ≠ "l")))
      pageFaults := c.pageFaults + 1
      diskWrites := if modified then c.diskWrites + 1 else c.diskWrites }, ?_,
      ⟨h.numFrames, h.pageOffset, ?_, htimes, ?_, ?_⟩, .of_full hx hroom hw.farthest, rfl⟩
    · show (nonNull (c.dirty w) >>= fun modified => (optTable O).add p x >>= _) = _
      rw [hflag, nonNull_some_bind, hadd]
      rfl
    · show (insert x (c.pages.cacheState.erase w)).card ≤ n
      rw [Finset.card_insert_of_notMem hxw, Finset.card_erase_add_one hwmem]
      exact h.card
    · refine h.knows.record fun y hy => ?_
      exact (Finset.mem_insert.mp hy).imp_right Finset.mem_of_mem_erase
    · intro y hy
      dsimp only
      rw [update_apply]
      split
      · rfl
      case isFalse hyx =>
        have hy' := (Finset.mem_insert.mp hy).resolve_left hyx
        rw [update_of_ne (Finset.ne_of_mem_erase hy')]
        exact h.dirty y (Finset.mem_of_mem_erase hy')

/-! ## Runs -/

/-- The accesses of some lines: what is known of the rest stays known, and a way to serve
the rest is one to serve the lines with the rest. -/
theorem Foresees.run (O : IterationOrder) (hn : 0 < n) {lines : List Line}
    (h : Foresees n pageOffset past (entriesOf pageOffset lines ++ rest) c)
    (htimed : Timed ((past ++ (entriesOf pageOffset lines ++ rest)).map Prod.snd)) :
    ∃ c' k, Cs1550.run (optTable O) c (traceOf lines) = .ok c' ∧
      Foresees n pageOffset (past ++ entriesOf pageOffset lines) rest c' ∧
      c'.pageFaults = c.pageFaults + k ∧
      ∀ f, Paging.Serves (Paging.Belady n) c'.pages.cacheState (rest.map Prod.fst) f →
        Paging.Serves (Paging.Belady n) c.pages.cacheState
          ((entriesOf pageOffset lines ++ rest).map Prod.fst) (k + f) := by
  induction lines generalizing past c with
  | nil =>
    refine ⟨c, 0, rfl, ?_, rfl, fun f hf => ?_⟩
    · rw [show entriesOf pageOffset [] = [] from rfl, append_nil]
      exact h
    · rw [Nat.zero_add]
      exact hf
  | cons l lines ih =>
    have hcons : entriesOf pageOffset (l :: lines) =
      (Cache.frameOf pageOffset l.2.2, l.1) :: entriesOf pageOffset lines := rfl
    rw [hcons, cons_append] at h htimed
    obtain ⟨c₁, hrun₁, h₁, hstep, hfaults₁⟩ := h.access O hn htimed l.2.1
    have h₁' : Foresees n pageOffset (past ++ [(Cache.frameOf pageOffset l.2.2, l.1)])
        (entriesOf pageOffset lines ++ rest) { c₁ with memAccesses := c₁.memAccesses + 1 } :=
      ⟨h₁.numFrames, h₁.pageOffset, h₁.card, h₁.times, h₁.knows, h₁.dirty⟩
    have htimed' := htimed
    rw [append_cons] at htimed'
    obtain ⟨c', k, hrun, h', hfaults, hserves⟩ := ih h₁' htimed'
    refine ⟨c', Paging.fault c.pages.cacheState (Cache.frameOf pageOffset l.2.2) + k, ?_, ?_, ?_,
      fun f hf => ?_⟩
    · have htrace : traceOf (l :: lines) = l.2 :: traceOf lines := rfl
      unfold Cs1550.run at hrun ⊢
      rw [htrace, foldlM_cons, Cache.memAccess_letter, h.pageOffset, hrun₁]
      exact hrun
    · rw [hcons, append_cons]
      exact h'
    · rw [hfaults, ← Nat.add_assoc, ← hfaults₁]
    · rw [Nat.add_assoc]
      exact .cons hstep (hserves f hf)

/-- The faults of the reference of the LRU cache. -/
theorem Reference.faults_run (n pageOffset : Nat) (r : Reference) (trace : Trace) :
    (r.run n pageOffset trace).faults =
      r.faults + Paging.lruFaults n r.pages (pagesOf pageOffset trace) := by
  induction trace generalizing r with
  | nil => rfl
  | cons a trace ih =>
    have hfaults : (r.access n a.1 (Cache.frameOf pageOffset a.2)).faults =
        r.faults + if Cache.frameOf pageOffset a.2 ∈ r.pages then 0 else 1 := by
      unfold Reference.access Lru.access
      split_ifs <;> rfl
    have hstep := ih (r.access n a.1 (Cache.frameOf pageOffset a.2))
    rw [hfaults, Reference.pages_access, Nat.add_assoc] at hstep
    exact hstep

/-- With the times of all its accesses the OPT cache has no more faults than any demand
paging policy, so no more than the LRU cache. What it evicts is used again last, or is
the least recently used page of those that are not used again. -/
theorem opt_optimal (O : IterationOrder) (hn : 0 < n) (pageOffset : Nat) (lines : List Line)
    (htimed : Timed (lines.map Prod.fst)) :
    ∃ c l, run (optTable O) (prepare (Cache.init n pageOffset OptCache.init) lines)
        (traceOf lines) = .ok c ∧
      run lruTable (Cache.init n pageOffset LruCache.init) (traceOf lines) = .ok l ∧
      (∀ faults, Paging.Policy n ∅ (pagesOf pageOffset (traceOf lines)) faults →
        c.pageFaults ≤ faults) ∧
      c.pageFaults ≤ l.pageFaults ∧
      ∀ pre line post, lines = pre ++ line :: post → ∃ d,
        run (optTable O) (prepare (Cache.init n pageOffset OptCache.init) lines)
          (traceOf pre) = .ok d ∧
        (Cache.frameOf pageOffset line.2.2 ∉ d.pages.cacheState → ¬ d.pages.size < d.numFrames →
          ∃ w p, (optTable O).evict d.memAccesses d.pages = .ok (w, p) ∧
            Victim d.pages.cacheState (pagesOf pageOffset (traceOf pre))
              (pagesOf pageOffset (traceOf post)) w) := by
  have hprepared := prepared n pageOffset lines
  have hforesees := hprepared.foresees
  rw [← entriesOf_snd pageOffset] at htimed
  have hall := hforesees
  have htimed' := htimed
  rw [← append_nil (entriesOf pageOffset lines)] at hall htimed'
  obtain ⟨c, k, hrun, -, hfaults, hserves⟩ := Foresees.run O hn hall htimed'
  have hbelady := hserves 0 .nil
  rw [append_nil, entriesOf_fst, hprepared.cacheState] at hbelady
  rw [hprepared.pageFaults, Nat.zero_add] at hfaults
  have hoptimal : ∀ faults, Paging.Policy n ∅ (pagesOf pageOffset (traceOf lines)) faults →
      c.pageFaults ≤ faults := by
    intro faults hpolicy
    rw [hfaults]
    exact Paging.Belady.optimal hbelady hpolicy
  obtain ⟨l, hlru, hagrees⟩ := (agrees_init n pageOffset).run hn (traceOf lines)
  refine ⟨c, l, hrun, hlru, hoptimal, ?_, ?_⟩
  · -- the LRU cache is one of the policies
    rw [hagrees.faults, Reference.faults_run]
    refine hoptimal _ ?_
    rw [show Reference.init.faults = 0 from rfl, Nat.zero_add]
    exact Paging.policy_lruFaults (l := []) hn (Nat.zero_le n) .nil _
  · intro pre line post hsplit
    have hentries : entriesOf pageOffset lines =
        entriesOf pageOffset pre ++ (Cache.frameOf pageOffset line.2.2, line.1) ::
          entriesOf pageOffset post := by
      rw [hsplit]
      exact map_append
    rw [hentries] at hforesees htimed
    obtain ⟨d, -, hrun', hd, -, -⟩ := hforesees.run O hn htimed
    refine ⟨d, hrun', fun hnot hfull => ?_⟩
    have hne : d.pages.cacheState.Nonempty := by
      rw [hd.numFrames] at hfull
      unfold OptCache.size at hfull
      exact Finset.card_pos.mp (by omega)
    obtain ⟨w, hevict, hw⟩ := hd.evict O htimed hnot hne
    rw [nil_append, entriesOf_fst, entriesOf_fst] at hw
    exact ⟨w, _, hevict, hw⟩

/-- Two frames and the pages 1, 2, 3, 1: the LRU cache evicts the first page before its
next use, and has four faults. A policy that knows the future has three. -/
theorem opt_optimal_two :
    ∃ c l, run (optTable .ascending) (prepare (Cache.init 2 12 OptCache.init)
        [(0, .load, 0x1000), (1, .load, 0x2000), (2, .load, 0x3000), (3, .store, 0x1000)])
        [(.load, 0x1000), (.load, 0x2000), (.load, 0x3000), (.store, 0x1000)] = .ok c ∧
      run lruTable (Cache.init 2 12 LruCache.init)
        [(.load, 0x1000), (.load, 0x2000), (.load, 0x3000), (.store, 0x1000)] = .ok l ∧
      c.pageFaults ≤ 3 ∧ l.pageFaults = 4 := by
  have hpolicy : Paging.Policy 2 (∅ : Finset Long) [1, 2, 3, 1] 3 := by
    have h1 : Paging.Demand 2 (∅ : Finset Long) 1 {1} := by constructor <;> decide
    have h2 : Paging.Demand 2 ({1} : Finset Long) 2 {1, 2} := by constructor <;> decide
    have h3 : Paging.Demand 2 ({1, 2} : Finset Long) 3 {1, 3} := by constructor <;> decide
    have h4 : Paging.Demand 2 ({1, 3} : Finset Long) 1 {1, 3} := by constructor <;> decide
    exact .cons (f := 2) h1 (.cons (f := 1) h2 (.cons (f := 0) h3 (.cons (f := 0) h4 .nil)))
  obtain ⟨c, l, hopt, hlru, hoptimal, -⟩ := opt_optimal (n := 2) .ascending (by decide) 12
    [(0, .load, 0x1000), (1, .load, 0x2000), (2, .load, 0x3000), (3, .store, 0x1000)]
    ⟨by decide, by decide⟩
  have hfour := congrArg (Except.map (·.pageFaults)) hlru
  exact ⟨c, l, hopt, hlru, hoptimal 3 hpolicy, Except.ok.inj (hfour.symm.trans (by decide +kernel))⟩

end PittCs.Cs1550
