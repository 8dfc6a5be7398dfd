import PittCs.Cs1550.Cache
import PittCs.Lib.Sentinels
import PittCs.Lib.Lru

/-!
# The linked list of the LRU cache

`Holds c ns`: the list between the sentinels has the nodes `ns`, and the hash map leads to
exactly these. `Lists c l` forgets the nodes: `l` are the pages in the list, from the
front. Each operation is specified by what it does to `l`.
-/

namespace PittCs.Cs1550

open Lib Function List

namespace LruCache

variable {c : LruCache} {a b : Nat} {r : Option Nat} {x : Long} {ns : List Nat} {l : List Long}

def next (c : LruCache) (a : Nat) : Option Nat := (c.node a).next

def prev (c : LruCache) (a : Nat) : Option Nat := (c.node a).prev

def frame (c : LruCache) (a : Nat) : Long := (c.node a).frame

/-! ## Single links -/

@[simp]
theorem next_setNext : (c.setNext a r).next b = if b = a then r else c.next b := by
  by_cases h : b = a <;> simp [next, setNext, h]

@[simp]
theorem prev_setNext : (c.setNext a r).prev b = c.prev b := by
  by_cases h : b = a <;> simp [prev, setNext, h]

@[simp]
theorem frame_setNext : (c.setNext a r).frame b = c.frame b := by
  by_cases h : b = a <;> simp [frame, setNext, h]

@[simp]
theorem next_setPrev : (c.setPrev a r).next b = c.next b := by
  by_cases h : b = a <;> simp [next, setPrev, h]

@[simp]
theorem prev_setPrev : (c.setPrev a r).prev b = if b = a then r else c.prev b := by
  by_cases h : b = a <;> simp [prev, setPrev, h]

@[simp]
theorem frame_setPrev : (c.setPrev a r).frame b = c.frame b := by
  by_cases h : b = a <;> simp [frame, setPrev, h]

/-- Everything but the links. -/
structure SameTable (c c' : LruCache) : Prop where
  frame (a : Nat) : c'.frame a = c.frame a
  fresh : c'.fresh = c.fresh
  head : c'.head = c.head
  tail : c'.tail = c.tail
  table : c'.table = c.table
  length : c'.length = c.length

theorem SameTable.trans {c c' c'' : LruCache} (h : SameTable c c') (h' : SameTable c' c'') :
    SameTable c c'' :=
  ⟨fun a => (h'.frame a).trans (h.frame a), h'.fresh.trans h.fresh, h'.head.trans h.head,
    h'.tail.trans h.tail, h'.table.trans h.table, h'.length.trans h.length⟩

theorem sameTable_setNext : SameTable c (c.setNext a r) :=
  ⟨fun _ => frame_setNext, rfl, rfl, rfl, rfl, rfl⟩

theorem sameTable_setPrev : SameTable c (c.setPrev a r) :=
  ⟨fun _ => frame_setPrev, rfl, rfl, rfl, rfl, rfl⟩

/-! ## The list between the sentinels -/

/-- The nodes of the list with the sentinels. -/
def ring (c : LruCache) (ns : List Nat) : List Nat := c.head :: (ns ++ [c.tail])

structure Links (c : LruCache) (ns : List Nat) : Prop where
  linked : Linked c.next c.prev (c.ring ns)
  nodup : (c.ring ns).Nodup

/-- A node that is in no list comes to the front. -/
theorem Links.linkFront (h : c.Links ns) (ha : a ∉ c.ring ns) :
    ∃ c', c.linkFront a = .ok c' ∧ c'.Links (a :: ns) ∧ SameTable c c' := by
  -- what follows the head, a node or the other sentinel
  obtain ⟨front, rest, hfront⟩ : ∃ front rest, ns ++ [c.tail] = front :: rest := by
    cases ns with
    | nil => exact ⟨c.tail, [], rfl⟩
    | cons b ns => exact ⟨b, ns ++ [c.tail], rfl⟩
  obtain ⟨hlinked, hnodup⟩ := h
  unfold ring at hlinked hnodup ha
  rw [hfront] at hlinked hnodup ha
  have hfirst : Linked c.next c.prev ([] ++ c.head :: front :: rest) := hlinked
  have hnext := hfirst.at_pair.1
  have hne : c.head ≠ front ∧ a ≠ c.head ∧ a ≠ front := by
    refine ⟨?_, ?_, ?_⟩
    · intro heq
      exact (nodup_cons.mp hnodup).1 (heq ▸ mem_cons_self)
    · exact fun heq => ha (heq ▸ mem_cons_self)
    · exact fun heq => ha (heq ▸ mem_cons_of_mem _ mem_cons_self)
  let c' := (((c.setNext a (some front)).setPrev front (some a)).setPrev a
    (some c.head)).setNext c.head (some a)
  refine ⟨c', ?_, ⟨?_, ?_⟩, ?_⟩
  · have hread : (c.node c.head).next = some front := hnext
    unfold LruCache.linkFront
    rw [hread]
    rfl
  · show Linked c'.next c'.prev (c.head :: a :: (ns ++ [c.tail]))
    rw [hfront]
    have hmem : ∀ b ∈ c.head :: front :: rest, b ≠ a := fun b hb heq => ha (heq ▸ hb)
    refine hfirst.insert hnodup ?_ ?_ ?_ ?_ ?_ ?_
    · simp [c']
    · simp [c']
    · simp [c', hne.2.1]
    · simp [c', hne.2.2.symm]
    · intro b hb hbh
      simp [c', hbh, hmem b hb]
    · intro b hb hbf
      simp [c', hbf, hmem b hb]
  · show (c.head :: a :: (ns ++ [c.tail])).Nodup
    rw [hfront]
    have hperm : (c.head :: a :: front :: rest).Perm (a :: c.head :: front :: rest) :=
      .swap _ _ _
    exact hperm.nodup_iff.mpr (nodup_cons.mpr ⟨ha, hnodup⟩)
  · exact ((sameTable_setNext.trans sameTable_setPrev).trans sameTable_setPrev).trans
      sameTable_setNext

/-- The nodes around a node of the list. -/
theorem exists_around (c : LruCache) (ms qs : List Nat) (a : Nat) : ∃ xs p q ys,
    c.ring (ms ++ a :: qs) = xs ++ p :: a :: q :: ys ∧ c.ring (ms ++ qs) = xs ++ p :: q :: ys := by
  obtain ⟨q, ys, hq⟩ : ∃ q ys, qs ++ [c.tail] = q :: ys := by
    cases qs with
    | nil => exact ⟨c.tail, [], rfl⟩
    | cons b qs => exact ⟨b, qs ++ [c.tail], rfl⟩
  rcases eq_nil_or_concat ms with rfl | ⟨xs, p, rfl⟩
  · exact ⟨[], c.head, q, ys, by simp [ring, hq], by simp [ring, hq]⟩
  · exact ⟨c.head :: xs, p, q, ys, by simp [ring, hq], by simp [ring, hq]⟩

/-- A node is taken out of the list. -/
theorem Links.unlink {ms qs : List Nat} (h : c.Links (ms ++ a :: qs)) : ∃ p q,
    c.prev a = some p ∧ c.next a = some q ∧
      ((c.setNext p (some q)).setPrev q (some p)).Links (ms ++ qs) := by
  obtain ⟨xs, p, q, ys, hring, hring'⟩ := c.exists_around ms qs a
  obtain ⟨hlinked, hnodup⟩ := h
  rw [hring] at hlinked hnodup
  have hpa := hlinked.at_pair
  have hsecond : Linked c.next c.prev ((xs ++ [p]) ++ a :: q :: ys) := by
    simpa using hlinked
  have haq := hsecond.at_pair
  have hsub : (xs ++ p :: q :: ys).Sublist (xs ++ p :: a :: q :: ys) := by simp
  refine ⟨p, q, hpa.2, haq.1, ?_, ?_⟩
  · show Linked _ _ (c.ring (ms ++ qs))
    rw [hring']
    refine hlinked.remove hnodup ?_ ?_ ?_ ?_
    · simp
    · simp
    · intro b _ hb
      simp [hb]
    · intro b _ hb
      simp [hb]
  · show (c.ring (ms ++ qs)).Nodup
    rw [hring']
    exact hnodup.sublist hsub

/-! ## The list and the hash map -/

structure Holds (c : LruCache) (ns : List Nat) : Prop where
  links : c.Links ns
  fresh : ∀ a ∈ c.ring ns, a < c.fresh
  table : ∀ x a, c.table x = some a ↔ a ∈ ns ∧ c.frame a = x
  length : c.length = ns.length

/-- The pages in the list, from the front. -/
def Lists (c : LruCache) (l : List Long) : Prop :=
  ∃ ns, c.Holds ns ∧ ns.map c.frame = l

theorem Holds.nodup (h : c.Holds ns) : ns.Nodup :=
  (nodup_append.mp (nodup_cons.mp h.links.nodup).2).1

theorem Holds.nodup_frames (h : c.Holds ns) : (ns.map c.frame).Nodup := by
  refine List.Nodup.map_on ?_ h.nodup
  intro a ha b hb hab
  have h1 := (h.table (c.frame a) a).mpr ⟨ha, rfl⟩
  have h2 := (h.table (c.frame a) b).mpr ⟨hb, hab.symm⟩
  exact Option.some.inj (h1.symm.trans h2)

theorem Lists.nodup (h : c.Lists l) : l.Nodup := by
  obtain ⟨ns, h, rfl⟩ := h
  exact h.nodup_frames

theorem Lists.length (h : c.Lists l) : c.length = l.length := by
  obtain ⟨ns, h, rfl⟩ := h
  rw [length_map]
  exact h.length

theorem Lists.contains (h : c.Lists l) (x : Long) : c.contains x = true ↔ x ∈ l := by
  obtain ⟨ns, h, rfl⟩ := h
  unfold LruCache.contains
  rw [Option.isSome_iff_exists, List.mem_map]
  exact exists_congr fun a => h.table x a

theorem lists_init : init.Lists [] := by
  refine ⟨[], ⟨⟨?_, ?_⟩, ?_, ?_, rfl⟩, rfl⟩
  · exact isChain_pair.mpr ⟨rfl, rfl⟩
  · decide
  · decide
  · intro x a
    exact ⟨nofun, fun h => absurd h.1 not_mem_nil⟩

/-! ## The operations -/

theorem Lists.add (h : c.Lists l) (hx : x ∉ l) : ∃ c', c.add x = .ok c' ∧ c'.Lists (x :: l) := by
  obtain ⟨ns, h, rfl⟩ := h
  -- the new node is in no list
  have hold : ∀ a ∈ c.ring ns, a ≠ c.fresh := fun a ha => Nat.ne_of_lt (h.fresh a ha)
  have hnode : ∀ a, a ≠ c.fresh → (c.new x).node a = c.node a := fun a ha =>
    update_of_ne ha _ _
  have hlinks : (c.new x).Links ns := by
    refine ⟨?_, h.links.nodup⟩
    refine Linked.congr h.links.linked (fun a ha b _ hab => ?_) fun a _ b hb hab => ?_
    · rw [LruCache.next, hnode a (hold a ha)]
      exact hab
    · rw [LruCache.prev, hnode b (hold b hb)]
      exact hab
  obtain ⟨c', hrun, hlinks', hsame⟩ :=
    hlinks.linkFront (a := c.fresh) fun hin => hold c.fresh hin rfl
  have hframe : ∀ a, a ≠ c.fresh → c'.frame a = c.frame a := by
    intro a ha
    rw [hsame.frame, LruCache.frame, hnode a ha, LruCache.frame]
  have hfresh : c'.frame c.fresh = x := by
    rw [hsame.frame]
    exact congrArg Node.frame (update_self c.fresh _ c.node)
  have hring : ∀ a ∈ ns, a ≠ c.fresh := fun a ha =>
    hold a (mem_cons_of_mem _ (mem_append_left _ ha))
  have hmap : ns.map c'.frame = ns.map c.frame :=
    map_congr_left fun a ha => hframe a (hring a ha)
  refine ⟨{ c' with
    length := c'.length + 1
    table := Function.update c'.table (c'.frame c.fresh) (some c.fresh) }, ?_, c.fresh :: ns,
    ⟨⟨hlinks'.linked, hlinks'.nodup⟩, ?_, ?_, ?_⟩, ?_⟩
  · unfold LruCache.add
    dsimp only
    rw [hrun]
    rfl
  · intro a ha
    show a < c'.fresh
    rw [hsame.fresh]
    show a < c.fresh + 1
    have ha' : a ∈ c'.head :: c.fresh :: (ns ++ [c'.tail]) := ha
    rw [hsame.head, hsame.tail] at ha'
    rcases mem_cons.mp ha' with rfl | ha'
    · exact Nat.lt_succ_of_lt (h.fresh _ mem_cons_self)
    rcases mem_cons.mp ha' with rfl | ha'
    · exact Nat.lt_succ_self _
    · exact Nat.lt_succ_of_lt (h.fresh _ (mem_cons_of_mem _ ha'))
  · intro y a
    show Function.update c'.table (c'.frame c.fresh) (some c.fresh) y = some a ↔
      a ∈ c.fresh :: ns ∧ c'.frame a = y
    rw [hfresh, hsame.table, update_apply, mem_cons]
    split
    case isTrue hy =>
      subst hy
      constructor
      · intro heq
        obtain rfl := Option.some.inj heq
        exact ⟨Or.inl rfl, hfresh⟩
      · rintro ⟨rfl | ha, hay⟩
        · rfl
        · -- no other node has the page
          rw [hframe a (hring a ha)] at hay
          exact absurd (hay ▸ mem_map_of_mem ha) hx
    case isFalse hy =>
      show c.table y = some a ↔ _
      rw [h.table]
      constructor
      · rintro ⟨ha, hay⟩
        exact ⟨Or.inr ha, (hframe a (hring a ha)).trans hay⟩
      · rintro ⟨rfl | ha, hay⟩
        · exact absurd (hay.symm.trans hfresh) hy
        · exact ⟨ha, (hframe a (hring a ha)).symm.trans hay⟩
  · show c'.length + 1 = ((c.fresh :: ns).length : Int)
    rw [hsame.length, length_cons]
    show c.length + 1 = _
    rw [h.length]
    omega
  · show c'.frame c.fresh :: ns.map c'.frame = x :: ns.map c.frame
    rw [hfresh, hmap]

theorem Lists.remove (h : c.Lists (l ++ [x])) : ∃ c', c.remove = .ok (x, c') ∧ c'.Lists l := by
  obtain ⟨ns, h, hmap⟩ := h
  -- the last node has the page `x`
  obtain ⟨ms, a, rfl, hl, hx⟩ : ∃ ms a, ns = ms ++ [a] ∧ ms.map c.frame = l ∧ c.frame a = x := by
    obtain ⟨ms, as, hns, hms, has⟩ := map_eq_append_iff.mp hmap
    obtain ⟨a, rfl, ha⟩ := map_eq_singleton_iff.mp has
    exact ⟨ms, a, hns, hms, ha⟩
  obtain ⟨hlinked, hnodup⟩ := h.links
  have hend : Linked c.next c.prev ((c.head :: ms) ++ a :: c.tail :: []) := by
    have heq : c.ring (ms ++ [a]) = (c.head :: ms) ++ a :: c.tail :: [] := by simp [ring]
    rw [← heq]
    exact hlinked
  have hlast := hend.at_pair
  obtain ⟨p, q, hp, hq, hlinks⟩ := Links.unlink (c := c) (a := a) h.links
  obtain rfl : c.tail = q := Option.some.inj (hlast.1.symm.trans hq)
  rw [append_nil] at hlinks
  have hhead : a ≠ c.head := by
    rintro rfl
    exact (nodup_cons.mp hnodup).1 (by simp)
  have hnotin : a ∉ ms := fun hin =>
    (nodup_append.mp h.nodup).2.2 a hin a mem_cons_self rfl
  let c' := (c.setNext p (some c.tail)).setPrev c.tail (some p)
  have hframe : ∀ b, c'.frame b = c.frame b := fun b => by simp [c']
  refine ⟨{ c' with
    length := c'.length - 1
    table := Function.update c'.table x none }, ?_, ms, ⟨⟨hlinks.linked, hlinks.nodup⟩, ?_, ?_, ?_⟩,
    ?_⟩
  · have hread : (c.node c.tail).prev = some a := hlast.2
    have hread' : (c.node a).prev = some p := hp
    have hframe' : (c'.node a).frame = x := (hframe a).trans hx
    unfold LruCache.remove
    rw [hread, nonNull_some_bind, if_neg hhead, hread']
    dsimp only
    rw [← hframe']
    rfl
  · intro b hb
    refine h.fresh b ?_
    have hb' : b ∈ c.head :: (ms ++ [c.tail]) := hb
    simp only [ring, mem_cons, mem_append] at hb' ⊢
    tauto
  · intro y b
    show Function.update c.table x none y = some b ↔ b ∈ ms ∧ c'.frame b = y
    rw [hframe, update_apply]
    split
    case isTrue hy =>
      refine ⟨nofun, ?_⟩
      rintro ⟨hb, hby⟩
      -- the page was in one node only
      have h1 := (h.table x b).mpr ⟨mem_append_left _ hb, hby.trans hy⟩
      have h2 := (h.table x a).mpr ⟨mem_append_right _ mem_cons_self, hx⟩
      exact absurd (Option.some.inj (h1.symm.trans h2) ▸ hb) hnotin
    case isFalse hy =>
      rw [h.table, mem_append, mem_singleton]
      constructor
      · rintro ⟨hb | rfl, hby⟩
        · exact ⟨hb, hby⟩
        · exact absurd (hby.symm.trans hx) hy
      · rintro ⟨hb, hby⟩
        exact ⟨Or.inl hb, hby⟩
  · show c.length - 1 = ms.length
    rw [h.length, length_append, length_singleton]
    omega
  · show ms.map c'.frame = l
    rw [← hl]
    exact map_congr_left fun b _ => hframe b

theorem Lists.updatePos (h : c.Lists l) (hx : x ∈ l) :
    ∃ c', c.updatePos x = .ok c' ∧ c'.Lists (x :: l.erase x) := by
  obtain ⟨ns, h, rfl⟩ := h
  obtain ⟨a, ha, rfl⟩ := List.mem_map.mp hx
  obtain ⟨ms, qs, rfl⟩ := append_of_mem ha
  obtain ⟨p, q, hp, hq, hlinks⟩ := h.links.unlink
  -- the node is out of the list before it comes to the front
  have hout : a ∉ c.ring (ms ++ qs) := by
    have hperm : (c.ring (ms ++ a :: qs)).Perm (a :: c.ring (ms ++ qs)) := by
      unfold ring
      rw [append_assoc, append_assoc]
      exact (List.Perm.cons _ perm_middle).trans (.swap _ _ _)
    exact (nodup_cons.mp (hperm.nodup_iff.mp h.links.nodup)).1
  obtain ⟨c', hrun, hlinks', hsame⟩ := hlinks.linkFront hout
  have hsame' : SameTable c c' := (sameTable_setNext.trans sameTable_setPrev).trans hsame
  have hperm : (a :: (ms ++ qs)).Perm (ms ++ a :: qs) := perm_middle.symm
  have hmap : ∀ bs : List Nat, bs.map c'.frame = bs.map c.frame := fun bs =>
    map_congr_left fun b _ => hsame'.frame b
  refine ⟨c', ?_, a :: (ms ++ qs), ⟨hlinks', ?_, ?_, ?_⟩, ?_⟩
  · have hread : c.table (c.frame a) = some a := (h.table _ a).mpr ⟨ha, rfl⟩
    have hread' : (c.node a).prev = some p := hp
    have hread'' : (c.node a).next = some q := hq
    unfold LruCache.updatePos
    rw [hread, nonNull_some_bind, hread', nonNull_some_bind, hread'', nonNull_some_bind]
    exact hrun
  · intro b hb
    rw [hsame'.fresh]
    refine h.fresh b ?_
    have hb' : b ∈ c'.head :: (a :: (ms ++ qs) ++ [c'.tail]) := hb
    rw [hsame'.head, hsame'.tail] at hb'
    exact ((hperm.append_right _).cons _).mem_iff.mp hb'
  · intro y b
    rw [hsame'.table, hsame'.frame, h.table, hperm.mem_iff]
  · rw [hsame'.length, h.length, hperm.length_eq]
  · have hfront : c.frame a ∉ ms.map c.frame := by
      have hnodup := h.nodup_frames
      rw [map_append, map_cons] at hnodup
      exact fun hin => (nodup_append.mp hnodup).2.2 _ hin _ mem_cons_self rfl
    rw [hmap, map_cons, map_append, map_append, map_cons,
      erase_append_right _ hfront, erase_cons_head]

end LruCache

/-!
## The LRU cache and its reference

The reference keeps the most recently used pages as a list and knows of each page whether
it was stored to since it was loaded. A run of the cache agrees with it in both counters,
and at every point the linked list, its length, the hash map and the dirty table describe
the pages of the reference.
-/

theorem Inst.letter_eq_s (i : Inst) : i.letter = "s" ↔ i = .store := by
  cases i <;> decide

theorem Inst.letter_ne_l (i : Inst) : i.letter ≠ "l" ↔ i = .store := by
  cases i <;> decide

/-- The letter of an access passes the check of `memAccess`. -/
theorem Cache.memAccess_letter {σ : Type} (T : PageTable σ) (i : Inst) (addr : Long) (c : Cache σ) :
    Cache.memAccess T i.letter addr c =
      (Cache.access T i.letter (Cache.frameOf c.pageOffset addr) c).map
        fun c => { c with memAccesses := c.memAccesses + 1 } := by
  have hok : ¬ (i.letter ≠ "l" ∧ i.letter ≠ "s") := by cases i <;> decide
  unfold Cache.memAccess
  rw [if_neg hok]
  cases Cache.access T i.letter (Cache.frameOf c.pageOffset addr) c <;> rfl

/-! ## The reference -/

/-- `pages` has the most recently used page first; `stored` says which of them were stored
to since they were loaded. -/
structure Reference where
  pages : List Long
  stored : Long → Bool
  faults : Nat
  writes : Nat

namespace Reference

def init : Reference := ⟨[], fun _ => false, 0, 0⟩

/-- Whether the page that is used least recently must be written back. -/
def writeBack (r : Reference) : Bool := (r.pages.getLast?.map r.stored).getD false

def access (n : Nat) (r : Reference) (i : Inst) (page : Long) : Reference :=
  match Lru.access n r.pages page with
  | (pages, .hit) =>
    { r with
      pages := pages
      stored := if i = .store then Function.update r.stored page true else r.stored }
  | (pages, .miss) =>
    { r with
      pages := pages
      stored := Function.update r.stored page (decide (i = .store))
      faults := r.faults + 1 }
  | (pages, .eviction) =>
    { pages := pages
      stored := Function.update r.stored page (decide (i = .store))
      faults := r.faults + 1
      writes := if r.writeBack then r.writes + 1 else r.writes }

theorem pages_access (n : Nat) (r : Reference) (i : Inst) (page : Long) :
    (r.access n i page).pages = (Lru.access n r.pages page).1 := by
  unfold access
  split <;> simp_all

/-- The reference on a whole trace. -/
def run (n pageOffset : Nat) (r : Reference) (trace : Trace) : Reference :=
  trace.foldl (fun r a => r.access n a.1 (Cache.frameOf pageOffset a.2)) r

theorem run_concat (n pageOffset : Nat) (r : Reference) (trace : Trace) (a : Inst × Long) :
    r.run n pageOffset (trace ++ [a]) =
      (r.run n pageOffset trace).access n a.1 (Cache.frameOf pageOffset a.2) :=
  foldl_concat ..

/-- The reference keeps the pages that were used most recently, as many as fit. -/
theorem pages_run {n : Nat} (hn : 0 < n) (pageOffset : Nat) (trace : Trace) :
    (init.run n pageOffset trace).pages = (Lru.recent (pagesOf pageOffset trace)).take n := by
  induction trace using List.reverseRecOn with
  | nil => exact take_nil.symm
  | append_singleton trace a ih =>
    have hpages : pagesOf pageOffset (trace ++ [a]) =
        pagesOf pageOffset trace ++ [Cache.frameOf pageOffset a.2] := map_append
    rw [run_concat, pages_access, ih, hpages, Lru.recent_concat,
      Lru.access_take hn (Lru.nodup_recent _)]

end Reference

/-! ## The cache agrees with the reference -/

/-- The list and the hash map hold the pages `l`, and the dirty table is about these. -/
structure Describes (c : Cache LruCache) (l : List Long) : Prop where
  lists : c.pages.Lists l
  dirty : ∀ x, (c.dirty x).isSome = true ↔ x ∈ l

structure Agrees (n pageOffset : Nat) (c : Cache LruCache) (r : Reference) : Prop where
  lists : c.pages.Lists r.pages
  dirty : ∀ x, c.dirty x = if x ∈ r.pages then some (r.stored x) else none
  numFrames : c.numFrames = n
  pageOffset : c.pageOffset = pageOffset
  faults : c.pageFaults = r.faults
  writes : c.diskWrites = r.writes

variable {n pageOffset : Nat} {c : Cache LruCache} {r : Reference}

theorem agrees_init (n pageOffset : Nat) :
    Agrees n pageOffset (Cache.init n pageOffset LruCache.init) .init :=
  ⟨LruCache.lists_init, fun _ => rfl, rfl, rfl, rfl, rfl⟩

theorem Agrees.describes (h : Agrees n pageOffset c r) : Describes c r.pages := by
  refine ⟨h.lists, fun x => ?_⟩
  rw [h.dirty]
  split
  case isTrue hx => exact ⟨fun _ => hx, fun _ => rfl⟩
  case isFalse hx => exact ⟨nofun, fun hin => absurd hin hx⟩

/-- The dirty table after the page is loaded. -/
theorem dirty_load {l l' : List Long} {dirty : Long → Option Bool} {stored : Long → Bool}
    {page : Long} {i : Inst} (hdirty : ∀ x, dirty x = if x ∈ l then some (stored x) else none)
    (hl : l' = page :: l) (x : Long) :
    Function.update dirty page (some (decide (i.letter ≠ "l"))) x =
      if x ∈ l' then some (Function.update stored page (decide (i = .store)) x) else none := by
  subst hl
  rw [update_apply, update_apply]
  by_cases hx : x = page
  · rw [if_pos hx, if_pos hx, if_pos (hx ▸ mem_cons_self), decide_eq_decide.mpr i.letter_ne_l]
  · rw [if_neg hx, if_neg hx, hdirty]
    simp only [mem_cons, hx, false_or]

/-- One access. -/
theorem Agrees.access (hn : 0 < n) (h : Agrees n pageOffset c r) (i : Inst) (page : Long) :
    ∃ c', Cache.access lruTable i.letter page c = .ok c' ∧
      Agrees n pageOffset c' (r.access n i page) := by
  have hcontains : lruTable.contains c.pages page = true ↔ page ∈ r.pages := h.lists.contains page
  have hsize : lruTable.size c.pages = r.pages.length := h.lists.length
  unfold Cache.access Reference.access Lru.access
  by_cases hin : page ∈ r.pages
  · -- a hit: the page moves to the front
    obtain ⟨p, hrun, hp⟩ := h.lists.updatePos hin
    have hhit : lruTable.hit c.pages page = .ok p := hrun
    rw [if_pos (hcontains.mpr hin), if_pos hin, hhit]
    refine ⟨_, rfl, hp, fun x => ?_, h.numFrames, h.pageOffset, h.faults, h.writes⟩
    have hmem : x ∈ page :: r.pages.erase page ↔ x ∈ r.pages :=
      (perm_cons_erase hin).symm.mem_iff
    simp only [hmem, i.letter_eq_s]
    by_cases hi : i = .store
    · rw [if_pos hi, if_pos hi, update_apply, update_apply, h.dirty]
      by_cases hx : x = page
      · rw [if_pos hx, if_pos hx, if_pos (hx ▸ hin)]
      · rw [if_neg hx, if_neg hx]
    · rw [if_neg hi, if_neg hi, h.dirty]
  rw [if_neg fun hc => hin (hcontains.mp hc), if_neg hin]
  by_cases hroom : r.pages.length < n
  · -- a free frame
    have hlt : lruTable.size c.pages < c.numFrames := by
      rw [hsize, h.numFrames]
      omega
    obtain ⟨p, hrun, hp⟩ := h.lists.add hin
    have hadd : lruTable.add c.pages page = .ok p := hrun
    rw [if_pos hlt, if_pos hroom, hadd]
    exact ⟨_, rfl, hp, dirty_load h.dirty rfl, h.numFrames, h.pageOffset,
      congrArg (· + 1) h.faults, h.writes⟩
  · -- the last page of the list makes room
    have hlt : ¬ lruTable.size c.pages < c.numFrames := by
      rw [hsize, h.numFrames]
      omega
    obtain ⟨rest, old, hsplit⟩ : ∃ rest old, r.pages = rest ++ [old] := by
      rcases eq_nil_or_concat r.pages with hnil | ⟨rest, old, hcat⟩
      · rw [hnil] at hroom
        exact absurd hn hroom
      · exact ⟨rest, old, hcat.trans concat_eq_append⟩
    have hnodup := h.lists.nodup
    rw [hsplit] at hnodup hin
    have hold : old ∉ rest := fun hmem =>
      (nodup_append.mp hnodup).2.2 old hmem old mem_cons_self rfl
    obtain ⟨p, hrun, hp⟩ := LruCache.Lists.remove (hsplit ▸ h.lists)
    have hevict : lruTable.evict c.memAccesses c.pages = .ok (old, p) := hrun
    obtain ⟨q, hrun', hq⟩ := hp.add fun hmem => hin (mem_append_left _ hmem)
    have hadd : lruTable.add p page = .ok q := hrun'
    have hflag : c.dirty old = some (r.stored old) := by
      rw [h.dirty, if_pos]
      rw [hsplit]
      exact mem_append_right _ mem_cons_self
    have hwrite : r.writeBack = r.stored old := by
      unfold Reference.writeBack
      rw [hsplit, getLast?_concat]
      rfl
    have hremoved : ∀ x, Function.update c.dirty old none x =
        if x ∈ rest then some (r.stored x) else none := by
      intro x
      rw [update_apply, h.dirty, hsplit]
      by_cases hx : x = old
      · rw [if_pos hx, if_neg (hx ▸ hold)]
      · simp only [hx, if_false, mem_append, mem_singleton, or_false]
    rw [if_neg hlt, if_neg hroom, hevict]
    dsimp only
    rw [hsplit, dropLast_concat]
    refine ⟨{ c with
      pages := q
      dirty := Function.update (Function.update c.dirty old none) page
        (some (decide (i.letter ≠ "l")))
      pageFaults := c.pageFaults + 1
      diskWrites := if r.stored old then c.diskWrites + 1 else c.diskWrites }, ?_, hq,
      dirty_load hremoved rfl, h.numFrames, h.pageOffset, congrArg (· + 1) h.faults, ?_⟩
    · show (nonNull (c.dirty old) >>= fun modified => lruTable.add p page >>= _) = _
      rw [hflag, nonNull_some_bind, hadd]
      rfl
    · show (if r.stored old then c.diskWrites + 1 else c.diskWrites) = _
      rw [hwrite, h.writes]

/-- A whole run. -/
theorem Agrees.run (hn : 0 < n) (h : Agrees n pageOffset c r) (trace : Trace) :
    ∃ c', run lruTable c trace = .ok c' ∧ Agrees n pageOffset c' (r.run n pageOffset trace) := by
  induction trace generalizing c r with
  | nil => exact ⟨c, rfl, h⟩
  | cons a trace ih =>
    obtain ⟨c₁, hrun₁, h₁⟩ := h.access hn a.1 (Cache.frameOf pageOffset a.2)
    have h₁' : Agrees n pageOffset { c₁ with memAccesses := c₁.memAccesses + 1 }
        (r.access n a.1 (Cache.frameOf pageOffset a.2)) :=
      ⟨h₁.lists, h₁.dirty, h₁.numFrames, h₁.pageOffset, h₁.faults, h₁.writes⟩
    obtain ⟨c', hrun, h'⟩ := ih h₁'
    refine ⟨c', ?_, h'⟩
    unfold Cs1550.run at hrun ⊢
    rw [foldlM_cons, Cache.memAccess_letter, h.pageOffset, hrun₁]
    exact hrun

/-- The counters of the LRU cache are those of the reference, whose pages are the most
recently used ones, and its four structures describe these pages. -/
theorem lru_refines (hn : 0 < n) (pageOffset : Nat) (trace : Trace) :
    ∃ c, run lruTable (Cache.init n pageOffset LruCache.init) trace = .ok c ∧
      c.pageFaults = (Reference.init.run n pageOffset trace).faults ∧
      c.diskWrites = (Reference.init.run n pageOffset trace).writes ∧
      (Reference.init.run n pageOffset trace).pages =
        (Lru.recent (pagesOf pageOffset trace)).take n ∧
      Describes c (Reference.init.run n pageOffset trace).pages := by
  obtain ⟨c, hrun, h⟩ := (agrees_init n pageOffset).run hn trace
  exact ⟨c, hrun, h.faults, h.writes, Reference.pages_run hn pageOffset trace, h.describes⟩

/-- Two frames, a page that is stored to, and a third page that takes its place. -/
theorem lru_refines_two :
    ∃ c, run lruTable (Cache.init 2 12 LruCache.init)
        [(.store, 0x1000), (.load, 0x2000), (.load, 0x3000)] = .ok c ∧
      c.pageFaults = 3 ∧ c.diskWrites = 1 ∧ Describes c [3, 2] := by
  obtain ⟨c, hrun, hfaults, hwrites, -, hpages⟩ := lru_refines (n := 2) (by decide) 12
    [(.store, 0x1000), (.load, 0x2000), (.load, 0x3000)]
  exact ⟨c, hrun, hfaults, hwrites, hpages⟩

end PittCs.Cs1550
