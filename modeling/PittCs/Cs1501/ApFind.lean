import PittCs.Lib.Separation
import PittCs.Cs1501.NetAnalysis
import Mathlib.Data.Fintype.Card

/-!
# Articulation points

`APFind.java`: a depth-first search that keeps, for every node, when it was discovered and the
least discovery time that its subtree reaches by one edge. It stops at the first articulation
point.
-/

namespace PittCs.Cs1501

open PittCs.Lib.Separation Function List Option

/-- The arrays of `APFind`; the parent -1 is `none`. -/
structure ApState (n : ℕ) where
  time : ℕ
  checked : Fin n → Bool
  parentOf : Fin n → Option (Fin n)
  discovered : Fin n → ℕ
  low : Fin n → ℕ

namespace ApFind

variable {n : ℕ}

/-- The arrays that `hasArticulationPoint` makes. -/
def start (n : ℕ) : ApState n where
  time := 0
  checked _ := false
  parentOf _ := none
  discovered _ := 0
  low _ := 0

/-- The assignments before the loop. -/
def enter (currNode : Fin n) (s : ApState n) : ApState n where
  time := s.time + 1
  checked := Function.update s.checked currNode true
  parentOf := s.parentOf
  discovered := Function.update s.discovered currNode (s.time + 1)
  low := Function.update s.low currNode (s.time + 1)

/-- `parentOf[nextNode] = currNode` -/
def setParent (nextNode currNode : Fin n) (s : ApState n) : ApState n :=
  { s with parentOf := Function.update s.parentOf nextNode (some currNode) }

/-- `low[currNode] = value` -/
def setLow (currNode : Fin n) (value : ℕ) (s : ApState n) : ApState n :=
  { s with low := Function.update s.low currNode value }

/-- The update of `low[currNode]` after the call for `nextNode`. -/
def pullLow (currNode nextNode : Fin n) (s : ApState n) : ApState n :=
  if s.low nextNode < s.low currNode then setLow currNode (s.low nextNode) s else s

/-- What makes `currNode` an articulation point after the call for `nextNode`. -/
def Separates (currNode nextNode : Fin n) (children : ℕ) (s : ApState n) : Prop :=
  (s.parentOf currNode = none ∧ children ≥ 2) ∨
    (s.parentOf currNode ≠ none ∧ s.low nextNode ≥ s.discovered currNode)

instance decidableSeparates (currNode nextNode : Fin n) (children : ℕ) (s : ApState n) :
    Decidable (Separates currNode nextNode children s) :=
  inferInstanceAs (Decidable (_ ∨ _))

/-- The loop of `recursiveAP`, where `visit` is the call. -/
def scan (visit : Fin n → ApState n → Bool × ApState n) (currNode : Fin n) :
    List (Edge n) → ℕ → ApState n → Bool × ApState n
  | [], _, s => (false, s)
  | e :: edges, children, s =>
    let nextNode := e.destination
    if !s.checked nextNode then
      let result := visit nextNode (setParent nextNode currNode s)
      let s := pullLow currNode nextNode result.2
      if result.1 then (true, s)
      else if Separates currNode nextNode (children + 1) s then (true, s)
      else scan visit currNode edges (children + 1) s
    else if s.parentOf currNode ≠ some nextNode ∧ s.low currNode > s.discovered nextNode then
      scan visit currNode edges children (setLow currNode (s.discovered nextNode) s)
    else scan visit currNode edges children s

/-- `recursiveAP`. No call is deeper than there are nodes. -/
def recursiveAP (graph : Fin n → List (Edge n)) : ℕ → Fin n → ApState n → Bool × ApState n
  | 0, _, s => (false, s)
  | fuel + 1, currNode, s =>
    scan (recursiveAP graph fuel) currNode (graph currNode) 0 (enter currNode s)

/-- `hasArticulationPoint` -/
def hasArticulationPoint (graph : Fin n → List (Edge n)) (root : Fin n) : Bool :=
  (recursiveAP graph n root (start n)).1

/-! ## Calls -/

section Calls

variable (adj : Fin n → Fin n → Prop)

/-- What a call has checked. -/
def Fresh (s s' : ApState n) (x : Fin n) : Prop := s'.checked x = true ∧ s.checked x = false

/-- The state in which `recursiveAP` is called for `v`; the callers are the stack. -/
structure Ready (stack : List (Fin n)) (v : Fin n) (s : ApState n) : Prop where
  unchecked : s.checked v = false
  onStack : ∀ x ∈ stack, s.checked x = true
  finished : ∀ x, s.checked x = true → x ∉ stack → ∀ y, adj x y → s.checked y = true
  discovered_le : ∀ x, s.checked x = true → s.discovered x ≤ s.time
  parent : s.parentOf v = stack.head?
  adjacent : ∀ p, stack.head? = some p → adj p v
  joined : ∀ x ∈ stack, ∀ y ∈ stack, Within adj (· ∈ stack) x y

/-- The part of the state that a call may not touch, and what it has checked so far. -/
structure Frame (v : Fin n) (s s' : ApState n) : Prop where
  grows : ∀ x, s.checked x = true → s'.checked x = true
  entered : s'.checked v = true
  discovered : ∀ x, s.checked x = true → s'.discovered x = s.discovered x
  low : ∀ x, s.checked x = true → s'.low x = s.low x
  parentOf : ∀ x, s.checked x = true ∨ x = v → s'.parentOf x = s.parentOf x
  discovered_le : ∀ x, s'.checked x = true → s'.discovered x ≤ s'.time
  later : ∀ x, Fresh s s' x → s.time < s'.discovered x

/-- How the new nodes are joined to each other and to the stack when one is removed. -/
structure Joined (stack : List (Fin n)) (v : Fin n) (s s' : ApState n) : Prop where
  reach : ∀ x, Fresh s s' x → Within adj (Fresh s s') v x
  inner : ∀ c, Fresh s s' c → c ≠ v → ∀ x, Fresh s s' x → x ≠ c →
    Within adj (fun y => (Fresh s s' y ∨ y ∈ stack) ∧ y ≠ c) x v
  top : ∀ p, stack.head? = some p → ∀ x, Fresh s s' x → x ≠ v →
    Within adj (fun y => (Fresh s s' y ∨ y ∈ stack) ∧ y ≠ v) x p
  root : stack = [] → ∀ x y, Fresh s s' x → x ≠ v → Fresh s s' y → y ≠ v →
    Within adj (fun z => Fresh s s' z ∧ z ≠ v) x y

/-- A value of `low` that is not that of a new node comes from an edge to an old one. -/
def LowEdge (v : Fin n) (s s' : ApState n) : Prop :=
  s'.low v ≤ s.time →
    ∃ x y, Fresh s s' x ∧ s.checked y = true ∧ adj x y ∧ s.discovered y = s'.low v

/-- What a call leaves that finds no articulation point. -/
structure Left (stack : List (Fin n)) (v : Fin n) (s s' : ApState n) : Prop where
  frame : Frame v s s'
  joined : Joined adj stack v s s'
  closed : ∀ x, Fresh s s' x → ∀ y, adj x y → s'.checked y = true
  lowEdge : LowEdge adj v s s'
  low_le : ∀ x, Fresh s s' x → ∀ y, s.checked y = true → adj x y → stack.head? ≠ some y →
    s'.low v ≤ s.discovered y

/-- What a call returns is right. -/
structure CallRight (stack : List (Fin n)) (v : Fin n) (s : ApState n)
    (result : Bool × ApState n) : Prop where
  found : result.1 = true → HasCut adj
  none : result.1 = false → Left adj stack v s result.2

/-- The loop for `v`, which was entered from `s`; `children` calls were made. -/
structure Scanning (stack : List (Fin n)) (v : Fin n) (s : ApState n) (children : ℕ)
    (s' : ApState n) : Prop where
  frame : Frame v s s'
  joined : Joined adj stack v s s'
  closed : ∀ x, Fresh s s' x → x ≠ v → ∀ y, adj x y → s'.checked y = true
  lowEdge : LowEdge adj v s s'
  low_le : ∀ x, Fresh s s' x → x ≠ v → ∀ y, s.checked y = true → adj x y →
    s'.low v ≤ s.discovered y
  discovered_self : s'.discovered v = s.time + 1
  low_self : s'.low v ≤ s.time + 1
  child : 0 < children → ∃ x, Fresh s s' x ∧ x ≠ v
  none : children = 0 → ∀ x, Fresh s s' x → x = v

/-- An edge of `v` that the loop is done with. -/
def Done (stack : List (Fin n)) (v : Fin n) (s s' : ApState n) (y : Fin n) : Prop :=
  s'.checked y = true ∧ (s.checked y = true → stack.head? ≠ some y → s'.low v ≤ s.discovered y)

end Calls

section Right

variable {adj : Fin n → Fin n → Prop} {stack : List (Fin n)} {v w : Fin n} {s s' s'' : ApState n}
  {children : ℕ}

theorem Fresh.not_checked {x : Fin n} (h : Fresh s s' x) : ¬ s.checked x = true := by
  rw [h.2]
  exact Bool.false_ne_true

theorem checked_false {x : Fin n} (h : ¬ s.checked x = true) : s.checked x = false := by
  cases hx : s.checked x with
  | true => exact absurd hx h
  | false => rfl

/-- What is checked in the end was checked before or is new. -/
theorem checked_or_fresh {x : Fin n} (h : s'.checked x = true) : s.checked x = true ∨ Fresh s s' x := by
  by_cases hx : s.checked x = true
  · exact Or.inl hx
  · exact Or.inr ⟨h, checked_false hx⟩

theorem ne_of_checked (hready : Ready adj stack v s) {x : Fin n} (hx : s.checked x = true) : x ≠ v := by
  rintro rfl
  rw [hready.unchecked] at hx
  exact Bool.false_ne_true hx

/-! ## Before the loop -/

theorem fresh_enter (hready : Ready adj stack v s) {x : Fin n} :
    Fresh s (enter v s) x ↔ x = v := by
  unfold Fresh enter
  dsimp only
  by_cases hx : x = v
  · subst hx
    rw [update_self]
    exact ⟨fun _ => rfl, fun _ => ⟨rfl, hready.unchecked⟩⟩
  · rw [update_of_ne hx]
    constructor
    · rintro ⟨htrue, hfalse⟩
      exact absurd (htrue.symm.trans hfalse) (by decide)
    · exact fun he => absurd he hx

theorem frame_enter (hready : Ready adj stack v s) : Frame v s (enter v s) := by
  have hne : ∀ x, s.checked x = true → x ≠ v := fun x hx => ne_of_checked hready hx
  have hself : (enter v s).discovered v = s.time + 1 := update_self v _ _
  have hother : ∀ x, s.checked x = true → (enter v s).discovered x = s.discovered x :=
    fun x hx => update_of_ne (hne x hx) _ _
  constructor
  case grows => exact fun x hx => (update_of_ne (hne x hx) _ _).trans hx
  case entered => exact update_self v _ _
  case discovered => exact hother
  case low => exact fun x hx => update_of_ne (hne x hx) _ _
  case parentOf => exact fun x _ => rfl
  case discovered_le =>
    intro x hx
    show (enter v s).discovered x ≤ s.time + 1
    rcases checked_or_fresh hx with hx | hx
    · rw [hother x hx]
      exact Nat.le_succ_of_le (hready.discovered_le x hx)
    · rw [(fresh_enter hready).mp hx, hself]
  case later =>
    intro x hx
    rw [(fresh_enter hready).mp hx, hself]
    exact Nat.lt_succ_self _

theorem scanning_enter (hready : Ready adj stack v s) : Scanning adj stack v s 0 (enter v s) := by
  have hfresh : ∀ {x}, Fresh s (enter v s) x → x = v := fun h => (fresh_enter hready).mp h
  have hlow : (enter v s).low v = s.time + 1 := update_self v _ _
  constructor
  case frame => exact frame_enter hready
  case joined =>
    constructor
    case reach =>
      intro x hx
      rw [hfresh hx]
      exact .refl v
    case inner => exact fun c hc hcv => absurd (hfresh hc) hcv
    case top => exact fun p _ x hx hxv => absurd (hfresh hx) hxv
    case root => exact fun _ x y hx hxv => absurd (hfresh hx) hxv
  case closed | low_le => exact fun x hx hxv => absurd (hfresh hx) hxv
  case lowEdge =>
    intro hle
    rw [hlow] at hle
    exact absurd hle (Nat.not_succ_le_self _)
  case discovered_self => exact update_self v _ _
  case low_self => exact hlow.le
  case child => exact fun h => absurd h (lt_irrefl 0)
  case none => exact fun _ x hx => hfresh hx

/-! ## A back edge -/

/-- Only `low[v]` is changed, and it gets smaller. -/
structure LowLess (v : Fin n) (s s' : ApState n) : Prop where
  checked : s'.checked = s.checked
  parentOf : s'.parentOf = s.parentOf
  discovered : s'.discovered = s.discovered
  time : s'.time = s.time
  low_le : s'.low v ≤ s.low v
  low_ne : ∀ x, x ≠ v → s'.low x = s.low x

theorem lowLess_setLow {value : ℕ} (h : value ≤ s.low v) : LowLess v s (setLow v value s) where
  checked := rfl
  parentOf := rfl
  discovered := rfl
  time := rfl
  low_le := (update_self v value s.low).le.trans h
  low_ne _ hx := update_of_ne hx _ _

theorem fresh_congr (h : s''.checked = s'.checked) : Fresh s s'' = Fresh s s' := by
  funext x
  unfold Fresh
  rw [h]

theorem Frame.lowLess (hready : Ready adj stack v s) (h : Frame v s s') (hless : LowLess v s' s'') :
    Frame v s s'' := by
  constructor
  case grows =>
    rw [hless.checked]
    exact h.grows
  case entered =>
    rw [hless.checked]
    exact h.entered
  case discovered =>
    rw [hless.discovered]
    exact h.discovered
  case low => exact fun x hx => (hless.low_ne x (ne_of_checked hready hx)).trans (h.low x hx)
  case parentOf =>
    rw [hless.parentOf]
    exact h.parentOf
  case discovered_le =>
    rw [hless.checked, hless.discovered, hless.time]
    exact h.discovered_le
  case later =>
    rw [fresh_congr hless.checked, hless.discovered]
    exact h.later

theorem Joined.congr (h : Joined adj stack v s s') (hchecked : s''.checked = s'.checked) :
    Joined adj stack v s s'' := by
  have hfresh : Fresh s s'' = Fresh s s' := fresh_congr hchecked
  constructor
  case reach =>
    rw [hfresh]
    exact h.reach
  case inner =>
    rw [hfresh]
    exact h.inner
  case top =>
    rw [hfresh]
    exact h.top
  case root =>
    rw [hfresh]
    exact h.root

theorem Scanning.lowLess (hready : Ready adj stack v s) (h : Scanning adj stack v s children s')
    (hless : LowLess v s' s'') (hedge : LowEdge adj v s s'') : Scanning adj stack v s children s'' := by
  have hfresh : Fresh s s'' = Fresh s s' := fresh_congr hless.checked
  constructor
  case frame => exact h.frame.lowLess hready hless
  case joined => exact h.joined.congr hless.checked
  case closed =>
    rw [hfresh, hless.checked]
    exact h.closed
  case lowEdge => exact hedge
  case low_le =>
    rw [hfresh]
    exact fun x hx hxv y hy hxy => hless.low_le.trans (h.low_le x hx hxv y hy hxy)
  case discovered_self =>
    rw [hless.discovered]
    exact h.discovered_self
  case low_self => exact hless.low_le.trans h.low_self
  case child =>
    rw [hfresh]
    exact h.child
  case none =>
    rw [hfresh]
    exact h.none

/-- What is done stays done. -/
theorem Done.mono {y : Fin n} (h : Done stack v s s' y)
    (hgrows : ∀ x, s'.checked x = true → s''.checked x = true) (hlow : s''.low v ≤ s'.low v) :
    Done stack v s s'' y :=
  ⟨hgrows y h.1, fun hy hp => hlow.trans (h.2 hy hp)⟩

/-! ## The call for a new node -/

theorem ready_child (hsymm : ∀ {a b}, adj a b → adj b a) (hready : Ready adj stack v s) (h : Scanning adj stack v s children s')
    (hw : s'.checked w = false) (hvw : adj v w) :
    Ready adj (v :: stack) w (setParent w v s') := by
  constructor
  case unchecked => exact hw
  case onStack =>
    intro x hx
    rcases mem_cons.mp hx with rfl | hx
    · exact h.frame.entered
    · exact h.frame.grows x (hready.onStack x hx)
  case finished =>
    intro x hx hxs y hxy
    rw [mem_cons, not_or] at hxs
    rcases checked_or_fresh (s := s) hx with hx | hx
    · exact h.frame.grows y (hready.finished x hx hxs.2 y hxy)
    · exact h.closed x hx hxs.1 y hxy
  case discovered_le => exact h.frame.discovered_le
  case parent => exact update_self w _ _
  case adjacent =>
    intro p hp
    rw [head?_cons, some_inj] at hp
    exact hp ▸ hvw
  case joined =>
    have hsub : ∀ x, x ∈ stack → x ∈ v :: stack := fun x => mem_cons_of_mem v
    -- the caller of `v` is the first of the stack
    have hto : ∀ x ∈ stack, Within adj (· ∈ v :: stack) x v := by
      intro x hx
      cases hstack : stack with
      | nil =>
        rw [hstack] at hx
        exact absurd hx not_mem_nil
      | cons p rest =>
        have hp : p ∈ stack := hstack ▸ mem_cons_self
        have hadj : adj p v := hready.adjacent p (by rw [hstack, head?_cons])
        rw [← hstack]
        exact ((hready.joined x hx p hp).mono hsub).trans
          (.step hadj (hsub p hp) mem_cons_self)
    intro x hx y hy
    rcases mem_cons.mp hx with hxv | hx
    · rw [hxv]
      rcases mem_cons.mp hy with hyv | hy
      · rw [hyv]
        exact .refl v
      · exact (hto y hy).symm hsymm
    · rcases mem_cons.mp hy with hyv | hy
      · rw [hyv]
        exact hto x hx
      · exact (hready.joined x hx y hy).mono hsub

section Child

variable (hsymm : ∀ {a b}, adj a b → adj b a) (hready : Ready adj stack v s)
  (h : Scanning adj stack v s children s') (hw : s'.checked w = false) (hvw : adj v w)
  (hleft : Left adj (v :: stack) w (setParent w v s') s'')

include h in
theorem time_lt : s.time < s'.time := by
  have hself := h.frame.discovered_le v h.frame.entered
  rw [h.discovered_self] at hself
  exact hself

include h hw hleft in
theorem frame_child : Frame v s s'' := by
  have hgrows : ∀ x, s'.checked x = true → s''.checked x = true := hleft.frame.grows
  have hparent : ∀ x, s'.checked x = true → (setParent w v s').parentOf x = s'.parentOf x := by
    intro x hx
    have hxw : x ≠ w := by
      rintro rfl
      rw [hw] at hx
      exact Bool.false_ne_true hx
    exact update_of_ne hxw _ _
  have hold : ∀ x, s.checked x = true ∨ x = v → s'.checked x = true := by
    rintro x (hx | rfl)
    · exact h.frame.grows x hx
    · exact h.frame.entered
  constructor
  case grows => exact fun x hx => hgrows x (h.frame.grows x hx)
  case entered => exact hgrows v h.frame.entered
  case discovered =>
    intro x hx
    exact (hleft.frame.discovered x (h.frame.grows x hx)).trans (h.frame.discovered x hx)
  case low =>
    intro x hx
    exact (hleft.frame.low x (h.frame.grows x hx)).trans (h.frame.low x hx)
  case parentOf =>
    intro x hx
    have hx' := hold x hx
    exact (hleft.frame.parentOf x (Or.inl hx')).trans ((hparent x hx').trans (h.frame.parentOf x hx))
  case discovered_le => exact hleft.frame.discovered_le
  case later =>
    intro x hx
    rcases checked_or_fresh (s := s') hx.1 with hx' | hx'
    · rw [hleft.frame.discovered x hx']
      exact h.frame.later x ⟨hx', hx.2⟩
    · exact (time_lt h).trans (hleft.frame.later x hx')

include h in
/-- A new node of the call is new. -/
theorem fresh_of_child {x : Fin n} (hx : Fresh s' s'' x) : Fresh s s'' x :=
  ⟨hx.1, checked_false fun hs => hx.not_checked (h.frame.grows x hs)⟩

include hleft in
theorem fresh_of_old {x : Fin n} (hx : Fresh s s' x) : Fresh s s'' x :=
  ⟨hleft.frame.grows x hx.1, hx.2⟩

theorem old_or_child {x : Fin n} (hx : Fresh s s'' x) : Fresh s s' x ∨ Fresh s' s'' x := by
  rcases checked_or_fresh (s := s') hx.1 with hx' | hx'
  · exact Or.inl ⟨hx', hx.2⟩
  · exact Or.inr hx'

include h hready in
theorem fresh_self : Fresh s s' v := ⟨h.frame.entered, hready.unchecked⟩

include hleft hw in
theorem fresh_child : Fresh s' s'' w := ⟨hleft.frame.entered, hw⟩

include hready h in
/-- Who has an unchecked neighbour is on the stack. -/
theorem mem_stack_of_unchecked {x y : Fin n} (hx : s'.checked x = true) (hxy : adj x y)
    (hy : s'.checked y = false) : x = v ∨ x ∈ stack := by
  by_contra hno
  rw [not_or] at hno
  have hchecked : s'.checked y = true := by
    rcases checked_or_fresh (s := s) hx with hx | hx
    · exact h.frame.grows y (hready.finished x hx hno.2 y hxy)
    · exact h.closed x hx hno.1 y hxy
  rw [hy] at hchecked
  exact Bool.false_ne_true hchecked

include h hready hsymm hleft in
/-- A small `low` of the child is the discovery time of a node below `v` on the stack. -/
theorem exists_edge_of_low (hlow : s''.low w ≤ s.time) :
    ∃ x y, Fresh s' s'' x ∧ y ∈ stack ∧ s.checked y = true ∧ adj x y ∧
      s.discovered y = s''.low w := by
  rcases hleft.lowEdge (hlow.trans (time_lt h).le) with ⟨x, y, hx, hy, hxy, hdisc⟩
  have hdisc : s'.discovered y = s''.low w := hdisc
  have hys : s.checked y = true := by
    rcases checked_or_fresh (s := s) hy with hys | hys
    · exact hys
    · have hlater := h.frame.later y hys
      omega
  rcases mem_stack_of_unchecked hready h hy (hsymm hxy) hx.2 with rfl | hmem
  · exact absurd rfl (ne_of_checked hready hys)
  · exact ⟨x, y, hx, hmem, hys, hxy, (h.frame.discovered y hys).symm.trans hdisc⟩

include hready h hw hvw hleft hsymm in
/-- The call adds a subtree that is joined to the stack without `v`. -/
theorem joined_child (hlow : ∀ p, stack.head? = some p → s''.low w < s''.discovered v)
    (hroot : stack = [] → children = 0) : Joined adj stack v s s'' := by
  have hj := h.joined
  have hjw := hleft.joined
  have hself : Fresh s s' v := fresh_self hready h
  have hnew : Fresh s' s'' w := fresh_child hw hleft
  have hvnew : ¬ Fresh s' s'' v := fun hv => hv.not_checked h.frame.entered
  -- the ways inside the old part and inside the subtree
  have hold : ∀ x, Fresh s s' x → Within adj (Fresh s s') v x := hj.reach
  have hsub : ∀ x, Fresh s' s'' x → Within adj (Fresh s' s'') w x := hjw.reach
  constructor
  case reach =>
    intro x hx
    rcases old_or_child hx with hx | hx
    · exact (hold x hx).mono fun _ => fresh_of_old hleft
    · have hstep : Within adj (Fresh s s'') v w :=
        .step hvw (fresh_of_old hleft hself) (fresh_of_child h hnew)
      exact hstep.trans ((hsub x hx).mono fun _ => fresh_of_child h)
  case inner =>
    intro c hc hcv x hx hxc
    have hwv : c ≠ w → Within adj (fun y => (Fresh s s'' y ∨ y ∈ stack) ∧ y ≠ c) w v := fun hcw =>
      .step (hsymm hvw) ⟨Or.inl (fresh_of_child h hnew), hcw.symm⟩
        ⟨Or.inl (fresh_of_old hleft hself), hcv.symm⟩
    rcases old_or_child hc with hc | hc
    · rcases old_or_child hx with hx | hx
      · refine (hj.inner c hc hcv x hx hxc).mono ?_
        exact fun y hy => ⟨hy.1.imp (fresh_of_old hleft) id, hy.2⟩
      · have hcw : c ≠ w := fun he => hnew.not_checked (he ▸ hc.1)
        refine Within.trans (((hsub x hx).symm hsymm).mono ?_) (hwv hcw)
        exact fun y hy => ⟨Or.inl (fresh_of_child h hy), fun he => hy.not_checked (he ▸ hc.1)⟩
    · rcases old_or_child hx with hx | hx
      · refine ((hold x hx).symm hsymm).mono ?_
        exact fun y hy => ⟨Or.inl (fresh_of_old hleft hy), fun he => hc.not_checked (he ▸ hy.1)⟩
      · have hin : ∀ y, (Fresh s' s'' y ∨ y ∈ v :: stack) ∧ y ≠ c →
            (Fresh s s'' y ∨ y ∈ stack) ∧ y ≠ c := by
          rintro y ⟨hy | hy, hyc⟩
          · exact ⟨Or.inl (fresh_of_child h hy), hyc⟩
          · rcases mem_cons.mp hy with hyv | hy
            · exact ⟨Or.inl (hyv ▸ fresh_of_old hleft hself), hyc⟩
            · exact ⟨Or.inr hy, hyc⟩
        by_cases hcw : c = w
        · -- without the child, the subtree hangs on `v`
          subst hcw
          exact (hjw.top v (head?_cons) x hx hxc).mono hin
        · exact ((hjw.inner c hc hcw x hx hxc).mono hin).trans (hwv hcw)
  case top =>
    intro p hp x hx hxv
    rcases old_or_child hx with hx | hx
    · refine (hj.top p hp x hx hxv).mono ?_
      exact fun y hy => ⟨hy.1.imp (fresh_of_old hleft) id, hy.2⟩
    · -- an edge of the subtree leads below `v`
      have hdisc : s''.discovered v = s.time + 1 :=
        (hleft.frame.discovered v h.frame.entered).trans h.discovered_self
      have hlt := hlow p hp
      rcases exists_edge_of_low hsymm hready h hleft (by omega) with ⟨a, b, ha, hb, -, hab, -⟩
      have hpm : p ∈ stack := mem_of_head? hp
      have hne : ∀ y, y ∈ stack → y ≠ v := fun y hy => ne_of_checked hready (hready.onStack y hy)
      have hsubv : ∀ y, Fresh s' s'' y → (Fresh s s'' y ∨ y ∈ stack) ∧ y ≠ v :=
        fun y hy => ⟨Or.inl (fresh_of_child h hy), fun he => hvnew (he ▸ hy)⟩
      have hstackv : ∀ y, y ∈ stack → (Fresh s s'' y ∨ y ∈ stack) ∧ y ≠ v :=
        fun y hy => ⟨Or.inr hy, hne y hy⟩
      have hxa : Within adj (Fresh s' s'') x a := ((hsub x hx).symm hsymm).trans (hsub a ha)
      exact (hxa.mono hsubv).trans (Within.trans (.step hab (hsubv a ha) (hstackv b hb))
        ((hready.joined b hb p hpm).mono hstackv))
  case root =>
    intro hstack x y hx hxv hy hyv
    have honly := h.none (hroot hstack)
    have hchild : ∀ z, Fresh s s'' z → z ≠ v → Fresh s' s'' z := by
      intro z hz hzv
      rcases old_or_child hz with hz | hz
      · exact absurd (honly z hz) hzv
      · exact hz
    have hxy := ((hsub x (hchild x hx hxv)).symm hsymm).trans (hsub y (hchild y hy hyv))
    exact hxy.mono fun z hz => ⟨fresh_of_child h hz, fun he => hvnew (he ▸ hz)⟩

include hready h hw hvw hleft hsymm in
/-- A subtree that reaches nothing below `v` is cut off by `v`. -/
theorem hasCut_of_low {p : Fin n} (hp : stack.head? = some p)
    (hlow : s''.low w ≥ s''.discovered v) : HasCut adj := by
  have hdisc : s''.discovered v = s.time + 1 :=
    (hleft.frame.discovered v h.frame.entered).trans h.discovered_self
  have hpm : p ∈ stack := mem_of_head? hp
  have hps : s.checked p = true := hready.onStack p hpm
  have hwv : w ≠ v := by
    rintro rfl
    rw [h.frame.entered] at hw
    exact Bool.false_ne_true hw.symm
  refine ⟨v, w, p, hwv, ne_of_checked hready hps, ?_, ?_⟩
  · exact Within.trans (.step (hsymm hvw) trivial trivial)
      (.step (hsymm (hready.adjacent p hp)) trivial trivial)
  · refine Within.not_of_closed (A := Fresh s' s'') ?_ (fresh_child hw hleft) ?_
    · intro x y hx hxy _ hyv
      rcases checked_or_fresh (s := s') (hleft.closed x hx y hxy) with hy | hy
      · rcases mem_stack_of_unchecked hready h hy (hsymm hxy) hx.2 with rfl | hmem
        · exact absurd rfl hyv
        · -- an edge to a node below `v` would have made `low` smaller
          have hys := hready.onStack y hmem
          have hhead : (v :: stack).head? ≠ some y := by
            rw [head?_cons, Ne, some_inj]
            exact hyv.symm
          have hle : s''.low w ≤ s'.discovered y := hleft.low_le x hx y hy hxy hhead
          rw [h.frame.discovered y hys] at hle
          have htime := hready.discovered_le y hys
          omega
      · exact hy
    · exact fun hfresh => hfresh.not_checked (h.frame.grows p hps)

include hready h hw hvw hsymm in
/-- The root of the search separates its children. -/
theorem hasCut_of_children (hstack : stack = []) (hchildren : 0 < children) : HasCut adj := by
  rcases h.child hchildren with ⟨x, hx, hxv⟩
  have hwv : w ≠ v := by
    rintro rfl
    rw [h.frame.entered] at hw
    exact Bool.false_ne_true hw.symm
  refine ⟨v, x, w, hxv, hwv, ?_, ?_⟩
  · have hreach := ((h.joined.reach x hx).symm hsymm).mono (T := fun _ => True) fun _ _ => trivial
    exact hreach.trans (.step hvw trivial trivial)
  · refine Within.not_of_closed (A := fun y => Fresh s s' y ∧ y ≠ v) ?_ ⟨hx, hxv⟩ ?_
    · rintro y z ⟨hy, hyv⟩ hyz - hzv
      rcases checked_or_fresh (s := s) (h.closed y hy hyv z hyz) with hz | hz
      · have hznot : z ∉ stack := by
          rw [hstack]
          exact not_mem_nil
        exact absurd (hready.finished z hz hznot y (hsymm hyz)) hy.not_checked
      · exact ⟨hz, hzv⟩
    · intro hfresh
      have hwtrue := hfresh.1.1
      rw [hw] at hwtrue
      exact Bool.false_ne_true hwtrue

include hready h hw hvw hleft hsymm in
/-- The loop after a call that found nothing and a child that is not cut off. -/
theorem scanning_child {t : ApState n} (hless : LowLess v s'' t) (htlow : t.low v ≤ s''.low w)
    (heither : t.low v = s''.low v ∨ t.low v = s''.low w)
    (hlow : ∀ p, stack.head? = some p → s''.low w < s''.discovered v)
    (hroot : stack = [] → children = 0) : Scanning adj stack v s (children + 1) t := by
  have hfresh : Fresh s t = Fresh s s'' := fresh_congr hless.checked
  have hlowv : s''.low v = s'.low v := hleft.frame.low v h.frame.entered
  constructor
  case frame => exact (frame_child h hw hleft).lowLess hready hless
  case joined => exact (joined_child hsymm hready h hw hvw hleft hlow hroot).congr hless.checked
  case closed =>
    rw [hfresh, hless.checked]
    intro x hx hxv y hxy
    rcases old_or_child hx with hx | hx
    · exact hleft.frame.grows y (h.closed x hx hxv y hxy)
    · exact hleft.closed x hx y hxy
  case lowEdge =>
    intro hle
    rw [hfresh]
    rcases heither with heq | heq
    · rw [heq, hlowv] at hle
      rw [heq, hlowv]
      rcases h.lowEdge hle with ⟨x, y, hx, hy, hxy, hdisc⟩
      exact ⟨x, y, fresh_of_old hleft hx, hy, hxy, hdisc⟩
    · rw [heq] at hle
      rw [heq]
      rcases exists_edge_of_low hsymm hready h hleft hle with ⟨x, y, hx, -, hy, hxy, hdisc⟩
      exact ⟨x, y, fresh_of_child h hx, hy, hxy, hdisc⟩
  case low_le =>
    rw [hfresh]
    intro x hx hxv y hy hxy
    rcases old_or_child hx with hx | hx
    · exact (hless.low_le.trans hlowv.le).trans (h.low_le x hx hxv y hy hxy)
    · have hhead : (v :: stack).head? ≠ some y := by
        rw [head?_cons, Ne, some_inj]
        exact (ne_of_checked hready hy).symm
      have hle : s''.low w ≤ s'.discovered y := hleft.low_le x hx y (h.frame.grows y hy) hxy hhead
      rw [h.frame.discovered y hy] at hle
      exact htlow.trans hle
  case discovered_self =>
    rw [hless.discovered]
    exact (hleft.frame.discovered v h.frame.entered).trans h.discovered_self
  case low_self => exact (hless.low_le.trans hlowv.le).trans h.low_self
  case child =>
    intro _
    refine ⟨w, hfresh ▸ fresh_of_child h (fresh_child hw hleft), ?_⟩
    rintro rfl
    rw [h.frame.entered] at hw
    exact Bool.false_ne_true hw.symm
  case none => exact fun hzero => absurd hzero (Nat.succ_ne_zero children)

end Child

theorem pullLow_spec (v w : Fin n) (s : ApState n) : LowLess v s (pullLow v w s) ∧
    (pullLow v w s).low v ≤ s.low w ∧
    ((pullLow v w s).low v = s.low v ∨ (pullLow v w s).low v = s.low w) := by
  unfold pullLow
  split
  case isTrue hlt =>
    have hself : (setLow v (s.low w) s).low v = s.low w := update_self v _ _
    exact ⟨lowLess_setLow hlt.le, hself.le, Or.inr hself⟩
  case isFalse hge =>
    exact ⟨⟨rfl, rfl, rfl, rfl, le_rfl, fun _ _ => rfl⟩, not_lt.mp hge, Or.inl rfl⟩

/-! ## The loop and the calls -/

/-- The number of nodes that are not checked. -/
def unchecked (s : ApState n) : ℕ := (Finset.univ.filter fun x => s.checked x = false).card

theorem unchecked_le (h : ∀ x, s.checked x = true → s'.checked x = true) :
    unchecked s' ≤ unchecked s := by
  refine Finset.card_le_card ?_
  intro x hx
  rw [Finset.mem_filter] at hx ⊢
  refine ⟨hx.1, checked_false fun hs => ?_⟩
  rw [h x hs] at hx
  exact Bool.false_ne_true hx.2.symm

theorem unchecked_enter_lt (hv : s.checked v = false) : unchecked (enter v s) < unchecked s := by
  have hself : (enter v s).checked v = true := update_self v _ _
  have hother : ∀ x, x ≠ v → (enter v s).checked x = s.checked x :=
    fun x hx => update_of_ne hx _ _
  refine Finset.card_lt_card ⟨?_, ?_⟩
  · intro x hx
    rw [Finset.mem_filter] at hx ⊢
    refine ⟨hx.1, ?_⟩
    by_cases hxv : x = v
    · exact hxv ▸ hv
    · exact (hother x hxv).symm.trans hx.2
  · intro hsub
    have hmem := hsub (Finset.mem_filter.mpr ⟨Finset.mem_univ v, hv⟩)
    rw [Finset.mem_filter] at hmem
    exact Bool.false_ne_true (hmem.2.symm.trans hself)

/-- What the loop returns, by induction on the edges that are left. -/
theorem scan_right (hsymm : ∀ {a b}, adj a b → adj b a) {fuel : ℕ}
    {visit : Fin n → ApState n → Bool × ApState n}
    (hvisit : ∀ w t, Ready adj (v :: stack) w t → unchecked t ≤ fuel →
      CallRight adj (v :: stack) w t (visit w t))
    (hready : Ready adj stack v s) (edges : List (Edge n))
    (hedges : ∀ e ∈ edges, adj v e.destination) (h : Scanning adj stack v s children s')
    (hroot : stack = [] → children ≤ 1) (hfuel : unchecked s' ≤ fuel)
    (hdone : ∀ y, adj v y → (∃ e ∈ edges, e.destination = y) ∨ Done stack v s s' y) :
    CallRight adj stack v s (scan visit v edges children s') := by
  induction edges generalizing children s' with
  | nil =>
    have hall : ∀ y, adj v y → Done stack v s s' y := by
      intro y hy
      refine (hdone y hy).resolve_left ?_
      rintro ⟨e, he, -⟩
      exact not_mem_nil he
    constructor
    case found => exact fun hfalse => absurd hfalse Bool.false_ne_true
    case none =>
      intro _
      constructor
      case frame => exact h.frame
      case joined => exact h.joined
      case closed =>
        intro x hx y hxy
        by_cases hxv : x = v
        · exact (hall y (hxv ▸ hxy)).1
        · exact h.closed x hx hxv y hxy
      case lowEdge => exact h.lowEdge
      case low_le =>
        intro x hx y hy hxy hp
        by_cases hxv : x = v
        · exact (hall y (hxv ▸ hxy)).2 hy hp
        · exact h.low_le x hx hxv y hy hxy
  | cons e edges ih =>
    have hve : adj v e.destination := hedges e mem_cons_self
    have hrest : ∀ e' ∈ edges, adj v e'.destination :=
      fun e' he' => hedges e' (mem_cons_of_mem e he')
    -- what is done after this edge
    have hnext : ∀ {t : ApState n}, Done stack v s t e.destination →
        (∀ x, s'.checked x = true → t.checked x = true) → t.low v ≤ s'.low v →
        ∀ y, adj v y → (∃ e' ∈ edges, e'.destination = y) ∨ Done stack v s t y := by
      intro t hself hgrows hlow y hy
      rcases hdone y hy with ⟨e', he', rfl⟩ | hd
      · rcases mem_cons.mp he' with rfl | he'
        · exact Or.inr hself
        · exact Or.inl ⟨e', he', rfl⟩
      · exact Or.inr (hd.mono hgrows hlow)
    unfold scan
    dsimp only
    generalize e.destination = w at hve hnext
    by_cases hw : s'.checked w = true
    · rw [hw, Bool.not_true, if_neg Bool.false_ne_true]
      split
      case isTrue hback =>
        -- the smaller time is that of a node from before `v`
        have hlt := hback.2
        have hless : LowLess v s' (setLow v (s'.discovered w) s') := lowLess_setLow hlt.le
        have hself : (setLow v (s'.discovered w) s').low v = s'.discovered w :=
          update_self v _ _
        have hws : s.checked w = true := by
          rcases checked_or_fresh (s := s) hw with hws | hws
          · exact hws
          · have hlater := h.frame.later w hws
            have hlow := h.low_self
            omega
        have hdisc := h.frame.discovered w hws
        have hedge : LowEdge adj v s (setLow v (s'.discovered w) s') := by
          have hv : Fresh s s' v := fresh_self hready h
          intro _
          rw [hself, hdisc]
          exact ⟨v, w, hv, hws, hve, rfl⟩
        refine ih hrest (h.lowLess hready hless hedge) hroot hfuel (hnext ?_ (fun _ => id) hless.low_le)
        exact ⟨hw, fun _ _ => (hself.trans hdisc).le⟩
      case isFalse hno =>
        refine ih hrest h hroot hfuel (hnext ⟨hw, ?_⟩ (fun _ => id) le_rfl)
        intro hws hp
        have hparent : s'.parentOf v ≠ some w := by
          rw [h.frame.parentOf v (Or.inr rfl), hready.parent]
          exact hp
        have hge : s'.low v ≤ s'.discovered w := not_lt.mp fun hlt => hno ⟨hparent, hlt⟩
        rwa [h.frame.discovered w hws] at hge
    · have hw := checked_false hw
      rw [hw, Bool.not_false, if_pos rfl]
      have hcall := hvisit w (setParent w v s') (ready_child hsymm hready h hw hve) hfuel
      generalize visit w (setParent w v s') = result at hcall
      rcases result with ⟨containsAP, s''⟩
      dsimp only
      cases containsAP with
      | true => exact ⟨fun _ => hcall.found rfl, fun hfalse => absurd hfalse.symm Bool.false_ne_true⟩
      | false =>
        have hleft := hcall.none rfl
        rcases pullLow_spec v w s'' with ⟨hless, htlow, heither⟩
        have hframe : Frame v s s'' := frame_child h hw hleft
        have hparent : (pullLow v w s'').parentOf v = stack.head? := by
          rw [hless.parentOf, hframe.parentOf v (Or.inr rfl), hready.parent]
        have hloww : (pullLow v w s'').low w = s''.low w := by
          refine hless.low_ne w ?_
          rintro rfl
          rw [h.frame.entered] at hw
          exact Bool.false_ne_true hw.symm
        rw [if_neg Bool.false_ne_true]
        split
        case isTrue hsep =>
          refine ⟨fun _ => ?_, fun hfalse => absurd hfalse.symm Bool.false_ne_true⟩
          unfold Separates at hsep
          rw [hparent, hloww, hless.discovered] at hsep
          rcases hsep with ⟨hnone, htwo⟩ | ⟨hsome, hlow⟩
          · exact hasCut_of_children hsymm hready h hw hve (head?_eq_none_iff.mp hnone)
              (by omega)
          · rcases ne_none_iff_exists'.mp hsome with ⟨p, hp⟩
            exact hasCut_of_low hsymm hready h hw hve hleft hp hlow
        case isFalse hno =>
          unfold Separates at hno
          rw [hparent, hloww, hless.discovered, not_or] at hno
          have hlow : ∀ p, stack.head? = some p → s''.low w < s''.discovered v := by
            intro p hp
            refine not_le.mp fun hge => hno.2 ⟨?_, hge⟩
            rw [hp]
            exact some_ne_none p
          have hzero : stack = [] → children = 0 := by
            intro hstack
            by_contra hne
            exact hno.1 ⟨head?_eq_none_iff.mpr hstack, by omega⟩
          have hgrows : ∀ x, s'.checked x = true → (pullLow v w s'').checked x = true := by
            rw [hless.checked]
            exact hleft.frame.grows
          have hlowv : (pullLow v w s'').low v ≤ s'.low v :=
            hless.low_le.trans (hleft.frame.low v h.frame.entered).le
          refine ih hrest (scanning_child hsymm hready h hw hve hleft hless htlow heither hlow hzero)
            ?_ ((unchecked_le hgrows).trans hfuel) (hnext ⟨?_, ?_⟩ hgrows hlowv)
          · intro hstack
            rw [hzero hstack]
          · rw [hless.checked]
            exact hleft.frame.entered
          · intro hws
            have hwtrue := h.frame.grows w hws
            rw [hw] at hwtrue
            exact absurd hwtrue Bool.false_ne_true

/-- The nodes that the list of a node leads to. -/
def Adjacent (graph : Fin n → List (Edge n)) (a b : Fin n) : Prop :=
  ∃ e ∈ graph a, e.destination = b

/-- What a call returns, by induction on the depth that is left. -/
theorem recursiveAP_right {graph : Fin n → List (Edge n)}
    (hsymm : ∀ {a b}, Adjacent graph a b → Adjacent graph b a) (fuel : ℕ) {stack : List (Fin n)}
    {v : Fin n} {s : ApState n} (hready : Ready (Adjacent graph) stack v s)
    (hfuel : unchecked s ≤ fuel) :
    CallRight (Adjacent graph) stack v s (recursiveAP graph fuel v s) := by
  induction fuel generalizing stack v s with
  | zero =>
    have hlt := unchecked_enter_lt hready.unchecked
    omega
  | succ fuel ih =>
    have hlt := unchecked_enter_lt hready.unchecked
    have hle : unchecked (enter v s) ≤ fuel := by omega
    unfold recursiveAP
    exact scan_right hsymm (fun w t ht htfuel => ih ht htfuel) hready (graph v)
      (fun e he => ⟨e, he, rfl⟩) (scanning_enter hready) (fun _ => Nat.zero_le 1) hle
      (fun y hy => Or.inl hy)

theorem ready_start {adj : Fin n → Fin n → Prop} (root : Fin n) : Ready adj [] root (start n) where
  unchecked := rfl
  onStack _ hx := absurd hx not_mem_nil
  finished _ hx := absurd hx Bool.false_ne_true
  discovered_le _ _ := le_rfl
  parent := rfl
  adjacent _ hp := absurd hp (some_ne_none _).symm
  joined _ hx := absurd hx not_mem_nil

/-- The search is right about the nodes that are joined to the root. -/
theorem hasArticulationPoint_spec {graph : Fin n → List (Edge n)}
    (hsymm : ∀ {a b}, Adjacent graph a b → Adjacent graph b a) (root : Fin n) :
    (hasArticulationPoint graph root = true → HasCut (Adjacent graph)) ∧
      (hasArticulationPoint graph root = false → ∀ c a b, a ≠ c → b ≠ c →
        Within (Adjacent graph) (fun _ => True) root a →
        Within (Adjacent graph) (fun _ => True) root b → Within (Adjacent graph) (· ≠ c) a b) := by
  have hfuel : unchecked (start n) ≤ n := by
    have hle := Finset.card_filter_le (Finset.univ : Finset (Fin n)) fun x =>
      (start n).checked x = false
    rwa [Finset.card_univ, Fintype.card_fin] at hle
  have hright := recursiveAP_right hsymm n (ready_start root) hfuel
  refine ⟨hright.found, ?_⟩
  intro hfalse c a b hac hbc ha hb
  have hleft := hright.none hfalse
  generalize (recursiveAP graph n root (start n)).2 = s at hleft
  -- everything that is joined to the root is new
  have hfresh : ∀ x, Within (Adjacent graph) (fun _ => True) root x → Fresh (start n) s x := by
    intro x hx
    refine hx.mem_of_closed (A := Fresh (start n) s) ?_ ⟨hleft.frame.entered, rfl⟩
    exact fun y z hy hyz _ _ => ⟨hleft.closed y hy z hyz, rfl⟩
  have hj := hleft.joined
  by_cases hc : Fresh (start n) s c
  · by_cases hcroot : c = root
    · subst hcroot
      exact (hj.root rfl a b (hfresh a ha) hac (hfresh b hb) hbc).mono fun _ hx => hx.2
    · have hto : ∀ x, x ≠ c → Fresh (start n) s x → Within (Adjacent graph) (· ≠ c) x root :=
        fun x hxc hx => (hj.inner c hc hcroot x hx hxc).mono fun _ hy => hy.2
      exact (hto a hac (hfresh a ha)).trans ((hto b hbc (hfresh b hb)).symm hsymm)
  · have hway := ((hj.reach a (hfresh a ha)).symm hsymm).trans (hj.reach b (hfresh b hb))
    exact hway.mono fun x hx he => hc (he ▸ hx)

end Right

end ApFind

end PittCs.Cs1501
