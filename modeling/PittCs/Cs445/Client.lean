import PittCs.Cs445.Arithmetic
import PittCs.Lib.TransitionSystem

/-!
# Programs that calculate

A program makes numbers from texts and calls methods on the numbers that it has. Beside the
memory, `vals` says which number each of its objects should be. Two objects never share
nodes, so a method that changes one leaves the others as they are.
-/

namespace PittCs.Cs445.ReallyLongInt

open Lib Function

inductive Call where
  | parse (s : String)
  | add (this rightOp : Ref)
  | subtract (this rightOp : Ref)
  | compareTo (this rOp : Ref)
  | multTenToThe (this : Ref) (num : Nat)
  | divTenToThe (this : Ref) (num : Nat)
  | text (this : Ref)

inductive Answer where
  | number (r : Ref)
  | void
  | order (i : Int)
  | text (s : String)
  | thrown (e : Exc)
deriving DecidableEq

/-- A method call, with an exception as an answer. -/
def answer {α : Type} (f : α → Answer) (m : Java Int α) (h : Heap Int) : Answer × Heap Int :=
  match m h with
  | .ok a h' => (f a, h')
  | .error e h' => (.thrown e, h')

def Call.run : Call → Heap Int → Answer × Heap Int
  | .parse s => answer .number (ofString s)
  | .add this rightOp => answer .number (ReallyLongInt.add this rightOp)
  | .subtract this rightOp => answer .number (ReallyLongInt.subtract this rightOp)
  | .compareTo this rOp => answer .order (ReallyLongInt.compareTo this rOp)
  | .multTenToThe this num => answer (fun _ => .void) (ReallyLongInt.multTenToThe this num)
  | .divTenToThe this num => answer (fun _ => .void) (ReallyLongInt.divTenToThe this num)
  | .text this => answer .text (ReallyLongInt.text this)

/-- The numbers that objects should be. -/
abbrev Vals := Ref → Option Nat

structure State where
  heap : Heap Int
  vals : Vals

def State.start : State := ⟨.empty, fun _ => none⟩

/-- Texts are numerals, and methods are called on numbers that the program has. -/
def Admissible (vals : Vals) : Call → Prop
  | .parse s => IsNumeral s
  | .add this rightOp | .subtract this rightOp | .compareTo this rightOp =>
    (vals this).isSome ∧ (vals rightOp).isSome
  | .multTenToThe this _ | .divTenToThe this _ | .text this => (vals this).isSome

instance (vals : Vals) : DecidablePred (Admissible vals)
  | .parse s => inferInstanceAs (Decidable (IsNumeral s))
  | .add _ _ | .subtract _ _ | .compareTo _ _ => inferInstanceAs (Decidable (_ ∧ _))
  | .multTenToThe _ _ | .divTenToThe _ _ | .text _ => inferInstanceAs (Decidable (_ = _))

/-- The numbers that the objects should be after a call. -/
def record (vals : Vals) : Call → Answer → Vals
  | .parse s, .number r => Function.update vals r (some (decimal s))
  | .add this rightOp, .number r =>
    Function.update vals r (Option.map₂ (· + ·) (vals this) (vals rightOp))
  | .subtract this rightOp, .number r =>
    Function.update vals r (Option.map₂ (· - ·) (vals this) (vals rightOp))
  | .multTenToThe this num, _ => Function.update vals this ((vals this).map (· * 10 ^ num))
  | .divTenToThe this num, _ => Function.update vals this ((vals this).map (· / 10 ^ num))
  | _, _ => vals

/-- An object that the program did not have. -/
def Fresh (vals : Vals) (a : Answer) : Prop := ∃ r, vals r = none ∧ a = .number r

/-- The answer that a call should have. -/
def Correct (vals : Vals) : Call → Answer → Prop
  | .parse _, a => Fresh vals a
  | .add _ _, a => Fresh vals a
  | .subtract this rightOp, a => ∀ x ∈ vals this, ∀ y ∈ vals rightOp,
      if x < y then a = .thrown (.arithmetic "first term less than second term") else Fresh vals a
  | .compareTo this rOp, a => ∀ x ∈ vals this, ∀ y ∈ vals rOp, a = .order ((x : Int) - y).sign
  | .multTenToThe _ _, a => a = .void
  | .divTenToThe _ _, a => a = .void
  | .text this, a => ∀ x ∈ vals this, a = .text (toString x)

/-- The object that a call may change. -/
def Call.target : Call → Option Ref
  | .multTenToThe this _ => some this
  | .divTenToThe this _ => some this
  | _ => none

def State.next (s : State) (c : Call) : State :=
  ⟨(c.run s.heap).2, record s.vals c (c.run s.heap).1⟩

def program : TransitionSystem State Call where
  Init s := s = State.start
  Next s c s' := s' = s.next c

/-! ## Objects that share no nodes -/

/-- Every object is the canonical numeral of its number, in nodes of its own. -/
structure Numbers (h : Heap Int) (vals : Vals) (nodes : Ref → List Ptr) (digits : Ref → List Int) :
    Prop where
  holds : ∀ r x, vals r = some x → Holds h r (nodes r) (digits r) x
  disjoint : ∀ r r', r ≠ r' → (vals r).isSome → (vals r').isSome → ∀ p ∈ nodes r, p ∉ nodes r'

namespace Numbers

variable {h h' : Heap Int} {vals : Vals} {nodes : Ref → List Ptr} {digits : Ref → List Int}
  {this : Ref} {ps ps' : List Ptr} {ds : List Int} {x y : Nat}

theorem start : Numbers Heap.empty (fun _ => none) (fun _ => []) (fun _ => []) where
  holds _ _ hx := nomatch hx
  disjoint _ _ _ hx := nomatch hx

theorem fresh (hn : Numbers h vals nodes digits) : vals h.lists = none := by
  cases hx : vals h.lists with
  | none => rfl
  | some x => exact absurd (hn.holds _ x hx).list.lists (Nat.lt_irrefl _)

/-- A method that changes only `this` leaves the other objects. -/
theorem holds_frame (hn : Numbers h vals nodes digits) (hframe : Frame this h ps h' ps')
    (hps : ∀ r, r ≠ this → (vals r).isSome → ∀ p ∈ nodes r, p ∉ ps) {r : Ref} (hr : r ≠ this)
    (hx : vals r = some x) : Holds h' r (nodes r) (digits r) x := by
  have hlive : (vals r).isSome := Option.isSome_iff_exists.mpr ⟨x, hx⟩
  exact (hn.holds r x hx).frame hframe hr (hps r hr hlive)

/-- An object is made or changed. -/
theorem update (hn : Numbers h vals nodes digits) (hframe : Frame this h ps h' ps')
    (hps : ∀ r, r ≠ this → (vals r).isSome → ∀ p ∈ nodes r, p ∉ ps)
    (hthis : Holds h' this ps' ds y) :
    Numbers h' (Function.update vals this (some y)) (Function.update nodes this ps')
      (Function.update digits this ds) := by
  -- the nodes of an object that was there are neither old nor new nodes of `this`
  have hother : ∀ r, r ≠ this → (vals r).isSome → ∀ p ∈ nodes r, p ∉ ps' := by
    intro r hr hlive p hp hin
    obtain ⟨x, hx⟩ := Option.isSome_iff_exists.mp hlive
    rcases hframe.owned p hin with hold | hnew
    · exact hps r hr hlive p hp hold
    · exact absurd ((hn.holds r x hx).list.nodes p hp) (Nat.not_lt.mpr hnew)
  constructor
  · intro r x hx
    by_cases hr : r = this
    · subst hr
      rw [update_self] at hx ⊢
      rw [update_self]
      exact Option.some.inj hx ▸ hthis
    · rw [update_of_ne hr] at hx ⊢
      rw [update_of_ne hr]
      exact hn.holds_frame hframe hps hr hx
  · intro r r' hne hlive hlive' p hp
    by_cases hr : r = this
    · subst hr
      rw [update_self] at hp
      rw [update_of_ne hne.symm] at hlive' ⊢
      exact fun hin => hother r' hne.symm hlive' p hin hp
    · rw [update_of_ne hr] at hlive hp
      by_cases hr' : r' = this
      · subst hr'
        rw [update_self]
        exact hother r hr hlive p hp
      · rw [update_of_ne hr'] at hlive' ⊢
        exact hn.disjoint r r' hne hlive hlive' p hp

/-- Nothing but an empty list is made. -/
theorem frame (hn : Numbers h vals nodes digits) (hframe : Frame h.lists h [] h' []) :
    Numbers h' vals nodes digits := by
  constructor
  · intro r x hx
    have hr : r ≠ h.lists := Nat.ne_of_lt (hn.holds r x hx).list.lists
    exact hn.holds_frame hframe (fun _ _ _ _ _ => List.not_mem_nil) hr hx
  · exact hn.disjoint

end Numbers

/-! ## One call -/

/-- What a call does with the objects of a program. -/
structure Meets (s : State) (c : Call) : Prop where
  answer : Correct s.vals c (c.run s.heap).1
  numbers : ∃ nodes digits, Numbers (s.next c).heap (s.next c).vals nodes digits
  unchanged : ∀ r x, s.vals r = some x → c.target ≠ some r →
    ∃ ps ds, Holds s.heap r ps ds x ∧ Holds (s.next c).heap r ps ds x

section

variable {s : State} {c : Call} {a : Answer} {h' : Heap Int} {nodes : Ref → List Ptr}
  {digits : Ref → List Int} {this rOp : Ref} {ps ps' : List Ptr} {ds : List Int} {x y : Nat}

theorem answer_ok {α : Type} {f : α → Answer} {m : Java Int α} {r : α} {h : Heap Int}
    (hm : m h = .ok r h') : answer f m h = (f r, h') := by
  unfold answer
  rw [hm]

theorem answer_error {α : Type} {f : α → Answer} {m : Java Int α} {e : Exc} {h : Heap Int}
    (hm : m h = .error e h') : answer f m h = (.thrown e, h') := by
  unfold answer
  rw [hm]

/-- A call that makes or changes the object `this`. -/
theorem meets_update (hn : Numbers s.heap s.vals nodes digits) (hrun : c.run s.heap = (a, h'))
    (hanswer : Correct s.vals c a) (hrecord : record s.vals c a = Function.update s.vals this (some y))
    (htarget : ∀ r, (s.vals r).isSome → c.target ≠ some r → r ≠ this)
    (hps : ∀ r, r ≠ this → (s.vals r).isSome → ∀ p ∈ nodes r, p ∉ ps)
    (hframe : Frame this s.heap ps h' ps') (hthis : Holds h' this ps' ds y) : Meets s c := by
  have hnext : s.next c = ⟨h', Function.update s.vals this (some y)⟩ := by
    unfold State.next
    rw [hrun, hrecord]
  constructor
  · rw [hrun]
    exact hanswer
  · rw [hnext]
    exact ⟨_, _, hn.update hframe hps hthis⟩
  · intro r x hx hr
    have hne : r ≠ this := htarget r (Option.isSome_iff_exists.mpr ⟨x, hx⟩) hr
    rw [hnext]
    exact ⟨nodes r, digits r, hn.holds r x hx, hn.holds_frame hframe hps hne hx⟩

/-- A call that makes a number. -/
theorem meets_new (hn : Numbers s.heap s.vals nodes digits)
    (hrun : c.run s.heap = (.number s.heap.lists, h'))
    (hanswer : Fresh s.vals (.number s.heap.lists) → Correct s.vals c (.number s.heap.lists))
    (hrecord : record s.vals c (.number s.heap.lists) =
      Function.update s.vals s.heap.lists (some y))
    (hthis : Holds h' s.heap.lists ps' ds y) (hframe : Frame s.heap.lists s.heap [] h' ps') :
    Meets s c := by
  refine meets_update hn hrun (hanswer ⟨_, hn.fresh, rfl⟩) hrecord ?_ ?_ hframe hthis
  · intro r hlive _ heq
    rw [heq, hn.fresh] at hlive
    cases hlive
  · exact fun _ _ _ _ _ => List.not_mem_nil

/-- A call that leaves all the objects as they are. -/
theorem meets_kept (hn : Numbers s.heap s.vals nodes digits) (hrun : c.run s.heap = (a, h'))
    (hanswer : Correct s.vals c a) (hrecord : record s.vals c a = s.vals)
    (hframe : Frame s.heap.lists s.heap [] h' []) : Meets s c := by
  have hnext : s.next c = ⟨h', s.vals⟩ := by
    unfold State.next
    rw [hrun, hrecord]
  have hn' := hn.frame hframe
  constructor
  · rw [hrun]
    exact hanswer
  · rw [hnext]
    exact ⟨_, _, hn'⟩
  · intro r x hx _
    rw [hnext]
    exact ⟨nodes r, digits r, hn.holds r x hx, hn'.holds r x hx⟩

/-- Only `this` has nodes of `this`. -/
theorem Numbers.apart {h : Heap Int} {vals : Vals} (hn : Numbers h vals nodes digits)
    (hx : vals this = some x) : ∀ r, r ≠ this → (vals r).isSome → ∀ p ∈ nodes r, p ∉ nodes this :=
  fun r hr hlive => hn.disjoint r this hr hlive (Option.isSome_iff_exists.mpr ⟨x, hx⟩)

theorem call_meets (hn : Numbers s.heap s.vals nodes digits) (hc : Admissible s.vals c) :
    Meets s c := by
  have hread : Frame s.heap.lists s.heap [] s.heap [] := .refl _ _ _
  cases c with
  | parse t =>
    obtain ⟨h', ps', ds, hrun, hholds, hframe⟩ := ofString_run hc s.heap
    exact meets_new hn (answer_ok hrun) id rfl hholds hframe
  | add this rightOp =>
    obtain ⟨hthis, hright⟩ := hc
    obtain ⟨x, hx⟩ := Option.isSome_iff_exists.mp hthis
    obtain ⟨y, hy⟩ := Option.isSome_iff_exists.mp hright
    obtain ⟨h', ps', zs, hrun, hholds, hframe⟩ := add_run (hn.holds _ x hx) (hn.holds _ y hy)
    refine meets_new hn (answer_ok hrun) id ?_ hholds hframe
    show Function.update s.vals _ (Option.map₂ _ (s.vals this) (s.vals rightOp)) = _
    rw [hx, hy]
    rfl
  | subtract this rightOp =>
    obtain ⟨hthis, hright⟩ := hc
    obtain ⟨x, hx⟩ := Option.isSome_iff_exists.mp hthis
    obtain ⟨y, hy⟩ := Option.isSome_iff_exists.mp hright
    have hanswer : ∀ a, (if x < y then
        a = .thrown (.arithmetic "first term less than second term") else Fresh s.vals a) →
        Correct s.vals (.subtract this rightOp) a := by
      intro a ha x' hx' y' hy'
      rw [← Option.mem_unique hx hx', ← Option.mem_unique hy hy']
      exact ha
    rcases Nat.lt_or_ge x y with hlt | hge
    · obtain ⟨h', hrun, hframe⟩ := subtract_throws (hn.holds _ x hx) (hn.holds _ y hy) hlt
      refine meets_kept hn (answer_error hrun) (hanswer _ ?_) rfl hframe
      rw [if_pos hlt]
    · obtain ⟨h', ps', zs, hrun, hholds, hframe⟩ :=
        subtract_run (hn.holds _ x hx) (hn.holds _ y hy) hge
      refine meets_new hn (answer_ok hrun) (fun hfresh => hanswer _ ?_) ?_ hholds hframe
      · rw [if_neg (Nat.not_lt.mpr hge)]
        exact hfresh
      · show Function.update s.vals _ (Option.map₂ _ (s.vals this) (s.vals rightOp)) = _
        rw [hx, hy]
        rfl
  | compareTo this rOp =>
    obtain ⟨hthis, hright⟩ := hc
    obtain ⟨x, hx⟩ := Option.isSome_iff_exists.mp hthis
    obtain ⟨y, hy⟩ := Option.isSome_iff_exists.mp hright
    have hrun := compareTo_run (hn.holds _ x hx) (hn.holds _ y hy)
    refine meets_kept hn (answer_ok hrun) (fun x' hx' y' hy' => ?_) rfl hread
    rw [← Option.mem_unique hx hx', ← Option.mem_unique hy hy']
  | multTenToThe this num =>
    obtain ⟨x, hx⟩ := Option.isSome_iff_exists.mp hc
    obtain ⟨h', ps', es, hrun, hholds, hframe⟩ := multTenToThe_run (hn.holds _ x hx) num
    refine meets_update hn (answer_ok hrun) rfl ?_ ?_ (hn.apart hx) hframe hholds
    · show Function.update s.vals _ (Option.map _ (s.vals this)) = _
      rw [hx]
      rfl
    · exact fun r _ htarget heq => htarget (congrArg some heq.symm)
  | divTenToThe this num =>
    obtain ⟨x, hx⟩ := Option.isSome_iff_exists.mp hc
    obtain ⟨h', ps', es, hrun, hholds, hframe⟩ := divTenToThe_run (hn.holds _ x hx) num
    refine meets_update hn (answer_ok hrun) rfl ?_ ?_ (hn.apart hx) hframe hholds
    · show Function.update s.vals _ (Option.map _ (s.vals this)) = _
      rw [hx]
      rfl
    · exact fun r _ htarget heq => htarget (congrArg some heq.symm)
  | text this =>
    obtain ⟨x, hx⟩ := Option.isSome_iff_exists.mp hc
    have hrun := text_run (hn.holds _ x hx)
    refine meets_kept hn (answer_ok hrun) (fun x' hx' => ?_) rfl hread
    rw [← Option.mem_unique hx hx']

end

/-! ## Runs -/

theorem numbers_of_reachable {s : State}
    (hs : program.ReachableBy (fun s c => Admissible s.vals c) s) :
    ∃ nodes digits, Numbers s.heap s.vals nodes digits := by
  refine hs.invariant (fun s => ∃ nodes digits, Numbers s.heap s.vals nodes digits) ?_ ?_
  · rintro s rfl
    exact ⟨_, _, .start⟩
  · rintro s c s' ⟨nodes, digits, hn⟩ hc rfl
    exact (call_meets hn hc).numbers

/-- After every run each call has the answer that the arithmetic gives, each object is the
canonical numeral of its number, and a call changes no object but the one it shifts. -/
theorem program_meets {s : State} (hs : program.ReachableBy (fun s c => Admissible s.vals c) s)
    {c : Call} (hc : Admissible s.vals c) : Meets s c := by
  obtain ⟨nodes, digits, hn⟩ := numbers_of_reachable hs
  exact call_meets hn hc

/-- A subtraction that is refused. -/
theorem program_meets_subtract :
    Meets ((State.start.next (.parse "7")).next (.parse "12")) (.subtract 0 1) := by
  have hstart : program.ReachableBy (fun s c => Admissible s.vals c) State.start := .init rfl
  have hfirst : program.ReachableBy (fun s c => Admissible s.vals c)
      (State.start.next (.parse "7")) :=
    .step (l := Call.parse "7") hstart (by decide : IsNumeral "7") rfl
  have hsecond : program.ReachableBy (fun s c => Admissible s.vals c)
      ((State.start.next (.parse "7")).next (.parse "12")) :=
    .step (l := Call.parse "12") hfirst (by decide : IsNumeral "12") rfl
  exact program_meets hsecond (by decide +kernel)

end PittCs.Cs445.ReallyLongInt
