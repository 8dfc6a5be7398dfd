import PittCs.Cs445.LinkedListPlus
import PittCs.Lib.TransitionSystem

/-!
# Programs with lists

A program makes lists, copies them and calls their methods. Beside the memory, `vals` says
which list each of its objects should be. Methods that only read are left out. The methods
that cannot take an empty list are `leftRotate`, `rightRotate` and `reverse`.
-/

namespace PittCs.Cs445.ListProgram

open Lib

variable {T : Type}

/-- The methods that change a list. -/
inductive Op (T : Type) where
  | add (newEntry : T)
  | addAt (newPosition : Nat) (newEntry : T)
  | remove (givenPosition : Nat)
  | replace (givenPosition : Nat) (newEntry : T)
  | clear
  | leftShift (num : Int)
  | rightShift (num : Int)
  | leftRotate (num : Int)
  | rightRotate (num : Int)
  | reverse

inductive Call (T : Type) where
  | new
  | copy (oldList : Ref)
  | on (this : Ref) (op : Op T)

inductive Answer (T : Type) where
  | object (r : Ref)
  | void
  | success (b : Bool)
  | entry (x : Option T)
  | thrown (e : Exc)

/-- A method call, with an exception as an answer. -/
def answer {α : Type} (f : α → Answer T) (m : Java T α) (h : Heap T) : Answer T × Heap T :=
  match m h with
  | .ok a h' => (f a, h')
  | .error e h' => (.thrown e, h')

def Op.run (this : Ref) : Op T → Heap T → Answer T × Heap T
  | .add x => answer (fun _ => .void) (Cs445.add this x)
  | .addAt i x => answer .success (Cs445.addAt this i x)
  | .remove i => answer .entry (Cs445.remove this i)
  | .replace i x => answer .success (Cs445.replace this i x)
  | .clear => answer (fun _ => .void) (Cs445.clear this)
  | .leftShift num => answer (fun _ => .void) (Cs445.leftShift this num)
  | .rightShift num => answer (fun _ => .void) (Cs445.rightShift this num)
  | .leftRotate num => answer (fun _ => .void) (Cs445.leftRotate this num)
  | .rightRotate num => answer (fun _ => .void) (Cs445.rightRotate this num)
  | .reverse => answer (fun _ => .void) (Cs445.reverse this)

def Call.run : Call T → Heap T → Answer T × Heap T
  | .new => answer .object newList
  | .copy oldList => answer .object (Cs445.copy oldList)
  | .on this op => op.run this

/-! ## What a list is meant to do -/

/-- The list after a method. -/
def Op.effect : Op T → List T → List T
  | .add x, xs => xs ++ [x]
  | .addAt i x, xs =>
    if 1 ≤ i ∧ i ≤ xs.length + 1 then xs.take (i - 1) ++ x :: xs.drop (i - 1) else xs
  | .remove i, xs => if 1 ≤ i then xs.eraseIdx (i - 1) else xs
  | .replace i x, xs => if 1 ≤ i then xs.set (i - 1) x else xs
  | .clear, _ => []
  | .leftShift num, xs => xs.drop num.toNat
  | .rightShift num, xs => xs.take (xs.length - num.toNat)
  | .leftRotate num, xs => xs.rotate (turn num xs.length)
  | .rightRotate num, xs => xs.rotate (turn (-num) xs.length)
  | .reverse, xs => xs.reverse

/-- The answer of a method. -/
def Op.result : Op T → List T → Answer T
  | .addAt i _, xs => .success (decide (1 ≤ i ∧ i ≤ xs.length + 1))
  | .remove i, xs => .entry (if 1 ≤ i then xs[i - 1]? else none)
  | .replace i _, xs => .success (decide (1 ≤ i ∧ i ≤ xs.length))
  | _, _ => .void

/-- A list that the method can take. -/
def Op.Takes : Op T → List T → Prop
  | .leftRotate _, xs => xs ≠ []
  | .rightRotate _, xs => xs ≠ []
  | .reverse, xs => xs ≠ []
  | _, _ => True

/-- The lists that objects should be. -/
abbrev Vals (T : Type) := Ref → Option (List T)

structure State (T : Type) where
  heap : Heap T
  vals : Vals T

def State.start : State T := ⟨.empty, fun _ => none⟩

/-- Methods are called on lists that the program has. -/
def Admissible (vals : Vals T) : Call T → Prop
  | .new => True
  | .copy oldList => (vals oldList).isSome
  | .on this _ => (vals this).isSome

/-- No list is empty that is rotated or reversed. -/
def Taken (vals : Vals T) : Call T → Prop
  | .on this op => ∀ xs ∈ vals this, op.Takes xs
  | _ => True

/-- The lists that the objects should be after a call. -/
def record (vals : Vals T) : Call T → Answer T → Vals T
  | .new, .object r => Function.update vals r (some [])
  | .copy oldList, .object r => Function.update vals r (vals oldList)
  | .on this op, _ => Function.update vals this ((vals this).map op.effect)
  | _, _ => vals

def State.next (s : State T) (c : Call T) : State T :=
  ⟨(c.run s.heap).2, record s.vals c (c.run s.heap).1⟩

def program (T : Type) : TransitionSystem (State T) (Call T) where
  Init s := s = State.start
  Next s c s' := s' = s.next c

/-- The answer that a call should have. -/
def Correct (vals : Vals T) : Call T → Answer T → Prop
  | .on this op, a => ∀ xs ∈ vals this, a = op.result xs
  | _, a => ∃ r, vals r = none ∧ a = .object r

/-- Every object is its list: a ring of nodes of its own, and their number. -/
structure Lists (h : Heap T) (vals : Vals T) (nodes : Ref → List Ptr) : Prop where
  holds : ∀ r xs, vals r = some xs → IsList h r (nodes r) xs
  disjoint : ∀ r r', r ≠ r' → (vals r).isSome → (vals r').isSome → ∀ p ∈ nodes r, p ∉ nodes r'

def Refined (s : State T) : Prop := ∃ nodes, Lists s.heap s.vals nodes

/-- A call that does what it should. -/
structure Right (s : State T) (c : Call T) : Prop where
  answer : Correct s.vals c (c.run s.heap).1
  refined : Refined (s.next c)

/-! ## Objects that share no nodes -/

namespace Lists

variable {h h' : Heap T} {vals : Vals T} {nodes : Ref → List Ptr} {this : Ref} {ps ps' : List Ptr}
  {xs ys : List T}

theorem start : Lists (Heap.empty : Heap T) (fun _ => none) (fun _ => []) where
  holds _ _ hx := absurd hx (by simp)
  disjoint _ _ _ hx := absurd hx (by simp)

theorem fresh (hn : Lists h vals nodes) : vals h.lists = none := by
  cases hx : vals h.lists with
  | none => rfl
  | some xs => exact absurd (hn.holds _ xs hx).lists (Nat.lt_irrefl _)

/-- An object is made or changed. -/
theorem update (hn : Lists h vals nodes) (hframe : Frame this h ps h' ps')
    (hps : ∀ r, r ≠ this → (vals r).isSome → ∀ p ∈ nodes r, p ∉ ps)
    (hthis : IsList h' this ps' ys) :
    Lists h' (Function.update vals this (some ys)) (Function.update nodes this ps') := by
  -- the nodes of an object that was there are neither old nor new nodes of `this`
  have hother : ∀ r, r ≠ this → (vals r).isSome → ∀ p ∈ nodes r, p ∉ ps' := by
    intro r hr hlive p hp hin
    rcases Option.isSome_iff_exists.mp hlive with ⟨xs, hx⟩
    rcases hframe.owned p hin with hold | hnew
    · exact hps r hr hlive p hp hold
    · exact absurd ((hn.holds r xs hx).nodes p hp) (Nat.not_lt.mpr hnew)
  constructor
  case holds =>
    intro r xs hx
    by_cases hr : r = this
    · subst hr
      rw [Function.update_self] at hx ⊢
      exact Option.some.inj hx ▸ hthis
    · rw [Function.update_of_ne hr] at hx ⊢
      have hlive : (vals r).isSome := Option.isSome_iff_exists.mpr ⟨xs, hx⟩
      exact hframe.isList (hn.holds r xs hx) hr (hps r hr hlive)
  case disjoint =>
    intro r r' hne hlive hlive' p hp
    by_cases hr : r = this
    · subst hr
      rw [Function.update_self] at hp
      rw [Function.update_of_ne hne.symm] at hlive' ⊢
      exact fun hin => hother r' hne.symm hlive' p hin hp
    · rw [Function.update_of_ne hr] at hlive hp
      by_cases hr' : r' = this
      · subst hr'
        rw [Function.update_self]
        exact hother r hr hlive p hp
      · rw [Function.update_of_ne hr'] at hlive' ⊢
        exact hn.disjoint r r' hne hlive hlive' p hp

end Lists

/-! ## One method -/

section

variable {h : Heap T} {this : Ref} {ps : List Ptr} {xs : List T}

theorem answer_ok {α : Type} {f : α → Answer T} {m : Java T α} {r : α} {h' : Heap T}
    (hm : m h = .ok r h') : answer f m h = (f r, h') := by
  unfold answer
  rw [hm]

theorem answer_error {α : Type} {f : α → Answer T} {m : Java T α} {e : Exc} {h' : Heap T}
    (hm : m h = .error e h') : answer f m h = (.thrown e, h') := by
  unfold answer
  rw [hm]

/-- What a method of an object has done. -/
def Done (this : Ref) (h : Heap T) (ps : List Ptr) (r : Answer T × Heap T) (a : Answer T)
    (ys : List T) : Prop :=
  r.1 = a ∧ ∃ ps', IsList r.2 this ps' ys ∧ Frame this h ps r.2 ps'

theorem done_of_ok {α : Type} {f : α → Answer T} {m : Java T α} {a : α} {h' : Heap T}
    {ps' : List Ptr} {ys : List T} (hm : m h = .ok a h') (hl : IsList h' this ps' ys)
    (hframe : Frame this h ps h' ps') : Done this h ps (answer f m h) (f a) ys := by
  rw [answer_ok hm]
  exact ⟨rfl, ps', hl, hframe⟩

/-- A method that leaves the list. -/
theorem done_of_same {α : Type} {f : α → Answer T} {m : Java T α} {a : α} (hl : IsList h this ps xs)
    (hm : m h = .ok a h) : Done this h ps (answer f m h) (f a) xs :=
  done_of_ok hm hl (.refl this h ps)

theorem addAt_done (hl : IsList h this ps xs) (i : Nat) (x : T) :
    Done this h ps ((Op.addAt i x).run this h) ((Op.addAt i x).result xs)
      ((Op.addAt i x).effect xs) := by
  have hcount := hl.numberOfEntries
  have hlen := hl.length_eq
  by_cases hi : 1 ≤ i ∧ i ≤ xs.length + 1
  · have hresult : (Op.addAt i x).result xs = .success true :=
      congrArg Answer.success (decide_eq_true hi)
    have heffect : (Op.addAt i x).effect xs = xs.take (i - 1) ++ x :: xs.drop (i - 1) := if_pos hi
    rw [hresult, heffect]
    rcases Nat.lt_or_ge i 2 with hone | htwo
    · obtain rfl : i = 1 := by omega
      rcases addAt_spec hl x with ⟨h', p, hrun, hl', hframe⟩
      exact done_of_ok hrun hl' hframe
    · obtain ⟨j, rfl⟩ : ∃ j, i = j + 2 := ⟨i - 2, by omega⟩
      have hj : j < ps.length := by omega
      rcases addAt_between_spec hl hj x with ⟨h', hrun, hl', hframe⟩
      exact done_of_ok hrun hl' hframe
  · have hresult : (Op.addAt i x).result xs = .success false :=
      congrArg Answer.success (decide_eq_false hi)
    have heffect : (Op.addAt i x).effect xs = xs := if_neg hi
    rw [hresult, heffect]
    refine done_of_same hl ?_
    simp only [Cs445.addAt, bind_run, getNumberOfEntries_run, hcount, if_neg hi, pure_run]

theorem remove_done (hl : IsList h this ps xs) (i : Nat) :
    Done this h ps ((Op.remove i).run this h) ((Op.remove i : Op T).result xs)
      ((Op.remove i).effect xs) := by
  have hcount := hl.numberOfEntries
  have hlen := hl.length_eq
  by_cases hi : 1 ≤ i ∧ i ≤ xs.length
  · obtain ⟨j, rfl⟩ : ∃ j, i = j + 1 := ⟨i - 1, by omega⟩
    have hj : j < ps.length := by omega
    have hresult : (Op.remove (j + 1) : Op T).result xs = .entry xs[j]? := by
      show Answer.entry (if 1 ≤ j + 1 then xs[j]? else none) = _
      rw [if_pos hi.1]
    have heffect : (Op.remove (j + 1)).effect xs = xs.eraseIdx j := by
      show (if 1 ≤ j + 1 then xs.eraseIdx j else xs) = _
      rw [if_pos hi.1]
    rcases remove_spec hl hj with ⟨h', hrun, hl', hframe⟩
    rw [hresult, heffect]
    exact done_of_ok hrun hl' hframe
  · have hrun : Cs445.remove this i h = .ok none h := by
      simp only [Cs445.remove, bind_run, getNumberOfEntries_run, hcount, if_neg hi, pure_run]
    have hnone : (Op.remove i : Op T).result xs = .entry none := by
      show Answer.entry (if 1 ≤ i then xs[i - 1]? else none) = _
      split
      case isTrue hpos => rw [List.getElem?_eq_none (by omega)]
      case isFalse => rfl
    have hsame : (Op.remove i).effect xs = xs := by
      show (if 1 ≤ i then xs.eraseIdx (i - 1) else xs) = _
      split
      case isTrue hpos => exact List.eraseIdx_of_length_le (by omega)
      case isFalse => rfl
    rw [hnone, hsame]
    exact done_of_same hl hrun

theorem replace_done (hl : IsList h this ps xs) (i : Nat) (x : T) :
    Done this h ps ((Op.replace i x).run this h) ((Op.replace i x).result xs)
      ((Op.replace i x).effect xs) := by
  have hcount := hl.numberOfEntries
  have hlen := hl.length_eq
  by_cases hi : 1 ≤ i ∧ i ≤ xs.length
  · obtain ⟨j, rfl⟩ : ∃ j, i = j + 1 := ⟨i - 1, by omega⟩
    have hj : j < ps.length := by omega
    have hresult : (Op.replace (j + 1) x).result xs = .success true :=
      congrArg Answer.success (decide_eq_true hi)
    have heffect : (Op.replace (j + 1) x).effect xs = xs.set j x := by
      show (if 1 ≤ j + 1 then xs.set j x else xs) = _
      rw [if_pos hi.1]
    rcases replace_spec hl hj x with ⟨h', hrun, hl', hframe⟩
    rw [hresult, heffect]
    exact done_of_ok hrun hl' hframe
  · have hrun : Cs445.replace this i x h = .ok false h := by
      simp only [Cs445.replace, bind_run, getNumberOfEntries_run, hcount, if_neg hi, pure_run]
    have hresult : (Op.replace i x).result xs = .success false :=
      congrArg Answer.success (decide_eq_false hi)
    have hsame : (Op.replace i x).effect xs = xs := by
      show (if 1 ≤ i then xs.set (i - 1) x else xs) = _
      split
      case isTrue hpos => exact List.set_eq_of_length_le (by omega)
      case isFalse => rfl
    rw [hresult, hsame]
    exact done_of_same hl hrun

theorem leftShift_done (hl : IsList h this ps xs) (num : Int) :
    Done this h ps ((Op.leftShift num).run this h) .void ((Op.leftShift num).effect xs) := by
  rcases Int.lt_or_le num 0 with hneg | hpos
  · have hrun : Cs445.leftShift this num h = .ok () h := by
      have hbelow : ¬ num ≥ (h.list this).numberOfEntries := by omega
      unfold Cs445.leftShift
      rw [bind_ok getNumberOfEntries_run, if_neg hbelow, if_pos (Int.le_of_lt hneg)]
      rfl
    have heffect : (Op.leftShift num).effect xs = xs := by
      show xs.drop num.toNat = xs
      rw [Int.toNat_of_nonpos (Int.le_of_lt hneg), List.drop_zero]
    rw [heffect]
    exact done_of_same hl hrun
  · rcases leftShift_spec hl num.toNat with ⟨h', hrun, hl', hframe⟩
    rw [Int.toNat_of_nonneg hpos] at hrun
    exact done_of_ok hrun hl' hframe

theorem rightShift_done (hl : IsList h this ps xs) (num : Int) :
    Done this h ps ((Op.rightShift num).run this h) .void ((Op.rightShift num).effect xs) := by
  rcases Int.lt_or_le num 0 with hneg | hpos
  · have hrun : Cs445.rightShift this num h = .ok () h := by
      have hbelow : ¬ num ≥ (h.list this).numberOfEntries := by omega
      unfold Cs445.rightShift
      rw [bind_ok getNumberOfEntries_run, if_neg hbelow, if_pos (Int.le_of_lt hneg)]
      rfl
    have heffect : (Op.rightShift num).effect xs = xs := by
      show xs.take (xs.length - num.toNat) = xs
      rw [Int.toNat_of_nonpos (Int.le_of_lt hneg), Nat.sub_zero, List.take_length]
    rw [heffect]
    exact done_of_same hl hrun
  · rcases rightShift_spec hl num.toNat with ⟨h', hrun, hl', hframe⟩
    rw [Int.toNat_of_nonneg hpos] at hrun
    rw [hl.length_eq] at hl' hframe
    exact done_of_ok hrun hl' hframe

/-- A method does to the object what it should do to the list. -/
theorem op_done (hl : IsList h this ps xs) (op : Op T) (htakes : op.Takes xs) :
    Done this h ps (op.run this h) (op.result xs) (op.effect xs) := by
  cases op with
  | add x =>
    rcases add_spec hl x with ⟨h', p, hrun, hl', hframe⟩
    exact done_of_ok hrun hl' hframe
  | addAt i x => exact addAt_done hl i x
  | remove i => exact remove_done hl i
  | replace i x => exact replace_done hl i x
  | clear =>
    rcases clear_spec hl with ⟨h', hrun, hl', hframe⟩
    exact done_of_ok hrun hl' hframe
  | leftShift num => exact leftShift_done hl num
  | rightShift num => exact rightShift_done hl num
  | leftRotate num =>
    rcases leftRotate_spec hl htakes num with ⟨h', hrun, hl', hframe⟩
    exact done_of_ok hrun hl' hframe
  | rightRotate num =>
    rcases rightRotate_spec hl htakes num with ⟨h', hrun, hl', hframe⟩
    exact done_of_ok hrun hl' hframe
  | reverse =>
    rcases reverse_spec hl htakes with ⟨h', hrun, hl', hframe⟩
    exact done_of_ok hrun hl' hframe

/-- An empty list cannot be rotated or reversed. -/
theorem op_throws (hl : IsList h this ps xs) (op : Op T) (hnot : ¬ op.Takes xs) :
    ∃ e, (op.run this h).1 = .thrown e := by
  have hempty : ∀ ys : List T, ¬ ys ≠ [] → IsList h this ps ys →
      getNumberOfEntries this h = .ok 0 h ∧ getFirstNode this h = .ok none h := by
    intro ys hys hl
    rw [Classical.not_not.mp hys] at hl
    obtain rfl : ps = [] := List.length_eq_zero_iff.mp hl.length_eq
    rw [getNumberOfEntries_run, getFirstNode_run, hl.list]
    exact ⟨rfl, rfl⟩
  cases op with
  | leftRotate num =>
    refine ⟨.arithmetic "/ by zero", ?_⟩
    have hrun : Cs445.leftRotate this num h = .error (.arithmetic "/ by zero") h := by
      unfold Cs445.leftRotate
      rw [bind_ok (hempty xs hnot hl).1]
      rfl
    exact congrArg Prod.fst (answer_error hrun)
  | rightRotate num =>
    refine ⟨.arithmetic "/ by zero", ?_⟩
    have hrun : Cs445.rightRotate this num h = .error (.arithmetic "/ by zero") h := by
      unfold Cs445.rightRotate
      rw [bind_ok (hempty xs hnot hl).1]
      rfl
    exact congrArg Prod.fst (answer_error hrun)
  | reverse =>
    refine ⟨.nullPointer, ?_⟩
    have hrun : Cs445.reverse this h = .error .nullPointer h := by
      unfold Cs445.reverse
      rw [bind_ok (hempty xs hnot hl).1, bind_ok (hempty xs hnot hl).2]
      rfl
    exact congrArg Prod.fst (answer_error hrun)
  | add | addAt | remove | replace | clear | leftShift | rightShift => exact absurd trivial hnot

theorem result_ne_thrown (op : Op T) (e : Exc) : op.result xs ≠ .thrown e := by
  intro heq
  cases op <;> cases heq

end

/-! ## One call -/

section

variable {s : State T} {nodes : Ref → List Ptr}

/-- A call that makes a list. -/
theorem right_of_made (hn : Lists s.heap s.vals nodes) {c : Call T} {h' : Heap T} {ps' : List Ptr}
    {ys : List T} (hrun : c.run s.heap = (.object s.heap.lists, h'))
    (hanswer : (∃ r, s.vals r = none ∧ (.object s.heap.lists : Answer T) = .object r) →
      Correct s.vals c (.object s.heap.lists))
    (hrecord : record s.vals c (.object s.heap.lists) =
      Function.update s.vals s.heap.lists (some ys))
    (hl : IsList h' s.heap.lists ps' ys) (hframe : Frame s.heap.lists s.heap [] h' ps') :
    Right s c := by
  constructor
  case answer =>
    rw [hrun]
    exact hanswer ⟨_, hn.fresh, rfl⟩
  case refined =>
    unfold State.next
    rw [hrun]
    dsimp only
    unfold Refined
    dsimp only
    rw [hrecord]
    exact ⟨_, hn.update hframe (fun _ _ _ _ _ => List.not_mem_nil) hl⟩

/-- A call does what it should just when it can take its list. -/
theorem right_iff_taken (hn : Lists s.heap s.vals nodes) {c : Call T} (hc : Admissible s.vals c) :
    Right s c ↔ Taken s.vals c := by
  cases c with
  | new =>
    rcases newList_spec s.heap with ⟨h', hrun, hl, hframe⟩
    exact ⟨fun _ => trivial, fun _ => right_of_made hn (answer_ok hrun) id rfl hl hframe⟩
  | copy oldList =>
    rcases Option.isSome_iff_exists.mp hc with ⟨xs, hx⟩
    rcases copy_spec (hn.holds oldList xs hx) with ⟨h', qs, hrun, hl, hframe⟩
    refine ⟨fun _ => trivial, fun _ => right_of_made hn (answer_ok hrun) id ?_ hl hframe⟩
    rw [← hx]
    rfl
  | on this op =>
    rcases Option.isSome_iff_exists.mp hc with ⟨xs, hx⟩
    have hl := hn.holds this xs hx
    constructor
    · intro hright ys hy
      have hxy : xs = ys := Option.some.inj (hx.symm.trans hy)
      rw [← hxy]
      by_contra hnot
      rcases op_throws hl op hnot with ⟨e, he⟩
      have hanswer := hright.answer xs hx
      exact result_ne_thrown op e (hanswer.symm.trans he)
    · intro htaken
      rcases op_done hl op (htaken xs hx) with ⟨hanswer, ps', hl', hframe⟩
      constructor
      case answer =>
        intro ys hy
        have hxy : xs = ys := Option.some.inj (hx.symm.trans hy)
        rw [← hxy]
        exact hanswer
      case refined =>
        have hvals : (s.next (.on this op)).vals =
            Function.update s.vals this (some (op.effect xs)) := by
          show Function.update s.vals this ((s.vals this).map op.effect) = _
          rw [hx]
          rfl
        unfold Refined
        rw [hvals]
        refine ⟨_, hn.update hframe (fun r hr hlive => ?_) hl'⟩
        exact hn.disjoint r this hr hlive hc

end

/-! ## Runs -/

/-- In every run that rotates and reverses no empty list, each object is its list, and a
call does what it should if and only if it goes on so. -/
theorem lists_refined {s : State T}
    (hs : (program T).ReachableBy (fun s c => Admissible s.vals c ∧ Taken s.vals c) s) :
    Refined s ∧ ∀ c, Admissible s.vals c → (Right s c ↔ Taken s.vals c) := by
  have hrefined : Refined s := by
    refine hs.invariant Refined ?_ ?_
    · intro s hs
      rw [show s = State.start from hs]
      exact ⟨_, Lists.start⟩
    · rintro s c s' ⟨nodes, hn⟩ ⟨hc, htaken⟩ hnext
      rw [show s' = s.next c from hnext]
      exact ((right_iff_taken hn hc).mpr htaken).refined
  rcases hrefined with ⟨nodes, hn⟩
  exact ⟨⟨nodes, hn⟩, fun c hc => right_iff_taken hn hc⟩

/-- A list of three entries is reversed. -/
theorem lists_refined_three :
    Right ([5, 7, 9].foldl (fun s x => s.next (.on 0 (.add x))) ((State.start : State Nat).next .new))
      (.on 0 .reverse) := by
  have hadd : ∀ {s} (x : Nat), (s.vals 0).isSome →
      (program Nat).ReachableBy (fun s c => Admissible s.vals c ∧ Taken s.vals c) s →
      (program Nat).ReachableBy (fun s c => Admissible s.vals c ∧ Taken s.vals c)
        (s.next (.on 0 (.add x))) := by
    intro s x hsome hs
    exact .step (l := Call.on 0 (.add x)) hs ⟨hsome, fun _ _ => trivial⟩ rfl
  have hnew : (program Nat).ReachableBy (fun s c => Admissible s.vals c ∧ Taken s.vals c)
      (State.start.next .new) := .step (l := Call.new) (.init rfl) ⟨trivial, trivial⟩ rfl
  have hthree := hadd 9 rfl (hadd 7 rfl (hadd 5 rfl hnew))
  refine ((lists_refined hthree).2 (.on 0 .reverse) rfl).mpr fun xs hx => ?_
  have hxs : [5, 7, 9] = xs := Option.some.inj hx
  rw [← hxs]
  exact List.cons_ne_nil 5 [7, 9]

/-- A new list is reversed. -/
theorem not_lists_refined : ∃ s : State Nat,
    (program Nat).ReachableBy (fun s c => Admissible s.vals c) s ∧
      Admissible s.vals (.on 0 .reverse) ∧ ¬ Right s (.on 0 .reverse) := by
  refine ⟨State.start.next .new, .step (l := Call.new) (.init rfl) trivial rfl, rfl, ?_⟩
  intro hright
  cases hright.answer [] rfl

end PittCs.Cs445.ListProgram
