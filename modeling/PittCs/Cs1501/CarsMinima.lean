import Mathlib.Data.List.Induction
import PittCs.Cs1501.CarsPq
import PittCs.Lib.TransitionSystem

/-!
# Minima of the car queues

Runs of `CarsPQ` beside a store that maps each VIN to its car. The invariant ties
the general pair to the whole store and every other pair to the cars of its key.

Two things break the minima, and `Guarded` excludes them: a `remove` whose last
value is smaller than the one above the gap, and a comma in a make or a model, which
lets two of them share a queue. `minima_of_reachable` is about the runs without
them; `not_minima_of_reachable` is a run with the first.
-/

namespace PittCs.Cs1501

open PittCs.Lib PittCs.Lib.ArrayHeap Function Option

/-- The stored cars, by VIN. -/
abbrev CarStore := JString → Option Car

/-- The key of the car's queue. -/
def Car.key (c : Car) : JString := queueKey c.make c.model

/-- The stored cars of one key. -/
def ofKey (key : JString) (S : CarStore) : CarStore := fun vin => (S vin).filter fun c => c.key = key

/-- Both queues of the pair hold the cars of `S`. -/
structure PairInv (p : QueuePair) (S : CarStore) : Prop where
  price : PQInv CarPrice p.priceQueue S
  mileage : PQInv CarMileage p.mileageQueue S
  count : p.count = p.priceQueue.heap_length

/-- The last values of both queues fit into the gap of the car. -/
def QueuePair.lastFits (vin : JString) (p : QueuePair) : Bool :=
  PQInv.lastFits CarPrice vin p.priceQueue && PQInv.lastFits CarMileage vin p.mileageQueue

namespace PairInv

variable {p : QueuePair} {S : CarStore}

theorem new : PairInv .new fun _ => none := ⟨.new, .new, rfl⟩

theorem lacks_eq (h : PairInv p S) (vin : JString) : p.lacks vin = (S vin).isNone := by
  rw [QueuePair.lacks, h.price.contains_eq, h.mileage.contains_eq]
  cases S vin <;> rfl

theorem get_of_some (h : PairInv p S) {vin : JString} {c : Car} (hc : S vin = some c) :
    p.get vin = .ok (some c) := by
  rw [QueuePair.get, h.lacks_eq, hc, h.price.get_eq, hc]
  rfl

theorem get_of_none (h : PairInv p S) {vin : JString} (hc : S vin = none) :
    p.get vin = .error .noSuchElement := by
  rw [QueuePair.get, h.lacks_eq, hc]
  rfl

theorem vin_eq (h : PairInv p S) {vin : JString} {c : Car} (hc : S vin = some c) : c.vin = vin :=
  ((h.price.holds vin c).mp hc).1

theorem add (h : PairInv p S) {c : Car} (hc : S c.vin = none) :
    ∃ p', p.add c = .ok p' ∧ PairInv p' (Function.update S c.vin (some c)) := by
  have hprice := h.price.add (v := c) hc
  have hmileage := h.mileage.add (v := c) hc
  refine ⟨⟨p.priceQueue.add CarPrice c, p.mileageQueue.add CarMileage c, p.count + 1⟩, ?_,
    ⟨hprice.1, hmileage.1, ?_⟩⟩
  · rw [QueuePair.add, h.price.contains_eq, h.mileage.contains_eq, hc]
    exact if_neg Bool.false_ne_true
  · show p.count + 1 = _
    rw [hprice.2, h.count]
    push_cast
    rfl

theorem add_of_some (h : PairInv p S) {c c' : Car} (hc : S c.vin = some c') :
    p.add c = .error .duplicateVin := by
  rw [QueuePair.add, h.price.contains_eq, hc]
  rfl

/-- An update that leaves the VIN of the car alone. -/
theorem updateWith (h : PairInv p S) {set : Car → Except CarExn Car} {vin : JString} {c c' : Car}
    (hc : S vin = some c) (hset : set c = .ok c') (hvin : c'.vin = c.vin) :
    ∃ p', p.updateWith set vin = .ok p' ∧ PairInv p' (Function.update S vin (some c')) := by
  have hkey : c'.vin = vin := hvin.trans (h.vin_eq hc)
  have hprice := h.price.update (w := c') hc hkey
  have hmileage := h.mileage.update (w := c') hc hkey
  refine ⟨⟨p.priceQueue.update CarPrice vin c', p.mileageQueue.update CarMileage vin c', p.count⟩,
    ?_, ⟨hprice.1, hmileage.1, ?_⟩⟩
  · simp only [QueuePair.updateWith, h.lacks_eq, h.price.get_eq, hc, hset]
    rfl
  · show p.count = _
    rw [hprice.2, h.count]

theorem updateWith_error (h : PairInv p S) {set : Car → Except CarExn Car} {vin : JString}
    {c : Car} {e : CarExn} (hc : S vin = some c) (hset : set c = .error e) :
    p.updateWith set vin = .error e := by
  simp only [QueuePair.updateWith, h.lacks_eq, h.price.get_eq, hc, hset]
  rfl

theorem remove (h : PairInv p S) {vin : JString} {c : Car} (hc : S vin = some c)
    (hlast : p.lastFits vin = true) :
    ∃ p', p.remove vin = .ok p' ∧ PairInv p' (Function.update S vin none) := by
  rw [QueuePair.lastFits, Bool.and_eq_true] at hlast
  have hprice := h.price.remove hc hlast.1
  have hmileage := h.mileage.remove hc hlast.2
  refine ⟨⟨(p.priceQueue.remove CarPrice vin).2, (p.mileageQueue.remove CarMileage vin).2,
    p.count - 1⟩, ?_, ⟨hprice.1, hmileage.1, ?_⟩⟩
  · rw [QueuePair.remove, h.lacks_eq, hc]
    exact if_neg Bool.false_ne_true
  · show p.count - 1 = _
    rw [h.count, ← hprice.2]
    push_cast
    omega

end PairInv

/-! ## Keys -/

section Keys

variable {S : CarStore} {key vin : JString}

theorem queueKey_ne_generalKey (make model : JString) : queueKey make model ≠ generalKey := by
  intro h
  have hmem : comma ∈ generalKey := h ▸ by simp [queueKey]
  exact absurd hmem (by decide)

/-- Without commas the key determines the make and the model. -/
theorem queueKey_inj {make model make' model' : JString} (hmake : comma ∉ make)
    (hmodel : comma ∉ model) (h : queueKey make model = queueKey make' model') :
    make = make' ∧ model = model' := by
  rcases List.append_eq_append_iff.mp h with ⟨as, hm, hd⟩ | ⟨as, hm, hd⟩
  · cases as with
    | nil => exact ⟨by simpa using hm.symm, by simpa using hd⟩
    | cons a as =>
      -- the longer make has the comma, so the model has one too
      have hmodel' : model = as ++ comma :: model' := (List.cons.inj hd).2
      exact absurd (by simp [hmodel']) hmodel
  · cases as with
    | nil => exact ⟨by simpa using hm, by simpa using hd.symm⟩
    | cons a as =>
      have ha : comma = a := (List.cons.inj hd).1
      exact absurd (by simp [hm, ha]) hmake

theorem ofKey_eq_some {c : Car} : ofKey key S vin = some c ↔ S vin = some c ∧ c.key = key := by
  simp [ofKey, filter_eq_some_iff]

/-- A change to a car of the key. -/
theorem ofKey_update_self (v : Option Car) (hv : ∀ c ∈ v, c.key = key) :
    ofKey key (Function.update S vin v) = Function.update (ofKey key S) vin v := by
  funext x
  by_cases hx : x = vin
  · subst hx
    cases v with
    | none => simp [ofKey]
    | some c => simp [ofKey, hv c rfl]
  · simp [ofKey, hx]

/-- A change to a car of another key. -/
theorem ofKey_update_of_ne (v : Option Car) (hv : ∀ c ∈ v, c.key ≠ key)
    (hold : ∀ c ∈ S vin, c.key ≠ key) :
    ofKey key (Function.update S vin v) = ofKey key S := by
  funext x
  by_cases hx : x = vin
  · subst hx
    have hS : ofKey key S x = none := by
      rw [ofKey, filter_eq_none_iff]
      exact fun c hc => by simpa using hold c hc
    rw [hS, ofKey, update_self, filter_eq_none_iff]
    exact fun c hc => by simpa using hv c hc
  · simp [ofKey, hx]

end Keys

/-! ## Runs -/

/-- The calls that change the cars. -/
inductive CarCall where
  | add (newCar : Car)
  | updatePrice (vin : JString) (newPrice : Int)
  | updateMileage (vin : JString) (newMileage : Int)
  | updateColor (vin newColor : JString)
  | remove (vin : JString)
deriving DecidableEq

/-- One call. -/
def CarCall.run (P : CarsPQ) : CarCall → CarsPQ
  | .add newCar => (P.add newCar).1
  | .updatePrice vin newPrice => (P.updatePrice vin newPrice).1
  | .updateMileage vin newMileage => (P.updateMileage vin newMileage).1
  | .updateColor vin newColor => (P.updateColor vin newColor).1
  | .remove vin => (P.remove vin).1

/-- The call on the store: a VIN is added once, changed where it is stored, and taken
out. -/
def CarCall.onStore (S : CarStore) : CarCall → CarStore
  | .add newCar =>
    if (S newCar.vin).isSome then S else Function.update S newCar.vin (some newCar)
  | .updatePrice vin newPrice => Function.update S vin ((S vin).map (Car.setPrice newPrice))
  | .updateMileage vin newMileage =>
    Function.update S vin ((S vin).map (Car.setMileage newMileage))
  | .updateColor vin newColor =>
    Function.update S vin ((S vin).map fun c => (c.setColor newColor).toOption.getD c)
  | .remove vin => Function.update S vin none

/-- The queues beside the store. -/
structure CarsState where
  cars : CarsPQ
  store : CarStore

/-- One call on both. -/
def CarsState.step (s : CarsState) (c : CarCall) : CarsState := ⟨c.run s.cars, c.onStore s.store⟩

/-- The runs on a new `CarsPQ`. -/
def carsSystem : TransitionSystem CarsState CarCall where
  Init s := s = ⟨.new, fun _ => none⟩
  Next s c s' := s' = s.step c

/-- The pairs that hold the car of a VIN. -/
def CarsPQ.pairsOf (vin : JString) (P : CarsPQ) : List QueuePair :=
  match P.table generalKey with
  | none => []
  | some general =>
    match general.get vin with
    | .ok (some car) => general :: (P.table car.key).toList
    | _ => [general]

/-- The calls that do not meet either defect. -/
def Guarded (s : CarsState) : CarCall → Prop
  | .add newCar => comma ∉ newCar.make ∧ comma ∉ newCar.model
  | .remove vin => ∀ p ∈ s.cars.pairsOf vin, p.lastFits vin = true
  | .updatePrice _ _ => True
  | .updateMileage _ _ => True
  | .updateColor _ _ => True

instance (s : CarsState) : (c : CarCall) → Decidable (Guarded s c)
  | .add newCar => inferInstanceAs (Decidable (comma ∉ newCar.make ∧ comma ∉ newCar.model))
  | .remove vin =>
    inferInstanceAs (Decidable (∀ p ∈ s.cars.pairsOf vin, p.lastFits vin = true))
  | .updatePrice _ _ => .isTrue trivial
  | .updateMileage _ _ => .isTrue trivial
  | .updateColor _ _ => .isTrue trivial

/-- What the queues say about the store. -/
structure CarsInv (P : CarsPQ) (S : CarStore) : Prop where
  general : ∃ g, P.table generalKey = some g ∧ PairInv g S
  queue : ∀ key p, key ≠ generalKey → P.table key = some p → PairInv p (ofKey key S)
  missing : ∀ key, key ≠ generalKey → P.table key = none → ∀ vin, ofKey key S vin = none
  noComma : ∀ vin c, S vin = some c → comma ∉ c.make ∧ comma ∉ c.model

namespace CarsInv

variable {P : CarsPQ} {S : CarStore}

theorem init : CarsInv .new fun _ => none where
  general := ⟨.new, by simp [CarsPQ.new, CarsPQ.put], .new⟩
  queue key p hkey hp := by simp [CarsPQ.new, CarsPQ.put, hkey] at hp
  missing _ _ _ _ := rfl
  noComma _ _ hc := by cases hc

/-- The pair of a stored car is in the table. -/
theorem exists_queue (h : CarsInv P S) {vin : JString} {c : Car} (hc : S vin = some c) :
    ∃ p, P.table c.key = some p ∧ PairInv p (ofKey c.key S) := by
  have hne := queueKey_ne_generalKey c.make c.model
  cases hp : P.table c.key with
  | none =>
    have hnone := h.missing c.key hne hp vin
    rw [ofKey_eq_some.mpr ⟨hc, rfl⟩] at hnone
    cases hnone
  | some p => exact ⟨p, rfl, h.queue c.key p hne hp⟩

/-- A change to one car, carried out on the general pair and on the pair of its key. -/
theorem put (h : CarsInv P S) {vin key : JString} {v : Option Car} {g p : QueuePair}
    (hkey : key ≠ generalKey) (hg : PairInv g (Function.update S vin v))
    (hp : PairInv p (ofKey key (Function.update S vin v)))
    (hv : ∀ c ∈ v, c.key = key ∧ comma ∉ c.make ∧ comma ∉ c.model)
    (hold : ∀ c ∈ S vin, c.key = key) :
    CarsInv ((P.put generalKey g).put key p) (Function.update S vin v) := by
  have hother : ∀ key', key' ≠ key → ofKey key' (Function.update S vin v) = ofKey key' S := by
    intro key' hne
    refine ofKey_update_of_ne v (fun c hc he => hne ?_) fun c hc he => hne ?_
    · rw [← he, (hv c hc).1]
    · rw [← he, hold c hc]
  have htable : ∀ key', key' ≠ generalKey → key' ≠ key →
      ((P.put generalKey g).put key p).table key' = P.table key' := fun key' hg hk => by
    simp [CarsPQ.put, hg, hk]
  refine ⟨⟨g, by simp [CarsPQ.put, Ne.symm hkey], hg⟩, ?_, ?_, ?_⟩
  · intro key' p' hne hp'
    by_cases hk : key' = key
    · subst hk
      obtain rfl : p = p' := by simpa [CarsPQ.put] using hp'
      exact hp
    · rw [htable key' hne hk] at hp'
      rw [hother key' hk]
      exact h.queue key' p' hne hp'
  · intro key' hne hnone
    by_cases hk : key' = key
    · subst hk
      simp [CarsPQ.put] at hnone
    · rw [htable key' hne hk] at hnone
      rw [hother key' hk]
      exact h.missing key' hne hnone
  · intro vin' c hc
    by_cases hx : vin' = vin
    · subst hx
      rw [update_self] at hc
      exact (hv c hc).2
    · rw [update_of_ne hx] at hc
      exact h.noComma vin' c hc

/-- An empty pair may leave the table. -/
theorem erase (h : CarsInv P S) {key : JString} (hkey : key ≠ generalKey)
    (hempty : ∀ vin, ofKey key S vin = none) : CarsInv (P.erase key) S := by
  obtain ⟨g, hg, hinv⟩ := h.general
  refine ⟨⟨g, by simpa [CarsPQ.erase, Ne.symm hkey] using hg, hinv⟩, ?_, ?_, h.noComma⟩
  · intro key' p hne hp
    by_cases hk : key' = key
    · simp [CarsPQ.erase, hk] at hp
    · exact h.queue key' p hne (by simpa [CarsPQ.erase, hk] using hp)
  · intro key' hne hnone
    by_cases hk : key' = key
    · exact hk ▸ hempty
    · exact h.missing key' hne (by simpa [CarsPQ.erase, hk] using hnone)

/-- A call that both pairs accept. -/
theorem onBoth_ok {call : QueuePair → Except CarExn QueuePair} {key : JString}
    {g g' p p' : QueuePair} (hg : call g = .ok g') (hp : call p = .ok p') :
    P.onBoth call key g (some p) = ((P.put generalKey g').put key p', none) := by
  simp [CarsPQ.onBoth, hg, hp]

/-- A call that the general pair refuses. -/
theorem onBoth_error {call : QueuePair → Except CarExn QueuePair} {key : JString} {g : QueuePair}
    {q : Option QueuePair} {e : CarExn} (hg : call g = .error e) :
    P.onBoth call key g q = (P, some e) := by
  simp [CarsPQ.onBoth, hg]

theorem add (h : CarsInv P S) {c : Car} (hcomma : comma ∉ c.make ∧ comma ∉ c.model) :
    CarsInv (P.add c).1 (CarCall.onStore S (.add c)) := by
  obtain ⟨g, hg, hinv⟩ := h.general
  have hne : c.key ≠ generalKey := queueKey_ne_generalKey c.make c.model
  simp only [CarsPQ.add, hg, CarCall.onStore]
  cases hc : S c.vin with
  | some c' =>
    rw [onBoth_error (hinv.add_of_some hc), isSome_some, if_pos rfl]
    exact h
  | none =>
    -- the pair of the key, or a new one where there is none
    have hpair : PairInv ((P.table c.key).getD .new) (ofKey c.key S) := by
      cases hp : P.table c.key with
      | none =>
        have hnone : ofKey c.key S = fun _ => none := funext (h.missing c.key hne hp)
        rw [hnone]
        exact .new
      | some p => exact h.queue c.key p hne hp
    obtain ⟨g', hg', hginv⟩ := hinv.add hc
    obtain ⟨p', hp', hpinv⟩ := hpair.add (c := c) (by simp [ofKey, hc])
    rw [← ofKey_update_self (some c) (by simp)] at hpinv
    show CarsInv (P.onBoth (QueuePair.add c) c.key g (some ((P.table c.key).getD .new))).1 _
    rw [onBoth_ok hg' hp', isSome_none, if_neg Bool.false_ne_true]
    refine h.put hne hginv hpinv ?_ (by simp [hc])
    rintro _ ⟨⟩
    exact ⟨rfl, hcomma⟩

/-- The updates: the car keeps its VIN, make and model. -/
theorem onCar (h : CarsInv P S) (set : Car → Except CarExn Car) (vin : JString)
    (hset : ∀ c c', set c = .ok c' → c'.vin = c.vin ∧ c'.make = c.make ∧ c'.model = c.model) :
    CarsInv (P.onCar (QueuePair.updateWith set vin) vin).1
      (Function.update S vin ((S vin).map fun c => (set c).toOption.getD c)) := by
  obtain ⟨g, hg, hinv⟩ := h.general
  simp only [CarsPQ.onCar, hg]
  cases hc : S vin with
  | none =>
    rw [hinv.get_of_none hc, map_none, ← hc, update_eq_self]
    exact h
  | some c =>
    rw [hinv.get_of_some hc, map_some]
    dsimp only
    cases hs : set c with
    | error e =>
      have hstay : (Except.error e : Except CarExn Car).toOption.getD c = c := rfl
      rw [onBoth_error (hinv.updateWith_error hc hs), hstay, ← hc, update_eq_self]
      exact h
    | ok c' =>
      obtain ⟨hvin, hmake, hmodel⟩ := hset c c' hs
      have hkey : c'.key = c.key := by rw [Car.key, hmake, hmodel, Car.key]
      obtain ⟨p, hp, hpinv⟩ := h.exists_queue hc
      obtain ⟨g', hg', hginv⟩ := hinv.updateWith hc hs hvin
      obtain ⟨p', hp', hpinv'⟩ := hpinv.updateWith (ofKey_eq_some.mpr ⟨hc, rfl⟩) hs hvin
      rw [← ofKey_update_self (some c') (by simpa using hkey)] at hpinv'
      have htable : P.table (queueKey c.make c.model) = some p := hp
      rw [htable, onBoth_ok hg' hp']
      refine h.put (queueKey_ne_generalKey _ _) hginv hpinv' ?_ ?_
      · rintro _ ⟨⟩
        exact ⟨hkey, hmake ▸ (h.noComma vin c hc).1, hmodel ▸ (h.noComma vin c hc).2⟩
      · intro c₁ hc₁
        rw [hc] at hc₁
        cases hc₁
        rfl

theorem remove (h : CarsInv P S) {vin : JString}
    (hlast : ∀ p ∈ P.pairsOf vin, p.lastFits vin = true) :
    CarsInv (P.remove vin).1 (Function.update S vin none) := by
  obtain ⟨g, hg, hinv⟩ := h.general
  simp only [CarsPQ.remove, hg]
  cases hc : S vin with
  | none =>
    rw [hinv.get_of_none hc, ← hc, update_eq_self]
    exact h
  | some c =>
    obtain ⟨p, hp, hpinv⟩ := h.exists_queue hc
    have hpairs : P.pairsOf vin = [g, p] := by
      simp [CarsPQ.pairsOf, hg, hinv.get_of_some hc, hp]
    rw [hpairs] at hlast
    obtain ⟨g', hg', hginv⟩ := hinv.remove hc (hlast g (by simp))
    obtain ⟨p', hp', hpinv'⟩ :=
      hpinv.remove (ofKey_eq_some.mpr ⟨hc, rfl⟩) (hlast p (by simp))
    rw [← ofKey_update_self none nofun] at hpinv'
    have hne : c.key ≠ generalKey := queueKey_ne_generalKey c.make c.model
    have hput := h.put hne hginv hpinv' nofun (by simp [hc])
    rw [hinv.get_of_some hc]
    dsimp only
    have htable : P.table (queueKey c.make c.model) = some p := hp
    rw [htable, onBoth_ok hg' hp']
    dsimp only
    have hnew : ((P.put generalKey g').put (queueKey c.make c.model) p').table
        (queueKey c.make c.model) = some p' := by simp [CarsPQ.put]
    rw [hnew]
    dsimp only
    split
    case isTrue hzero =>
      -- no car of the key is left
      rw [hpinv'.count, Int.natCast_eq_zero] at hzero
      exact hput.erase hne (hpinv'.price.heap_length_eq_zero.mp hzero)
    case isFalse => exact hput

theorem step {s : CarsState} {c : CarCall} (h : CarsInv s.cars s.store) (hguard : Guarded s c) :
    CarsInv (s.step c).cars (s.step c).store := by
  cases c with
  | add newCar => exact h.add hguard
  | updatePrice vin newPrice =>
    refine h.onCar (fun c => .ok (c.setPrice newPrice)) vin ?_
    rintro c _ ⟨⟩
    exact ⟨rfl, rfl, rfl⟩
  | updateMileage vin newMileage =>
    refine h.onCar (fun c => .ok (c.setMileage newMileage)) vin ?_
    rintro c _ ⟨⟩
    exact ⟨rfl, rfl, rfl⟩
  | updateColor vin newColor =>
    refine h.onCar (fun c => c.setColor newColor) vin ?_
    intro c c' hc
    unfold Car.setColor at hc
    split at hc
    · cases hc
    · cases hc
      exact ⟨rfl, rfl, rfl⟩
  | remove vin => exact h.remove hguard

end CarsInv

theorem carsInv_of_reachable {s : CarsState} (h : carsSystem.ReachableBy Guarded s) :
    CarsInv s.cars s.store := by
  refine h.invariant (fun s => CarsInv s.cars s.store) ?_ ?_
  · rintro s rfl
    exact .init
  · rintro s c s' hinv hguard rfl
    exact hinv.step hguard

/-! ## Minima -/

/-- The car is stored. -/
def Stored (S : CarStore) (c : Car) : Prop := S c.vin = some c

/-- The queries return the lowest cars, and every queue is a heap. -/
structure Minima (P : CarsPQ) (S : CarStore) : Prop where
  lowPrice : LowestOf Car.price (Stored S) P.getLowPrice
  lowMileage : LowestOf Car.mileage (Stored S) P.getLowMileage
  lowPriceOf : ∀ make model, LowestOf Car.price
    (fun c => Stored S c ∧ c.make = make ∧ c.model = model) (P.getLowPriceOf make model)
  lowMileageOf : ∀ make model, LowestOf Car.mileage
    (fun c => Stored S c ∧ c.make = make ∧ c.model = model) (P.getLowMileageOf make model)
  isHeap : ∀ key p, P.table key = some p →
    p.priceQueue.isHeap CarPrice = true ∧ p.mileageQueue.isHeap CarMileage = true

theorem LowestOf.congr {α π : Type*} [LinearOrder π] {rank : α → π} {p p' : α → Prop}
    (h : ∀ v, p v ↔ p' v) {r : Option α} (hr : LowestOf rank p r) : LowestOf rank p' r := by
  rwa [← (funext fun v => propext (h v) : p = p')]

namespace CarsInv

variable {P : CarsPQ} {S : CarStore}

/-- The cars of a queue are those of its make and model. -/
theorem stored_ofKey_iff (h : CarsInv P S) (make model : JString) (c : Car) :
    Stored (ofKey (queueKey make model) S) c ↔ Stored S c ∧ c.make = make ∧ c.model = model := by
  unfold Stored
  rw [ofKey_eq_some]
  refine and_congr_right fun hc => ?_
  constructor
  · obtain ⟨hmake, hmodel⟩ := h.noComma _ c hc
    exact queueKey_inj hmake hmodel
  · rintro ⟨rfl, rfl⟩
    rfl

/-- A query on the queue of a make and a model. -/
theorem lowestOf_queue (h : CarsInv P S) {rank : Car → Int} {low : QueuePair → Option Car}
    (hlow : ∀ p S', PairInv p S' → LowestOf rank (Stored S') (low p)) (make model : JString) :
    LowestOf rank (fun c => Stored S c ∧ c.make = make ∧ c.model = model)
      ((P.table (queueKey make model)).bind low) := by
  refine LowestOf.congr (h.stored_ofKey_iff make model) ?_
  have hne := queueKey_ne_generalKey make model
  cases hp : P.table (queueKey make model) with
  | none =>
    intro c hc
    have hnone := h.missing _ hne hp c.vin
    rw [hc] at hnone
    cases hnone
  | some p => exact hlow p _ (h.queue _ p hne hp)

theorem minima (h : CarsInv P S) : Minima P S := by
  obtain ⟨g, hg, hinv⟩ := h.general
  have hprice : ∀ p S', PairInv p S' → LowestOf Car.price (Stored S') p.getLowPrice :=
    fun p S' hp => hp.price.getMin_lowest
  have hmileage : ∀ p S', PairInv p S' → LowestOf Car.mileage (Stored S') p.getLowMileage :=
    fun p S' hp => hp.mileage.getMin_lowest
  refine ⟨?_, ?_, h.lowestOf_queue hprice, h.lowestOf_queue hmileage, ?_⟩
  · rw [CarsPQ.getLowPrice, hg]
    exact hprice g S hinv
  · rw [CarsPQ.getLowMileage, hg]
    exact hmileage g S hinv
  · intro key p hp
    have hpair : ∃ S', PairInv p S' := by
      by_cases hkey : key = generalKey
      · subst hkey
        obtain rfl : g = p := some_inj.mp (hg.symm.trans hp)
        exact ⟨S, hinv⟩
      · exact ⟨_, h.queue key p hkey hp⟩
    obtain ⟨S', hp'⟩ := hpair
    exact ⟨isHeap_iff.mpr hp'.price.isHeap, isHeap_iff.mpr hp'.mileage.isHeap⟩

end CarsInv

/-- In every run that meets neither defect the queries return the lowest cars. -/
theorem minima_of_reachable {s : CarsState} (h : carsSystem.ReachableBy Guarded s) :
    Minima s.cars s.store := (carsInv_of_reachable h).minima

/-- The state after a list of calls on a new `CarsPQ`. -/
def carsAfter (calls : List CarCall) : CarsState :=
  calls.foldl CarsState.step ⟨.new, fun _ => none⟩

theorem reachable_carsAfter (calls : List CarCall) : carsSystem.Reachable (carsAfter calls) := by
  induction calls using List.reverseRecOn with
  | nil => exact .init rfl
  | append_singleton calls c ih =>
    rw [carsAfter, List.foldl_append]
    exact .step ih trivial rfl

/-- A car with a one-letter VIN of make `A` and model `B`. -/
def sampleCar (vin : JChar) (price : Int) (h : colon ≠ vin) : Car :=
  ⟨[vin], [65], [66], price, 0, [], by simpa [colon] using h⟩

/-- Three cars, and the removal of the cheapest. -/
theorem minima_of_reachable_three :
    ∃ s : CarsState, Minima s.cars s.store ∧
      (s.cars.getLowPriceOf [65] [66]).map Car.price = some 10 := by
  let a := CarCall.add (sampleCar 97 0 (by decide))
  let b := CarCall.add (sampleCar 98 10 (by decide))
  let c := CarCall.add (sampleCar 99 20 (by decide))
  have hthree : carsSystem.ReachableBy Guarded (carsAfter [a, b, c]) :=
    .step (.step (.step (.init rfl) (by decide) rfl) (by decide) rfl) (by decide) rfl
  have hremove : Guarded (carsAfter [a, b, c]) (.remove [97]) := by decide +kernel
  exact ⟨_, minima_of_reachable (.step hthree hremove rfl), by decide +kernel⟩

/-- The calls of a run that loses the cheapest car: `d` leaves a gap below `b`, and
the cheaper `f` is moved into it. -/
def losingCalls : List CarCall :=
  [.add (sampleCar 97 0 (by decide)), .add (sampleCar 98 10 (by decide)),
    .add (sampleCar 99 1 (by decide)), .add (sampleCar 100 11 (by decide)),
    .add (sampleCar 101 12 (by decide)), .add (sampleCar 102 3 (by decide)),
    .remove [100], .updatePrice [99] 50, .remove [97]]

/-- After these calls a car for 3 is stored, and the lowest price returned is 10. -/
theorem not_minima_of_reachable :
    ∃ s, carsSystem.Reachable s ∧ ¬ LowestOf Car.price (Stored s.store) s.cars.getLowPrice := by
  refine ⟨carsAfter losingCalls, reachable_carsAfter losingCalls, ?_⟩
  have hlow : (carsAfter losingCalls).cars.getLowPrice = some (sampleCar 98 10 (by decide)) := by
    decide +kernel
  have hstored : Stored (carsAfter losingCalls).store (sampleCar 102 3 (by decide)) := by
    unfold Stored
    decide +kernel
  rw [hlow]
  intro hlowest
  exact absurd (hlowest.2 _ hstored) (by decide)

end PittCs.Cs1501
