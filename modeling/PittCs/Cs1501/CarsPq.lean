import PittCs.Cs1501.PqIndex
import PittCs.Cs1501.Basic

/-!
# The contents of a priority queue

`PQInv I q S` says that the queue holds the values of the map `S`, at the positions
its table gives, in heap order.

* `PQInv.add`, `PQInv.update`, `PQInv.remove`: the operations on that map. `remove`
  moves the last value into the gap and sifts it down only, so it keeps the order
  exactly if that value is not smaller than the one above the gap.
* `PQInv.getMin_lowest`: `get_min` returns a value of the lowest rank.
-/

namespace PittCs.Cs1501

open PittCs.Lib.ArrayHeap Function

variable {κ α π : Type*} [LinearOrder π]

/-- The queue holds the values of `S`, in heap order. -/
structure PQInv (I : KeyVal κ α π) (q : IndirectedPQ κ α) (S : κ → Option α) : Prop where
  consistent : Consistent I q.heap_length q
  holds : ∀ k v, S k = some v ↔ I.getKey v = k ∧ ∃ i < q.heap_length, q.heap i = v
  isHeap : IsHeap q.heap_length (I.rank ∘ q.heap)
  fits : q.heap_length ≤ q.arr_length
  arr_pos : 0 < q.arr_length

/-- The value is one of those that satisfy `p`, with the lowest rank; without a
value there is none. -/
def LowestOf (rank : α → π) (p : α → Prop) : Option α → Prop
  | none => ∀ v, ¬ p v
  | some v => p v ∧ ∀ w, p w → rank v ≤ rank w

namespace PQInv

variable {I : KeyVal κ α π} {q : IndirectedPQ κ α} {S : κ → Option α}

theorem new [Inhabited α] : PQInv I (.new : IndirectedPQ κ α) fun _ => none where
  consistent k i := by simp [IndirectedPQ.new]
  holds k v := by simp [IndirectedPQ.new]
  isHeap i _ hi := absurd hi (Nat.not_lt_zero i)
  fits := Nat.zero_le _
  arr_pos := Nat.zero_lt_succ 9

/-- The order apart. -/
theorem indexed (h : PQInv I q S) : Indexed I q S := ⟨h.consistent, h.holds, h.fits, h.arr_pos⟩

theorem contains_eq (h : PQInv I q S) (k : κ) : q.contains k = (S k).isSome := h.indexed.contains_eq k

theorem get_eq (h : PQInv I q S) (k : κ) : q.get k = S k := h.indexed.get_eq k

theorem getMin_lowest (h : PQInv I q S) :
    LowestOf I.rank (fun v => S (I.getKey v) = some v) q.getMin := by
  unfold IndirectedPQ.getMin
  split
  case isTrue hzero =>
    intro v hv
    obtain ⟨_, i, hi, _⟩ := (h.holds _ v).mp hv
    omega
  case isFalse hpos =>
    refine ⟨(h.holds _ _).mpr ⟨rfl, 0, Nat.pos_of_ne_zero hpos, rfl⟩, ?_⟩
    intro w hw
    obtain ⟨_, i, hi, rfl⟩ := (h.holds _ w).mp hw
    exact h.isHeap.root_le hi

theorem heap_length_eq_zero (h : PQInv I q S) : q.heap_length = 0 ↔ ∀ k, S k = none := by
  constructor
  · intro hzero k
    cases hk : S k with
    | none => rfl
    | some v =>
      obtain ⟨_, i, hi, _⟩ := (h.holds k v).mp hk
      omega
  · intro hnone
    by_contra hpos
    have hk := (h.holds _ (q.heap 0)).mpr ⟨rfl, 0, Nat.pos_of_ne_zero hpos, rfl⟩
    rw [hnone] at hk
    cases hk

section Changes

/-- A longer array with the same values. -/
theorem resize [Inhabited α] (h : PQInv I q S) : PQInv I q.resize S := by
  have hindexed := h.indexed.resize
  refine ⟨hindexed.consistent, hindexed.holds, ?_, hindexed.fits, hindexed.arr_pos⟩
  intro i hpos hi
  have heq : ∀ i, i < q.heap_length → q.resize.heap i = q.heap i := fun i hi => by
    simp [IndirectedPQ.resize, hi]
  have hle := h.isHeap i hpos hi
  simpa only [comp_apply, heq i hi, heq _ ((parent_lt hpos).trans hi)] using hle

/-- The queue after a sift of its first `m` values. -/
theorem of_rearranged {m : Nat} {q' : IndirectedPQ κ α} (hre : Rearranged I m q q')
    (hcons : Consistent I m q)
    (hholds : ∀ k v, S k = some v ↔ I.getKey v = k ∧ ∃ i < m, q.heap i = v)
    (hheap : IsHeap m (I.rank ∘ q'.heap)) (hfits : m ≤ q.arr_length) (hpos : 0 < q.arr_length) :
    PQInv I { q' with heap_length := m } S := by
  have hindexed := Indexed.of_rearranged hre hcons hholds hfits hpos
  exact ⟨hindexed.consistent, hindexed.holds, hheap, hindexed.fits, hindexed.arr_pos⟩

variable [DecidableEq κ]

theorem add [Inhabited α] (h : PQInv I q S) {v : α} (hv : S (I.getKey v) = none) :
    PQInv I (q.add I v) (Function.update S (I.getKey v) (some v)) ∧
      (q.add I v).heap_length = q.heap_length + 1 := by
  have hnot : q.contains (I.getKey v) = false := by simp [h.contains_eq, hv]
  -- the array has room for one more value
  obtain ⟨r, hr, hinv, hlen, hroom⟩ :
      ∃ r, (if q.heap_length = q.arr_length then q.resize else q) = r ∧ PQInv I r S ∧
        r.heap_length = q.heap_length ∧ r.heap_length + 1 ≤ r.arr_length := by
    split
    case isTrue hfull =>
      refine ⟨_, rfl, h.resize, rfl, ?_⟩
      show q.heap_length + 1 ≤ 2 * q.arr_length
      have hpos := h.arr_pos
      omega
    case isFalse hfull =>
      have hfits := h.fits
      exact ⟨_, rfl, h, rfl, by omega⟩
  have hup : UpTo (r.heap_length + 1)
      (I.rank ∘ Function.update r.heap r.heap_length v) r.heap_length := by
    rw [comp_update]
    exact hinv.isHeap.upTo_push _
  obtain ⟨hre, hheap⟩ := pullUpLoop_spec (q := { r with
    heap := Function.update r.heap r.heap_length v
    table := Function.update r.table (I.getKey v) (some r.heap_length) })
    r.heap_length r.heap_length (Nat.lt_succ_self _) le_rfl hup
  unfold IndirectedPQ.add
  rw [hnot]
  dsimp only [Bool.false_eq_true, if_false]
  rw [hr, if_neg Bool.false_ne_true]
  have hfinal := of_rearranged hre (hinv.indexed.consistent_push hv) (hinv.indexed.holds_push hv) hheap hroom
    hinv.arr_pos
  have hlen' := hre.heap_length
  dsimp only at hlen'
  unfold IndirectedPQ.pullUp
  rw [hlen']
  exact ⟨hfinal, by rw [hlen]⟩

/-- A sift down that finds no smaller child does nothing. -/
theorem pushDown_of_not_childLess {c : Nat} (h : q.childLess I c = false) :
    q.pushDown I c = q := by
  unfold IndirectedPQ.pushDown
  cases q.heap_length with
  | zero => rfl
  | succ n => simp [IndirectedPQ.pushDownLoop, h]

theorem update (h : PQInv I q S) {k : κ} {v w : α} (hk : S k = some v) (hw : I.getKey w = k) :
    PQInv I (q.update I k w) (Function.update S k (some w)) ∧
      (q.update I k w).heap_length = q.heap_length := by
  rcases h.indexed.table_eq_some hk with ⟨t, ht, htable, -⟩
  have hkey : I.getKey (q.heap t) = k := ((h.consistent k t).mp htable).2
  have hcons := h.indexed.consistent_replace (hw.trans hkey.symm)
  have hholds := h.indexed.holds_replace htable hw
  have hrank : I.rank ∘ Function.update q.heap t w =
      Function.update (I.rank ∘ q.heap) t (I.rank w) := comp_update _ _ _ _
  -- either the new value rises, or it sinks, or it stays
  obtain ⟨q', hq', hre, hheap⟩ : ∃ q', q.updateAt I t w = q' ∧
      Rearranged I q.heap_length { q with heap := Function.update q.heap t w } q' ∧
      IsHeap q.heap_length (I.rank ∘ q'.heap) := by
    refine ⟨_, rfl, ?_⟩
    unfold IndirectedPQ.updateAt
    rw [if_neg (by omega)]
    dsimp only
    split
    case isTrue hless =>
      have hlt := less_iff.mp hless
      dsimp only at hlt
      have hpos : 0 < t := by
        rcases Nat.eq_zero_or_pos t with rfl | hpos
        · exact absurd hlt (lt_irrefl _)
        · exact hpos
      rw [update_self, update_of_ne (parent_lt hpos).ne] at hlt
      have hup : UpTo q.heap_length (I.rank ∘ Function.update q.heap t w) t := by
        rw [hrank]
        exact h.isHeap.upTo_update hpos hlt
      obtain ⟨hre, hheap⟩ := pullUpLoop_spec
        (q := { q with heap := Function.update q.heap t w }) t t ht le_rfl hup
      rw [if_neg]
      · exact ⟨hre, hheap⟩
      · -- after the rise the heap is in order
        intro hchild
        obtain ⟨i, hi, hin, hpi, hlt⟩ := childLess_iff.mp hchild
        have hlen : i < q.heap_length := hin.trans_eq hre.heap_length
        exact (hheap i hi hlen).not_gt (by rw [hpi]; exact hlt)
    case isFalse hge =>
      have hdown : DownFrom q.heap_length (I.rank ∘ Function.update q.heap t w) t := by
        rw [hrank]
        refine h.isHeap.downFrom_update fun hpos => not_lt.mp fun hlt => hge (less_iff.mpr ?_)
        dsimp only
        rw [update_self, update_of_ne (parent_lt hpos).ne]
        exact hlt
      have hspec := pushDownLoop_spec (q := { q with heap := Function.update q.heap t w })
        q.heap_length t (Nat.le_add_left _ _) hdown
      split
      case isTrue => exact hspec
      case isFalse hstop =>
        have heq := pushDown_of_not_childLess (by simpa using hstop)
        unfold IndirectedPQ.pushDown at heq
        rw [heq] at hspec
        exact hspec
  have hfinal := of_rearranged hre hcons hholds hheap h.fits h.arr_pos
  unfold IndirectedPQ.update
  rw [htable]
  dsimp only
  rw [if_pos hw, hq']
  have hlen : q'.heap_length = q.heap_length := hre.heap_length
  rw [← hlen] at hfinal
  exact ⟨hfinal, hlen⟩

end Changes

/-! ## Removal -/

section Removal

variable [DecidableEq κ]

/-- The last value, which `remove` moves into the gap, is not smaller than the value
above the gap. -/
def lastFits (I : KeyVal κ α π) (k : κ) (q : IndirectedPQ κ α) : Bool :=
  match q.table k with
  | none => true
  | some t => !q.less I (q.heap_length - 1) (parent t)

omit [DecidableEq κ] in
theorem lastFits_iff {k : κ} {t : Nat} (htable : q.table k = some t) :
    lastFits I k q = true ↔
      ¬ I.rank (q.heap (q.heap_length - 1)) < I.rank (q.heap (parent t)) := by
  simp only [lastFits, htable, Bool.not_eq_true', ← Bool.not_eq_true, less_iff]

omit [LinearOrder π] in
/-- The ranks in the gap-filled queue. -/
theorem rank_gapFilled {t i : Nat} (hi : i < q.heap_length - 1) :
    I.rank ((gapFilled I t q).heap i) =
      Function.update (I.rank ∘ q.heap) t (I.rank (q.heap (q.heap_length - 1))) i := by
  show I.rank (exchange q.heap t (q.heap_length - 1) i) = _
  by_cases hit : i = t
  · rw [hit, exchange_left, update_self]
  · rw [exchange_of_ne _ hit hi.ne, update_of_ne hit]
    rfl

theorem downFrom_gapFilled (h : PQInv I q S) {t : Nat}
    (hlast : ¬ I.rank (q.heap (q.heap_length - 1)) < I.rank (q.heap (parent t))) :
    DownFrom (q.heap_length - 1) (I.rank ∘ (gapFilled I t q).heap) t := by
  have hheap : IsHeap (q.heap_length - 1) (I.rank ∘ q.heap) :=
    fun i hi hin => h.isHeap i hi (by omega)
  have hd := hheap.downFrom_update (c := t) fun _ => not_lt.mp hlast
  constructor
  · intro i hi hin hpi
    have hle := hd.order i hi hin hpi
    have hpin := (parent_lt hi).trans hin
    rwa [← rank_gapFilled hin, ← rank_gapFilled hpin] at hle
  · intro hpos i hi hin hpi
    have hle := hd.grand hpos i hi hin hpi
    have hti : t < i := hpi ▸ parent_lt hi
    rwa [← rank_gapFilled hin, ← rank_gapFilled (((parent_lt hpos).trans hti).trans hin)] at hle

theorem remove (h : PQInv I q S) {k : κ} {v : α} (hk : S k = some v)
    (hlast : lastFits I k q = true) :
    PQInv I (q.remove I k).2 (Function.update S k none) ∧
      (q.remove I k).2.heap_length + 1 = q.heap_length := by
  rcases h.indexed.table_eq_some hk with ⟨t, ht, htable, -⟩
  have hindexed := (h.indexed.remove hk).2
  rcases pushDownLoop_spec (q := gapFilled I t q) (gapFilled I t q).heap_length t
    (Nat.le_add_left _ _) (h.downFrom_gapFilled ((lastFits_iff htable).mp hlast)) with ⟨hre, hheap⟩
  have hlen : ((gapFilled I t q).pushDown I t).heap_length = q.heap_length - 1 := hre.heap_length
  rw [remove_eq htable ht] at hindexed ⊢
  refine ⟨⟨hindexed.consistent, hindexed.holds, ?_, hindexed.fits, hindexed.arr_pos⟩, ?_⟩
  · show IsHeap ((gapFilled I t q).pushDown I t).heap_length
      (I.rank ∘ ((gapFilled I t q).pushDown I t).heap)
    rw [hlen]
    exact hheap
  · show ((gapFilled I t q).pushDown I t).heap_length + 1 = q.heap_length
    omega

end Removal

end PQInv

/-!
## Cars by price and mileage

`Car.java`, `QueuePair.java` and `CarsPQ.java`. A `QueuePair` keeps the same cars in
a queue by price and in a queue by mileage; `CarsPQ` has one pair for all cars, under
the key `general`, and one for each `make,model`. The pairs are objects, so what a
call has done to one of them before it throws stays done.
-/

/-- `Car`; its constructor and `setColor` refuse a colon. -/
structure Car where
  vin : JString
  make : JString
  model : JString
  price : Int
  mileage : Int
  color : JString
  noColon : colon ∉ vin ∧ colon ∉ make ∧ colon ∉ model ∧ colon ∉ color
deriving DecidableEq

/-- `Car()`. -/
instance : Inhabited Car := ⟨⟨[], [], [], 0, 0, [], by simp⟩⟩

/-- The exceptions of the calls. -/
inductive CarExn where
  | duplicateVin
  | noSuchElement
  | illegalCharacter
  | nullPointer
deriving Repr, DecidableEq

namespace Car

/-- `setPrice`. -/
def setPrice (newPrice : Int) (c : Car) : Car := { c with price := newPrice }

/-- `setMileage`. -/
def setMileage (newMileage : Int) (c : Car) : Car := { c with mileage := newMileage }

/-- `setColor`. -/
def setColor (newColor : JString) (c : Car) : Except CarExn Car :=
  if h : colon ∈ newColor then .error .illegalCharacter
  else .ok { c with
    color := newColor
    noColon := ⟨c.noColon.1, c.noColon.2.1, c.noColon.2.2.1, h⟩ }

end Car

/-- `CarPrice`. -/
def CarPrice : KeyVal JString Car Int := ⟨Car.vin, Car.price⟩

/-- `CarMileage`. -/
def CarMileage : KeyVal JString Car Int := ⟨Car.vin, Car.mileage⟩

/-- The fields of `QueuePair`. -/
structure QueuePair where
  priceQueue : IndirectedPQ JString Car
  mileageQueue : IndirectedPQ JString Car
  count : Int

namespace QueuePair

/-- The constructor. -/
def new : QueuePair := ⟨.new, .new, 0⟩

/-- `add`. -/
def add (newCar : Car) (p : QueuePair) : Except CarExn QueuePair :=
  if p.priceQueue.contains newCar.vin || p.mileageQueue.contains newCar.vin then
    .error .duplicateVin
  else
    .ok ⟨p.priceQueue.add CarPrice newCar, p.mileageQueue.add CarMileage newCar, p.count + 1⟩

/-- The check of `get`, the updates and `remove`. -/
def lacks (vin : JString) (p : QueuePair) : Bool :=
  !p.priceQueue.contains vin || !p.mileageQueue.contains vin

/-- `get`; the car may be null. -/
def get (vin : JString) (p : QueuePair) : Except CarExn (Option Car) :=
  if p.lacks vin then .error .noSuchElement else .ok (p.priceQueue.get vin)

/-- The updates: a copy of the car is changed and put in its place in both queues. -/
def updateWith (set : Car → Except CarExn Car) (vin : JString) (p : QueuePair) :
    Except CarExn QueuePair :=
  if p.lacks vin then .error .noSuchElement
  else
    match p.priceQueue.get vin with
    | none => .error .nullPointer
    | some car =>
      match set car with
      | .error e => .error e
      | .ok car =>
        .ok { p with
          priceQueue := p.priceQueue.update CarPrice vin car
          mileageQueue := p.mileageQueue.update CarMileage vin car }

/-- `updatePrice`. -/
def updatePrice (vin : JString) (newPrice : Int) : QueuePair → Except CarExn QueuePair :=
  updateWith (fun c => .ok (c.setPrice newPrice)) vin

/-- `updateMileage`. -/
def updateMileage (vin : JString) (newMileage : Int) : QueuePair → Except CarExn QueuePair :=
  updateWith (fun c => .ok (c.setMileage newMileage)) vin

/-- `updateColor`. -/
def updateColor (vin newColor : JString) : QueuePair → Except CarExn QueuePair :=
  updateWith (fun c => c.setColor newColor) vin

/-- `remove`. -/
def remove (vin : JString) (p : QueuePair) : Except CarExn QueuePair :=
  if p.lacks vin then .error .noSuchElement
  else
    .ok ⟨(p.priceQueue.remove CarPrice vin).2, (p.mileageQueue.remove CarMileage vin).2,
      p.count - 1⟩

/-- `getLowPrice`. -/
def getLowPrice (p : QueuePair) : Option Car := p.priceQueue.getMin

/-- `getLowMileage`. -/
def getLowMileage (p : QueuePair) : Option Car := p.mileageQueue.getMin

end QueuePair

/-- The field of `CarsPQ`. -/
structure CarsPQ where
  table : JString → Option QueuePair

/-- The key `"general"`. -/
def generalKey : JString := [103, 101, 110, 101, 114, 97, 108]

/-- The key `make,model`. -/
def queueKey (make model : JString) : JString := make ++ comma :: model

namespace CarsPQ

/-- `table.put`. -/
def put (key : JString) (p : QueuePair) (P : CarsPQ) : CarsPQ :=
  ⟨Function.update P.table key (some p)⟩

/-- `table.delete`. -/
def erase (key : JString) (P : CarsPQ) : CarsPQ := ⟨Function.update P.table key none⟩

/-- The constructor. -/
def new : CarsPQ := put generalKey .new ⟨fun _ => none⟩

/-- A call on the general pair and then on the other one. -/
def onBoth (call : QueuePair → Except CarExn QueuePair) (key : JString) (general : QueuePair)
    (makeQueue : Option QueuePair) (P : CarsPQ) : CarsPQ × Option CarExn :=
  match call general with
  | .error e => (P, some e)
  | .ok general =>
    let P := P.put generalKey general
    match makeQueue with
    | none => (P, some .nullPointer)
    | some makeQueue =>
      match call makeQueue with
      | .error e => (P, some e)
      | .ok makeQueue => (P.put key makeQueue, none)

/-- `add`. -/
def add (newCar : Car) (P : CarsPQ) : CarsPQ × Option CarExn :=
  let key := queueKey newCar.make newCar.model
  match P.table generalKey with
  | none => (P, some .nullPointer)
  | some general =>
    P.onBoth (QueuePair.add newCar) key general (some ((P.table key).getD .new))

/-- The other calls: the car is looked up in the general pair first. -/
def onCar (call : QueuePair → Except CarExn QueuePair) (vin : JString) (P : CarsPQ) :
    CarsPQ × Option CarExn :=
  match P.table generalKey with
  | none => (P, some .nullPointer)
  | some general =>
    match general.get vin with
    | .error e => (P, some e)
    | .ok none => (P, some .nullPointer)
    | .ok (some car) =>
      let key := queueKey car.make car.model
      P.onBoth call key general (P.table key)

/-- `updatePrice`. -/
def updatePrice (vin : JString) (newPrice : Int) : CarsPQ → CarsPQ × Option CarExn :=
  onCar (QueuePair.updatePrice vin newPrice) vin

/-- `updateMileage`. -/
def updateMileage (vin : JString) (newMileage : Int) : CarsPQ → CarsPQ × Option CarExn :=
  onCar (QueuePair.updateMileage vin newMileage) vin

/-- `updateColor`. -/
def updateColor (vin newColor : JString) : CarsPQ → CarsPQ × Option CarExn :=
  onCar (QueuePair.updateColor vin newColor) vin

/-- `remove`; a pair that has become empty leaves the table. -/
def remove (vin : JString) (P : CarsPQ) : CarsPQ × Option CarExn :=
  match P.table generalKey with
  | none => (P, some .nullPointer)
  | some general =>
    match general.get vin with
    | .error e => (P, some e)
    | .ok none => (P, some .nullPointer)
    | .ok (some car) =>
      let key := queueKey car.make car.model
      match P.onBoth (QueuePair.remove vin) key general (P.table key) with
      | (P, some e) => (P, some e)
      | (P, none) =>
        match P.table key with
        | none => (P, none)
        | some makeQueue => if makeQueue.count = 0 then (P.erase key, none) else (P, none)

/-- `getLowPrice()`. -/
def getLowPrice (P : CarsPQ) : Option Car := (P.table generalKey).bind QueuePair.getLowPrice

/-- `getLowMileage()`. -/
def getLowMileage (P : CarsPQ) : Option Car := (P.table generalKey).bind QueuePair.getLowMileage

/-- `getLowPrice(make, model)`. -/
def getLowPriceOf (make model : JString) (P : CarsPQ) : Option Car :=
  (P.table (queueKey make model)).bind QueuePair.getLowPrice

/-- `getLowMileage(make, model)`. -/
def getLowMileageOf (make model : JString) (P : CarsPQ) : Option Car :=
  (P.table (queueKey make model)).bind QueuePair.getLowMileage

end CarsPQ

end PittCs.Cs1501
