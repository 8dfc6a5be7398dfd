import PittCs.Lib.TransitionSystem
import PittCs.MallocLab.Calls

/-!
# The allocator and its client

A client calls `mm_malloc` and `mm_free` in any order, and writes to the payloads it has
been given. Every state it can reach satisfies the invariant of the heap; the payloads of
its live allocations are aligned, lie in the heap and do not overlap, and a call changes
no byte of them, except in the allocation that is freed.
-/

namespace PittCs.MallocLab

open PittCs.Lib List Option

/-- The heap, and the pointers the client holds with the sizes it has asked for. -/
structure Client where
  heap : Heap
  live : List (Nat × Nat)

/-- A call, or a byte written by the client. -/
inductive Call where
  | malloc (size : Nat)
  | free (bp : Nat)
  | store (addr value : Nat)
deriving DecidableEq, Repr

/-- The bytes of the payload at `bp`: those of the block without its tags. -/
def Heap.payloadSize (h : Heap) (bp : Nat) : Nat := h.getSize (payloadToHeader bp) - dsize

/-- The address belongs to the payload at `bp`. -/
def Heap.InPayload (h : Heap) (bp a : Nat) : Prop := bp ≤ a ∧ a < bp + h.payloadSize bp

instance (h : Heap) (bp a : Nat) : Decidable (h.InPayload bp a) := by
  unfold Heap.InPayload
  infer_instance

/-- Requests are at most 2^63, only live pointers are freed, and only their payloads are
written to. -/
def Client.step (s : Client) : Call → Option Client
  | .malloc size =>
    if 2 ^ 63 < size then none
    else
      match s.heap.mmMalloc size with
      | none => none
      | some (h, bp) => some ⟨h, if bp = 0 then s.live else (bp, size) :: s.live⟩
  | .free bp =>
    if bp ∈ s.live.map Prod.fst then
      some ⟨s.heap.mmFree bp, s.live.filter fun x => x.1 ≠ bp⟩
    else none
  | .store addr value =>
    if ∃ x ∈ s.live, s.heap.InPayload x.1 addr then
      some ⟨s.heap.writeByte addr value, s.live⟩
    else none

/-- The runs of a client after `mm_init`. -/
def Client.system : TransitionSystem Client Call where
  Init s := ∃ h : Heap, h.Fresh ∧ s = ⟨h.mmInit.1, []⟩
  Next s c s' := s.step c = some s'

/-- The invariant, with an allocated block for every pointer the client holds. -/
structure Client.Good (s : Client) (bs : List Block) (fl : List Nat) : Prop where
  inv : s.heap.Inv bs fl
  live : ∀ x ∈ s.live, ∃ a c, x.1 = a + 8 ∧ (a, c) ∈ s.heap.layout bs ∧ c.alloc = true ∧
    x.2 + 16 ≤ c.size
  nodup : (s.live.map Prod.fst).Nodup

variable {s s' : Client} {h h' : Heap} {bs : List Block} {fl : List Nat} {a : Nat} {c : Block}

theorem payloadSize_eq (hs : h.Shape bs fl) (hx : (a, c) ∈ h.layout bs) :
    h.payloadSize (a + 8) = c.size - 16 := by
  have hhead : payloadToHeader (a + 8) = a := Nat.add_sub_cancel a 8
  have hsize : h.getSize a = c.size := hs.getSize hx
  rw [Heap.payloadSize, hhead, hsize, dsize]

/-- The word of a byte of a payload is neither the header nor the footer. -/
theorem word_of_inPayload (hs : h.Shape bs fl) (hx : (a, c) ∈ h.layout bs) {i : Nat}
    (hi : h.InPayload (a + 8) i) : a + 8 ≤ i / 8 * 8 ∧ i / 8 * 8 + 16 ≤ a + c.size := by
  obtain ⟨hlo, hhi⟩ := hi
  rw [payloadSize_eq hs hx] at hhi
  have hmod : a % 16 = 8 := (hs.bounds hx).2.2.1
  have hal := c.aligned
  have hlarge := c.large
  omega

/-! ## Writing to a payload -/

theorem restacks_write {pre post : List Block} (hs : h.Shape (pre ++ [c] ++ post) fl)
    (hal : c.alloc = true) {w v : Nat} (hlo : h.heapStart + total Block.size pre + 8 ≤ w)
    (hhi : w + 16 ≤ h.heapStart + total Block.size pre + c.size) :
    Restacks h (h.write w v) pre [c] [c] post fl := by
  have hmem := mem_layout_middle h pre post c
  have hbd := (hs.bounds hmem).2.1
  dsimp only at hbd
  have hmid : total Block.size (pre ++ [c]) = total Block.size pre + c.size := by simp
  have hother : ∀ i, i ≠ w → (h.write w v).mem i = h.mem i := fun i hi => Function.update_of_ne hi ..
  refine ⟨hs.toArena.congr _ _, rfl, rfl, hs.memBrk, ?_, .inr rfl, fun i hi => ?_, fun f hf => ?_,
    fun x hx => ?_, fun f hf b hb => ?_⟩
  · rw [hother _ (by omega)]
    exact hs.epilogue
  · exact hother i (by omega)
  · -- a free block is another one
    obtain ⟨b, hb, hfree⟩ := hs.free f hf
    have hne : (f, b) ≠ (h.heapStart + total Block.size pre, c) := by
      intro heq
      cases heq
      rw [hal] at hfree
      cases hfree
    have hbl := b.large
    have hdisj := layout_disjoint Block.size hb hmem hne
    dsimp only at hdisj
    exact ⟨hother _ (by omega), hother _ (by omega)⟩
  · rw [layout_cons, layout_nil, mem_singleton] at hx
    have htag := hs.tags _ hmem
    have hcl := c.large
    rw [hx]
    exact ⟨(hother _ (by dsimp only; omega)).trans htag.1,
      (hother _ (by dsimp only; omega)).trans htag.2⟩
  · rw [layout_cons, layout_nil, mem_singleton] at hb
    cases hb
    exact absurd hf (hs.notMem_of_alloc hmem hal)

theorem inv_writeByte (hi : h.Inv bs fl) (hx : (a, c) ∈ h.layout bs) (hal : c.alloc = true)
    {i : Nat} (hin : h.InPayload (a + 8) i) (v : Nat) :
    (h.writeByte i v).Inv bs fl ∧ (h.writeByte i v).layout bs = h.layout bs := by
  obtain ⟨hlo, hhi⟩ := word_of_inPayload hi.toShape hx hin
  obtain ⟨pre, post, rfl, rfl⟩ := exists_of_mem_layout hx
  unfold Heap.writeByte
  dsimp only
  generalize h.mem (i / 8 * 8) / 256 ^ (i % 8 + 1) * 256 ^ (i % 8 + 1) +
    v % 256 * 256 ^ (i % 8) + h.mem (i / 8 * 8) % 256 ^ (i % 8) = v'
  have hr := restacks_write (v := v') hi.toShape hal hlo hhi
  exact ⟨⟨hr.shape hi.toShape, hi.complete, hi.coalesced⟩, rfl⟩

/-! ## Runs -/

theorem good_init (hf : h.Fresh) : ∃ bs fl, Client.Good ⟨h.mmInit.1, []⟩ bs fl := by
  obtain ⟨-, bs, fl, hi⟩ := inv_mmInit hf
  refine ⟨bs, fl, hi, fun x hx => ?_, nodup_nil⟩
  cases hx

theorem good_store (hg : s.Good bs fl) {i v : Nat} (hstep : s.step (.store i v) = some s') :
    s'.Good bs fl := by
  simp only [Client.step] at hstep
  split at hstep
  · rename_i hex
    obtain rfl := some.inj hstep
    obtain ⟨x, hx, hin⟩ := hex
    obtain ⟨a, c, hxa, hmem, hal, -⟩ := hg.live x hx
    rw [hxa] at hin
    obtain ⟨hinv, hlayout⟩ := inv_writeByte hg.inv hmem hal hin v
    exact ⟨hinv, fun y hy => by rw [hlayout]; exact hg.live y hy, hg.nodup⟩
  · cases hstep

/-- Blocks of the client that a call keeps are blocks of the client afterwards. -/
theorem Client.Good.live_keeps {bs' : List Block} {q : Nat} (hg : s.Good bs fl)
    (hk : Keeps q s.heap bs h' bs') {x : Nat × Nat} (hx : x ∈ s.live) (hq : x.1 ≠ q + 8) :
    ∃ a c, x.1 = a + 8 ∧ (a, c) ∈ h'.layout bs' ∧ c.alloc = true ∧ x.2 + 16 ≤ c.size := by
  obtain ⟨a, c, hxa, hmem, hal, hsize⟩ := hg.live x hx
  exact ⟨a, c, hxa, (hk (a, c) hmem hal (by dsimp only; omega)).1, hal, hsize⟩

/-- A pointer of the client is not `NULL` and not the first word of the memory. -/
theorem Client.Good.live_pos (hg : s.Good bs fl) {x : Nat × Nat} (hx : x ∈ s.live) : 8 < x.1 := by
  obtain ⟨a, c, hxa, hmem, -⟩ := hg.live x hx
  have hlo := (hg.inv.bounds hmem).1
  have hstart := hg.inv.start
  have hpos := hg.inv.pos
  dsimp only at hlo
  omega

/-- A request that does not wrap, with what becomes of the client. -/
theorem good_mmMalloc (hg : s.Good bs fl) {size : Nat} (hsize : size ≤ 2 ^ 64 - 32) :
    ∃ h' p bs' fl', s.heap.mmMalloc size = some (h', p) ∧
      Client.Good ⟨h', if p = 0 then s.live else (p, size) :: s.live⟩ bs' fl' ∧
      Allocates s.heap bs size h' p bs' fl' := by
  obtain ⟨h', p, bs', fl', hmalloc, hal⟩ := inv_mmMalloc hg.inv hsize
  have hold : ∀ x ∈ s.live, ∃ a c, x.1 = a + 8 ∧ (a, c) ∈ h'.layout bs' ∧ c.alloc = true ∧
      x.2 + 16 ≤ c.size := by
    intro x hx
    have hpos := hg.live_pos hx
    exact hg.live_keeps (hal.keeps 0) hx (by omega)
  refine ⟨h', p, bs', fl', hmalloc, ?_, hal⟩
  rcases hal.result with rfl | ⟨a, c, rfl, hc, hca, hcs, hnew⟩
  · exact ⟨hal.inv, by simpa using hold, by simpa using hg.nodup⟩
  · rw [if_neg (by omega)]
    refine ⟨hal.inv, forall_mem_cons.mpr ⟨⟨a, c, rfl, hc, hca, hcs⟩, hold⟩, ?_⟩
    rw [map_cons, nodup_cons]
    refine ⟨fun hmem => ?_, hg.nodup⟩
    -- the block of an older pointer was allocated before the call
    obtain ⟨x, hx, hxp⟩ := mem_map.mp hmem
    obtain ⟨b, d, hxb, hb, hd, -⟩ := hg.live x hx
    dsimp only at hxp
    exact hnew (b, d) hb hd (by dsimp only; omega)

theorem good_malloc (hg : s.Good bs fl) {size : Nat} (hsize : size ≤ 2 ^ 63) : ∃ s' bs' fl',
    s.step (.malloc size) = some s' ∧ s'.Good bs' fl' ∧
      (∀ q, Keeps q s.heap bs s'.heap bs') ∧ ∀ x ∈ s.live, x ∈ s'.live := by
  obtain ⟨h', p, bs', fl', hmalloc, hgood, hal⟩ := good_mmMalloc hg (Nat.le_trans hsize (by decide))
  refine ⟨⟨h', if p = 0 then s.live else (p, size) :: s.live⟩, bs', fl', ?_, hgood, hal.keeps, ?_⟩
  · simp only [Client.step, hmalloc, if_neg (Nat.not_lt.mpr hsize)]
  · intro x hx
    dsimp only
    split
    · exact hx
    · exact mem_cons_of_mem _ hx

theorem good_free (hg : s.Good bs fl) {bp : Nat} (hstep : s.step (.free bp) = some s') :
    ∃ a bs' fl', bp = a + 8 ∧ s'.Good bs' fl' ∧ Keeps a s.heap bs s'.heap bs' ∧
      ∀ x ∈ s.live, x.1 ≠ bp → x ∈ s'.live := by
  simp only [Client.step] at hstep
  split at hstep
  · rename_i hlive
    obtain rfl := some.inj hstep
    obtain ⟨x, hx, rfl⟩ := mem_map.mp hlive
    obtain ⟨a, c, hxa, hmem, hal, -⟩ := hg.live x hx
    rw [hxa]
    obtain ⟨bs', fl', hi, hk⟩ := inv_mmFree hg.inv hmem hal
    refine ⟨a, bs', fl', rfl, ⟨hi, fun y hy => ?_, ?_⟩, hk, fun y hy hne => ?_⟩
    · obtain ⟨hy, hne⟩ := mem_filter.mp hy
      exact hg.live_keeps hk hy (of_decide_eq_true hne)
    · exact hg.nodup.sublist ((filter_sublist).map _)
    · exact mem_filter.mpr ⟨hy, decide_eq_true hne⟩
  · cases hstep

theorem good_of_reachable (hr : Client.system.Reachable s) : ∃ bs fl, s.Good bs fl := by
  refine hr.invariant (fun s => ∃ bs fl, s.Good bs fl) ?_ ?_
  · rintro s ⟨h, hf, rfl⟩
    exact good_init hf
  · rintro s call s' ⟨bs, fl, hg⟩ - hstep
    cases call with
    | malloc size =>
      by_cases hsize : size ≤ 2 ^ 63
      · obtain ⟨s₁, bs', fl', hstep₁, hg', -⟩ := good_malloc hg hsize
        obtain rfl := some.inj (hstep₁.symm.trans hstep)
        exact ⟨bs', fl', hg'⟩
      · have hnone : s.step (.malloc size) = none := by
          simp only [Client.step, if_pos (Nat.not_le.mp hsize)]
        cases hnone.symm.trans hstep
    | free bp =>
      obtain ⟨-, bs', fl', -, hg', -⟩ := good_free hg hstep
      exact ⟨bs', fl', hg'⟩
    | store i v => exact ⟨bs, fl, good_store hg hstep⟩

/-- An area of zeros, as `mem_init` may hand it out. -/
def zeroArea : Heap := ⟨fun _ => 0, 16, 16, 16 + maxHeap, 0, 0⟩

theorem fresh_zeroArea : zeroArea.Fresh := by
  refine ⟨?_, ?_, ?_, ?_, ?_⟩ <;> decide

/-- A run from that area with the given pointers live at its end. -/
theorem exists_reachable_of_run (calls : List Call) (live : List (Nat × Nat))
    (h : TransitionSystem.runMeets Client.step (fun _ _ => true) (fun s => s.live == live) calls
      ⟨zeroArea.mmInit.1, []⟩ = true) : ∃ s, Client.system.Reachable s ∧ s.live = live := by
  obtain ⟨s, hs, hp⟩ := TransitionSystem.exists_of_runMeets (S := Client.system)
    (G := fun _ _ => True) (fun _ _ _ h => h) (fun _ _ _ => trivial)
    (.init ⟨zeroArea, fresh_zeroArea, rfl⟩) h
  exact ⟨s, hs, eq_of_beq hp⟩

/-- In every state a client reaches, the heap is tiled by well-formed blocks, no two free
blocks are neighbours and the free list has exactly the free blocks; and every request up
to 2^63 bytes is answered. -/
theorem heap_inv_of_reachable (s : Client) (hr : Client.system.Reachable s) :
    (∃ bs fl, s.heap.Inv bs fl) ∧
    ∀ size, size ≤ 2 ^ 63 → ∃ s', Client.system.Next s (.malloc size) s' := by
  obtain ⟨bs, fl, hg⟩ := good_of_reachable hr
  refine ⟨⟨bs, fl, hg.inv⟩, fun size hsize => ?_⟩
  obtain ⟨s', -, -, hstep, -⟩ := good_malloc hg hsize
  exact ⟨s', hstep⟩

/-- The heap has been extended once and the second block has been freed. -/
theorem heap_inv_of_reachable_three : ∃ s, Client.system.Reachable s ∧
    s.live = [(64, 5000), (32, 10)] ∧ (∃ bs fl, s.heap.Inv bs fl) ∧
    ∀ size, size ≤ 2 ^ 63 → ∃ s', Client.system.Next s (.malloc size) s' := by
  obtain ⟨s, hs, hlive⟩ := exists_reachable_of_run
    [.malloc 10, .malloc 100, .store 65 7, .free 64, .malloc 5000] [(64, 5000), (32, 10)]
    (by decide +kernel)
  exact ⟨s, hs, hlive, heap_inv_of_reachable s hs⟩

/-! ## The contract -/

/-- What a client relies on. -/
structure Client.Contract (s : Client) : Prop where
  payload : ∀ x ∈ s.live, x.1 % 16 = 0 ∧ x.2 ≤ s.heap.payloadSize x.1 ∧
    s.heap.memStartBrk ≤ x.1 ∧ x.1 + s.heap.payloadSize x.1 ≤ s.heap.memBrk
  disjoint : s.live.Pairwise fun x y => ∀ a, s.heap.InPayload x.1 a → ¬ s.heap.InPayload y.1 a
  malloc : ∀ size s', s.step (.malloc size) = some s' → ∀ x ∈ s.live, x ∈ s'.live ∧
    ∀ a, s.heap.InPayload x.1 a → s'.heap.byte a = s.heap.byte a
  free : ∀ bp s', s.step (.free bp) = some s' → ∀ x ∈ s.live, x.1 ≠ bp → x ∈ s'.live ∧
    ∀ a, s.heap.InPayload x.1 a → s'.heap.byte a = s.heap.byte a

/-- A byte of an allocated block that is kept stays as it is. -/
theorem Client.Good.byte_keeps {bs' : List Block} {q : Nat} (hg : s.Good bs fl)
    (hk : Keeps q s.heap bs h' bs') {x : Nat × Nat} (hx : x ∈ s.live) (hq : x.1 ≠ q + 8) {i : Nat}
    (hi : s.heap.InPayload x.1 i) : h'.byte i = s.heap.byte i := by
  obtain ⟨a, c, hxa, hmem, hal, -⟩ := hg.live x hx
  rw [hxa] at hi
  obtain ⟨hlo, hhi⟩ := word_of_inPayload hg.inv.toShape hmem hi
  have hsame := (hk (a, c) hmem hal (by dsimp only; omega)).2 (i / 8 * 8) (by dsimp only; omega)
    (by dsimp only; omega)
  rw [Heap.byte, Heap.byte, hsame]

theorem contract_of_reachable (s : Client) (hr : Client.system.Reachable s) : s.Contract := by
  obtain ⟨bs, fl, hg⟩ := good_of_reachable hr
  refine ⟨fun x hx => ?_, ?_, fun size s' hstep x hx => ?_, fun bp s' hstep x hx hne => ?_⟩
  · obtain ⟨a, c, hxa, hmem, -, hsize⟩ := hg.live x hx
    obtain ⟨hlo, -, hmod, hhi⟩ := hg.inv.bounds hmem
    have hstart := hg.inv.start
    rw [hxa, payloadSize_eq hg.inv.toShape hmem]
    dsimp only at hlo hmod hhi
    omega
  · -- two pointers belong to two blocks, and blocks do not overlap
    refine (pairwise_map.mp hg.nodup).imp_of_mem fun {x y} hx hy hne i hix hiy => ?_
    obtain ⟨a, c, hxa, hmem, -, -⟩ := hg.live x hx
    obtain ⟨b, d, hyb, hmem', -, -⟩ := hg.live y hy
    rw [hxa] at hix
    rw [hyb] at hiy
    obtain ⟨hlo, hhi⟩ := word_of_inPayload hg.inv.toShape hmem hix
    obtain ⟨hlo', hhi'⟩ := word_of_inPayload hg.inv.toShape hmem' hiy
    have heq := hg.inv.eq_of_overlap hmem hmem' (a := i / 8 * 8) (by dsimp only; omega)
      (by dsimp only; omega) (by dsimp only; omega) (by dsimp only; omega)
    cases heq
    exact hne (hxa.trans hyb.symm)
  · by_cases hsize : size ≤ 2 ^ 63
    · obtain ⟨s₁, bs', fl', hstep₁, -, hk, hlive⟩ := good_malloc hg hsize
      obtain rfl := some.inj (hstep₁.symm.trans hstep)
      have hpos := hg.live_pos hx
      exact ⟨hlive x hx, fun i hi => hg.byte_keeps (hk 0) hx (by omega) hi⟩
    · have hnone : s.step (.malloc size) = none := by
        simp only [Client.step, if_pos (Nat.not_le.mp hsize)]
      cases hnone.symm.trans hstep
  · obtain ⟨a, bs', fl', rfl, -, hk, hlive⟩ := good_free hg hstep
    exact ⟨hlive x hx hne, fun i hi => hg.byte_keeps hk hx hne hi⟩

theorem contract_of_reachable_two : ∃ s, Client.system.Reachable s ∧
    s.live = [(64, 100), (32, 10)] ∧ s.Contract := by
  obtain ⟨s, hs, hlive⟩ := exists_reachable_of_run [.malloc 10, .malloc 100]
    [(64, 100), (32, 10)] (by decide +kernel)
  exact ⟨s, hs, hlive, contract_of_reachable s hs⟩

/-!
## The size of a request

`mm_malloc` adds the tags to the size and rounds up before it looks for a block, and both
can wrap. A request of the last 31 sizes then asks for a block of 0 or 16 bytes, which
every free block is.
-/

/-- The answer is `NULL`, or a block whose payload has room for the request. -/
def Heap.Honours (h : Heap) (size : Nat) : Prop :=
  ∃ h' bp, h.mmMalloc size = some (h', bp) ∧ (bp = 0 ∨ size ≤ h'.payloadSize bp)

/-- The size can be rounded up, or there is no free block and no room for a chunk. -/
def Heap.Answerable (h : Heap) (size : Nat) : Prop :=
  size ≤ 2 ^ 64 - 32 ∨ h.freeListHead = 0 ∧ h.memMaxAddr < h.memBrk + chunksize

instance decidableAnswerable (h : Heap) (size : Nat) : Decidable (h.Answerable size) :=
  inferInstanceAs (Decidable (_ ∨ _))

/-- A step of a client that asks for any number of bytes. -/
def Client.call (s : Client) : Call → Option Client
  | .malloc size =>
    if 2 ^ 64 ≤ size then none
    else
      match s.heap.mmMalloc size with
      | none => none
      | some (h, bp) => some ⟨h, if bp = 0 then s.live else (bp, size) :: s.live⟩
  | c => s.step c

/-- The runs of such a client after `mm_init`. -/
def Client.anySize : TransitionSystem Client Call where
  Init s := ∃ h : Heap, h.Fresh ∧ s = ⟨h.mmInit.1, []⟩
  Next s c s' := s.call c = some s'

/-- The requests of a step are answerable. -/
def Client.Asks (s : Client) : Call → Prop
  | .malloc size => s.heap.Answerable size
  | _ => True

instance decidableAsks (s : Client) : (c : Call) → Decidable (s.Asks c)
  | .malloc size => inferInstanceAs (Decidable (s.heap.Answerable size))
  | .free _ | .store _ _ => inferInstanceAs (Decidable True)

variable {s s' : Client} {h h' : Heap} {bs : List Block} {fl : List Nat} {size : Nat}

/-! ## Requests that wrap -/

theorem requestSize_wrapped (hsize : 2 ^ 64 - 32 < size) (hlt : size < 2 ^ 64) :
    Heap.requestSize size ≤ 16 := by
  unfold Heap.requestSize
  rw [if_neg (by unfold dsize; omega)]
  simp only [dsize, roundUp, sizeT]
  omega

theorem freeListHead_eq_zero_iff (hs : h.Shape bs fl) : h.freeListHead = 0 ↔ fl = [] := by
  constructor
  · intro hhead
    cases fl with
    | nil => rfl
    | cons a l =>
      have ha := hs.links.1
      exact absurd (ha.symm.trans hhead) (hs.links.ne_null List.mem_cons_self)
  · intro hnil
    subst hnil
    exact hs.links

/-- Any free block will do. -/
theorem mmMallocLoop_wrapped_of_free {fuel : Nat} (hi : h.Inv bs fl) (hsize : 2 ^ 64 - 32 < size)
    (hlt : size < 2 ^ 64) (hfree : fl ≠ []) :
    ∃ h' p, Heap.mmMallocLoop (fuel + 1) h size = some (h', p) ∧ p ≠ 0 := by
  have hsmall := requestSize_wrapped hsize hlt
  unfold Heap.mmMallocLoop
  rw [if_neg (by omega)]
  obtain ⟨r, hfit, ⟨-, hnone⟩ | ⟨hr, -⟩⟩ := findFit_spec hi.toShape (Heap.requestSize size)
  · -- the blocks of the list have 32 bytes at least
    obtain ⟨a, ha⟩ := List.exists_mem_of_ne_nil fl hfree
    obtain ⟨b, hb, -⟩ := hi.free a ha
    have hlarge := b.large
    have hsmaller := hnone a ha
    have hsizea : h.getSize a = b.size := hi.getSize hb
    omega
  · have hr0 := (hi.mod_of_mem hr).2
    refine ⟨(h.place r (Heap.requestSize size)).1, r + 8, ?_, Nat.succ_ne_zero _⟩
    rw [hfit]
    split
    · cases ‹some r = none›
    · exact absurd (Option.some.inj ‹some r = some 0›) hr0
    · rename_i heq
      rw [← Option.some.inj heq]
      rfl

/-- A request that wraps gets a block whenever there is one or can be one. -/
theorem mmMalloc_wrapped (hi : h.Inv bs fl) (hsize : 2 ^ 64 - 32 < size) (hlt : size < 2 ^ 64) :
    if h.freeListHead = 0 ∧ h.memMaxAddr < h.memBrk + chunksize then h.mmMalloc size = some (h, 0)
    else ∃ h' p, h.mmMalloc size = some (h', p) ∧ p ≠ 0 := by
  by_cases hfree : fl = []
  · have hhead := (freeListHead_eq_zero_iff hi.toShape).mpr hfree
    have hfit : h.findFit (Heap.requestSize size) = some 0 := if_pos hhead
    by_cases hfull : h.memMaxAddr < h.memBrk + chunksize
    · rw [if_pos ⟨hhead, hfull⟩]
      unfold Heap.mmMalloc Heap.mmMallocLoop
      rw [if_neg (by omega), hfit, extendHeap_none hfull]
      rfl
    · rw [if_neg (fun h => hfull h.2)]
      obtain ⟨h₁, r, bs₁, fl₁, hrun, hext, hsome⟩ := extendHeap_spec hi (Nat.not_lt.mp hfull)
      have hchunk : chunksize = 4096 := rfl
      obtain ⟨k, hk⟩ : ∃ k, h.memMaxAddr - h.memBrk = k + 1 :=
        ⟨h.memMaxAddr - h.memBrk - 1, by omega⟩
      unfold Heap.mmMalloc Heap.mmMallocLoop
      rw [if_neg (by omega), hfit, hrun, hk]
      exact mmMallocLoop_wrapped_of_free hext.inv hsize hlt hsome
  · have hhead := mt (freeListHead_eq_zero_iff hi.toShape).mp hfree
    rw [if_neg (fun h => hhead h.1)]
    exact mmMallocLoop_wrapped_of_free hi hsize hlt hfree

/-- No header holds a size with room for such a request. -/
theorem payloadSize_lt (h : Heap) (bp : Nat) (hsize : 2 ^ 64 - 32 < size) :
    h.payloadSize bp < size := by
  have hle : h.getSize (payloadToHeader bp) ≤ sizeMask := Nat.and_le_right
  simp only [sizeMask] at hle
  unfold Heap.payloadSize
  simp only [dsize]
  omega

/-! ## Runs -/

theorem honours_iff (hi : h.Inv bs fl) (hlt : size < 2 ^ 64) : h.Honours size ↔ h.Answerable size := by
  by_cases hsize : size ≤ 2 ^ 64 - 32
  · refine iff_of_true ?_ (.inl hsize)
    obtain ⟨h', p, bs', fl', hmalloc, hal⟩ := inv_mmMalloc hi hsize
    refine ⟨h', p, hmalloc, ?_⟩
    rcases hal.result with hp | ⟨a, c, rfl, hc, -, hroom, -⟩
    · exact .inl hp
    · right
      rw [payloadSize_eq hal.inv.toShape hc]
      omega
  · have hwrapped := mmMalloc_wrapped hi (Nat.not_le.mp hsize) hlt
    have hiff : h.Answerable size ↔ h.freeListHead = 0 ∧ h.memMaxAddr < h.memBrk + chunksize :=
      or_iff_right hsize
    rw [hiff]
    constructor
    · intro ⟨h', bp, hmalloc, hbp⟩
      by_contra hnot
      rw [if_neg hnot] at hwrapped
      obtain ⟨h₁, p, hmalloc₁, hp⟩ := hwrapped
      rw [hmalloc] at hmalloc₁
      cases hmalloc₁
      have hsmall := payloadSize_lt h' bp (Nat.not_le.mp hsize)
      omega
    · intro hnull
      rw [if_pos hnull] at hwrapped
      exact ⟨h, 0, hwrapped, .inl rfl⟩

/-- A step with an answerable request keeps the invariant. -/
theorem good_call {c : Call} (hg : s.Good bs fl) (hasks : s.Asks c) (hcall : s.call c = some s') :
    ∃ bs' fl', s'.Good bs' fl' := by
  cases c with
  | malloc size =>
    by_cases hlt : 2 ^ 64 ≤ size
    · rw [Client.call, if_pos hlt] at hcall
      cases hcall
    rw [Client.call, if_neg hlt] at hcall
    by_cases hsize : size ≤ 2 ^ 64 - 32
    · obtain ⟨h', p, bs', fl', hmalloc, hgood, -⟩ := good_mmMalloc hg hsize
      rw [hmalloc] at hcall
      cases hcall
      exact ⟨bs', fl', hgood⟩
    · have hwrapped := mmMalloc_wrapped hg.inv (Nat.not_le.mp hsize) (Nat.not_le.mp hlt)
      rw [if_pos (hasks.resolve_left hsize)] at hwrapped
      rw [hwrapped] at hcall
      cases hcall
      exact ⟨bs, fl, hg⟩
  | free bp =>
    obtain ⟨-, bs', fl', -, hg', -⟩ := good_free hg hcall
    exact ⟨bs', fl', hg'⟩
  | store addr value => exact ⟨bs, fl, good_store hg hcall⟩

theorem good_of_asks (hr : Client.anySize.ReachableBy Client.Asks s) : ∃ bs fl, s.Good bs fl := by
  refine hr.invariant (fun s => ∃ bs fl, s.Good bs fl) ?_ ?_
  · intro s ⟨h, hf, hs⟩
    rw [hs]
    exact good_init hf
  · intro s c s' ⟨bs, fl, hg⟩ hasks hcall
    exact good_call hg hasks hcall

/-- After a run of answerable requests a request is honoured if and only if it is
answerable too. -/
theorem request_honoured_iff (s : Client) (hr : Client.anySize.ReachableBy Client.Asks s)
    (size : Nat) (hlt : size < 2 ^ 64) : s.heap.Honours size ↔ s.heap.Answerable size := by
  obtain ⟨bs, fl, hg⟩ := good_of_asks hr
  exact honours_iff hg.inv hlt

theorem honoured_run : TransitionSystem.runMeets Client.call (fun s c => decide (s.Asks c))
    (fun s => s.live == [(32, 10)]) [.malloc 10] ⟨zeroArea.mmInit.1, []⟩ = true := by
  decide +kernel

/-- A block is live, and the greatest size is asked for. -/
theorem request_honoured_after_one : ∃ s, Client.anySize.ReachableBy Client.Asks s ∧
    s.live = [(32, 10)] ∧ (s.heap.Honours (2 ^ 64 - 1) ↔ s.heap.Answerable (2 ^ 64 - 1)) := by
  obtain ⟨s, hs, hlive⟩ := TransitionSystem.exists_of_runMeets (S := Client.anySize)
    (fun _ _ _ h => h) (fun _ _ hc => of_decide_eq_true hc) (.init ⟨zeroArea, fresh_zeroArea, rfl⟩)
    honoured_run
  exact ⟨s, hs, eq_of_beq hlive, request_honoured_iff s hs _ (by decide)⟩

/-- After `mm_init` the greatest size gets a block of 16 bytes. -/
theorem not_request_honoured : ¬ ∀ s, Client.anySize.Reachable s → ∀ size, 0 < size →
    size < 2 ^ 64 → s.heap.Honours size := by
  intro hall
  have hinit : Client.anySize.Reachable ⟨zeroArea.mmInit.1, []⟩ :=
    .init ⟨zeroArea, fresh_zeroArea, rfl⟩
  obtain ⟨bs, fl, hg⟩ := good_init fresh_zeroArea
  have hhonours := hall _ hinit (2 ^ 64 - 1) (by decide) (by decide)
  rw [honours_iff hg.inv (by decide)] at hhonours
  revert hhonours
  decide +kernel

end PittCs.MallocLab
