import Mathlib.Data.List.Induction
import PittCs.Ncp.Receiver

/-!
# Runs of the receive buffer

`buffer_insert` and `free_head` in any order, from an empty buffer. The size is counted up
before a duplicate is found and not taken back, and the payload is copied as a C string.
-/

namespace PittCs.Ncp

open List Option

/-! ## One insertion -/

/-- The nodes are in the order of their sequence numbers. -/
def Increasing (nodes : List BufferNode) : Prop := nodes.Pairwise fun a b => a.seq < b.seq

variable {newNode : BufferNode} {nodes nodes' : List BufferNode}

theorem insertNode_perm (h : insertNode newNode nodes = some nodes') :
    nodes'.Perm (newNode :: nodes) := by
  induction nodes generalizing nodes' with
  | nil =>
    injection h with h
    rw [← h]
  | cons curr rest ih =>
    unfold insertNode at h
    split at h
    · cases h
    split at h
    · injection h with h
      rw [← h]
    · rcases map_eq_some_iff.mp h with ⟨rest', hrest, rfl⟩
      exact ((ih hrest).cons curr).trans (.swap newNode curr rest)

theorem Increasing.insertNode (hsorted : Increasing nodes) (h : insertNode newNode nodes = some nodes') :
    Increasing nodes' := by
  induction nodes generalizing nodes' with
  | nil =>
    injection h with h
    rw [← h]
    exact pairwise_singleton _ _
  | cons curr rest ih =>
    rcases pairwise_cons.mp hsorted with ⟨hcurr, hrest⟩
    unfold Ncp.insertNode at h
    split at h
    · cases h
    rename_i hne
    split at h
    case isTrue hlt =>
      injection h with h
      rw [← h]
      refine pairwise_cons.mpr ⟨?_, hsorted⟩
      intro x hx
      rcases mem_cons.mp hx with rfl | hx
      · exact hlt
      · exact Int.lt_trans hlt (hcurr x hx)
    case isFalse hle =>
      rcases map_eq_some_iff.mp h with ⟨rest', hins, rfl⟩
      refine pairwise_cons.mpr ⟨?_, ih hrest hins⟩
      intro x hx
      rcases mem_cons.mp ((insertNode_perm hins).mem_iff.mp hx) with rfl | hx
      · omega
      · exact hcurr x hx

/-- Nothing is inserted only if the number is there. -/
theorem insertNode_eq_none_iff (hsorted : Increasing nodes) :
    insertNode newNode nodes = none ↔ ∃ x ∈ nodes, x.seq = newNode.seq := by
  induction nodes with
  | nil =>
    refine ⟨fun h => (some_ne_none _ h).elim, ?_⟩
    rintro ⟨x, hx, -⟩
    cases hx
  | cons curr rest ih =>
    rcases pairwise_cons.mp hsorted with ⟨hcurr, hrest⟩
    unfold insertNode
    rw [exists_mem_cons_iff]
    split
    case isTrue heq => exact ⟨fun _ => Or.inl heq, fun _ => rfl⟩
    case isFalse hne =>
      split
      case isTrue hlt =>
        refine ⟨fun h => (some_ne_none _ h).elim, ?_⟩
        rintro (heq | ⟨x, hx, heq⟩)
        · exact absurd heq hne
        · have hbelow := hcurr x hx
          omega
      case isFalse => rw [map_eq_none_iff, ih hrest, or_iff_right hne]

/-! ## Payloads -/

/-- `struct upkt` whose payload is as long as its array says, and whose length fits. -/
structure SizedUpkt extends Upkt where
  length_payload : payload.length = maxMessLen
  payloadLen_le : payloadLen ≤ maxMessLen

/-- The bytes that count. -/
def Upkt.data (packet : Upkt) : List UInt8 := packet.payload.take packet.payloadLen

def BufferNode.data (node : BufferNode) : List UInt8 := node.payload.take node.payloadLen

/-- After the first zero byte there are only zeros. -/
def ZerosLast (l : List UInt8) : Prop := ∀ b ∈ l.dropWhile (· ≠ 0), b = 0

/-- The new node of `buffer_insert`. -/
def Upkt.node (packet : Upkt) : BufferNode :=
  ⟨packet.seq, packet.payloadLen, strncpyPayload packet.payload packet.payloadLen⟩

theorem SizedUpkt.data_node_iff (packet : SizedUpkt) :
    packet.node.data = packet.data ↔ ZerosLast packet.data := by
  have hlen : packet.data.length = packet.payloadLen := by
    unfold Upkt.data
    rw [length_take, packet.length_payload]
    exact Nat.min_eq_left packet.payloadLen_le
  have hle := packet.payloadLen_le
  have hcopied : (cstr packet.payload).take packet.payloadLen = packet.data.takeWhile (· ≠ 0) := by
    unfold cstr Upkt.data
    rw [take_takeWhile]
  have hshort : (packet.data.takeWhile (· ≠ 0)).length ≤ packet.payloadLen := by
    rw [← hlen]
    exact (takeWhile_sublist _).length_le
  have hdata : packet.node.data = packet.data.takeWhile (· ≠ 0) ++
      replicate (packet.payloadLen - (packet.data.takeWhile (· ≠ 0)).length) 0 := by
    show (strncpyPayload packet.payload packet.payloadLen).take packet.payloadLen = _
    unfold strncpyPayload
    dsimp only
    rw [hcopied, take_append, take_of_length_le hshort, take_replicate]
    congr 2
    omega
  have hsplit : packet.data.takeWhile (· ≠ 0) ++ packet.data.dropWhile (· ≠ 0) = packet.data :=
    takeWhile_append_dropWhile
  have hrest : (packet.data.dropWhile (· ≠ 0)).length =
      packet.payloadLen - (packet.data.takeWhile (· ≠ 0)).length := by
    rw [← hlen]
    conv_rhs => lhs; rw [← hsplit, length_append]
    omega
  unfold ZerosLast
  rw [hdata]
  conv_lhs => rhs; rw [← hsplit]
  rw [append_cancel_left_eq, eq_comm, eq_replicate_iff]
  exact and_iff_right hrest

/-! ## Runs -/

inductive BufferCall where
  | bufferInsert (packet : SizedUpkt)
  | freeHead

namespace RcvBuffer

def call (buffer : RcvBuffer) : BufferCall → RcvBuffer
  | .bufferInsert packet => (buffer.bufferInsert packet.toUpkt).2
  | .freeHead => buffer.freeHead

def after (calls : List BufferCall) : RcvBuffer := calls.foldl call newBuffer

/-- The sequence number is in the buffer. -/
def Has (buffer : RcvBuffer) (seq : Int) : Prop := ∃ node ∈ buffer.nodes, node.seq = seq

/-- The node has the payload of the first packet that came with its number since the number
was not in the buffer last. -/
def First (calls : List BufferCall) (node : BufferNode) : Prop :=
  ∃ before packet rest, calls = before ++ .bufferInsert packet :: rest ∧
    packet.seq = node.seq ∧ packet.data = node.data ∧ ¬ (after before).Has node.seq ∧
    ∀ mid, mid <+: rest → (after (before ++ .bufferInsert packet :: mid)).Has node.seq

/-- What should hold after each call. -/
structure Right (calls : List BufferCall) : Prop where
  increasing : Increasing (after calls).nodes
  size : (after calls).size = (after calls).nodes.length
  first : ∀ node ∈ (after calls).nodes, First calls node

theorem after_concat (calls : List BufferCall) (c : BufferCall) :
    after (calls ++ [c]) = (after calls).call c := foldl_concat ..

variable {buffer : RcvBuffer} {calls : List BufferCall} {packet : SizedUpkt}

theorem call_of_has (hsorted : Increasing buffer.nodes) (h : buffer.Has packet.seq) :
    buffer.call (.bufferInsert packet) = { buffer with size := buffer.size + 1 } := by
  have hnone : insertNode packet.node buffer.nodes = none := (insertNode_eq_none_iff hsorted).mpr h
  unfold call bufferInsert
  dsimp only
  rw [← Upkt.node, hnone]

theorem call_of_not_has (hsorted : Increasing buffer.nodes) (h : ¬ buffer.Has packet.seq) :
    ∃ nodes', insertNode packet.node buffer.nodes = some nodes' ∧
      buffer.call (.bufferInsert packet) = ⟨nodes', buffer.size + 1⟩ := by
  have hne : insertNode packet.node buffer.nodes ≠ none :=
    fun hnone => h ((insertNode_eq_none_iff hsorted).mp hnone)
  rcases ne_none_iff_exists'.mp hne with ⟨nodes', hsome⟩
  refine ⟨nodes', hsome, ?_⟩
  unfold call bufferInsert
  dsimp only
  rw [← Upkt.node, hsome]

theorem increasing_after (calls : List BufferCall) : Increasing (after calls).nodes := by
  induction calls using reverseRecOn with
  | nil => exact Pairwise.nil
  | append_singleton calls c ih =>
    rw [after_concat]
    cases c with
    | bufferInsert packet =>
      by_cases h : (after calls).Has packet.seq
      · rw [call_of_has ih h]
        exact ih
      · rcases call_of_not_has ih h with ⟨nodes', hins, hcall⟩
        rw [hcall]
        exact ih.insertNode hins
    | freeHead =>
      unfold call freeHead
      dsimp only
      split
      · exact ih
      · rename_i hnodes
        rw [hnodes] at ih
        exact (pairwise_cons.mp ih).2

/-- A node that stays in the buffer keeps its first packet. -/
theorem First.concat {node : BufferNode} (h : First calls node) (c : BufferCall)
    (hhas : (after (calls ++ [c])).Has node.seq) : First (calls ++ [c]) node := by
  rcases h with ⟨before, packet, rest, rfl, hseq, hdata, hnew, hstays⟩
  refine ⟨before, packet, rest ++ [c], by rw [append_assoc, cons_append], hseq, hdata, hnew, ?_⟩
  intro mid hmid
  rcases prefix_concat_iff.mp hmid with rfl | hmid
  · rwa [append_assoc, cons_append] at hhas
  · exact hstays mid hmid

/-- The packet is new and its copy has its bytes. -/
def Fresh (buffer : RcvBuffer) : BufferCall → Prop
  | .bufferInsert packet => ¬ buffer.Has packet.seq ∧ ZerosLast packet.data
  | .freeHead => True

theorem Right.concat {c : BufferCall} (h : Right calls) (hc : (after calls).Fresh c) :
    Right (calls ++ [c]) := by
  refine ⟨increasing_after _, ?_, ?_⟩
  · rw [after_concat]
    cases c with
    | bufferInsert packet =>
      rcases call_of_not_has h.increasing hc.1 with ⟨nodes', hins, hcall⟩
      rw [hcall, (insertNode_perm hins).length_eq, length_cons, h.size]
      rfl
    | freeHead =>
      have hsize := h.size
      unfold call freeHead
      dsimp only
      split
      · exact hsize
      · rename_i hnodes
        rw [hnodes, length_cons, Int.natCast_succ] at hsize
        exact Int.sub_eq_iff_eq_add.mpr hsize
  · intro node hnode
    have hhas : (after (calls ++ [c])).Has node.seq := ⟨node, hnode, rfl⟩
    rw [after_concat] at hnode
    cases c with
    | bufferInsert packet =>
      rcases call_of_not_has h.increasing hc.1 with ⟨nodes', hins, hcall⟩
      rw [hcall] at hnode
      rcases mem_cons.mp ((insertNode_perm hins).mem_iff.mp hnode) with rfl | hold
      · refine ⟨calls, packet, [], rfl, rfl, ((packet.data_node_iff).mpr hc.2).symm, hc.1, ?_⟩
        intro mid hmid
        rwa [prefix_nil.mp hmid]
      · exact (h.first node hold).concat _ hhas
    | freeHead =>
      refine (h.first node ?_).concat _ hhas
      unfold call freeHead at hnode
      dsimp only at hnode
      split at hnode
      · exact hnode
      · rename_i hnodes
        rw [hnodes]
        exact mem_cons_of_mem _ hnode

end RcvBuffer

end PittCs.Ncp
