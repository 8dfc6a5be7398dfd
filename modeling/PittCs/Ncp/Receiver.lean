import Mathlib.Data.List.TakeWhile
import PittCs.Ncp.GapList

/-!
# Data packets of the file transfer

`ncp` cuts a file into packets and sends each with as many bytes of its payload
as it needs; `rcv` receives every packet into the same memory, so what is not
sent keeps its old value there. A payload is used as a C string.

All flags of a data packet are false, and its times are not read by anyone. The
sequence numbers are `int` in the source and unbounded here: a file of more than
three terabytes is needed to leave the range.
-/

namespace PittCs.Ncp

open List

def maxMessLen : Nat := 1400

/-- `sizeof(struct upkt)`, with four bytes of padding at its end. -/
def sizeofUpkt : Nat := 1432

/-- Where the payload starts in `struct upkt`. -/
def offsetofPayload : Nat := 28

/-- The C string that starts at the first of these bytes of memory. -/
def cstr (bytes : List UInt8) : List UInt8 := bytes.takeWhile (· ≠ 0)

/-- `struct upkt` of a data packet. -/
structure Upkt where
  seq : Int
  payloadLen : Nat
  payload : List UInt8

/-- What is on the network of a data packet. -/
structure Datagram where
  seq : Int
  payloadLen : Nat
  bytes : List UInt8
deriving DecidableEq

namespace Upkt

/-- What `fputs` writes of the payload. -/
def text (pkt : Upkt) : List UInt8 := cstr pkt.payload

/-- A packet with the bytes that were read from the file, the rest of it zero. -/
def create (seq : Int) (chunk : List UInt8) : Upkt :=
  let payload := chunk ++ List.replicate (maxMessLen - chunk.length) 0
  ⟨seq, (cstr payload).length, payload⟩

/-- Sends the first `len` bytes of the packet. -/
def sendto (pkt : Upkt) (len : Nat) : Datagram :=
  ⟨pkt.seq, pkt.payloadLen, pkt.payload.take (len - offsetofPayload)⟩

/-- The size with which a packet is sent first, and again after a timeout. -/
def sendSize (pkt : Upkt) : Nat := sizeofUpkt - (maxMessLen - pkt.payloadLen + 1)

/-- The size with which a packet is sent again for a gap. -/
def resendSize (pkt : Upkt) : Nat := sizeofUpkt - maxMessLen + pkt.payloadLen - 1

/-- Receives into the memory of a packet; bytes that were not sent stay. -/
def recvfrom (pkt : Upkt) (d : Datagram) : Upkt :=
  ⟨d.seq, d.payloadLen, d.bytes ++ pkt.payload.drop d.bytes.length⟩

end Upkt

/-! ## The text of a payload arrives -/

theorem cstr_append_of_mem {l rest : List UInt8} (h : 0 ∈ l) : cstr (l ++ rest) = cstr l := by
  unfold cstr
  rw [takeWhile_append]
  rw [if_neg]
  intro hlen
  have hpre : l.takeWhile (· ≠ 0) <+: l := List.takeWhile_prefix _
  have hall := takeWhile_eq_self_iff.mp (hpre.eq_of_length hlen)
  exact absurd (hall 0 h) (by decide)

/-- The string is followed by its terminator. -/
theorem take_cstr {l : List UInt8} (h : 0 ∈ l) :
    l.take ((cstr l).length + 1) = cstr l ++ [0] := by
  induction l with
  | nil => cases h
  | cons c l ih =>
    unfold cstr at ih ⊢
    by_cases hc : c = 0
    · subst hc
      simp
    · have hmem : 0 ∈ l := by
        rcases mem_cons.mp h with h0 | h0
        · exact absurd h0.symm hc
        · exact h0
      have hcons : (c :: l).takeWhile (· ≠ 0) = c :: l.takeWhile (· ≠ 0) :=
        takeWhile_cons_of_pos (by simpa using hc)
      rw [hcons, length_cons, take_succ_cons, ih hmem, cons_append]

theorem cstr_take {l : List UInt8} {k : Nat} (h : 0 ∈ l) (hk : (cstr l).length < k) :
    cstr (l.take k) = cstr l ∧ 0 ∈ l.take k := by
  have hmem : 0 ∈ l.take k := by
    have hpart : 0 ∈ l.take ((cstr l).length + 1) := by
      rw [take_cstr h]
      simp
    exact (take_sublist_take_left hk).subset hpart
  refine ⟨?_, hmem⟩
  have hsplit : cstr (l.take k ++ l.drop k) = cstr (l.take k) := cstr_append_of_mem hmem
  rw [take_append_drop] at hsplit
  exact hsplit.symm

namespace Upkt

/-- A packet that was made from a chunk of the file. -/
structure Filled (pkt : Upkt) : Prop where
  length : pkt.payload.length = maxMessLen
  terminated : 0 ∈ pkt.payload
  payloadLen : pkt.payloadLen = pkt.text.length

theorem filled_create (seq : Int) {chunk : List UInt8} (h : chunk.length ≤ maxMessLen - 1) :
    (create seq chunk).Filled := by
  have hpos : maxMessLen = 1400 := rfl
  constructor
  case length =>
    show (chunk ++ List.replicate (maxMessLen - chunk.length) 0).length = maxMessLen
    rw [length_append, length_replicate]
    omega
  case terminated =>
    refine mem_append_right _ (mem_replicate.mpr ⟨?_, rfl⟩)
    omega
  case payloadLen => rfl

theorem Filled.payloadLen_lt {pkt : Upkt} (h : pkt.Filled) : pkt.payloadLen < maxMessLen := by
  have hall : pkt.text ≠ pkt.payload := by
    intro heq
    have hmem : (0 : UInt8) ∈ pkt.text := heq ▸ h.terminated
    simpa using mem_takeWhile_imp hmem
  have hpre : pkt.text <+: pkt.payload := List.takeWhile_prefix _
  rw [h.payloadLen, ← h.length]
  exact lt_of_le_of_ne hpre.length_le fun heq => hall (hpre.eq_of_length heq)

theorem Filled.resendSize {pkt : Upkt} (h : pkt.Filled) : pkt.resendSize = pkt.sendSize := by
  have hlt := h.payloadLen_lt
  unfold Upkt.resendSize Upkt.sendSize
  unfold maxMessLen at hlt ⊢
  unfold sizeofUpkt
  omega

/-- Three bytes after the text are sent with it, so its terminator is. -/
theorem Filled.sent {pkt : Upkt} (h : pkt.Filled) :
    cstr (pkt.sendto pkt.sendSize).bytes = pkt.text ∧ 0 ∈ (pkt.sendto pkt.sendSize).bytes := by
  have hlt := h.payloadLen_lt
  have hlen := h.payloadLen
  have hsize : pkt.text.length < pkt.sendSize - offsetofPayload := by
    unfold Upkt.sendSize
    unfold maxMessLen at hlt ⊢
    unfold sizeofUpkt offsetofPayload
    omega
  exact cstr_take h.terminated hsize

/-- Whatever was in the memory before, the text of a received packet is the one
that was sent. -/
theorem Filled.recvfrom {pkt : Upkt} (h : pkt.Filled) (memory : Upkt) :
    (memory.recvfrom (pkt.sendto pkt.sendSize)).text = pkt.text := by
  rcases h.sent with ⟨htext, hmem⟩
  exact (cstr_append_of_mem hmem).trans htext

end Upkt

/-!
## The receiver of one connection

What `rcv` does with the data packets of its current connection, and when it
replies. A packet that directly follows the window is written at once, with the
packets of the buffer that now follow; a later one is saved. Whether the time for
a reply has come is an input. Statistics are left out. The buffer holds packets that
arrived before one of their predecessors, in the order of their sequence numbers; its
size is counted up before a duplicate is found.
-/

/-! ## The receive buffer -/

structure BufferNode where
  seq : Int
  payloadLen : Nat
  payload : List UInt8

def BufferNode.text (node : BufferNode) : List UInt8 := cstr node.payload

structure RcvBuffer where
  nodes : List BufferNode
  size : Int

/-- `strncpy(dst, src, len)` into memory of a payload that is zero. -/
def strncpyPayload (src : List UInt8) (len : Nat) : List UInt8 :=
  let copied := (cstr src).take len
  copied ++ List.replicate (maxMessLen - copied.length) 0

/-- Puts a node in its place; nothing when there is one with its number already. -/
def insertNode (newNode : BufferNode) : List BufferNode → Option (List BufferNode)
  | [] => some [newNode]
  | curr :: rest =>
    if curr.seq = newNode.seq then none
    else if curr.seq > newNode.seq then some (newNode :: curr :: rest)
    else (insertNode newNode rest).map (curr :: ·)

namespace RcvBuffer

def newBuffer : RcvBuffer := ⟨[], 0⟩

def bufferInsert (buffer : RcvBuffer) (packet : Upkt) : Bool × RcvBuffer :=
  let newNode : BufferNode :=
    ⟨packet.seq, packet.payloadLen, strncpyPayload packet.payload packet.payloadLen⟩
  match insertNode newNode buffer.nodes with
  | none => (false, { buffer with size := buffer.size + 1 })
  | some nodes => (true, ⟨nodes, buffer.size + 1⟩)

def freeHead (buffer : RcvBuffer) : RcvBuffer :=
  match buffer.nodes with
  | [] => buffer
  | _ :: rest => ⟨rest, buffer.size - 1⟩

end RcvBuffer

theorem mem_insertNode {newNode x : BufferNode} {nodes nodes' : List BufferNode}
    (h : insertNode newNode nodes = some nodes') (hx : x ∈ nodes') : x = newNode ∨ x ∈ nodes := by
  induction nodes generalizing nodes' with
  | nil =>
    injection h with h
    subst h
    exact mem_cons.mp hx
  | cons curr rest ih =>
    unfold insertNode at h
    split at h
    · cases h
    split at h
    · injection h with h
      subst h
      exact mem_cons.mp hx
    · rcases Option.map_eq_some_iff.mp h with ⟨rest', hrest, rfl⟩
      rcases mem_cons.mp hx with rfl | hx
      · exact Or.inr mem_cons_self
      · rcases ih hrest hx with hnew | hmem
        · exact Or.inl hnew
        · exact Or.inr (mem_cons_of_mem _ hmem)

/-- The copy of a string of the given length is the string. -/
theorem cstr_strncpyPayload (src : List UInt8) :
    cstr (strncpyPayload src (cstr src).length) = cstr src := by
  unfold strncpyPayload
  rw [take_length]
  have hzero : (0 : UInt8) ∉ cstr src := by
    intro hmem
    simpa using mem_takeWhile_imp hmem
  have hpos : ∀ c ∈ cstr src, decide (c ≠ 0) = true := by
    intro c hc
    have hne : c ≠ 0 := fun heq => hzero (heq ▸ hc)
    simpa using hne
  show takeWhile (fun c => decide (c ≠ 0)) _ = cstr src
  rw [takeWhile_append_of_pos hpos]
  have hrep : takeWhile (fun c : UInt8 => decide (c ≠ 0))
      (List.replicate (maxMessLen - (cstr src).length) 0) = [] := by
    simp
  rw [hrep, append_nil]

/-- Every node of the buffer was there before or has the text of the packet. -/
theorem mem_bufferInsert {buffer : RcvBuffer} {packet : Upkt} {x : BufferNode}
    (hlen : packet.payloadLen = packet.text.length)
    (hx : x ∈ (buffer.bufferInsert packet).2.nodes) :
    (x.seq = packet.seq ∧ x.text = packet.text) ∨ x ∈ buffer.nodes := by
  simp only [RcvBuffer.bufferInsert] at hx
  split at hx
  · exact Or.inr hx
  · rename_i nodes hins
    rcases mem_insertNode hins hx with rfl | hmem
    · refine Or.inl ⟨rfl, ?_⟩
      show cstr (strncpyPayload packet.payload packet.payloadLen) = packet.text
      rw [hlen]
      exact cstr_strncpyPayload packet.payload
    · exact Or.inr hmem

/-! ## The packets of a connection -/

def maxGaps : Nat := 100

/-- The environments that both programs know. -/
inductive Env where
  | wan
  | lan
  | wanEc
deriving DecidableEq

def Env.windowSize : Env → Nat
  | .wan => 45
  | .lan => 45
  | .wanEc => 55

structure RcvMsg where
  aru : Int
  numGaps : Int
  gaps : List Gap
deriving DecidableEq

/-- The file transfer variables. `pkt` is the memory that packets are received into,
and `file` is what has been written. -/
structure Receiver where
  startOfWindow : Int
  writtenSinceLastMessage : Nat
  greatestRecvdSeq : Int
  list : GapList
  buf : RcvBuffer
  pkt : Upkt
  file : List UInt8

namespace Receiver

/-- After INIT, with any packet memory. -/
def init (memory : Upkt) : Receiver where
  startOfWindow := -1
  writtenSinceLastMessage := 0
  greatestRecvdSeq := -1
  list := GapList.newList
  buf := RcvBuffer.newBuffer
  pkt := memory
  file := []

/-- A message has room for `MAX_GAPS` gaps; their number is that of the list. -/
def prepareMessage (r : Receiver) : RcvMsg :=
  ⟨r.startOfWindow + 1, r.list.size, r.list.nodes.take maxGaps⟩

def reply (r : Receiver) : Receiver × List RcvMsg :=
  ({ r with writtenSinceLastMessage := 0 }, [r.prepareMessage])

/-- The packet `seq` is the next one; `text` goes to the file. -/
def put (r : Receiver) (seq : Int) (text : List UInt8) : Receiver :=
  { r with
    startOfWindow := seq
    writtenSinceLastMessage := r.writtenSinceLastMessage + 1
    file := r.file ++ text }

/-- Writes the packets at the head of the buffer that directly follow. -/
def drain : List BufferNode → Receiver → Receiver
  | [], r => r
  | head :: rest, r =>
    if head.seq = r.startOfWindow + 1 then
      drain rest { r.put head.seq head.text with buf := r.buf.freeHead }
    else r

/-- A packet that directly follows the window. -/
def writePkt (r : Receiver) (pkt : Upkt) : Receiver :=
  let r := r.put pkt.seq pkt.text
  let r := { r with list := (r.list.splitGap pkt.seq).2 }
  drain r.buf.nodes r

/-- A packet that is ahead of the window. A new gap is reported at once. -/
def savePkt (r : Receiver) (pkt : Upkt) : Receiver × List RcvMsg :=
  let r := { r with buf := (r.buf.bufferInsert pkt).2 }
  let (found, list) := r.list.splitGap pkt.seq
  let r := { r with list }
  if ¬ found ∧ pkt.seq > r.greatestRecvdSeq + 1 then
    { r with list := r.list.insert ⟨r.greatestRecvdSeq + 1, pkt.seq⟩ }.reply
  else (r, [])

/-- The window and the buffer after a packet. -/
def takePkt (r : Receiver) (pkt : Upkt) : Receiver × List RcvMsg :=
  if pkt.seq ≤ r.startOfWindow then (r, [])
  else if r.startOfWindow + 1 = pkt.seq then (r.writePkt pkt, [])
  else r.savePkt pkt

/-- Receives into the packet memory. -/
def receive (r : Receiver) (d : Datagram) : Receiver :=
  { r with pkt := r.pkt.recvfrom d }

/-- The end of the branch for data packets; `timeUp` tells whether the last message
is old enough for another one. -/
def finish (env : Env) (r : Receiver) (seq : Int) (timeUp : Bool) (msgs : List RcvMsg) :
    Receiver × List RcvMsg :=
  let r := { r with
    greatestRecvdSeq := if seq > r.greatestRecvdSeq then seq else r.greatestRecvdSeq }
  if r.writtenSinceLastMessage ≥ env.windowSize / 2 ∨ timeUp then
    let (r, msgs') := r.reply
    (r, msgs ++ msgs')
  else (r, msgs)

end Receiver

end PittCs.Ncp
