import PittCs.Ncp.Transfer

/-!
# Chunks of a file

What becomes of the bytes of a file between `fread` in `ncp` and `fputs` in
`rcv`, when every packet arrives once and in order. A payload is measured as a C
string at both ends, so a chunk ends at its first NUL byte.
-/

namespace PittCs.Ncp

open List

/-- The packets that are read from a file. The first read that comes short is the
last one, so a file that ends with a full chunk has an empty packet after it. -/
def readPackets (seq : Int) (unread : List UInt8) : List Upkt :=
  let pkt := Upkt.create seq (unread.take chunkLen)
  if unread.length < chunkLen then [pkt]
  else pkt :: readPackets (seq + 1) (unread.drop chunkLen)
termination_by unread.length
decreasing_by
  rw [length_drop]
  have hpos : chunkLen = 1399 := rfl
  omega

/-- A packet is written to the file at once, or it is saved first. -/
inductive Delivery where
  | direct
  | buffered
deriving DecidableEq

/-- What is written of the packet that was received. -/
def Upkt.written (pkt : Upkt) : Delivery → List UInt8
  | .direct => pkt.text
  | .buffered => (RcvBuffer.newBuffer.bufferInsert pkt).2.nodes.flatMap BufferNode.text

/-- The file after the packets were sent, received into the packet memory and
written, each in one of the two ways. -/
def writePackets (ways : Int → Delivery) (memory : Upkt) (file : List UInt8) :
    List Upkt → List UInt8
  | [] => file
  | pkt :: rest =>
    let memory := memory.recvfrom (pkt.sendto pkt.sendSize)
    writePackets ways memory (file ++ memory.written (ways memory.seq)) rest

/-! ## Both ways write the text -/

theorem Upkt.written_eq {pkt : Upkt} (hlen : pkt.payloadLen = pkt.text.length) (way : Delivery) :
    pkt.written way = pkt.text := by
  cases way with
  | direct => rfl
  | buffered =>
    show cstr (strncpyPayload pkt.payload pkt.payloadLen) ++ [] = pkt.text
    rw [append_nil, hlen]
    exact cstr_strncpyPayload pkt.payload

theorem writePackets_eq (ways : Int → Delivery) (memory : Upkt) (file : List UInt8)
    {pkts : List Upkt} (hfilled : ∀ pkt ∈ pkts, pkt.Filled) :
    writePackets ways memory file pkts = file ++ pkts.flatMap Upkt.text := by
  induction pkts generalizing memory file with
  | nil => exact (append_nil file).symm
  | cons pkt rest ih =>
    have hpkt := hfilled pkt mem_cons_self
    have htext := hpkt.recvfrom memory
    have hlen : (memory.recvfrom (pkt.sendto pkt.sendSize)).payloadLen =
        (memory.recvfrom (pkt.sendto pkt.sendSize)).text.length := by
      rw [htext]
      exact hpkt.payloadLen
    unfold writePackets
    rw [ih _ _ fun p hp => hfilled p (mem_cons_of_mem _ hp), Upkt.written_eq hlen, htext,
      append_assoc, flatMap_cons]

/-! ## Chunks end at a NUL byte -/

theorem text_create (seq : Int) (chunk : List UInt8) : (Upkt.create seq chunk).text = cstr chunk := by
  show cstr (chunk ++ List.replicate (maxMessLen - chunk.length) 0) = cstr chunk
  unfold cstr
  rw [takeWhile_append]
  split
  · rename_i hall
    have hzeros : takeWhile (fun b : UInt8 => decide (b ≠ 0))
        (List.replicate (maxMessLen - chunk.length) 0) = [] := by
      simp
    rw [hzeros, append_nil]
    exact ((List.takeWhile_prefix _).eq_of_length hall).symm
  · rfl

theorem cstr_eq_self_iff {l : List UInt8} : cstr l = l ↔ 0 ∉ l := by
  unfold cstr
  rw [takeWhile_eq_self_iff]
  constructor
  · intro hall hmem
    simpa using hall 0 hmem
  · intro hzero b hb
    simpa using fun h0 : b = 0 => hzero (h0 ▸ hb)

theorem filled_readPackets (seq : Int) (unread : List UInt8) :
    ∀ pkt ∈ readPackets seq unread, pkt.Filled := by
  induction seq, unread using readPackets.induct with
  | case1 seq unread hlast =>
    intro p hp
    rw [readPackets, if_pos hlast] at hp
    rw [mem_singleton.mp hp]
    exact Upkt.filled_create _ (length_take_le _ _)
  | case2 seq unread hlast ih =>
    intro p hp
    rw [readPackets, if_neg hlast] at hp
    rcases mem_cons.mp hp with rfl | hp
    · exact Upkt.filled_create _ (length_take_le _ _)
    · exact ih p hp

/-- The texts of the packets are no longer than the file, and as long only if no
chunk ends early. -/
theorem length_texts_le (seq : Int) (unread : List UInt8) :
    ((readPackets seq unread).flatMap Upkt.text).length ≤ unread.length := by
  induction seq, unread using readPackets.induct with
  | case1 seq unread hlast =>
    rw [readPackets, if_pos hlast, flatMap_singleton, text_create]
    have hpre : cstr (unread.take chunkLen) <+: unread.take chunkLen := List.takeWhile_prefix _
    exact hpre.length_le.trans (length_take_le' _ _)
  | case2 seq unread hlast ih =>
    rw [readPackets, if_neg hlast, flatMap_cons, length_append, text_create]
    have hpre : cstr (unread.take chunkLen) <+: unread.take chunkLen := List.takeWhile_prefix _
    have hle := hpre.length_le
    rw [length_take] at hle
    rw [length_drop] at ih
    omega

theorem texts_eq_iff (seq : Int) (unread : List UInt8) :
    (readPackets seq unread).flatMap Upkt.text = unread ↔ 0 ∉ unread := by
  induction seq, unread using readPackets.induct with
  | case1 seq unread hlast =>
    rw [readPackets, if_pos hlast, flatMap_singleton, text_create,
      take_of_length_le (by omega)]
    exact cstr_eq_self_iff
  | case2 seq unread hlast ih =>
    have hpre : cstr (unread.take chunkLen) <+: unread.take chunkLen := List.takeWhile_prefix _
    have hle := hpre.length_le
    have hrest := length_texts_le (seq + 1) (unread.drop chunkLen)
    rw [readPackets, if_neg hlast, flatMap_cons, text_create]
    constructor
    · intro heq
      -- nothing is missing anywhere, so nothing is missing in the first chunk
      have hlen := congrArg List.length heq
      rw [← take_append_drop chunkLen unread] at heq
      rw [length_append] at hlen
      rw [length_take] at hle
      rw [length_drop] at hrest
      have hfirst : (cstr (unread.take chunkLen)).length = (unread.take chunkLen).length := by
        rw [length_take]
        omega
      rw [take_append_drop] at heq
      have hchunk := hpre.eq_of_length hfirst
      have htail : (readPackets (seq + 1) (unread.drop chunkLen)).flatMap Upkt.text =
          unread.drop chunkLen := by
        rw [hchunk] at heq
        nth_rewrite 3 [← take_append_drop chunkLen unread] at heq
        exact append_cancel_left heq
      intro hzero
      rw [← take_append_drop chunkLen unread] at hzero
      rcases mem_append.mp hzero with hzero | hzero
      · exact cstr_eq_self_iff.mp hchunk hzero
      · exact ih.mp htail hzero
    · intro hzero
      have htake : 0 ∉ unread.take chunkLen := fun hmem => hzero (mem_of_mem_take hmem)
      have hdrop : 0 ∉ unread.drop chunkLen := fun hmem => hzero (mem_of_mem_drop hmem)
      rw [cstr_eq_self_iff.mpr htake, ih.mpr hdrop, take_append_drop]

/-- A file that is read in chunks and written again, each packet in either way, is
the same exactly when it has no NUL byte. -/
theorem chunks_round_trip (ways : Int → Delivery) (memory : Upkt) (file : List UInt8) :
    writePackets ways memory [] (readPackets 0 file) = file ↔ 0 ∉ file := by
  rw [writePackets_eq ways memory [] (filled_readPackets 0 file), nil_append]
  exact texts_eq_iff 0 file

/-- Three bytes with a NUL between two letters. -/
def nulFile : List UInt8 := [97, 0, 98]

/-- Only the first letter is written. -/
theorem not_chunks_round_trip :
    writePackets (fun _ => .direct) ⟨0, 0, []⟩ [] (readPackets 0 nulFile) = [97] ∧
      writePackets (fun _ => .buffered) ⟨0, 0, []⟩ [] (readPackets 0 nulFile) = [97] ∧
      nulFile ≠ [97] := by
  have htexts : (readPackets 0 nulFile).flatMap Upkt.text = [97] := by
    rw [readPackets, if_pos (by decide), flatMap_singleton, text_create]
    decide
  rw [writePackets_eq _ _ _ (filled_readPackets 0 nulFile),
    writePackets_eq _ _ _ (filled_readPackets 0 nulFile), htexts]
  decide

end PittCs.Ncp
