import Mathlib.Data.Fintype.Pi
import Mathlib.Data.Prod.Lex
import PittCs.Lib.Dict
import PittCs.Lib.OrderedInsert

/-!
# Records of the chat server

Groups with their users and messages, the operations that servers broadcast,
and the packets of the broadcast protocol. The content of a data packet is the
JSON text of an operation; the model keeps the operation itself. An ack and a
nack are packets of their own here, not data packets with a flag, since their
content is of another form.
-/

namespace PittCs.Chat

open PittCs.Lib

/-- A message of a group. Its `id` is the server it was written at and the
Lamport timestamp it was written with. -/
structure Message where
  id : Nat × Nat
  content : String
  sender : String
  likes : List String
deriving DecidableEq

structure Group where
  name : String
  users : List String
  messages : List Message
deriving DecidableEq

/-- The operation messages, with their arguments in the order of the source. -/
inductive Operation where
  | createGroup (groupName username : String)
  | joinGroup (groupName username : String)
  | leaveGroup (groupName username : String)
  | writeMessage (groupName username content : String) (ts serverId : Nat)
  | addLike (groupName username : String) (ts serverId : Nat)
  | removeLike (groupName username : String) (ts serverId : Nat)
deriving DecidableEq

/-- A data packet. The flag tells whether the node that keeps it has executed it. -/
structure BroadcastMsg (n : Nat) where
  senderId : Fin n
  ts : Nat
  seq : Nat
  content : Operation
  executed : Bool := false
deriving DecidableEq

/-- What a node sends to another one. -/
inductive Packet (n : Nat) where
  | data (msg : BroadcastMsg n)
  | ack (senderId : Fin n) (ts seq : Nat) (seqVector tsVector : Fin n → Nat)
  | nack (senderId : Fin n) (ts seq : Nat)

namespace Packet

def beq {n : Nat} : Packet n → Packet n → Bool
  | .data msg, .data msg' => decide (msg = msg')
  | .ack senderId ts seq seqVector tsVector, .ack senderId' ts' seq' seqVector' tsVector' =>
    decide (senderId = senderId' ∧ ts = ts' ∧ seq = seq' ∧ seqVector = seqVector' ∧
      tsVector = tsVector')
  | .nack senderId ts seq, .nack senderId' ts' seq' =>
    decide (senderId = senderId' ∧ ts = ts' ∧ seq = seq')
  | _, _ => false

theorem beq_iff {n : Nat} (pkt pkt' : Packet n) : pkt.beq pkt' = true ↔ pkt = pkt' := by
  cases pkt <;> cases pkt' <;> simp [beq]

/-- Equality is decided on the fields; vectors are compared element by element. -/
instance {n : Nat} : DecidableEq (Packet n) := fun pkt pkt' =>
  decidable_of_iff _ (beq_iff pkt pkt')

end Packet

def Packet.senderId {n : Nat} : Packet n → Fin n
  | .data msg => msg.senderId
  | .ack senderId _ _ _ _ => senderId
  | .nack senderId _ _ => senderId

/-! ## The total order -/

/-- The place of a packet in the total order: its timestamp, then its sender. -/
def BroadcastMsg.key {n : Nat} (msg : BroadcastMsg n) : Nat ×ₗ Fin n :=
  toLex (msg.ts, msg.senderId)

/-- The place of a message in the total order: its timestamp, then its server. -/
def Message.key (m : Message) : Nat ×ₗ Nat :=
  toLex (m.id.2, m.id.1)

/-- `compare`: `.gt` for 1, `.eq` for 0 and `.lt` for -1. -/
def BroadcastMsg.compare {n : Nat} (msg₁ msg₂ : BroadcastMsg n) : Ordering :=
  if msg₁.ts > msg₂.ts ∨ (msg₁.ts = msg₂.ts ∧ msg₁.senderId > msg₂.senderId) then .gt
  else if msg₁.ts = msg₂.ts ∧ msg₁.senderId = msg₂.senderId then .eq
  else .lt

/-- `compare_msg`: the same on messages. -/
def compareMsg (msg₁ msg₂ : Message) : Ordering :=
  if msg₁.id.2 > msg₂.id.2 ∨ (msg₁.id.2 = msg₂.id.2 ∧ msg₁.id.1 > msg₂.id.1) then .gt
  else if msg₁.id.2 = msg₂.id.2 ∧ msg₁.id.1 = msg₂.id.1 then .eq
  else .lt

section ThreeWay

variable {α β : Type} [LinearOrder α] [LinearOrder β]

/-- Both comparisons of the source are the lexicographic one. -/
theorem compare_toLex (a₁ a₂ : α) (b₁ b₂ : β) :
    (if a₁ > a₂ ∨ (a₁ = a₂ ∧ b₁ > b₂) then Ordering.gt
      else if a₁ = a₂ ∧ b₁ = b₂ then .eq else .lt) =
      Ord.compare (toLex (a₁, b₁)) (toLex (a₂, b₂)) := by
  by_cases hgt : a₁ > a₂ ∨ (a₁ = a₂ ∧ b₁ > b₂)
  · rw [if_pos hgt]
    symm
    rw [compare_gt_iff_gt, Prod.Lex.toLex_lt_toLex]
    rcases hgt with h | ⟨h, h'⟩
    · exact Or.inl h
    · exact Or.inr ⟨h.symm, h'⟩
  · rw [if_neg hgt]
    by_cases heq : a₁ = a₂ ∧ b₁ = b₂
    · rw [if_pos heq, heq.1, heq.2]
      symm
      exact compare_eq_iff_eq.mpr rfl
    · rw [if_neg heq]
      symm
      rw [compare_lt_iff_lt, Prod.Lex.toLex_lt_toLex]
      rcases lt_trichotomy a₁ a₂ with h | h | h
      · exact Or.inl h
      · refine Or.inr ⟨h, ?_⟩
        rcases lt_trichotomy b₁ b₂ with h' | h' | h'
        · exact h'
        · exact absurd ⟨h, h'⟩ heq
        · exact absurd (Or.inr ⟨h, h'⟩) hgt
      · exact absurd (Or.inl h) hgt

end ThreeWay

theorem BroadcastMsg.compare_eq {n : Nat} (msg₁ msg₂ : BroadcastMsg n) :
    msg₁.compare msg₂ = Ord.compare msg₁.key msg₂.key := by
  unfold BroadcastMsg.compare BroadcastMsg.key
  rw [← compare_toLex]

theorem compareMsg_eq (msg₁ msg₂ : Message) :
    compareMsg msg₁ msg₂ = Ord.compare msg₁.key msg₂.key := by
  unfold compareMsg Message.key
  rw [← compare_toLex]

theorem BroadcastMsg.key_eq {n : Nat} {msg₁ msg₂ : BroadcastMsg n} :
    msg₁.key = msg₂.key ↔ msg₁.ts = msg₂.ts ∧ msg₁.senderId = msg₂.senderId := by
  unfold BroadcastMsg.key
  rw [toLex_inj, Prod.mk.injEq]

theorem Message.key_eq {m₁ m₂ : Message} : m₁.key = m₂.key ↔ m₁.id = m₂.id := by
  unfold Message.key
  rw [toLex_inj, Prod.mk.injEq, Prod.ext_iff, and_comm]

/-- Puts a packet in its place in a list of packets; a packet already there stays. -/
def putInOrder {n : Nat} (ls : List (BroadcastMsg n)) (msg : BroadcastMsg n) :
    List (BroadcastMsg n) :=
  (insertFromRight BroadcastMsg.compare msg ls).getD ls

/-!
## The six operations on groups

Each operation changes `group_dict` and succeeds, or leaves everything as it
was and fails. A server runs them for its own clients and for the packets of
the others.
-/

/-- `group_dict` and the keys of `cv_dict`. -/
structure GroupStore where
  groupDict : Dict String Group
  cvDict : List String
deriving DecidableEq

namespace GroupStore

def empty : GroupStore := ⟨Dict.empty, []⟩

/-- `group_dict[group_name] = group`. -/
def setGroup (store : GroupStore) (groupName : String) (group : Group) : GroupStore :=
  { store with groupDict := store.groupDict.set groupName group }

/-- An attempt to create a group that exists is a request to join it. -/
def createGroup (store : GroupStore) (groupName username : String) : Option GroupStore :=
  match store.groupDict.get? groupName with
  | some group =>
    if username ∉ group.users then
      some (store.setGroup groupName { group with users := group.users ++ [username] })
    else none
  | none =>
    some
      { groupDict := store.groupDict.set groupName ⟨groupName, [username], []⟩
        cvDict := if groupName ∈ store.cvDict then store.cvDict
          else store.cvDict ++ [groupName] }

def joinGroup (store : GroupStore) (groupName username : String) : Option GroupStore :=
  match store.groupDict.get? groupName with
  | none => none
  | some group =>
    some (store.setGroup groupName { group with users := group.users ++ [username] })

/-- Takes one occurrence of the user out of the group. -/
def leaveGroup (store : GroupStore) (groupName username : String) : Option GroupStore :=
  match store.groupDict.get? groupName with
  | none => none
  | some oldGroup =>
    if username ∉ oldGroup.users then none
    else some (store.setGroup groupName { oldGroup with users := oldGroup.users.erase username })

/-- Writes a message to the group, in its place; fails if its id is there already. -/
def writeMessage (store : GroupStore) (groupName username content : String) (ts serverId : Nat) :
    Option GroupStore :=
  match store.groupDict.get? groupName with
  | none => none
  | some group =>
    if username ∉ group.users then none
    else
      match insertFromRight compareMsg ⟨(serverId, ts), content, username, []⟩ group.messages with
      | none => none
      | some messages => some (store.setGroup groupName { group with messages })

/-- Changes the likes of the first message with the given id. -/
def updateMessage (id : Nat × Nat) (change : List String → Option (List String)) :
    List Message → Option (List Message)
  | [] => none
  | m :: rest =>
    if m.id = id then (change m.likes).map fun likes => { m with likes } :: rest
    else (updateMessage id change rest).map (m :: ·)

/-- What `add_like` and `remove_like` have in common: the user is in the group and
the group has the message. -/
def updateLikes (store : GroupStore) (groupName username : String) (ts serverId : Nat)
    (change : List String → Option (List String)) : Option GroupStore :=
  match store.groupDict.get? groupName with
  | none => none
  | some group =>
    if username ∉ group.users then none
    else
      match updateMessage (serverId, ts) change group.messages with
      | none => none
      | some messages => some (store.setGroup groupName { group with messages })

/-- Adds a like if it is not present already. -/
def addLike (store : GroupStore) (groupName username : String) (ts serverId : Nat) :
    Option GroupStore :=
  store.updateLikes groupName username ts serverId fun likes =>
    if username ∈ likes then none else some (likes ++ [username])

/-- Removes a like if one is present. -/
def removeLike (store : GroupStore) (groupName username : String) (ts serverId : Nat) :
    Option GroupStore :=
  store.updateLikes groupName username ts serverId fun likes =>
    if username ∉ likes then none else some (likes.erase username)

/-- Runs the operation that an operation message names. -/
def apply (store : GroupStore) : Operation → Option GroupStore
  | .createGroup groupName username => store.createGroup groupName username
  | .joinGroup groupName username => store.joinGroup groupName username
  | .leaveGroup groupName username => store.leaveGroup groupName username
  | .writeMessage groupName username content ts serverId =>
    store.writeMessage groupName username content ts serverId
  | .addLike groupName username ts serverId => store.addLike groupName username ts serverId
  | .removeLike groupName username ts serverId => store.removeLike groupName username ts serverId

end GroupStore

end PittCs.Chat
