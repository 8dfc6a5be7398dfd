import PittCs.Chat.Broadcast

/-!
# The backup of a server

`get_state` writes the state of a server as JSON and `load_state` reads it back
into the globals of a new process. The JSON text is kept as its tree. The decoder
turns every object that has a certain key into a record, so a dictionary whose
keys are chosen by clients may come back as something else, or not at all; and
one of the two matrices is written but not read.
-/

namespace PittCs.Chat

open PittCs.Lib List Option

/-- JSON, with numbers as far as they occur here. The content of a packet is a
string; it stays the operation it was made from. -/
inductive Json where
  | bool (b : Bool)
  | num (k : Nat)
  | str (s : String)
  | content (op : Operation)
  | arr (items : List Json)
  | obj (entries : List (String × Json))

/-- The Python values that a backup is made of. -/
inductive Value where
  | bool (b : Bool)
  | num (k : Nat)
  | str (s : String)
  | content (op : Operation)
  | list (items : List Value)
  | dict (entries : List (String × Value))
  | broadcastMsg (senderId ack nack executed ts seq content : Value)
  | message (id content sender likes : Value)
  | group (name users messages : Value)

/-! ## `EnhancedJSONEncoder` -/

mutual

/-- Records are written as objects with one entry a field. -/
def encode : Value → Json
  | .bool b => .bool b
  | .num k => .num k
  | .str s => .str s
  | .content op => .content op
  | .list items => .arr (encodeList items)
  | .dict entries => .obj (encodeEntries entries)
  | .broadcastMsg senderId ack nack executed ts seq content =>
    .obj [("sender_id", encode senderId), ("ack", encode ack), ("nack", encode nack),
      ("executed", encode executed), ("ts", encode ts), ("seq", encode seq),
      ("content", encode content)]
  | .message id content sender likes =>
    .obj [("id", encode id), ("content", encode content), ("sender", encode sender),
      ("likes", encode likes)]
  | .group name users messages =>
    .obj [("name", encode name), ("users", encode users), ("messages", encode messages)]

def encodeList : List Value → List Json
  | [] => []
  | v :: rest => encode v :: encodeList rest

def encodeEntries : List (String × Value) → List (String × Json)
  | [] => []
  | (k, v) :: rest => (k, encode v) :: encodeEntries rest

end

/-! ## `EnhancedJSONDecoder` -/

/-- `d[k]`; a missing key raises an exception. -/
def item (dct : List (String × Value)) (k : String) : Option Value :=
  (dct.find? fun e => decide (e.1 = k)).map Prod.snd

/-- A constructor call `C(**dct)` raises an exception on an argument it does not know. -/
def knownArgs (args : List String) (dct : List (String × Value)) : Bool :=
  dct.all fun e => decide (e.1 ∈ args)

/-- `BroadcastMsg(**dct)`. Its flags have defaults. -/
def newBroadcastMsg (dct : List (String × Value)) : Option Value :=
  if knownArgs ["sender_id", "ts", "seq", "content", "ack", "nack", "executed"] dct then do
    let senderId ← item dct "sender_id"
    let ts ← item dct "ts"
    let seq ← item dct "seq"
    let content ← item dct "content"
    let ack := (item dct "ack").getD (.bool false)
    let nack := (item dct "nack").getD (.bool false)
    let executed := (item dct "executed").getD (.bool false)
    return .broadcastMsg senderId ack nack executed ts seq content
  else none

/-- `Message(**dct)`. -/
def newMessage (dct : List (String × Value)) : Option Value :=
  if knownArgs ["id", "content", "sender", "likes"] dct then do
    let id ← item dct "id"
    let content ← item dct "content"
    let sender ← item dct "sender"
    let likes ← item dct "likes"
    return .message id content sender likes
  else none

/-- `Group(**dct)`. -/
def newGroup (dct : List (String × Value)) : Option Value :=
  if knownArgs ["name", "users", "messages"] dct then do
    let name ← item dct "name"
    let users ← item dct "users"
    let messages ← item dct "messages"
    return .group name users messages
  else none

/-- `object_hook`, called for every object of the text, the inner ones first. -/
def objectHook (dct : List (String × Value)) : Option Value :=
  if (item dct "sender_id").isSome then newBroadcastMsg dct
  else if (item dct "content").isSome then newMessage dct
  else if (item dct "name").isSome then newGroup dct
  else some (.dict dct)

mutual

def decode : Json → Option Value
  | .bool b => some (.bool b)
  | .num k => some (.num k)
  | .str s => some (.str s)
  | .content op => some (.content op)
  | .arr items => (decodeList items).map Value.list
  | .obj entries => (decodeEntries entries).bind objectHook

def decodeList : List Json → Option (List Value)
  | [] => some []
  | j :: rest => do
    let v ← decode j
    let vs ← decodeList rest
    return v :: vs

def decodeEntries : List (String × Json) → Option (List (String × Value))
  | [] => some []
  | (k, j) :: rest => do
    let v ← decode j
    let vs ← decodeEntries rest
    return (k, v) :: vs

end

/-! ## `get_state` and `load_state` -/

/-- The globals that a backup is about. For `cv_dict` these are its keys. -/
structure Globals where
  timestamp : Value
  seq : Value
  buf : Value
  log : Value
  confirmedOrder : Value
  highestSeqRcvd : Value
  highestTsRcvd : Value
  seqMatrix : Value
  tsMatrix : Value
  pktsUntilAck : Value
  groupDict : Value
  groups : Value
  activeUsers : Value
  inView : Value
  lastHeard : Value

def getState (globals : Globals) : Json :=
  encode <| .dict
    [("timestamp", globals.timestamp), ("seq", globals.seq), ("buf", globals.buf),
      ("log", globals.log), ("confirmed_order", globals.confirmedOrder),
      ("highest_seq_rcvd", globals.highestSeqRcvd), ("highest_ts_rcvd", globals.highestTsRcvd),
      ("seq_matrix", globals.seqMatrix), ("ts_matrix", globals.tsMatrix),
      ("pkts_until_ack", globals.pktsUntilAck), ("group_dict", globals.groupDict),
      ("groups", globals.groups), ("active_users", globals.activeUsers),
      ("in_view", globals.inView), ("last_heard", globals.lastHeard)]

/-- `load_state` in a process with the given globals; nothing on an exception. The
matrix `seq_matrix` keeps the value it has in the process. -/
def loadState (globals : Globals) (backup : Json) : Option Globals :=
  match decode backup with
  | some (.dict state) => do
    let timestamp ← item state "timestamp"
    let seq ← item state "seq"
    let buf ← item state "buf"
    let log ← item state "log"
    let confirmedOrder ← item state "confirmed_order"
    let highestSeqRcvd ← item state "highest_seq_rcvd"
    let highestTsRcvd ← item state "highest_ts_rcvd"
    let tsMatrix ← item state "ts_matrix"
    let pktsUntilAck ← item state "pkts_until_ack"
    let groupDict ← item state "group_dict"
    let groups ← item state "groups"
    let activeUsers ← item state "active_users"
    let inView ← item state "in_view"
    let lastHeard ← item state "last_heard"
    return { globals with
      timestamp
      seq
      buf
      log
      confirmedOrder
      highestSeqRcvd
      highestTsRcvd
      tsMatrix
      pktsUntilAck
      groupDict
      groups
      activeUsers
      inView
      lastHeard }
  | _ => none

/-! ## The globals of a node -/

section Values

variable {n : Nat}

def BroadcastMsg.value (msg : BroadcastMsg n) : Value :=
  .broadcastMsg (.num msg.senderId) (.bool false) (.bool false) (.bool msg.executed) (.num msg.ts)
    (.num msg.seq) (.content msg.content)

def Message.value (m : Message) : Value :=
  .message (.list [.num m.id.1, .num m.id.2]) (.str m.content) (.str m.sender)
    (.list (m.likes.map Value.str))

def Group.value (group : Group) : Value :=
  .group (.str group.name) (.list (group.users.map Value.str))
    (.list (group.messages.map Message.value))

def ActiveUser.value (user : ActiveUser) : Value :=
  .dict [("username", .str user.username), ("group_name", .str user.groupName)]

def vectorValue (v : Fin n → Nat) : Value := .list ((ofFn v).map Value.num)

def matrixValue (m : Fin n → Fin n → Nat) : Value := .list ((ofFn m).map vectorValue)

def groupDictValue (groupDict : Dict String Group) : Value :=
  .dict (groupDict.entries.map fun e => (e.1, e.2.value))

def Node.globals (node : Node n) : Globals where
  timestamp := .num node.timestamp
  seq := .num node.seq
  buf := .list (node.buf.map BroadcastMsg.value)
  log := .list (node.log.map BroadcastMsg.value)
  confirmedOrder := .list (node.confirmedOrder.map BroadcastMsg.value)
  highestSeqRcvd := vectorValue node.highestSeqRcvd
  highestTsRcvd := vectorValue node.highestTsRcvd
  seqMatrix := matrixValue node.seqMatrix
  tsMatrix := matrixValue node.tsMatrix
  pktsUntilAck := .num node.pktsUntilAck
  groupDict := groupDictValue node.store.groupDict
  groups := .list (node.store.cvDict.map Value.str)
  activeUsers := .list (node.activeUsers.map ActiveUser.value)
  inView := .list ((ofFn node.inView).map Value.bool)
  lastHeard := vectorValue node.lastHeard

end Values

/-! ## What comes back -/

/-- The value is read back as it was written. -/
def RoundTrips (v : Value) : Prop := decode (encode v) = some v

section RoundTrips

attribute [local simp] encode encodeList encodeEntries decode decodeList decodeEntries

variable {α : Type} {n : Nat}

theorem decodeList_map {f : α → Value} {l : List α} (h : ∀ a ∈ l, RoundTrips (f a)) :
    decodeList (encodeList (l.map f)) = some (l.map f) := by
  induction l with
  | nil => rfl
  | cons a rest ih =>
    have ha : decode (encode (f a)) = some (f a) := h a mem_cons_self
    have hrest := ih fun b hb => h b (mem_cons_of_mem a hb)
    simp only [map_cons, encodeList, decodeList, ha, hrest]
    rfl

theorem decodeEntries_map {f : α → String × Value} {l : List α}
    (h : ∀ a ∈ l, RoundTrips (f a).2) :
    decodeEntries (encodeEntries (l.map f)) = some (l.map f) := by
  induction l with
  | nil => rfl
  | cons a rest ih =>
    have ha : decode (encode (f a).2) = some (f a).2 := h a mem_cons_self
    have hrest := ih fun b hb => h b (mem_cons_of_mem a hb)
    simp only [map_cons, encodeEntries, decodeEntries, ha, hrest]
    rfl

theorem roundTrips_list {f : α → Value} {l : List α} (h : ∀ a ∈ l, RoundTrips (f a)) :
    RoundTrips (.list (l.map f)) := by
  unfold RoundTrips
  rw [encode, decode, decodeList_map h]
  rfl

theorem roundTrips_strings (l : List String) : RoundTrips (.list (l.map Value.str)) :=
  roundTrips_list fun _ _ => rfl

theorem BroadcastMsg.roundTrips (msg : BroadcastMsg n) : RoundTrips msg.value := rfl

theorem Message.roundTrips (m : Message) : RoundTrips m.value := by
  have hlikes : decode (encode (.list (m.likes.map Value.str))) = _ := roundTrips_strings m.likes
  have hid : decode (encode (.list [.num m.id.1, .num m.id.2])) = some _ := rfl
  unfold RoundTrips Message.value
  simp only [encode, decode, decodeEntries] at hlikes hid ⊢
  rw [hlikes, hid]
  rfl

theorem Group.roundTrips (group : Group) : RoundTrips group.value := by
  have husers : decode (encode (.list (group.users.map Value.str))) = _ :=
    roundTrips_strings group.users
  have hmessages : decode (encode (.list (group.messages.map Message.value))) = _ :=
    roundTrips_list fun m _ => m.roundTrips
  unfold RoundTrips Group.value
  simp only [encode, decode, decodeEntries] at husers hmessages ⊢
  rw [husers, hmessages]
  rfl

theorem ActiveUser.roundTrips (user : ActiveUser) : RoundTrips user.value := rfl

theorem roundTrips_vector (v : Fin n → Nat) : RoundTrips (vectorValue v) :=
  roundTrips_list fun _ _ => rfl

theorem roundTrips_matrix (m : Fin n → Fin n → Nat) : RoundTrips (matrixValue m) :=
  roundTrips_list fun v _ => roundTrips_vector v

/-- The keys by which `object_hook` tells records from dictionaries. -/
def recordKeys : List String := ["sender_id", "content", "name"]

theorem item_isSome {dct : List (String × Value)} {k : String} :
    (item dct k).isSome = true ↔ k ∈ dct.map Prod.fst := by
  unfold item
  rw [isSome_map, find?_isSome, List.mem_map]
  simp only [decide_eq_true_eq]

theorem newBroadcastMsg_ne_dict (dct dct' : List (String × Value)) :
    newBroadcastMsg dct ≠ some (.dict dct') := by
  unfold newBroadcastMsg
  split
  · simp only [bind_eq_bind, ne_eq, bind_eq_some_iff, not_exists, not_and]
    intro senderId _ ts _ seq _ content _ h
    exact Value.noConfusion (some.inj h)
  · exact (some_ne_none _).symm

theorem newMessage_ne_dict (dct dct' : List (String × Value)) :
    newMessage dct ≠ some (.dict dct') := by
  unfold newMessage
  split
  · simp only [bind_eq_bind, ne_eq, bind_eq_some_iff, not_exists, not_and]
    intro id _ content _ sender _ likes _ h
    exact Value.noConfusion (some.inj h)
  · exact (some_ne_none _).symm

theorem newGroup_ne_dict (dct dct' : List (String × Value)) :
    newGroup dct ≠ some (.dict dct') := by
  unfold newGroup
  split
  · simp only [bind_eq_bind, ne_eq, bind_eq_some_iff, not_exists, not_and]
    intro name _ users _ messages _ h
    exact Value.noConfusion (some.inj h)
  · exact (some_ne_none _).symm

/-- A dictionary comes back as a dictionary exactly when it has none of the keys. -/
theorem objectHook_eq_dict {dct : List (String × Value)} :
    objectHook dct = some (.dict dct) ↔ ∀ k ∈ dct.map Prod.fst, k ∉ recordKeys := by
  have hkeys : (∀ k ∈ dct.map Prod.fst, k ∉ recordKeys) ↔
      "sender_id" ∉ dct.map Prod.fst ∧ "content" ∉ dct.map Prod.fst ∧
        "name" ∉ dct.map Prod.fst := by
    unfold recordKeys
    constructor
    · intro h
      refine ⟨fun hk => h _ hk ?_, fun hk => h _ hk ?_, fun hk => h _ hk ?_⟩ <;> decide
    · rintro ⟨h₁, h₂, h₃⟩ k hk hmem
      simp only [mem_cons, not_mem_nil, or_false] at hmem
      rcases hmem with rfl | rfl | rfl
      · exact h₁ hk
      · exact h₂ hk
      · exact h₃ hk
  rw [hkeys]
  unfold objectHook
  simp only [item_isSome]
  by_cases h₁ : "sender_id" ∈ dct.map Prod.fst
  · rw [if_pos h₁]
    exact iff_of_false (newBroadcastMsg_ne_dict dct dct) fun h => h.1 h₁
  rw [if_neg h₁]
  by_cases h₂ : "content" ∈ dct.map Prod.fst
  · rw [if_pos h₂]
    exact iff_of_false (newMessage_ne_dict dct dct) fun h => h.2.1 h₂
  rw [if_neg h₂]
  by_cases h₃ : "name" ∈ dct.map Prod.fst
  · rw [if_pos h₃]
    exact iff_of_false (newGroup_ne_dict dct dct) fun h => h.2.2 h₃
  rw [if_neg h₃]
  exact iff_of_true rfl ⟨h₁, h₂, h₃⟩

theorem decode_groupDict (groupDict : Dict String Group) :
    decode (encode (groupDictValue groupDict)) =
      objectHook (groupDict.entries.map fun e => (e.1, e.2.value)) := by
  have hentries := decodeEntries_map (f := fun e : String × Group => (e.1, e.2.value))
    (l := groupDict.entries) fun e _ => e.2.roundTrips
  unfold groupDictValue
  rw [encode, decode, hentries]
  rfl

theorem roundTrips_groupDict (groupDict : Dict String Group) :
    RoundTrips (groupDictValue groupDict) ↔ ∀ g ∈ groupDict.keys, g ∉ recordKeys := by
  have hkeys : (groupDict.entries.map fun e => (e.1, e.2.value)).map Prod.fst = groupDict.keys := by
    rw [List.map_map]
    rfl
  unfold RoundTrips
  rw [decode_groupDict, ← hkeys]
  exact objectHook_eq_dict

/-- Everything but the groups and one matrix comes back whatever the state is. -/
theorem loadState_getState (p : Globals) (s : Node n) :
    loadState p (getState s.globals) =
      (decode (encode s.globals.groupDict)).map fun groupDict =>
        { s.globals with groupDict, seqMatrix := p.seqMatrix } := by
  have hbuf : decode (encode s.globals.buf) = _ := roundTrips_list fun m _ => m.roundTrips
  have hlog : decode (encode s.globals.log) = _ := roundTrips_list fun m _ => m.roundTrips
  have horder : decode (encode s.globals.confirmedOrder) = _ :=
    roundTrips_list fun m _ => m.roundTrips
  have hseqs : decode (encode s.globals.highestSeqRcvd) = _ := roundTrips_vector s.highestSeqRcvd
  have htss : decode (encode s.globals.highestTsRcvd) = _ := roundTrips_vector s.highestTsRcvd
  have hseqMatrix : decode (encode s.globals.seqMatrix) = _ := roundTrips_matrix s.seqMatrix
  have htsMatrix : decode (encode s.globals.tsMatrix) = _ := roundTrips_matrix s.tsMatrix
  have hgroups : decode (encode s.globals.groups) = _ := roundTrips_strings s.store.cvDict
  have husers : decode (encode s.globals.activeUsers) = _ :=
    roundTrips_list fun user _ => user.roundTrips
  have hview : decode (encode s.globals.inView) = _ := roundTrips_list fun _ _ => rfl
  have hheard : decode (encode s.globals.lastHeard) = _ := roundTrips_vector s.lastHeard
  have htimestamp : decode (encode s.globals.timestamp) = some s.globals.timestamp := rfl
  have hseq : decode (encode s.globals.seq) = some s.globals.seq := rfl
  have hpkts : decode (encode s.globals.pktsUntilAck) = some s.globals.pktsUntilAck := rfl
  unfold loadState getState
  simp only [encode, encodeEntries, decode, decodeEntries, htimestamp, hseq, hbuf, hlog, horder,
    hseqs, htss, hseqMatrix, htsMatrix, hpkts, hgroups, husers, hview, hheard]
  cases hgroupDict : decode (encode s.globals.groupDict) with
  | none => rfl
  | some groupDict => rfl

theorem matrixValue_injective : Function.Injective (matrixValue (n := n)) := by
  intro m m' h
  have hvector : Function.Injective (vectorValue (n := n)) := by
    intro v v' hv
    have hnums := map_injective_iff.mpr (fun _ _ h => Value.num.inj h) (Value.list.inj hv)
    exact ofFn_injective hnums
  exact ofFn_injective (map_injective_iff.mpr hvector (Value.list.inj h))

/-- A process with the state `p` reads the backup of `s` back in full exactly when
it has the matrix that is not read, and no group has the name of a record key. -/
theorem backup_round_trip (s p : Node n) :
    loadState p.globals (getState s.globals) = some s.globals ↔
      p.seqMatrix = s.seqMatrix ∧ ∀ g ∈ s.store.groupDict.keys, g ∉ recordKeys := by
  rw [loadState_getState, map_eq_some_iff, ← roundTrips_groupDict]
  constructor
  · rintro ⟨groupDict, hdecode, heq⟩
    have hdict : groupDict = s.globals.groupDict := congrArg Globals.groupDict heq
    have hmatrix : p.globals.seqMatrix = s.globals.seqMatrix := congrArg (·.seqMatrix) heq
    refine ⟨matrixValue_injective hmatrix, ?_⟩
    rw [hdict] at hdecode
    exact hdecode
  · rintro ⟨hmatrix, hgroupDict⟩
    refine ⟨s.globals.groupDict, hgroupDict, ?_⟩
    have hvalue : p.globals.seqMatrix = s.globals.seqMatrix := congrArg matrixValue hmatrix
    rw [hvalue]

end RoundTrips

/-- One user enters the group. -/
def enterRun (groupName : String) : List (Action 5) :=
  [.connect 0 0, .setUsername 0 0 "u", .joinGroupLeave 0 0 groupName, .joinGroupEnter 0 0]

/-- The backup with a group called "name" cannot be loaded in any process. With a
group "g", a process that starts anew loads it but does not get the matrix. -/
theorem not_backup_round_trip :
    (∃ t, (chatSystem 5).Reachable t ∧
      ∀ p, loadState p (getState (t.cluster.node 0).globals) = none) ∧
    ∃ t, (chatSystem 5).Reachable t ∧
      loadState (Node.init (0 : Fin 5) 0).globals (getState (t.cluster.node 0).globals) ≠
        some (t.cluster.node 0).globals := by
  constructor
  · have hrun : TransitionSystem.runMeets System.next (fun _ _ => true)
        (fun t => (decode (encode (t.cluster.node 0).globals.groupDict)).isNone) (enterRun "name")
        (System.init fun _ => 0) = true := by
      decide +kernel
    rcases exists_reachable_of_run hrun with ⟨t, ht, hnone⟩
    refine ⟨t, ht, fun p => ?_⟩
    rw [loadState_getState, isNone_iff_eq_none.mp hnone]
    rfl
  · have hrun : TransitionSystem.runMeets System.next (fun _ _ => true)
        (fun t => decide ((t.cluster.node 0).seqMatrix 0 0 = 1)) (enterRun "g")
        (System.init fun _ => 0) = true := by
      decide +kernel
    rcases exists_reachable_of_run hrun with ⟨t, ht, hp⟩
    refine ⟨t, ht, ?_⟩
    rw [loadState_getState, ne_eq, map_eq_some_iff]
    rintro ⟨groupDict, -, heq⟩
    have hvalue : (Node.init (0 : Fin 5) 0).globals.seqMatrix = (t.cluster.node 0).globals.seqMatrix :=
      congrArg (·.seqMatrix) heq
    have hmatrix := matrixValue_injective hvalue
    have hone : (t.cluster.node 0).seqMatrix 0 0 = 1 := of_decide_eq_true hp
    rw [← hmatrix] at hone
    exact absurd hone (by decide)

end PittCs.Chat
