import Mathlib.Data.Fintype.Defs
import Mathlib.Data.List.Sort
import PittCs.Lib.TransitionSystem

/-!
# The web chat

The view `messages` of `chat.py`: posts by any users, and the polls of one session that
stays in one room. A post takes its timestamp and is committed later. A poll reads
`last_update` from the session, replaces it by the present time and then asks the database;
the page starts its next poll when it has the answer. Time is in microseconds, which is
what `last_update` keeps of it.
-/

namespace PittCs.Cs1520.Chat

open Lib List Option

structure User where
  id : Nat
  username : String
deriving DecidableEq

/-- A message before it is in the database. -/
structure Draft where
  content : String
  timestamp : Nat
  author_id : Nat
  room_id : Nat
deriving DecidableEq

structure Message extends Draft where
  id : Nat
deriving DecidableEq

/-- A row of an answer: content and timestamp of a message, and the name of its author. -/
structure Row where
  message : Message
  username : String
deriving DecidableEq

/-- The query of a poll. Without `last_fetch` it asks for all messages of the room. -/
def query (users : List User) (messages : List Message) (room_id : Nat)
    (last_fetch : Option Nat) : List Row :=
  let rows := messages.flatMap fun m =>
    (users.filter fun u => u.id = m.author_id).map fun u => ⟨m, u.username⟩
  let filtered := rows.filter fun row => row.message.room_id = room_id ∧
    ∀ t ∈ last_fetch, row.message.timestamp > t
  filtered.insertionSort fun row row' => row.message.timestamp ≤ row'.message.timestamp

/-- Where the session is in its poll. -/
inductive Phase where
  | idle
  | fetched (last_fetch : Option Nat)
  /-- `last_update` has been replaced. -/
  | updated (last_fetch : Option Nat)
deriving DecidableEq

/-- A poll that was answered, and what the database had then. -/
structure Poll where
  stored : List Message
  answer : List Row
deriving DecidableEq

/-- `polls` has the latest poll first. -/
structure State where
  now : Nat
  messages : List Message
  /-- Stamped and not committed. -/
  drafts : List Draft
  last_update : Option Nat
  phase : Phase
  polls : List Poll
deriving DecidableEq

def init (now : Nat) : State where
  now := now
  messages := []
  drafts := []
  last_update := none
  phase := .idle
  polls := []

inductive Act where
  | tick (t : Nat)
  | stamp (author : User) (content : String) (room_id : Nat)
  | commit (k : Nat)
  | fetch
  | update
  | query
deriving DecidableEq

namespace State

variable (s : State)

/-- An empty message is refused. -/
def stamp (author : User) (content : String) (room_id : Nat) : State :=
  if content = "" then s
  else { s with drafts := s.drafts ++ [⟨content, s.now, author.id, room_id⟩] }

def commit (k : Nat) : Option State :=
  s.drafts[k]?.map fun d =>
    { s with
      messages := s.messages ++ [{ d with id := s.messages.length + 1 }]
      drafts := s.drafts.eraseIdx k }

end State

/-- The users are all that ever register, and `room_id` is the room of the session. -/
def next (users : List User) (room_id : Nat) (s : State) : Act → Option State
  | .tick t => some { s with now := s.now + t }
  | .stamp author content room => if author ∈ users then some (s.stamp author content room) else none
  | .commit k => s.commit k
  | .fetch =>
    match s.phase with
    | .idle => some { s with phase := .fetched s.last_update }
    | _ => none
  | .update =>
    match s.phase with
    | .fetched last_fetch =>
      some { s with last_update := some s.now, phase := .updated last_fetch }
    | _ => none
  | .query =>
    match s.phase with
    | .updated last_fetch =>
      let poll := ⟨s.messages, Chat.query users s.messages room_id last_fetch⟩
      some { s with phase := .idle, polls := poll :: s.polls }
    | _ => none

def chat (users : List User) (room_id : Nat) : TransitionSystem State Act where
  Init s := ∃ now, s = init now
  Next s l s' := next users room_id s l = some s'

/-!
## Delivery of the messages

A poll asks for the messages after the moment at which the poll before it replaced
`last_update`, but the answer has what is committed when the query runs, and a message is
committed after it took its timestamp. `InTime` is what makes the two agree: a message is
committed on the side of the session's clock readings that its timestamp says.
-/

variable {users : List User} {room_id : Nat} {s s' : State} {m : Message} {d : Draft} {k : Nat}

def Poll.Returned (p : Poll) (m : Message) : Prop := ∃ row ∈ p.answer, row.message = m

/-- No message is returned by two polls, and what was stored at a poll's query is returned
by that poll or an earlier one. -/
structure Delivery (room_id : Nat) (polls : List Poll) : Prop where
  once : polls.Pairwise fun p q => ∀ m, p.Returned m → ¬ q.Returned m
  all : ∀ p earlier, p :: earlier <:+ polls → ∀ m ∈ p.stored, m.room_id = room_id →
    ∃ q ∈ p :: earlier, q.Returned m

namespace State

/-- The `last_fetch` of the present poll, or else of the next one. -/
def cursor (s : State) : Option Nat :=
  match s.phase with
  | .idle => s.last_update
  | .fetched last_fetch => last_fetch
  | .updated last_fetch => last_fetch

/-- The present poll has replaced `last_update` and its query has not run. -/
def Updated (s : State) : Prop := ∃ last_fetch, s.phase = .updated last_fetch

instance (s : State) : Decidable s.Updated :=
  match h : s.phase with
  | .idle => isFalse (by rintro ⟨_, h'⟩; rw [h] at h'; cases h')
  | .fetched _ => isFalse (by rintro ⟨_, h'⟩; rw [h] at h'; cases h')
  | .updated last_fetch => isTrue ⟨last_fetch, h⟩

/-- A message may be committed: its timestamp is after `last_fetch`, and not after the
clock reading of a poll whose query has not run. -/
def Admits (s : State) (d : Draft) : Prop :=
  (∀ t ∈ s.cursor, t < d.timestamp) ∧ (s.Updated → ∀ t ∈ s.last_update, d.timestamp ≤ t)

instance (s : State) (d : Draft) : Decidable (s.Admits d) := inferInstanceAs (Decidable (_ ∧ _))

def Returned (s : State) (m : Message) : Prop := ∃ p ∈ s.polls, p.Returned m

end State

/-- The condition on a step, which is one on the commits in the session's room. -/
def InTime (room_id : Nat) (s : State) : Act → Prop
  | .commit k => ∀ d ∈ s.drafts[k]?, d.room_id = room_id → s.Admits d
  | _ => True

instance (room_id : Nat) (s : State) : DecidablePred (InTime room_id s)
  | .commit k => inferInstanceAs (Decidable (∀ d ∈ s.drafts[k]?, d.room_id = room_id → s.Admits d))
  | .tick _ | .stamp _ _ _ | .fetch | .update | .query => isTrue trivial

/-! ## The query -/

theorem exists_row_query {messages : List Message} {last_fetch : Option Nat} :
    (∃ row ∈ query users messages room_id last_fetch, row.message = m) ↔
      m ∈ messages ∧ (∃ u ∈ users, u.id = m.author_id) ∧ m.room_id = room_id ∧
        ∀ t ∈ last_fetch, m.timestamp > t := by
  unfold query
  dsimp only
  constructor
  · rintro ⟨row, hrow, rfl⟩
    rw [mem_insertionSort, mem_filter, mem_flatMap] at hrow
    obtain ⟨⟨m, hm, hjoin⟩, hwhere⟩ := hrow
    obtain ⟨u, hu, rfl⟩ := mem_map.mp hjoin
    rw [mem_filter] at hu
    exact ⟨hm, ⟨u, hu.1, of_decide_eq_true hu.2⟩, of_decide_eq_true hwhere⟩
  · rintro ⟨hm, ⟨u, hu, hauthor⟩, hwhere⟩
    refine ⟨⟨m, u.username⟩, ?_, rfl⟩
    rw [mem_insertionSort, mem_filter, mem_flatMap]
    refine ⟨⟨m, hm, mem_map.mpr ⟨u, ?_, rfl⟩⟩, decide_eq_true hwhere⟩
    exact mem_filter.mpr ⟨hu, decide_eq_true hauthor⟩

/-! ## What a step does -/

theorem next_stamp {author : User} {content : String} {room : Nat}
    (h : next users room_id s (.stamp author content room) = some s') :
    author ∈ users ∧ s' = s.stamp author content room := by
  unfold next at h
  dsimp only at h
  split at h
  case isTrue hauthor => exact ⟨hauthor, (some.inj h).symm⟩
  case isFalse => cases h

theorem next_commit (h : next users room_id s (.commit k) = some s') : ∃ d, s.drafts[k]? = some d ∧
    s' = { s with
      messages := s.messages ++ [{ d with id := s.messages.length + 1 }]
      drafts := s.drafts.eraseIdx k } := by
  obtain ⟨d, hd, hs'⟩ := map_eq_some_iff.mp h
  exact ⟨d, hd, hs'.symm⟩

theorem next_fetch (h : next users room_id s .fetch = some s') :
    s.phase = .idle ∧ s' = { s with phase := .fetched s.last_update } := by
  unfold next at h
  dsimp only at h
  split at h
  case h_1 hphase => exact ⟨hphase, (some.inj h).symm⟩
  case h_2 => cases h

theorem next_update (h : next users room_id s .update = some s') :
    ∃ last_fetch, s.phase = .fetched last_fetch ∧
      s' = { s with last_update := some s.now, phase := .updated last_fetch } := by
  unfold next at h
  dsimp only at h
  split at h
  case h_1 last_fetch hphase => exact ⟨last_fetch, hphase, (some.inj h).symm⟩
  case h_2 => cases h

theorem next_query (h : next users room_id s .query = some s') :
    ∃ last_fetch, s.phase = .updated last_fetch ∧ s' = { s with
      phase := .idle
      polls := ⟨s.messages, query users s.messages room_id last_fetch⟩ :: s.polls } := by
  unfold next at h
  dsimp only at h
  split at h
  case h_1 last_fetch hphase => exact ⟨last_fetch, hphase, (some.inj h).symm⟩
  case h_2 => cases h

theorem mem_stored {messages : List Message} :
    m ∈ messages ++ [⟨d, messages.length + 1⟩] ↔ m ∈ messages ∨ m = ⟨d, messages.length + 1⟩ := by
  rw [mem_append, mem_singleton]

/-! ## The invariant -/

/-- Facts of every run: who writes, numbers and times. -/
structure Sound (users : List User) (s : State) : Prop where
  draft_author : ∀ d ∈ s.drafts, ∃ u ∈ users, u.id = d.author_id
  author : ∀ m ∈ s.messages, ∃ u ∈ users, u.id = m.author_id
  id : ∀ m ∈ s.messages, m.id ≤ s.messages.length
  draft_now : ∀ d ∈ s.drafts, d.timestamp ≤ s.now
  now : ∀ m ∈ s.messages, m.timestamp ≤ s.now
  returned : ∀ m, s.Returned m → m ∈ s.messages

/-- In a run that is in time the messages up to the cursor are those that were returned. -/
structure Synced (room_id : Nat) (s : State) : Prop where
  returned : ∀ m ∈ s.messages, m.room_id = room_id →
    (s.Returned m ↔ ∃ t ∈ s.cursor, m.timestamp ≤ t)
  updated : s.Updated → ∃ t ∈ s.last_update, ∀ m ∈ s.messages, m.room_id = room_id → m.timestamp ≤ t

theorem returned_cons {p : Poll} {polls : List Poll} :
    (∃ q ∈ p :: polls, q.Returned m) ↔ p.Returned m ∨ ∃ q ∈ polls, q.Returned m := by
  simp only [exists_mem_cons_iff]

/-- What the next query of a poll returns. -/
theorem returned_query {last_fetch : Option Nat} :
    Poll.Returned ⟨s.messages, query users s.messages room_id last_fetch⟩ m ↔
      m ∈ s.messages ∧ (∃ u ∈ users, u.id = m.author_id) ∧ m.room_id = room_id ∧
        ∀ t ∈ last_fetch, m.timestamp > t :=
  exists_row_query

theorem Sound.init (users : List User) (now : Nat) : Sound users (init now) where
  draft_author _ h := absurd h not_mem_nil
  author _ h := absurd h not_mem_nil
  id _ h := absurd h not_mem_nil
  draft_now _ h := absurd h not_mem_nil
  now _ h := absurd h not_mem_nil
  returned _ h := absurd h.choose_spec.1 not_mem_nil

theorem Sound.step (h : Sound users s) {l : Act} (hnext : next users room_id s l = some s') :
    Sound users s' := by
  cases l with
  | tick t =>
    cases hnext
    exact { h with
      draft_now := fun d hd => Nat.le_add_right_of_le (h.draft_now d hd)
      now := fun m hm => Nat.le_add_right_of_le (h.now m hm) }
  | stamp author content room =>
    obtain ⟨hauthor, rfl⟩ := next_stamp hnext
    unfold State.stamp
    split
    case isTrue => exact h
    case isFalse =>
      -- the new draft is stamped now
      have hdrafts : ∀ d ∈ s.drafts ++ [⟨content, s.now, author.id, room⟩],
          d ∈ s.drafts ∨ d = ⟨content, s.now, author.id, room⟩ := fun d hd =>
        (mem_append.mp hd).imp_right mem_singleton.mp
      refine { h with draft_author := fun d hd => ?_, draft_now := fun d hd => ?_ }
      · rcases hdrafts d hd with hd | rfl
        · exact h.draft_author d hd
        · exact ⟨author, hauthor, rfl⟩
      · rcases hdrafts d hd with hd | rfl
        · exact h.draft_now d hd
        · exact Nat.le_refl _
  | commit k =>
    obtain ⟨d, hd, rfl⟩ := next_commit hnext
    have hmem := mem_of_getElem? hd
    have hdrafts : ∀ d' ∈ s.drafts.eraseIdx k, d' ∈ s.drafts := fun _ hd' =>
      mem_of_mem_eraseIdx hd'
    constructor
    · exact fun d' hd' => h.draft_author d' (hdrafts d' hd')
    · intro m hm
      rcases mem_stored.mp hm with hm | rfl
      · exact h.author m hm
      · exact h.draft_author d hmem
    · intro m hm
      rw [length_append, length_singleton]
      rcases mem_stored.mp hm with hm | rfl
      · exact Nat.le_succ_of_le (h.id m hm)
      · exact Nat.le_refl _
    · exact fun d' hd' => h.draft_now d' (hdrafts d' hd')
    · intro m hm
      rcases mem_stored.mp hm with hm | rfl
      · exact h.now m hm
      · exact h.draft_now d hmem
    · exact fun m hm => mem_append_left _ (h.returned m hm)
  | fetch =>
    obtain ⟨-, rfl⟩ := next_fetch hnext
    exact { h with }
  | update =>
    obtain ⟨_, -, rfl⟩ := next_update hnext
    exact { h with }
  | query =>
    obtain ⟨_, -, rfl⟩ := next_query hnext
    refine { h with returned := fun m hm => ?_ }
    rcases returned_cons.mp hm with hm | hm
    · exact (returned_query.mp hm).1
    · exact h.returned m hm

theorem Synced.init (room_id now : Nat) : Synced room_id (init now) where
  returned _ h := absurd h not_mem_nil
  updated h := nomatch h

/-- Every message is on one side of the cursor. -/
theorem returned_or_query {messages : List Message} {last_fetch : Option Nat}
    (hm : m ∈ messages) (hauthor : ∃ u ∈ users, u.id = m.author_id) (hroom : m.room_id = room_id) :
    (∃ t ∈ last_fetch, m.timestamp ≤ t) ∨
      ∃ row ∈ query users messages room_id last_fetch, row.message = m := by
  by_cases hold : ∃ t ∈ last_fetch, m.timestamp ≤ t
  · exact Or.inl hold
  · refine Or.inr (exists_row_query.mpr ⟨hm, hauthor, hroom, fun t ht => ?_⟩)
    exact Nat.lt_of_not_le fun hle => hold ⟨t, ht, hle⟩

theorem Synced.step (h : Synced room_id s) (hsound : Sound users s) {l : Act}
    (hin : InTime room_id s l) (hnext : next users room_id s l = some s') : Synced room_id s' := by
  have hreturned := h.returned
  unfold State.cursor at hreturned
  cases l with
  | tick t => cases hnext; exact { h with }
  | stamp author content room =>
    obtain ⟨-, rfl⟩ := next_stamp hnext
    unfold State.stamp
    split
    · exact h
    · exact { h with }
  | commit k =>
    obtain ⟨d, hd, rfl⟩ := next_commit hnext
    constructor
    · intro m hm hroom
      rcases mem_stored.mp hm with hm | rfl
      · exact h.returned m hm hroom
      · -- the new message is after the cursor, and its number is new
        constructor
        · intro hold
          have hid := hsound.id _ (hsound.returned _ hold)
          exact absurd hid (Nat.not_succ_le_self _)
        · rintro ⟨t, ht, hle⟩
          exact absurd ((hin d hd hroom).1 t ht) (Nat.not_lt.mpr hle)
    · intro hupdated
      obtain ⟨t, ht, hbefore⟩ := h.updated hupdated
      refine ⟨t, ht, fun m hm hroom => ?_⟩
      rcases mem_stored.mp hm with hm | rfl
      · exact hbefore m hm hroom
      · exact (hin d hd hroom).2 hupdated t ht
  | fetch =>
    obtain ⟨hphase, rfl⟩ := next_fetch hnext
    rw [hphase] at hreturned
    exact ⟨hreturned, nofun⟩
  | update =>
    obtain ⟨last_fetch, hphase, rfl⟩ := next_update hnext
    rw [hphase] at hreturned
    exact ⟨hreturned, fun _ => ⟨s.now, rfl, fun m hm _ => hsound.now m hm⟩⟩
  | query =>
    obtain ⟨last_fetch, hphase, rfl⟩ := next_query hnext
    rw [hphase] at hreturned
    obtain ⟨t, ht, hbefore⟩ := h.updated ⟨last_fetch, hphase⟩
    refine ⟨fun m hm hroom => ?_, nofun⟩
    -- all messages have been returned now, and all are up to the new cursor
    constructor
    · exact fun _ => ⟨t, ht, hbefore m hm hroom⟩
    · intro _
      apply returned_cons.mpr
      rcases returned_or_query hm (hsound.author m hm) hroom with hold | hnew
      · exact Or.inr ((hreturned m hm hroom).mpr hold)
      · exact Or.inl hnew

/-! ## The promise -/

theorem Delivery.init (room_id now : Nat) : Delivery room_id (init now).polls where
  once := List.Pairwise.nil
  all _ _ h := absurd (suffix_nil.mp h) (cons_ne_nil _ _)

/-- A query returns what no earlier poll has returned, and nothing stays behind. -/
theorem Delivery.step (h : Delivery room_id s.polls) (hsound : Sound users s)
    (hsynced : Synced room_id s) {l : Act} (hnext : next users room_id s l = some s') :
    Delivery room_id s'.polls := by
  cases l with
  | tick t => cases hnext; exact h
  | stamp author content room =>
    obtain ⟨-, rfl⟩ := next_stamp hnext
    unfold State.stamp
    split <;> exact h
  | commit k =>
    obtain ⟨d, -, rfl⟩ := next_commit hnext
    exact h
  | fetch =>
    obtain ⟨-, rfl⟩ := next_fetch hnext
    exact h
  | update =>
    obtain ⟨_, -, rfl⟩ := next_update hnext
    exact h
  | query =>
    obtain ⟨last_fetch, hphase, rfl⟩ := next_query hnext
    have hreturned := hsynced.returned
    unfold State.cursor at hreturned
    rw [hphase] at hreturned
    constructor
    · refine List.Pairwise.cons (fun q hq m hm hq' => ?_) h.once
      obtain ⟨hstored, -, hroom, hafter⟩ := returned_query.mp hm
      obtain ⟨t, ht, hle⟩ := (hreturned m hstored hroom).mp ⟨q, hq, hq'⟩
      exact absurd (hafter t ht) (Nat.not_lt.mpr hle)
    · intro p earlier hsuffix m hm hroom
      rcases suffix_cons_iff.mp hsuffix with heq | hsuffix
      · cases heq
        apply returned_cons.mpr
        rcases returned_or_query hm (hsound.author m hm) hroom with hold | hnew
        · exact Or.inr ((hreturned m hm hroom).mpr hold)
        · exact Or.inl hnew
      · exact h.all p earlier hsuffix m hm hroom

theorem of_reachableBy (h : (chat users room_id).ReachableBy (InTime room_id) s) :
    Sound users s ∧ Synced room_id s ∧ Delivery room_id s.polls := by
  induction h with
  | init hs =>
    obtain ⟨now, rfl⟩ := hs
    exact ⟨.init users now, .init room_id now, .init room_id now⟩
  | step _ hin hnext ih =>
    obtain ⟨hsound, hsynced, hdelivery⟩ := ih
    exact ⟨hsound.step hnext, hsynced.step hsound hin hnext,
      hdelivery.step hsound hsynced hnext⟩

/-! ## A commit that is not in time -/

/-- The steps of the present poll that are left, or those of a new one. -/
def State.finish (s : State) : List Act :=
  match s.phase with
  | .idle => [.fetch, .update, .query]
  | .fetched _ => [.update, .query]
  | .updated _ => [.query]

/-- The state when that poll is answered. -/
def State.finished (users : List User) (room_id : Nat) (s : State) : State :=
  { s with
    last_update := if s.Updated then s.last_update else some s.now
    phase := .idle
    polls := ⟨s.messages, query users s.messages room_id s.cursor⟩ :: s.polls }

theorem foldlM_finish : s.finish.foldlM (next users room_id) s = some (s.finished users room_id) := by
  obtain ⟨now, messages, drafts, last_update, phase, polls⟩ := s
  have hidle : ¬ State.Updated ⟨now, messages, drafts, last_update, .idle, polls⟩ := nofun
  cases phase with
  | idle =>
    unfold State.finished
    rw [if_neg hidle]
    rfl
  | fetched last_fetch =>
    have hfetched : ¬ State.Updated ⟨now, messages, drafts, last_update, .fetched last_fetch, polls⟩ :=
      nofun
    unfold State.finished
    rw [if_neg hfetched]
    rfl
  | updated last_fetch =>
    unfold State.finished
    rw [if_pos ⟨last_fetch, rfl⟩]
    rfl

/-- A message up to the cursor that no poll has returned is not returned by the next one. -/
theorem lost {t : Nat} (hm : m ∈ s.messages) (hroom : m.room_id = room_id)
    (hnever : ¬ s.Returned m) (ht : t ∈ s.cursor) (hle : m.timestamp ≤ t) :
    ¬ Delivery room_id (s.finished users room_id).polls := by
  intro hdelivery
  have hreturned := hdelivery.all _ _ (suffix_refl _) m hm hroom
  rcases returned_cons.mp hreturned with hnew | hold
  · exact absurd ((returned_query.mp hnew).2.2.2 t ht) (Nat.not_lt.mpr hle)
  · exact hnever hold

/-- A message after the clock reading that the poll's query returns is returned again. -/
theorem duplicated (hm : m ∈ s.messages) (hauthor : ∃ u ∈ users, u.id = m.author_id)
    (hroom : m.room_id = room_id) (hafter : ∀ t ∈ s.cursor, m.timestamp > t)
    (hupdated : s.Updated) (hlate : ∀ t ∈ s.last_update, m.timestamp > t) :
    ¬ Delivery room_id ((s.finished users room_id).finished users room_id).polls := by
  intro hdelivery
  have hlast : (s.finished users room_id).cursor = s.last_update := if_pos hupdated
  have hfirst := returned_query.mpr ⟨hm, hauthor, hroom, hafter⟩
  have hagain : Poll.Returned ⟨(s.finished users room_id).messages,
      query users (s.finished users room_id).messages room_id
        (s.finished users room_id).cursor⟩ m :=
    returned_query.mpr ⟨hm, hauthor, hroom, hlast ▸ hlate⟩
  have honce := hdelivery.once
  exact rel_of_pairwise_cons honce mem_cons_self m hagain hfirst

/-- As long as every message is committed in time, the polls return every message, and none
twice; the first that is not is lost or duplicated when the session polls on. -/
theorem chat_delivers (h : (chat users room_id).ReachableBy (InTime room_id) s) :
    Delivery room_id s.polls ∧ ∀ l s', next users room_id s l = some s' → ¬ InTime room_id s l →
      ∃ (ls : List Act) (s'' : State), ls.foldlM (next users room_id) s' = some s'' ∧
        ¬ Delivery room_id s''.polls := by
  obtain ⟨hsound, hsynced, hdelivery⟩ := of_reachableBy h
  refine ⟨hdelivery, fun l s' hnext hlate => ?_⟩
  cases l with
  | tick | stamp | fetch | update | query => exact absurd trivial hlate
  | commit k =>
    have hsound' := hsound.step hnext
    obtain ⟨d, hd, hs'⟩ := next_commit hnext
    have hroom : d.room_id = room_id := by
      by_contra hroom
      refine hlate fun d' hd' hroom' => absurd ?_ hroom
      rw [some.inj (hd.symm.trans hd')]
      exact hroom'
    have hnot : ¬ s.Admits d := fun hadmits => hlate fun d' hd' _ =>
      some.inj (hd.symm.trans hd') ▸ hadmits
    -- what the commit leaves alone
    have hcursor : s'.cursor = s.cursor := by rw [hs']; rfl
    have hupdated : s'.Updated ↔ s.Updated := by rw [hs']; rfl
    have hlast : s'.last_update = s.last_update := by rw [hs']
    have hpolls : s'.polls = s.polls := by rw [hs']
    have hstored : ⟨d, s.messages.length + 1⟩ ∈ s'.messages := by
      rw [hs']
      exact mem_append_right _ (mem_singleton_self _)
    have hnever : ¬ s'.Returned ⟨d, s.messages.length + 1⟩ := by
      unfold State.Returned
      rw [hpolls]
      exact fun hold => absurd (hsound.id _ (hsound.returned _ hold)) (Nat.not_succ_le_self _)
    by_cases hafter : ∀ t ∈ s.cursor, t < d.timestamp
    · -- the poll has read the clock before the message was stamped
      have hclock : ¬ (s.Updated → ∀ t ∈ s.last_update, d.timestamp ≤ t) := fun hle =>
        hnot ⟨hafter, hle⟩
      push Not at hclock
      obtain ⟨hphase, t, ht, hlt⟩ := hclock
      refine ⟨s'.finish ++ (s'.finished users room_id).finish, _, ?_,
        duplicated hstored (hsound'.author _ hstored) hroom (hcursor ▸ hafter)
          (hupdated.mpr hphase) fun t' ht' => ?_⟩
      · rw [foldlM_append, foldlM_finish]
        exact foldlM_finish
      · rw [hlast] at ht'
        rw [mem_unique ht' ht]
        exact hlt
    · -- the session has polled after the message was stamped
      push Not at hafter
      obtain ⟨t, ht, hle⟩ := hafter
      exact ⟨s'.finish, _, foldlM_finish, lost hstored hroom hnever (hcursor ▸ ht) hle⟩

/-- A message that is stamped and committed between two polls. -/
theorem chat_delivers_one : ∃ s, (chat [⟨1, "a"⟩] 1).ReachableBy (InTime 1) s ∧
    s.polls.map (fun p => p.answer.length) = [1, 0] ∧ Delivery 1 s.polls := by
  have hmeets : TransitionSystem.runMeets (next [⟨1, "a"⟩] 1) (fun s l => decide (InTime 1 s l))
      (fun s => decide (s.polls.map (fun p => p.answer.length) = [1, 0]))
      [.fetch, .update, .query, .tick 1, .stamp ⟨1, "a"⟩ "hi" 1, .commit 0, .tick 1,
        .fetch, .update, .query]
      (init 0) = true := by decide +kernel
  obtain ⟨s, hs, hlengths⟩ := TransitionSystem.exists_of_runMeets (S := chat [⟨1, "a"⟩] 1)
    (fun _ _ _ h => h) (fun _ _ h => of_decide_eq_true h) (.init ⟨0, rfl⟩) hmeets
  exact ⟨s, hs, of_decide_eq_true hlengths, (chat_delivers hs).1⟩

/-- A message stamped and committed between the clock reading of a poll and its query is
returned by that poll and by the next. A message that is stamped before a poll and committed
after it is returned by no poll. -/
theorem not_chat_delivers :
    (∃ s m, (chat [⟨1, "a"⟩] 1).Reachable s ∧ s.polls = [⟨[m], [⟨m, "a"⟩]⟩, ⟨[m], [⟨m, "a"⟩]⟩] ∧
      ¬ Delivery 1 s.polls) ∧
    ∃ s m, (chat [⟨1, "a"⟩] 1).Reachable s ∧ s.polls = [⟨[m], []⟩, ⟨[], []⟩] ∧
      ¬ Delivery 1 s.polls := by
  constructor
  · let m : Message := ⟨⟨"hi", 1, 1, 1⟩, 1⟩
    have hmeets : TransitionSystem.runMeets (next [⟨1, "a"⟩] 1) (fun _ _ => true)
        (fun s => decide (s.polls = [⟨[m], [⟨m, "a"⟩]⟩, ⟨[m], [⟨m, "a"⟩]⟩]))
        [.fetch, .update, .tick 1, .stamp ⟨1, "a"⟩ "hi" 1, .commit 0, .query,
          .fetch, .update, .query]
        (init 0) = true := by decide +kernel
    obtain ⟨s, hs, hpolls⟩ := TransitionSystem.exists_of_runMeets (S := chat [⟨1, "a"⟩] 1)
      (fun _ _ _ h => h) (fun _ _ _ => trivial) (.init ⟨0, rfl⟩) hmeets
    have hpolls := of_decide_eq_true hpolls
    refine ⟨s, m, hs, hpolls, fun hdelivery => ?_⟩
    have honce := hdelivery.once
    rw [hpolls] at honce
    have hrow : Poll.Returned ⟨[m], [⟨m, "a"⟩]⟩ m := ⟨_, mem_singleton_self _, rfl⟩
    exact rel_of_pairwise_cons honce (mem_singleton_self _) m hrow hrow
  · let m : Message := ⟨⟨"hi", 0, 1, 1⟩, 1⟩
    have hmeets : TransitionSystem.runMeets (next [⟨1, "a"⟩] 1) (fun _ _ => true)
        (fun s => decide (s.polls = [⟨[m], []⟩, ⟨[], []⟩]))
        [.stamp ⟨1, "a"⟩ "hi" 1, .fetch, .update, .query, .commit 0, .fetch, .update, .query]
        (init 0) = true := by decide +kernel
    obtain ⟨s, hs, hpolls⟩ := TransitionSystem.exists_of_runMeets (S := chat [⟨1, "a"⟩] 1)
      (fun _ _ _ h => h) (fun _ _ _ => trivial) (.init ⟨0, rfl⟩) hmeets
    have hpolls := of_decide_eq_true hpolls
    refine ⟨s, m, hs, hpolls, fun hdelivery => ?_⟩
    have hall := hdelivery.all
    rw [hpolls] at hall
    obtain ⟨q, hq, row, hrow, -⟩ := hall _ _ (suffix_refl _) m (mem_singleton_self m) rfl
    rcases mem_pair.mp hq with rfl | rfl <;> cases hrow

end PittCs.Cs1520.Chat
