import PittCs.Ncp.Occurrences

/-!
# Null pointers on the data path

`fp`, `list` and `buf` are set by INIT and by the change to the next connection, and
cleared by FIN and by the end of the last connection, but data packets are taken at
any time. The exact condition under which none of the three is used while it is
NULL speaks of the connections: whether one is current, and whether there ever was
one.
-/

namespace PittCs.Ncp

open PittCs.Lib TransitionSystem Option

/-- The receiver, with a record of whether it has had a connection. -/
structure Session where
  rcv : Rcv
  served : Bool

namespace Session

def start (memory : Upkt) : Session := ⟨Rcv.start memory, false⟩

def next (env : Env) (t : Session) (o : Occurrence) : Option Session :=
  (t.rcv.occur env o).map fun r => ⟨r.1, t.served || r.1.currConn.isSome⟩

end Session

/-- No null pointer is used for `fp`, `list` or `buf`: by a data packet, by the message
that an active connection is sent after a while, and when a connection is closed. INIT
and FIN check them. -/
def NullFree (env : Env) (t : Session) (o : Occurrence) : Prop :=
  match o.event with
  | .packet _ pkt timeUp =>
    pkt.init = true ∨ pkt.fin = true ∨
      ((t.rcv.arrived pkt).wake.tryOpen o.opens).dataDefined env timeUp
  | .timeout => ∀ curr ∈ t.rcv.currConn, curr.connState = .active → t.rcv.allocated
  | .alarm => t.rcv.alarm → t.rcv.allocated

instance (env : Env) (t : Session) : (o : Occurrence) → Decidable (NullFree env t o)
  | ⟨.packet _ pkt timeUp, opens⟩ =>
    inferInstanceAs (Decidable (pkt.init = true ∨ pkt.fin = true ∨
      ((t.rcv.arrived pkt).wake.tryOpen opens).dataDefined env timeUp))
  | ⟨.timeout, _⟩ => inferInstanceAs (Decidable
      (∀ curr ∈ t.rcv.currConn, curr.connState = .active → t.rcv.allocated))
  | ⟨.alarm, _⟩ => inferInstanceAs (Decidable (t.rcv.alarm → t.rcv.allocated))

/-- What a data packet may be. During a connection only the next packet matters, which
needs its file. Before the first connection it must not be the next one. After the last
one it must be old, and no message be due. -/
def Expected (env : Env) (t : Session) (o : Occurrence) : Prop :=
  match o.event with
  | .packet _ pkt timeUp =>
    let r := t.rcv.transfer
    pkt.init = true ∨ pkt.fin = true ∨
      if t.rcv.currConn.isSome then
        r.startOfWindow + 1 = pkt.body.seq → t.rcv.fp = true ∨ o.opens = true
      else if t.served then
        pkt.body.seq ≤ r.startOfWindow ∧ r.writtenSinceLastMessage < env.windowSize / 2 ∧
          timeUp = false
      else r.startOfWindow + 1 ≠ pkt.body.seq
  | .timeout => True
  | .alarm => True

/-- Where the three pointers are, told by the connections. -/
structure Session.Inv (t : Session) : Prop where
  current : t.rcv.currConn.isSome → t.rcv.allocated = true ∧ t.served = true
  unserved : t.served = false → t.rcv.allocated = true ∧ t.rcv.fp = false
  ended : t.served = true → t.rcv.currConn = none → t.rcv.allocated = false
  alarm : t.rcv.alarm = true → t.rcv.currConn.isSome

namespace Session.Inv

variable {env : Env} {t t' : Session} {o : Occurrence}

theorem start (memory : Upkt) : (Session.start memory).Inv where
  current h := absurd h Bool.false_ne_true
  unserved _ := ⟨rfl, rfl⟩
  ended h := absurd h Bool.false_ne_true
  alarm h := absurd h Bool.false_ne_true

/-- With a connection all that is to be shown is that its memory is there. -/
theorem of_isSome {s : Rcv} (hcurr : s.currConn.isSome) (hallocated : s.allocated = true)
    (served : Bool) : Session.Inv ⟨s, served || s.currConn.isSome⟩ := by
  have hserved : (served || s.currConn.isSome) = true := by
    rw [hcurr, Bool.or_true]
  constructor
  case current => exact fun _ => ⟨hallocated, hserved⟩
  case unserved => exact fun h => absurd (h.symm.trans hserved) Bool.false_ne_true
  case ended =>
    intro _ hnone
    rw [hnone] at hcurr
    cases hcurr
  case alarm => exact fun _ => hcurr

theorem next (h : t.Inv) (hnext : t.next env o = some t') : t'.Inv := by
  unfold Session.next at hnext
  rcases map_eq_some_iff.mp hnext with ⟨⟨s', out⟩, hoccur, rfl⟩
  rcases o with ⟨e, opens⟩
  dsimp only
  have heffect : t.rcv.Effect s' e := Rcv.effect_of_occur hoccur
  cases heffect with
  | serve hinit hidle hcurr hqueue hallocated halarm =>
    exact of_isSome (by rw [← Rcv.isSome_currClient, hcurr]; rfl) hallocated t.served
  | wait hinit hnew hbusy hcurr hqueue hallocated halarm =>
    refine of_isSome (hcurr ▸ hbusy) ?_ t.served
    rw [hallocated]
    exact (h.current hbusy).1
  | keep hknown he hkeeps =>
    have hsame := Rcv.isSome_currConn hkeeps.currClient
    by_cases hbusy : t.rcv.currConn.isSome
    · refine of_isSome (hsame ▸ hbusy) ?_ t.served
      rw [hkeeps.allocated]
      exact (h.current hbusy).1
    · -- still no connection, so neither a file nor an alarm
      have hidle : s'.currConn.isSome = false := by
        rw [hsame]
        exact Bool.eq_false_iff.mpr hbusy
      rw [hidle, Bool.or_false]
      constructor
      case current => exact fun hsome => absurd hsome (Bool.eq_false_iff.mp hidle)
      case unserved =>
        intro hserved
        refine ⟨hkeeps.allocated.trans (h.unserved hserved).1, Bool.eq_false_iff.mpr ?_⟩
        intro hfp
        rcases hkeeps.fp hfp with hfp | hsome
        · exact absurd ((h.unserved hserved).2.symm.trans hfp) Bool.false_ne_true
        · exact hbusy hsome
      case ended =>
        intro hserved _
        exact hkeeps.allocated.trans (h.ended hserved (not_isSome_iff_eq_none.mp hbusy))
      case alarm =>
        intro halarm
        rcases hkeeps.alarm halarm with halarm | hsome
        · exact absurd (h.alarm halarm) hbusy
        · exact absurd hsome hbusy
  | close halarm ht =>
    have hserved := (h.current (h.alarm halarm)).2
    subst ht
    cases hq : t.rcv.connQueue with
    | nil =>
      rcases Rcv.closeConn_nil hq with ⟨hcurr, -, halloc, hset⟩
      have hserved' : (t.served || t.rcv.closeConn.currConn.isSome) = true := by
        rw [hserved, Bool.true_or]
      constructor
      case current =>
        intro hsome
        dsimp only at hsome
        rw [hcurr] at hsome
        cases hsome
      case unserved => exact fun hfalse => absurd (hfalse.symm.trans hserved') Bool.false_ne_true
      case ended => exact fun _ _ => halloc
      case alarm => exact fun htrue => absurd (hset.symm.trans htrue) Bool.false_ne_true
    | cons conn rest =>
      rcases Rcv.closeConn_cons hq with ⟨hcurr, -, halloc, -⟩
      exact of_isSome (by rw [hcurr]; rfl) halloc t.served

/-- Opening the file during a connection leaves `fp` NULL only if there is no file. -/
theorem fp_tryOpen (s : Rcv) (opens : Bool) :
    (s.tryOpen opens).fp = true ↔ s.fp = true ∨ s.currConn.isSome ∧ opens = true := by
  cases opens with
  | false => simp [Rcv.tryOpen]
  | true =>
    unfold Rcv.tryOpen Rcv.openFile
    rw [if_pos rfl]
    by_cases hopen : s.currConn.isSome ∧ ¬ s.fp = true
    · rw [if_pos hopen]
      simp [hopen.1]
    · rw [if_neg hopen]
      simp only [not_and, not_not] at hopen
      simp only [and_true]
      exact ⟨Or.inl, fun h => h.elim id hopen⟩

theorem transfer_tryOpen (s : Rcv) (opens : Bool) :
    (s.tryOpen opens).transfer.pkt = s.transfer.pkt ∧
      (s.tryOpen opens).transfer.startOfWindow = s.transfer.startOfWindow ∧
      (s.tryOpen opens).transfer.writtenSinceLastMessage = s.transfer.writtenSinceLastMessage := by
  cases opens with
  | false => exact ⟨rfl, rfl, rfl⟩
  | true =>
    show s.openFile.transfer.pkt = _ ∧ s.openFile.transfer.startOfWindow = _ ∧
      s.openFile.transfer.writtenSinceLastMessage = _
    unfold Rcv.openFile
    split
    · exact ⟨rfl, rfl, rfl⟩
    · exact ⟨rfl, rfl, rfl⟩

/-- What a data packet uses, in the state it finds. -/
theorem dataDefined_tryOpen (env : Env) (s : Rcv) (pkt : Packet) (opens timeUp : Bool) :
    ((s.arrived pkt).wake.tryOpen opens).dataDefined env timeUp ↔
      if pkt.body.seq ≤ s.transfer.startOfWindow then
        s.transfer.writtenSinceLastMessage ≥ env.windowSize / 2 ∨ timeUp = true →
          s.allocated = true
      else if s.transfer.startOfWindow + 1 = pkt.body.seq then
        s.allocated = true ∧ (s.fp = true ∨ s.currConn.isSome ∧ opens = true)
      else s.allocated = true := by
  have hkeeps := (Rcv.Keeps.wake (s.arrived pkt)).trans (Rcv.Keeps.tryOpen _ opens)
  have hcurr : (s.arrived pkt).wake.currConn.isSome = s.currConn.isSome :=
    Rcv.isSome_currConn (Rcv.Keeps.wake (s.arrived pkt)).currClient
  have halloc : ((s.arrived pkt).wake.tryOpen opens).allocated = s.allocated := hkeeps.allocated
  rcases transfer_tryOpen (s.arrived pkt).wake opens with ⟨hpkt, hstart, hwritten⟩
  unfold Rcv.dataDefined
  rw [fp_tryOpen, hpkt, hstart, hwritten, halloc, hcurr]
  rfl

/-- The exact condition of one event. -/
theorem nullFree_iff (h : t.Inv) (o : Occurrence) : NullFree env t o ↔ Expected env t o := by
  rcases o with ⟨e, opens⟩
  cases e with
  | timeout =>
    unfold NullFree Expected
    simp only [iff_true]
    intro curr hcurr _
    refine (h.current ?_).1
    rw [mem_def.mp hcurr]
    rfl
  | alarm =>
    unfold NullFree Expected
    simp only [iff_true]
    exact fun halarm => (h.current (h.alarm halarm)).1
  | packet client pkt timeUp =>
    unfold NullFree Expected
    dsimp only
    apply or_congr_right
    apply or_congr_right
    rw [dataDefined_tryOpen]
    by_cases hbusy : t.rcv.currConn.isSome
    · -- the memory is there, so it is about the file
      rw [if_pos hbusy]
      have halloc := (h.current hbusy).1
      by_cases hold : pkt.body.seq ≤ t.rcv.transfer.startOfWindow
      · rw [if_pos hold]
        exact ⟨fun _ heq => absurd heq (by omega), fun _ _ => halloc⟩
      rw [if_neg hold]
      by_cases hnext : t.rcv.transfer.startOfWindow + 1 = pkt.body.seq
      · rw [if_pos hnext]
        constructor
        · rintro ⟨-, hfp⟩ -
          exact hfp.imp_right And.right
        · exact fun hfp => ⟨halloc, (hfp hnext).imp_right fun hopens => ⟨hbusy, hopens⟩⟩
      · rw [if_neg hnext]
        exact ⟨fun _ heq => absurd heq hnext, fun _ => halloc⟩
    · rw [if_neg hbusy]
      have hidle := not_isSome_iff_eq_none.mp hbusy
      by_cases hserved : t.served = true
      · -- the memory is gone
        rw [if_pos hserved]
        have halloc := h.ended hserved hidle
        have hnull : t.rcv.allocated ≠ true := by
          rw [halloc]
          exact Bool.false_ne_true
        by_cases hold : pkt.body.seq ≤ t.rcv.transfer.startOfWindow
        · rw [if_pos hold]
          constructor
          · intro hdue
            have hquiet := mt hdue hnull
            rw [not_or, not_le] at hquiet
            exact ⟨hold, hquiet.1, Bool.eq_false_iff.mpr hquiet.2⟩
          · rintro ⟨-, hfew, htime⟩ (hmany | htrue)
            · exact absurd hmany (not_le.mpr hfew)
            · exact absurd (htime.symm.trans htrue) Bool.false_ne_true
        rw [if_neg hold]
        constructor
        · intro huse
          refine absurd ?_ hnull
          split at huse
          · exact huse.1
          · exact huse
        · exact fun hexp => absurd hexp.1 hold
      · rw [if_neg hserved]
        -- the memory is there from the start, but no file
        rcases h.unserved (Bool.eq_false_iff.mpr hserved) with ⟨halloc, hfp⟩
        by_cases hold : pkt.body.seq ≤ t.rcv.transfer.startOfWindow
        · rw [if_pos hold]
          exact ⟨fun _ heq => absurd heq (by omega), fun _ _ => halloc⟩
        rw [if_neg hold]
        by_cases hnext : t.rcv.transfer.startOfWindow + 1 = pkt.body.seq
        · rw [if_pos hnext]
          constructor
          · rintro ⟨-, hopen | ⟨hsome, -⟩⟩
            · exact absurd (hfp.symm.trans hopen) Bool.false_ne_true
            · exact absurd hsome hbusy
          · exact fun hne => absurd hnext hne
        · rw [if_neg hnext]
          exact ⟨fun _ => hnext, fun _ => halloc⟩

end Session.Inv

/-- In every run no null `fp`, `list` or `buf` is used exactly when every data packet is
one that may come where it comes. -/
theorem null_free_iff (env : Env) (memory : Upkt) (os : List Occurrence) :
    AlongRun (Session.next env) (NullFree env) (Session.start memory) os ↔
      AlongRun (Session.next env) (Expected env) (Session.start memory) os := by
  apply alongRun_iff Session.Inv
  · exact fun t o t' hinv hnext => hinv.next hnext
  · exact fun t o hinv => hinv.nullFree_iff o
  · exact Session.Inv.start memory

/-- The first packet of a client whose INIT was lost or has not come yet is written to
no file. A packet that is delayed until the connection is closed finds no buffer. -/
theorem not_null_free :
    ¬ AlongRun (Session.next .wan) (NullFree .wan) (Session.start ⟨0, 0, []⟩)
        [⟨.packet clientA (dataPkt 0 97) false, true⟩] ∧
      ¬ AlongRun (Session.next .wan) (NullFree .wan) (Session.start ⟨0, 0, []⟩)
        [⟨.packet clientA initPkt false, true⟩, ⟨.packet clientA (dataPkt 0 97) false, true⟩,
          ⟨.packet clientA finPkt false, true⟩, ⟨.alarm, true⟩,
          ⟨.packet clientA (dataPkt 1 98) false, true⟩] := by
  decide

end PittCs.Ncp
