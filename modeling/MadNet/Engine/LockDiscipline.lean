import MadNet.Engine.Admin

/-!
# The lock of a validator

Once a validator has precommitted a block below the dead block round, it proposes, prevotes and
precommits nothing else at that height until it enters the dead block round or copies a
`NextHeight`. What carries the proof is that the node is in one of three situations: its lock is for
the block and so is its prevote of the round; it has a `NextHeight` and votes no more; or it has
precommitted in the dead block round and votes no more.
-/

namespace MadNet

open Prog RoundState List Constants Engine

/-- The block that the node proposes, prevotes or precommits. -/
def Broadcast.votedBlock : Broadcast → Option BClaims
  | proposal v => some v.bClaims
  | preVote v => some v.bClaims
  | preCommit v => some v.bClaims
  | _ => none

def Broadcast.isCopiedNextHeight : Broadcast → Bool
  | nextHeightFromNextHeight _ => true
  | _ => false

variable {ce : Engine} {env : Env} {db db' : Db} {e : Event} {x y : BClaims} {height : UInt32}

theorem Builds.uncommitted {s : Txn} {b : Broadcast} (h : Builds ce s b)
    (hy : b.votedBlock = some y) : s.Uncommitted := by
  cases h with
  | proposalFromValue h | newProposal h | preVote h | preVoteEmptyBlock h => exact h.toUncommitted
  | preCommit h => exact h
  | _ => cases hy

/-- Why the node votes for nothing but `x` at `height`. -/
inductive Bound (x : BClaims) (height : UInt32) (db : Db) : Prop where
  | locked {p} : db.own.rCert.round ≠ Constants.deadBlockRound →
      p ∈ db.ownValidatingState.lockedValue → p.rCert.height = height → p.bClaims = x →
      (∀ c, .preVote c ∈ signedIn db.broadcasts → c.rCert.hr = db.own.rCert.hr → c.bClaims = x) →
      Bound x height db
  | nextHeight : db.own.rCert.round ≠ Constants.deadBlockRound → db.own.nextHeight.isSome →
    Bound x height db
  | preCommit {c} : db.own.rCert.round = Constants.deadBlockRound →
      .preCommit c ∈ signedIn db.broadcasts → c.rCert.hr = db.own.rCert.hr → Bound x height db

structure Locked (x : BClaims) (height : UInt32) (db : Db) : Prop where
  sound : db.Sound
  own_height : db.own.rCert.height = height
  bound : Bound x height db

/-- The event neither ends the height, nor enters the dead block round, nor copies a `NextHeight`.
-/
structure Engine.Stays (ce : Engine) (height : UInt32) (db : Db) (e : Event) : Prop where
  height : (ce.next db e).own.rCert.height = height
  round : (ce.next db e).own.rCert.round = Constants.deadBlockRound →
    db.own.rCert.round = Constants.deadBlockRound
  copy : ∀ b ∈ ce.casts db e, ¬b.isCopiedNextHeight

instance : Decidable (ce.Stays height db e) :=
  decidable_of_iff ((ce.next db e).own.rCert.height = height ∧
    ((ce.next db e).own.rCert.round = Constants.deadBlockRound →
      db.own.rCert.round = Constants.deadBlockRound) ∧ ∀ b ∈ ce.casts db e, ¬b.isCopiedNextHeight)
    ⟨fun ⟨h1, h2, h3⟩ => ⟨h1, h2, h3⟩, fun ⟨h1, h2, h3⟩ => ⟨h1, h2, h3⟩⟩

namespace Locked

theorem block_of_builds {rs : RoundStates} {s s1 : Txn} {b : Broadcast} {v : Vote}
    {own : RoundState}
    (h : Locked x height db) (hst : Engine.Stepped ce env db db' rs s)
    (hP : Prep ce { db, rs } s1) (hb : Builds ce { db, rs } b) (hv : b.vote? = some v)
    (hset : RoundState.set ce.crypto v s1.own = .ok true own) (hy : b.votedBlock = some y) :
    y = x := by
  have hun := hb.uncommitted hy
  have hnh := hun.nextHeight
  have hpc := hun.preCommit
  rw [hst.own₀] at hnh hpc
  cases h.bound with
  | nextHeight hround hsome => exact absurd (h.sound.votes.nhCurrent hround hsome) hnh
  | @preCommit c hround hc hhr =>
    obtain ⟨w, hw, hsig⟩ := h.sound.votes.recorded (.preCommit ⟨⟨c, [], []⟩, [], []⟩) hc
      (by simp [Vote.kind]) (by simp [Vote.kind]) hhr
    obtain ⟨pc, hpc', rfl⟩ := Option.map_eq_some_iff.mp hw
    refine absurd (pcCurrent_iff.mpr ⟨pc, hpc', ?_⟩) hpc
    have hrc : pc.rCert = c.rCert := Vote.rCert_of_sigMsg hsig
    rw [hrc, hhr]
  | @locked p hround hp hheight hx hpv =>
    obtain ⟨_, -, -, hload⟩ := hst.load
    have hlock : rs.lockedValue = some p := by
      rw [RoundStates.lockedValue, hload.ownValidatingState]
      exact hp
    have hcur : rs.lockedValueCurrent := by
      have hrc : rs.rCert = db.own.rCert := congrArg RoundState.rCert hst.own₀
      simp [RoundStates.lockedValueCurrent, hlock, hrc, h.own_height, hheight]
    cases hb with
    | proposalFromValue _ _ _ hvalue hclaims =>
      obtain rfl := Option.some_inj.mp (hlock.symm.trans (hvalue hcur))
      cases hy
      rw [← hx, Proposal.bClaims, hclaims]
    | newProposal _ _ _ hnot => exact absurd hcur hnot
    | preVote _ _ _ hl hpv =>
      cases hy
      rw [← hx, hl hcur p hlock, PreVote.bClaims, hpv]
    | preVoteEmptyBlock _ hdbr =>
      rw [hst.own₀] at hdbr
      exact absurd hdbr hround
    | @preCommit pc _ h1 hpvcur h3 h4 h5 h6 =>
      cases hy
      cases hv
      -- the own prevote of the round is for the block, and the own round state has compared with it
      rw [hst.own₀] at hpvcur
      obtain ⟨pv, hpv', hhr⟩ := pvCurrent_iff.mp hpvcur
      have hpvx := hpv pv.proposal.pClaims (h.sound.votes.made .preVote (.preVote pv)
        (by simp [slot, hpv'])) hhr.symm
      have hown : s1.own = db.own := by
        rw [hP.kept.own_below_dbr (by rw [hst.own₀]; exact hround), hst.own₀]
      have hbuilds : Builds ce _ _ := .preCommit h1 (by rw [hst.own₀]; exact hpvcur) h3 h4 h5 h6
      have hcurrent := hbuilds.current rfl (by rw [hst.own₀, hst.ownState₀]; exact h.sound.height)
      have hagrees := (took_of_set (current_of_rCert hP.kept.rCert hcurrent) hset).agrees
      obtain ⟨nh, cnh, heq, -⟩ := resetNHForDBR_eq s1.own (.preCommit pc)
      rw [heq, hown] at hagrees
      refine (((agreesWithStored_iff.mp hagrees).2.1 pc.bClaims rfl).1 pv.bClaims ?_).trans hpvx
      simp [roundBClaims, hpv']
    | _ => cases hy

/-- Within a height and below the dead block round, a step leaves a lock for the block or a
`NextHeight`. -/
theorem lock_of_stepped {rs : RoundStates} {s : Txn} (h : Locked x height db)
    (hst : Engine.Stepped ce env db db' rs s) (hround : db.own.rCert.round ≠ deadBlockRound)
    (hlock : ∃ p ∈ db.ownValidatingState.lockedValue, p.rCert.height = height ∧ p.bClaims = x)
    (hheight : db'.own.rCert.height = db.own.rCert.height) :
    (∃ p ∈ db'.ownValidatingState.lockedValue, p.rCert.height = height ∧ p.bClaims = x) ∨
      db'.own.nextHeight.isSome := by
  obtain ⟨⟨pvn, pcn, hown⟩, -⟩ := hst.own h.sound.keyed
  obtain ⟨_, -, -, hload⟩ := hst.load
  have hround0 : (Txn.own { db, rs }).rCert.round ≠ deadBlockRound := by rwa [hst.own₀]
  have hheight0 : s.own.rCert.height = (Txn.own { db, rs }).rCert.height := by
    rw [hst.own₀, ← hheight, hown]
  have hvalue : db'.ownValidatingState.lockedValue = s.rs.lockedValue := by
    rw [hst.written]
    rfl
  rw [hvalue, hown]
  have hkept {s1 : Txn} (hP : Prep ce { db, rs } s1) :
      ∃ p ∈ s1.rs.lockedValue, p.rCert.height = height ∧ p.bClaims = x := by
    rw [hP.kept.lockedValue hround0, RoundStates.lockedValue, hload.ownValidatingState]
    exact hlock
  have hcommit {s1 : Txn} {bh : BlockHeader} (hbh : Commits ce env { db, rs } bh) :
      (s1.commit ce bh).own.rCert.height ≠ (Txn.own { db, rs }).rCert.height := by
    rw [Txn.own_commit, setReset_rCert]
    exact hbh.height_ne
  cases hst.outcome with
  | idle hP => exact .inl (hkept hP)
  | @cast s1 b v own hP _ hb hv hset =>
    have hcur := hb.current hv (by rw [hst.own₀, hst.ownState₀]; exact h.sound.height)
    cases v with
    | preCommit pc =>
      refine .inl ⟨pc.proposal, rfl, ?_, h.block_of_builds hst hP hb hv hset ?_⟩
      · rw [← h.own_height, ← hst.own₀]
        exact (Current.height hcur).symm
      · cases b with
        | preCommit =>
          obtain rfl := Vote.preCommit.inj (Option.some_inj.mp hv)
          rfl
        | _ => cases hv
    | nextHeight nh =>
      have htook := took_of_set (current_of_rCert hP.kept.rCert hcur) hset
      refine .inr ?_
      rw [Txn.own_lock, Txn.own_setOwn, htook.eq]
      rfl
    | _ => exact .inl (hkept hP :)
  | roundJump hP _ | nextRoundRCert hP _ => exact .inl (hkept hP :)
  | commit hP hbh | commitAndClear hP hbh => exact absurd hheight0 (hcommit hbh)

theorem votedBlock_eq {b : Broadcast} (h : Locked x height db) (hb : b ∈ ce.casts db e)
    (hy : b.votedBlock = some y) : y = x := by
  obtain ⟨v, hv⟩ : ∃ v, b.vote? = some v := by
    cases b <;> first | exact ⟨_, rfl⟩ | cases hy
  obtain ⟨env, rs, s, -, hst, -, hbuild, ⟨nh, rfl, -⟩ | ⟨s1, own, hP, hset, -⟩⟩ :=
    cast_cases h.sound hb hv
  · cases hy
  · exact h.block_of_builds hst hP hbuild hv hset hy

/-- A locked node stays locked until it leaves the round or the height by one of the named ways. -/
theorem next (h : Locked x height db) (hauth : e.Authentic db) (hstay : ce.Stays height db e) :
    Locked x height (ce.next db e) := by
  refine ⟨sound_next h.sound hauth, hstay.height, ?_⟩
  have hheight : (ce.next db e).own.rCert.height = db.own.rCert.height := by
    rw [hstay.height, h.own_height]
  cases hbound : h.bound with
  | nextHeight hround hsome =>
    obtain ⟨nh, hnh⟩ := Option.isSome_iff_exists.mp hsome
    have hround' := mt hstay.round hround
    have := nextHeight_next h.sound hauth hround hnh hheight hround'
    exact .nextHeight hround' (Option.isSome_of_mem this)
  | @preCommit c hround hc hhr =>
    have hrc : (ce.next db e).own.rCert.hr = db.own.rCert.hr := by
      have hmove : (ce.next db e).own.rCert = _ ∨ _ := rCert_next h.sound hauth
      rcases hmove with hrc | ⟨hlt, hle⟩
      · rw [hrc]
      · rcases RCert.hr_lt_iff.mp hlt with hlt | ⟨-, hlt⟩
        · exact absurd hheight.symm (UInt32.ne_of_lt hlt)
        · rw [hround] at hlt
          exact absurd (hle hheight) (UInt32.not_le.mpr hlt)
    refine .preCommit (c := c) ?_ ?_ (by rw [hrc, hhr])
    · rw [(RCert.hr_eq_iff.mp hrc).2, hround]
    · rw [broadcasts_next h.sound, signedIn, flatMap_append]
      exact mem_append_right _ hc
  | @locked p hround hp hph hx hpv =>
    have hround' := mt hstay.round hround
    have hpv' (c : PClaims) (hc : .preVote c ∈ signedIn (ce.next db e).broadcasts)
        (hhr : c.rCert.hr = (ce.next db e).own.rCert.hr) : c.bClaims = x := by
      rcases mem_signedIn_next h.sound hc with hc | ⟨b, hb, hc⟩
      · have hmove : (ce.next db e).own.rCert = _ ∨ _ := rCert_next h.sound hauth
        rcases hmove with hrc | ⟨hlt, -⟩
        · exact hpv c hc (by rw [hhr, hrc])
        · -- what was signed before is not of a later round
          refine absurd ?_ (h.sound.votes.bound (.preVote ⟨⟨c, [], []⟩, []⟩) hc)
          rw [← hhr] at hlt
          exact hlt
      · cases b with
        | preVote pv =>
          obtain rfl : c = pv.proposal.pClaims := by
            rcases mem_cons.mp hc with hc | hc
            · exact SigMsg.preVote.inj hc
            · split at hc <;> simp at hc
          exact h.votedBlock_eq hb rfl
        | _ => simp [Broadcast.signed, Broadcast.vote?, Vote.sigMsg] at hc
    suffices hlock : (∃ p ∈ (ce.next db e).ownValidatingState.lockedValue,
        p.rCert.height = height ∧ p.bClaims = x) ∨ (ce.next db e).own.nextHeight.isSome by
      rcases hlock with ⟨p, hp, hph, hx⟩ | hnh
      · exact .locked hround' hp hph hx hpv'
      · exact .nextHeight hround' hnh
    have hsame : ∃ p ∈ db.ownValidatingState.lockedValue, p.rCert.height = height ∧ p.bClaims = x :=
      ⟨p, hp, hph, hx⟩
    rcases next_cases ce e h.sound with heq | ⟨m, -, hst⟩ | ⟨env, rs, s, -, hst⟩
    · rw [heq]
      exact .inl hsame
    · rw [hst.rest]
      exact .inl hsame
    · exact h.lock_of_stepped hst hround hsame hheight

/-- The precommit that starts the lock. -/
theorem of_preCommit {pc : PreCommit} (h : db.Sound) (hauth : e.Authentic db)
    (hpc : .preCommit pc ∈ ce.casts db e) :
    Locked pc.bClaims pc.rCert.height (ce.next db e) := by
  have hsound : (ce.next db e).Sound := sound_next h hauth
  obtain ⟨env, rs, s, -, hst, -, hbuild, ⟨_, hnh, -⟩ | ⟨s1, own, hP, hset, rfl⟩⟩ :=
    cast_cases h hpc rfl
  · cases hnh
  have hcur := current_of_rCert hP.kept.rCert
    (hbuild.current rfl (by rw [hst.own₀, hst.ownState₀]; exact h.height))
  have htook := took_of_set hcur hset
  obtain ⟨⟨pvn, pcn, hown⟩, -⟩ := hst.own h.keyed
  have hown' : (ce.next db e).own =
      { (s1.own.resetNHForDBR (.preCommit pc)).setVote (.preCommit pc) with
        implicitPVN := pvn, implicitPCN := pcn } := by
    rw [hown, Txn.own_lock, Txn.own_setOwn, htook.eq]
  have hrc : (ce.next db e).own.rCert = s1.own.rCert := by
    rw [hown']
    exact setVote_rCert.trans resetNHForDBR_rCert
  have hhr : (ce.next db e).own.rCert.hr = pc.rCert.hr := by
    rw [hrc]
    exact RCert.hr_eq_iff.mpr hcur
  have hsigned : .preCommit pc.proposal.pClaims ∈ signedIn (ce.next db e).broadcasts := by
    rw [broadcasts_next h, signedIn, flatMap_append, mem_append, mem_flatMap]
    exact .inl ⟨_, hpc, mem_singleton.mpr rfl⟩
  refine ⟨hsound, (RCert.hr_eq_iff.mp hhr).1, ?_⟩
  by_cases hround : (ce.next db e).own.rCert.round = deadBlockRound
  · exact .preCommit hround hsigned hhr.symm
  · refine .locked (p := pc.proposal) hround ?_ rfl rfl fun c hc hchr => ?_
    · rw [hst.written]
      rfl
    · -- the prevote of the round is held, and the own round state is for one block
      obtain ⟨w, hw, hsig⟩ := hsound.votes.recorded (.preVote ⟨⟨c, [], []⟩, []⟩) hc
        (by simp [Vote.kind]) (by simp [Vote.kind]) hchr
      obtain ⟨pv, hpv, rfl⟩ := Option.map_eq_some_iff.mp hw
      have hc' : pv.proposal.pClaims = c := SigMsg.preVote.inj hsig
      rw [← hc']
      refine hsound.votes.inv.roundBClaims pv.bClaims ?_ pc.bClaims ?_
      · simp [roundBClaims, hpv]
      · rw [hown']
        simp [roundBClaims, setVote]

end Locked

/-- A validator that has precommitted a block proposes, prevotes and precommits only that block
until it leaves the height, enters the dead block round or copies a `NextHeight`. -/
theorem Engine.votedBlock_of_locked (ce : Engine) (db₀ : Db) (es₁ es₂ : List Event) (e : Event)
    (pc : PreCommit) (hfresh : db₀.Fresh)
    (hauth : Run.Along (fun db e => e.Authentic db) ce.next db₀ (es₁ ++ e :: es₂))
    (hpc : .preCommit pc ∈ ce.casts (Run.exec ce.next db₀ es₁) e)
    (hstay : Run.Along (ce.Stays pc.rCert.height) ce.next (Run.exec ce.next db₀ (es₁ ++ [e])) es₂) :
    Run.Along (fun db e => ∀ b ∈ ce.casts db e, ∀ x ∈ b.votedBlock, x = pc.bClaims) ce.next
      (Run.exec ce.next db₀ (es₁ ++ [e])) es₂ := by
  obtain ⟨hauth₁, hauthe, hauth₂⟩ := Run.along_append.mp hauth
  have hsound := Run.invariant Db.Sound (fun _ _ h he => sound_next h he) hfresh.sound hauth₁
  rw [Run.exec_append] at hstay ⊢
  have hlock : Locked pc.bClaims pc.rCert.height (ce.next (Run.exec ce.next db₀ es₁) e) :=
    .of_preCommit hsound hauthe hpc
  have halong := Run.along_and.mpr ⟨hauth₂, hstay⟩
  exact Run.along_of_invariant (Locked pc.bClaims pc.rCert.height)
    (fun _ _ h he => h.next he.1 he.2) (fun _ _ h _ _ hb _ hx => h.votedBlock_eq hb hx) hlock halong

open Four in
/-- A validator precommits a block in round 1, and prevotes it again in round 2. -/
theorem Engine.votedBlock_of_locked_sample :
    let es₁ :=
  [arrives (.proposal (proposal [] 1)), .step envPto, arrives (.preVote (preVote [] 1 2)),
      arrives (.preVote (preVote [] 1 3))]
    let es₂ := [arrives (.proposal (proposal [] 2)), .step Four.env, .step envPto]
    Run.Along (fun db e => ∀ b ∈ (engine 1).casts db e, ∀ x ∈ b.votedBlock, x = block [])
      (engine 1).next (Run.exec (engine 1).next (genesis 1) (es₁ ++ [.step Four.env])) es₂ :=
  votedBlock_of_locked (engine 1) (genesis 1) _ _ (.step Four.env)
    { proposal := proposal [] 1, signature := [1], preVotes := [[1], [2], [3]] }
    (fresh_genesis (by decide +kernel)) (by decide +kernel) (by decide +kernel) (by decide +kernel)

end MadNet
