import MadNet.Engine.Step

/-!
# What one step of the engine can do

The step function is a long case analysis over loaded votes. Here is what it comes to: a step
prepares (it moves the valid value, or it broadcasts a `NextHeight` that the own round state then
refuses), and then takes at most one action. `Builds` says which votes a step makes from which
loaded states. That the code does nothing else is proved in `Engine.Refinement`.
-/

namespace MadNet

open RoundState RoundStates Txn Option

def Broadcast.vote? : Broadcast → Option Vote
  | proposal v => some (.proposal v)
  | preVote v => some (.preVote v)
  | preVoteNil v => some (.preVoteNil v)
  | preCommit v => some (.preCommit v)
  | preCommitNil v => some (.preCommitNil v)
  | nextRound v => some (.nextRound v)
  | rCert _ => none
  | nextHeightFromPreCommits v => some (.nextHeight v)
  | nextHeightFromNextHeight v => some (.nextHeight v)
  | blockHeader _ => none

/-- The errors by which the own round state rejects a vote and the node shuts down. -/
def Err.isRejection : Err → Bool
  | stale _ => true
  | corrupt => true
  | _ => false

/-- The database with one more committed block; the trie of a height is built on that of the height
before. -/
def Db.addCommitted (c : Crypto) (bh : BlockHeader) (db : Db) : Db :=
  let height := bh.bClaims.height
  let root := if height = 1 then none else db.headerTrieRoots (height - 1)
  { db with
    headerTrieRoots := Function.update db.headerTrieRoots height
      (some (c.headerTrieUpdate root height (c.blockHash bh.bClaims)))
    committedBlockHeaders := Function.update db.committedBlockHeaders height (some bh)
    snapshotBlockHeaders :=
      if height = 1 ∨ height % Constants.epochLength = 0 then
        Function.update db.snapshotBlockHeaders height (some bh)
      else db.snapshotBlockHeaders }

namespace Txn

variable (s : Txn)

def own : RoundState := s.rs.ownRoundState

def setOwn (b : RoundState) : Txn := { s with rs := s.rs.setRoundState s.rs.ownState.vAddr b }

def say (b : Broadcast) : Txn := { s with db := { s.db with broadcasts := b :: s.db.broadcasts } }

def setValues (values : OwnValidatingState) : Txn :=
  { s with rs := { s.rs with ownValidatingState := values } }

/-- The values after the node has recorded a vote of its own. -/
def lock (v : Vote) : Txn :=
  match v with
  | .preCommit v => s.setValues { validValue := some v.proposal, lockedValue := some v.proposal }
  | .nextHeight v => s.setValues { validValue := some v.proposal, lockedValue := some v.proposal }
  | _ => s

def HasOwn : Prop := (s.rs.getRoundState s.rs.ownState.vAddr).isSome

/-- What loading the states has made sure of. -/
structure Ready : Prop where
  hasOwn : s.HasOwn
  states : ∀ a b, s.rs.getRoundState a = some b → b.WellFormed
  validValue : ∀ p ∈ s.rs.validValue, p.WellFormed

/-! ## The own votes of the round -/

/-- There is neither a `NextHeight` nor a `NextRound`. -/
structure Undecided : Prop where
  nextHeight : ¬s.own.nhCurrent s.own.rCert
  nextRound : ¬s.own.nrCurrent s.own.rCert

structure Uncommitted : Prop extends s.Undecided where
  preCommit : ¬s.own.pcCurrent s.own.rCert
  preCommitNil : ¬s.own.pcnCurrent s.own.rCert

structure Unvoted : Prop extends s.Uncommitted where
  preVote : ¬s.own.pvCurrent s.own.rCert
  preVoteNil : ¬s.own.pvnCurrent s.own.rCert

/-- The round is the last before the dead block round, and the node wants to go on to that. -/
def LeavingForDBR : Prop :=
  s.own.nrCurrent s.own.rCert ∧ s.own.rCert.round = Constants.deadBlockRoundNR

/-- The block of the dead block round, which each node makes from its own chain. -/
structure IsEmptyBlock (ce : Engine) (x : BClaims) : Prop where
  chainID : x.chainID = s.own.rCert.chainID
  height : x.height = s.own.rCert.height
  txCount : x.txCount = 0
  prevBlock : x.prevBlock = s.own.rCert.prevBlock
  stateRoot : x.stateRoot = s.rs.ownState.syncToBH.bClaims.stateRoot
  headerRoot : s.db.headerTrieRoots s.rs.ownState.syncToBH.bClaims.height = some x.headerRoot
  txRoot : ce.crypto.makeTxRoot [] = .ok x.txRoot

def commit (ce : Engine) (bh : BlockHeader) : Txn :=
  let s := s.setOwn (s.own.setReset (.rCert (bh.getRCert ce.crypto)))
  Txn.say { rs := { s.rs with ownState := Engine.advance bh s.rs.ownState }
            db := s.db.addCommitted ce.crypto bh } (.blockHeader bh)

end Txn

/-- The votes that a step makes from the loaded states `s`. -/
inductive Builds (ce : Engine) (s : Txn) : Broadcast → Prop where
  | proposalFromValue {p value} : s.Unvoted → ¬s.own.pCurrent s.own.rCert →
      s.own.rCert.round ≠ Constants.deadBlockRound →
      (s.rs.lockedValueCurrent → s.rs.lockedValue = some value) →
      p.pClaims = { value.pClaims with rCert := s.own.rCert } → Builds ce s (.proposal p)
  | newProposal {p} : s.Unvoted → ¬s.own.pCurrent s.own.rCert →
      s.own.rCert.round ≠ Constants.deadBlockRound → ¬s.rs.lockedValueCurrent →
      p.rCert.height = s.rs.ownState.syncToBH.bClaims.height + 1 →
      p.rCert.round = s.own.rCert.round → p.rCert.prevBlock = s.own.rCert.prevBlock →
      Builds ce s (.proposal p)
  | preVote {pv p} : s.Unvoted → s.own.rCert.round ≠ Constants.deadBlockRound →
      s.rs.getCurrentProposal = some p →
      (s.rs.lockedValueCurrent → ∀ lock ∈ s.rs.lockedValue, lock.bClaims = p.bClaims) →
      pv.proposal = p → Builds ce s (.preVote pv)
  | preVoteEmptyBlock {pv} : s.Unvoted → s.own.rCert.round = Constants.deadBlockRound →
      pv.rCert = s.own.rCert → s.IsEmptyBlock ce pv.bClaims → pv.proposal.txHshLst = [] →
      Builds ce s (.preVote pv)
  | preVoteNil {pvn} : s.Unvoted → pvn.rCert = s.own.rCert → Builds ce s (.preVoteNil pvn)
  | preCommit {pc pv} : s.Uncommitted → s.own.pvCurrent s.own.rCert →
      s.rs.getCurrentThreshold ≤ s.rs.getCurrentPreVotes.1.length →
      s.rs.getCurrentPreVotes.1.head? = some pv → pc.proposal = pv.proposal →
      pc.preVotes = s.rs.getCurrentPreVotes.1.map (·.signature) → Builds ce s (.preCommit pc)
  | preCommitNil {pcn} : s.Uncommitted → pcn.rCert = s.own.rCert → Builds ce s (.preCommitNil pcn)
  | nextRound {nr} : s.Undecided → nr.rCert = s.own.rCert →
      nr.nrClaims.rClaims = { s.own.rCert.rClaims with round := s.own.rCert.round + 1 } →
      nr.nrClaims.rClaims.marshalBinary = .ok () → Builds ce s (.nextRound nr)
  | nextHeightFromPreCommits {nh pc} : (s.LeavingForDBR ∨ ¬s.own.nhCurrent s.own.rCert) →
      (s.own.nrCurrent s.own.rCert ∨ s.own.pcCurrent s.own.rCert ∨ s.own.pcnCurrent s.own.rCert) →
      s.rs.getCurrentThreshold ≤ s.rs.getCurrentPreCommits.1.length →
      s.rs.getCurrentPreCommits.1.head? = some pc → nh.proposal = pc.proposal →
      nh.preCommits = s.rs.getCurrentPreCommits.1.map (·.signature) →
      Builds ce s (.nextHeightFromPreCommits nh)
  | nextHeightFromNextHeight {nh peer} : ¬s.LeavingForDBR → ¬s.own.nhCurrent s.own.rCert →
      s.rs.getCurrentNext.1.head? = some peer → nh.proposal = peer.proposal →
      nh.preCommits = peer.preCommits → Builds ce s (.nextHeightFromNextHeight nh)

/-- What a step that started from `s₀` may have done before its action. -/
inductive Prep (ce : Engine) (s₀ : Txn) : Txn → Prop where
  | start : Prep ce s₀ s₀
  | setValid {s p} : Prep ce s₀ s →
      Prep ce s₀ (s.setValues { s.rs.ownValidatingState with validValue := some p })
  | clear {s} : Prep ce s₀ s → s₀.own.rCert.round = Constants.deadBlockRound →
    Prep ce s₀ (s.setValues {})
  | unrecorded {s nh msg own} : Prep ce s₀ s → s₀.rs.isCurrentValidator →
      Builds ce s₀ (.nextHeightFromPreCommits nh) →
      RoundState.set ce.crypto (.nextHeight nh) s.own = .error (.invalid msg) own →
      Prep ce s₀ ((s.say (.nextHeightFromPreCommits nh)).setOwn own)

/-- The step that started from `s` may commit `bh`: its signature comes from the shares in the
votes, or from the certificate of a validator that is at the next height. -/
structure Commits (ce : Engine) (env : Env) (s : Txn) (bh : BlockHeader) : Prop where
  height : bh.bClaims.height = s.own.rCert.height
  next : s.own.rCert.height + 1 ≠ 0
  validated : ∃ m, bh.validateSignatures ce.crypto = .ok m
  source : (∃ sigs shares, env.aggregate sigs shares = .ok bh.sigGroup) ∨
    ∃ v ∈ Engine.futureHeight s.rs, v.rCert.sigGroup = bh.sigGroup ∧
      v.rCert.prevBlock = ce.crypto.blockHash bh.bClaims ∧
      v.rCert.height = s.own.rCert.height + 1 ∧ v.rCert.round = 1
  headerRoot : bh.bClaims.height ≠ 1 → (s.db.headerTrieRoots (bh.bClaims.height - 1)).isSome

/-- The step that started from `s` may make the certificate `rc` of the next round. -/
structure Certifies (ce : Engine) (env : Env) (s : Txn) (rc : RCert) : Prop where
  nextRound : s.own.nrCurrent s.own.rCert
  aggregated : ∃ sigs shares, env.aggregate sigs shares = .ok rc.sigGroup
  rClaims : ∃ nr ∈ s.rs.getCurrentNext.2, rc.rClaims = nr.nrClaims.rClaims
  validated : ∃ groupKey, rc.validateSignature ce.crypto = .ok groupKey

/-- The states in which a step that started from `s₀` returns. -/
inductive Outcome (ce : Engine) (env : Env) (s₀ : Txn) : Txn → Prop where
  | idle {s} : Prep ce s₀ s → Outcome ce env s₀ s
  | cast {s b v own} : Prep ce s₀ s → s₀.rs.isCurrentValidator → Builds ce s₀ b →
      b.vote? = some v → RoundState.set ce.crypto v s.own = .ok true own →
      Outcome ce env s₀ (((s.say b).setOwn own).lock v)
  | roundJump {s v} : Prep ce s₀ s → v ∈ Engine.futureRound s₀.rs →
      Outcome ce env s₀ (s.setOwn (s.own.setReset (.rCert v.rCert)))
  | nextRoundRCert {s rc} : Prep ce s₀ s → Certifies ce env s₀ rc →
      Outcome ce env s₀ ((s.say (.rCert rc)).setOwn (s.own.setReset (.rCert rc)))
  | commit {s bh} : Prep ce s₀ s → Commits ce env s₀ bh → Outcome ce env s₀ (s.commit ce bh)
  | commitAndClear {s bh} : Prep ce s₀ s → Commits ce env s₀ bh →
      Outcome ce env s₀ ((s.commit ce bh).setValues {})

/-- If the step that started from `s₀` fails with `e` because the own round state rejects a vote,
then that is a vote the step has built. -/
def Rejected (ce : Engine) (s₀ : Txn) (e : Err) : Prop :=
  e.isRejection → ∃ s b v, Prep ce s₀ s ∧ Builds ce s₀ b ∧ b.vote? = some v ∧
    ((∃ msg own, RoundState.set ce.crypto v s.own = .error (.stale msg) own) ∨
      ∃ own, RoundState.set ce.crypto v s.own = .ok false own)

/-! ## Loaded votes -/

namespace RoundState

variable {b : RoundState} {a : RCert}

theorem any_relateHR {α : Type} {x : Option α} {f : α → RCert} :
    x.any (fun v => relateHR a (f v) == .eq) ↔ ∃ v, x = some v ∧ a.hr = (f v).hr := by
  cases x <;> simp [RCert.hr_eq_iff]

theorem pCurrent_iff : b.pCurrent a ↔ ∃ v, b.proposal = some v ∧ a.hr = v.rCert.hr := any_relateHR

theorem pvCurrent_iff : b.pvCurrent a ↔ ∃ v, b.preVote = some v ∧ a.hr = v.rCert.hr := any_relateHR

theorem pcCurrent_iff : b.pcCurrent a ↔ ∃ v, b.preCommit = some v ∧ a.hr = v.rCert.hr :=
  any_relateHR

theorem nrCurrent_iff : b.nrCurrent a ↔ ∃ v, b.nextRound = some v ∧ a.hr = v.rCert.hr :=
  any_relateHR

theorem resetNHForDBR_twice {v w : Vote} (hv : isDeadBlockRound v.rCert)
    (hw : isDeadBlockRound w.rCert) :
    (b.resetNHForDBR v).resetNHForDBR w = b.resetNHForDBR w := by
  simp [resetNHForDBR, hv, hw, filter_filter]

theorem nhCurrent_iff : b.nhCurrent a ↔ ∃ v, b.nextHeight = some v ∧ a.height = v.rCert.height ∧
    (isDeadBlockRound a ∨ isDeadBlockRound b.rCert → a.round = v.rCert.round) := by
  unfold nhCurrent
  cases b.nextHeight with
  | none => simp
  | some v =>
    simp only [any_some, some_inj, exists_eq_left', ← Bool.or_eq_true]
    split
    next h => simp [h]
    next h => simp [h]

end RoundState

namespace RoundStates

variable {r : RoundStates} {α : Type} {current : RoundState → RCert → Bool}
  {get : RoundState → Option α} {v : α}

theorem mem_currentVotes : v ∈ r.currentVotes current get ↔ ∃ val ∈ r.validatorSet.validators,
    ∃ b, r.getRoundState val.vAddr = some b ∧ current b r.rCert ∧ get b = some v := by
  simp only [currentVotes, List.mem_filterMap, bind, bind_eq_some_iff, ite_none_right_eq_some]

theorem mem_getCurrentPreVotes {pv : PreVote} : pv ∈ r.getCurrentPreVotes.1 ↔
    ∃ val ∈ r.validatorSet.validators, ∃ b, r.getRoundState val.vAddr = some b ∧
      b.preVote = some pv ∧ r.rCert.hr = pv.rCert.hr := by
  refine mem_currentVotes.trans ?_
  simp only [pvCurrent_iff]
  grind

theorem mem_getCurrentNext_snd {nr : NextRound} : nr ∈ r.getCurrentNext.2 ↔
    ∃ val ∈ r.validatorSet.validators, ∃ b, r.getRoundState val.vAddr = some b ∧
      b.nextRound = some nr ∧ r.rCert.hr = nr.rCert.hr := by
  refine mem_currentVotes.trans ?_
  simp only [nrCurrent_iff]
  grind

theorem mem_getCurrentNext_fst {nh : NextHeight} : nh ∈ r.getCurrentNext.1 ↔
    ∃ val ∈ r.validatorSet.validators, ∃ b, r.getRoundState val.vAddr = some b ∧
      b.nextHeight = some nh ∧ r.rCert.height = nh.rCert.height ∧
      (isDeadBlockRound r.rCert ∨ isDeadBlockRound b.rCert → r.rCert.round = nh.rCert.round) := by
  refine mem_currentVotes.trans ?_
  simp only [nhCurrent_iff]
  grind

theorem getCurrentProposal_eq_some {p : Proposal} : r.getCurrentProposal = some p ↔
    ∃ a b, r.validatorSet.proposer? r.height r.round = some a ∧ r.getRoundState a = some b ∧
      b.proposal = some p ∧ r.rCert.hr = p.rCert.hr := by
  simp only [getCurrentProposal, bind, bind_eq_some_iff, ite_none_right_eq_some, pCurrent_iff]
  grind

end RoundStates

/-! ## What preparation keeps -/

namespace Txn

variable {s : Txn} {b : RoundState}

@[simp] theorem own_setOwn : (s.setOwn b).own = b := by
  simp [own, setOwn, ownRoundState, setRoundState, getRoundState]

theorem HasOwn.say (h : s.HasOwn) {b : Broadcast} : (s.say b).HasOwn := h

theorem hasOwn_setOwn : (s.setOwn b).HasOwn := by
  simp [HasOwn, setOwn, setRoundState, getRoundState]

theorem getRoundState_setOwn {a : Bytes} (h : a ≠ s.rs.ownState.vAddr) :
    (s.setOwn b).rs.getRoundState a = s.rs.getRoundState a :=
  getRoundState_setRoundState_ne _ h _

end Txn

variable {ce : Engine} {s₀ s : Txn}

/-- A `NextHeight` made from precommits belongs to the own round. -/
theorem Builds.nextHeight_hr {nh : NextHeight} (h : Builds ce s (.nextHeightFromPreCommits nh)) :
    nh.rCert.hr = s.own.rCert.hr := by
  cases h with
  | @nextHeightFromPreCommits _ pc _ _ _ hpc hp _ =>
    obtain ⟨_, -, b, -, hcur, hb⟩ := mem_currentVotes.mp (List.mem_of_mem_head? hpc)
    obtain ⟨_, hb', hhr⟩ := pcCurrent_iff.mp hcur
    obtain rfl := some_inj.mp (hb'.symm.trans hb)
    rw [NextHeight.rCert, hp]
    exact hhr.symm

/-- The step that started from `s₀` has broadcast `nh`, and the own round state has then refused it.
-/
def Unrecorded (ce : Engine) (s₀ : Txn) (nh : NextHeight) : Prop :=
  ∃ s msg own, Prep ce s₀ s ∧ RoundState.set ce.crypto (.nextHeight nh) s.own = .error
    (.invalid msg) own

structure Kept (ce : Engine) (s₀ s : Txn) : Prop where
  ownState : s.rs.ownState = s₀.rs.ownState
  validatorSet : s.rs.validatorSet = s₀.rs.validatorSet
  hasOwn : s₀.HasOwn → s.HasOwn
  peers : ∀ a ≠ s₀.rs.ownState.vAddr, s.rs.getRoundState a = s₀.rs.getRoundState a
  own : s.own = s₀.own ∨ ∃ v, isDeadBlockRound v.rCert ∧ s.own = s₀.own.resetNHForDBR v
  own_below_dbr : s₀.own.rCert.round ≠ Constants.deadBlockRound → s.own = s₀.own
  lockedValue : s₀.own.rCert.round ≠ Constants.deadBlockRound → s.rs.lockedValue = s₀.rs.lockedValue
  db : ∃ bs, s.db = { s₀.db with broadcasts := bs ++ s₀.db.broadcasts } ∧
    ∀ b ∈ bs, s₀.rs.isCurrentValidator ∧ Builds ce s₀ b ∧
      ∃ nh, b = .nextHeightFromPreCommits nh ∧ Unrecorded ce s₀ nh

theorem Prep.kept (h : Prep ce s₀ s) : Kept ce s₀ s := by
  induction h with
  | start =>
    exact ⟨rfl, rfl, id, fun _ _ => rfl, .inl rfl, fun _ => rfl, fun _ => rfl, [], rfl, by simp⟩
  | setValid _ ih => exact { ih with }
  | clear _ hdbr ih => exact { ih with lockedValue := fun h => absurd hdbr h }
  | @unrecorded s nh msg own hP hval hb hset ih =>
    have hround : nh.rCert.round = s₀.own.rCert.round := (RCert.hr_eq_iff.mp hb.nextHeight_hr).2
    have hown : own = s.own ∨ own = s.own.resetNHForDBR (.nextHeight nh) := by
      cases hset ▸ set_result (c := ce.crypto) s.own (.nextHeight nh) with
      | forbidden => exact .inl rfl
      | refused => exact .inr rfl
      | conflictDBR _ hf => simp [conflictFails] at hf
    have hbelow (h : s₀.own.rCert.round ≠ Constants.deadBlockRound) : own = s.own := by
      rcases hown with hown | hown
      · exact hown
      · rw [hown, resetNHForDBR, if_neg]
        simpa [Vote.rCert, hround] using h
    obtain ⟨bs, hdb, hbs⟩ := ih.db
    refine { ih with hasOwn := fun _ => hasOwn_setOwn, peers := fun a ha => ?_, own := ?_,
                     own_below_dbr :=
                       fun h => ?_, db := ⟨.nextHeightFromPreCommits nh :: bs, ?_, ?_⟩ }
    · rw [getRoundState_setOwn (by rw [← ih.ownState] at ha; exact ha)]
      exact ih.peers a ha
    · rw [own_setOwn]
      by_cases hdbr : isDeadBlockRound nh.rCert
      · rcases hown with rfl | rfl
        · exact ih.own
        · refine .inr ⟨.nextHeight nh, hdbr, ?_⟩
          rcases ih.own with h | ⟨v, hv, h⟩
          · rw [h]
          · rw [h, resetNHForDBR_twice hv (w := .nextHeight nh) hdbr]
      · rw [hbelow (by simpa [hround] using hdbr)]
        exact ih.own
    · rw [own_setOwn, hbelow h, ih.own_below_dbr h]
    · simp [setOwn, say, hdb]
    · intro b hb'
      rcases List.mem_cons.mp hb' with rfl | hb'
      · exact ⟨hval, hb, nh, rfl, s, msg, own, hP, hset⟩
      · exact hbs b hb'

theorem Kept.rCert (h : Kept ce s₀ s) : s.own.rCert = s₀.own.rCert := by
  rcases h.own with h | ⟨v, -, h⟩
  · rw [h]
  · rw [h, resetNHForDBR_rCert]

theorem Kept.isCurrentValidator (h : Kept ce s₀ s) :
    s.rs.isCurrentValidator = s₀.rs.isCurrentValidator := by
  rw [RoundStates.isCurrentValidator, h.validatorSet, h.ownState]
  rfl

theorem Kept.ownState_vAddr (h : Kept ce s₀ s) : s.rs.ownState.vAddr = s₀.rs.ownState.vAddr := by
  rw [h.ownState]

theorem Txn.HasOwn.getRoundState (h : s.HasOwn) :
    s.rs.getRoundState s.rs.ownState.vAddr = some s.own := by
  obtain ⟨b, hb⟩ := isSome_iff_exists.mp h
  rw [own, ownRoundState, hb, getD_some]

/-- Preparation does not change votes other than a `NextHeight`. -/
theorem Kept.currentVotes {α : Type} {current : RoundState → RCert → Bool}
    {get : RoundState → Option α}
    (h : Kept ce s₀ s) (h₀ : s₀.HasOwn)
    (hcur : ∀ b v a, current (resetNHForDBR b v) a = current b a)
    (hget : ∀ b v, get (resetNHForDBR b v) = get b) :
    s.rs.currentVotes current get = s₀.rs.currentVotes current get := by
  have hrc : s.rs.rCert = s₀.rs.rCert := h.rCert
  unfold RoundStates.currentVotes
  rw [h.validatorSet, hrc]
  refine List.filterMap_congr fun val _ => ?_
  by_cases hval : val.vAddr = s₀.rs.ownState.vAddr
  · have hs := (h.hasOwn h₀).getRoundState
    rw [h.ownState_vAddr] at hs
    rw [hval, hs, h₀.getRoundState]
    rcases h.own with hown | ⟨v, -, hown⟩
    · rw [hown]
    · simp only [hown, hcur, hget, bind, bind_some]
  · rw [h.peers _ hval]

/-! ## What an outcome does to the own round state -/

theorem Engine.advance_vAddr (bh : BlockHeader) (os : OwnState) :
    (Engine.advance bh os).vAddr = os.vAddr := by
  unfold Engine.advance
  dsimp only
  split <;> split <;> rfl

theorem Txn.vAddr_commit (bh : BlockHeader) :
    (s.commit ce bh).rs.ownState.vAddr = s.rs.ownState.vAddr := Engine.advance_vAddr _ _

theorem Txn.own_commit (bh : BlockHeader) :
    (s.commit ce bh).own = s.own.setReset (.rCert (bh.getRCert ce.crypto)) := by
  rw [own, ownRoundState, vAddr_commit]
  exact own_setOwn

theorem Txn.own_setValues (values : OwnValidatingState) : (s.setValues values).own = s.own := rfl

theorem Txn.own_lock (v : Vote) : (s.lock v).own = s.own := by cases v <;> rfl

theorem Prep.own_vAddr (h : Prep ce s₀ s) : s.own.vAddr = s₀.own.vAddr := by
  rcases h.kept.own with h | ⟨v, -, h⟩
  · rw [h]
  · rw [h, resetNHForDBR]
    split <;> rfl

variable {env : Env}

theorem Outcome.own_vAddr (h : Outcome ce env s₀ s) : s.own.vAddr = s₀.own.vAddr := by
  have hreset (b : RoundState) (rc : RCert) : (b.setReset (.rCert rc)).vAddr = b.vAddr := by
    obtain ⟨_, _, heq, -⟩ := setReset_eq b (.rCert rc)
    rw [heq]
    rfl
  cases h with
  | idle hP => exact hP.own_vAddr
  | @cast s b v own hP _ _ _ hset =>
    rw [own_lock, own_setOwn, ← hP.own_vAddr]
    have := after_set_vAddr ce.crypto v s.own
    rwa [Prog.after, hset] at this
  | roundJump hP _ | nextRoundRCert hP _ => rw [own_setOwn, hreset, hP.own_vAddr]
  | commit hP _ => rw [own_commit, hreset, hP.own_vAddr]
  | commitAndClear hP _ => rw [own_setValues, own_commit, hreset, hP.own_vAddr]

theorem Prep.roundStates (h : Prep ce s₀ s) : s.db.roundStates = s₀.db.roundStates := by
  obtain ⟨bs, hdb, -⟩ := h.kept.db
  rw [hdb]

theorem Outcome.roundStates (h : Outcome ce env s₀ s) : s.db.roundStates = s₀.db.roundStates := by
  cases h with
  | idle hP | roundJump hP _ | nextRoundRCert hP _ | commit hP _ | commitAndClear hP _ =>
    exact hP.roundStates
  | @cast s b v own hP _ _ _ _ =>
    rw [← hP.roundStates]
    cases v <;> rfl

end MadNet
