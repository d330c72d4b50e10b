import MadNet.Consensus.RoundState

/-!
# The round states a node works with (`rstate.go`)

A node loads the round state of every validator of the current set, and its own, from the database
and works on the loaded copy.
-/

namespace MadNet

structure Validator where
  vAddr : Bytes
  groupShare : Bytes
  deriving DecidableEq

/-- A validator set. The contract that elects it registers an account once, with one share of the
group key. -/
structure ValidatorSet where
  validators : List Validator
  groupKey : Bytes
  notBefore : UInt32
  vAddr_nodup : (validators.map Validator.vAddr).Nodup
  groupShare_nodup : (validators.map Validator.groupShare).Nodup
  deriving DecidableEq

namespace ValidatorSet

def isVAddrValidator (b : ValidatorSet) (addr : Bytes) : Bool := b.validators.any (·.vAddr == addr)

def isValidTuple (b : ValidatorSet) (vAddr groupKey : Bytes) : Bool :=
  groupKey == b.groupKey && b.isVAddrValidator vAddr

/-- `IsValidTriplet`; the account and the share have the same index in the set. -/
def isValidTriplet (b : ValidatorSet) (vAddr groupShare groupKey : Bytes) : Bool :=
  groupKey == b.groupKey && b.validators.any fun v => v.vAddr == vAddr && v.groupShare == groupShare

/-- Four validators, for concrete runs. -/
def four : ValidatorSet where
  validators := [⟨[1], [11]⟩, ⟨[2], [12]⟩, ⟨[3], [13]⟩, ⟨[4], [14]⟩]
  groupKey := [20]
  notBefore := 1
  vAddr_nodup := by decide
  groupShare_nodup := by decide

/-- The account that proposes in a round. -/
def proposer? (b : ValidatorSet) (height round : UInt32) : Option Bytes :=
  b.validators[(getProposerIdx b.validators.length height round).toNat]?.map (·.vAddr)

end ValidatorSet

structure OwnState where
  vAddr : Bytes
  groupKey : Bytes
  syncToBH : BlockHeader
  maxBHSeen : BlockHeader
  canonicalSnapShot : BlockHeader
  pendingSnapShot : BlockHeader
  deriving DecidableEq, Inhabited

/-- The locked and the valid value of the node. The time stamps of the Go struct decide when a
timeout has expired; timeouts are inputs of a step here. -/
structure OwnValidatingState where
  validValue : Option Proposal := none
  lockedValue : Option Proposal := none
  deriving DecidableEq, Inhabited

structure RoundStates where
  height : UInt32
  round : UInt32
  ownState : OwnState
  validatorSet : ValidatorSet
  ownValidatingState : OwnValidatingState
  peerStateMap : AList fun _ : Bytes => RoundState

def calcThreshold (n : Nat) : Nat :=
  let k := n / 3
  let t := 2 * k
  if n - 3 * k = 2 then t + 1 else t

/-- `PreCommit.MakeImplPreVotes`: the prevotes whose signatures the precommit carries. -/
def Validated.makeImplPreVotes (b : Validated PreCommit) : List (Validated PreVote) :=
  (b.obj.preVotes.zip b.signers).map fun (sig, voter) =>
    { obj := ⟨b.obj.proposal, sig⟩, voter, groupKey := b.groupKey }

namespace RoundStates

variable (r : RoundStates)

def getRoundState (vAddr : Bytes) : Option RoundState := r.peerStateMap.lookup vAddr

/-- `OwnRoundState`; loading the states always finds it. -/
def ownRoundState : RoundState := (r.getRoundState r.ownState.vAddr).getD default

def rCert : RCert := r.ownRoundState.rCert

def isCurrentValidator : Bool := r.validatorSet.isVAddrValidator r.ownState.vAddr

def localIsProposer : Bool := r.validatorSet.proposer? r.height r.round == some r.ownState.vAddr

def getCurrentProposal : Option Proposal := do
  let proposer ← r.getRoundState (← r.validatorSet.proposer? r.height r.round)
  let p ← proposer.proposal
  if proposer.pCurrent r.rCert then some p else none

/-- The votes that `get` finds current among the states of the validators, in the order of the
validator set. -/
def currentVotes (current : RoundState → RCert → Bool) (get : RoundState → Option α) : List α :=
  r.validatorSet.validators.filterMap fun valObj => do
    let peerState ← r.getRoundState valObj.vAddr
    if current peerState r.rCert then get peerState else none

def getCurrentPreVotes : List PreVote × List Bool :=
  (r.currentVotes RoundState.pvCurrent (·.preVote),
    r.currentVotes RoundState.pvnCurrent fun _ => some true)

def getCurrentPreCommits : List PreCommit × List Bool :=
  (r.currentVotes RoundState.pcCurrent (·.preCommit),
    r.currentVotes RoundState.pcnCurrent fun _ => some true)

def getCurrentNext : List NextHeight × List NextRound :=
  (r.currentVotes RoundState.nhCurrent (·.nextHeight),
    r.currentVotes RoundState.nrCurrent (·.nextRound))

def lockedValue : Option Proposal := r.ownValidatingState.lockedValue

def validValue : Option Proposal := r.ownValidatingState.validValue

def lockedValueCurrent : Bool := r.lockedValue.any (relateH r.rCert ·.rCert == .eq)

def validValueCurrent : Bool := r.validValue.any (relateH r.rCert ·.rCert == .eq)

def getCurrentThreshold : Nat := calcThreshold r.peerStateMap.entries.length + 1

/-- The states at the round of `rc`, without votes, as they are made for validators that the
database has no state of. -/
def fresh (ownState : OwnState) (vs : ValidatorSet) (rc : RCert) : RoundStates where
  height := rc.height
  round := rc.round
  ownState
  validatorSet := vs
  ownValidatingState := {}
  peerStateMap := vs.validators.zipIdx.foldl (fun m (v, idx) => m.insert v.vAddr
    { vAddr := v.vAddr, groupKey := vs.groupKey, groupShare := v.groupShare,
      groupIdx := UInt8.ofNat idx, rCert := rc }) ∅

/-! ## Setters -/

def setRoundState (vAddr : Bytes) (b : RoundState) : RoundStates :=
  { r with peerStateMap := r.peerStateMap.insert vAddr b }

/-- Call a method of the round state of `vAddr`; a nil state is the error `missing`. -/
def onRoundState (vAddr : Bytes) (missing : String) (x : EStateM Err RoundState α) :
    EStateM Err RoundStates α := fun r =>
  match r.getRoundState vAddr with
  | none => .error (.invalid missing) r
  | some b =>
    match x b with
    | .ok a b' => .ok a (r.setRoundState vAddr b')
    | .error e b' => .error e (r.setRoundState vAddr b')

theorem getRoundState_setRoundState_self (vAddr : Bytes) (b : RoundState) :
    (r.setRoundState vAddr b).getRoundState vAddr = some b :=
  AList.lookup_insert _

theorem getRoundState_setRoundState_ne {vAddr vAddr' : Bytes} (h : vAddr' ≠ vAddr)
    (b : RoundState) : (r.setRoundState vAddr b).getRoundState vAddr' = r.getRoundState vAddr' :=
  AList.lookup_insert_ne h

theorem wp_onRoundState {vAddr : Bytes} {missing : String} {x : EStateM Err RoundState α}
    {Q : α → RoundStates → Prop} {R : Err → RoundStates → Prop} {b : RoundState}
    (h : r.getRoundState vAddr = some b) :
    Prog.wp (onRoundState vAddr missing x) Q R r ↔ Prog.wp x
      (fun a b' => Q a (r.setRoundState vAddr b'))
        (fun e b' => R e (r.setRoundState vAddr b')) b := by
  simp only [Prog.wp, onRoundState, h]
  cases x b <;> rfl

/-- Call `x` and go on if it fails with `ErrStale`. -/
def ignoreStale (x : EStateM Err RoundStates Unit) : EStateM Err RoundStates Unit := do
  match ← Prog.attempt x with
  | .ok _ => return
  | .error e => if e.isStale then return else throw e

section

variable (c : Crypto)

def setProposal (p : Validated Proposal) : EStateM Err RoundStates Unit := do
  let _ ← onRoundState p.proposer "round state is nil in set prop" (RoundState.setProposal c p.obj)

def setPreVote (pv : Validated PreVote) : EStateM Err RoundStates Unit := do
  ignoreStale (setProposal c { pv with obj := pv.obj.proposal })
  let _ ← onRoundState pv.voter "rs nil in set prevote" (RoundState.setPreVote c pv.obj)

def setPreVoteNil (pvn : Validated PreVoteNil) : EStateM Err RoundStates Unit := do
  let _ ← onRoundState pvn.voter "rs nil in pvn" (RoundState.setPreVoteNil c pvn.obj)

/-- Replay the prevotes a precommit carries; `false` if the loop has left the function. -/
def setImplPreVotes (pcVoter : Bytes) : List (Validated PreVote) → EStateM Err RoundStates Bool
  | [] => return true
  | pv :: pvl => do
    if (← get).getRoundState pv.voter |>.isNone then
      throw (.invalid "rs nil in set prevote")
    else
      match ← Prog.attempt
        (onRoundState pv.voter "rs nil in set prevote" (RoundState.setPreVote c pv.obj)) with
      | .ok _ => setImplPreVotes pcVoter pvl
      | .error e =>
        if e.isStale then
          setImplPreVotes pcVoter pvl
        else
          onRoundState pcVoter "rs nil in pc" (modify ({ · with implicitPCN := true }))
          return false

def setPreCommit (pc : Validated PreCommit) : EStateM Err RoundStates Unit := do
  ignoreStale (setProposal c { pc with obj := pc.obj.proposal })
  if ← setImplPreVotes c pc.voter pc.makeImplPreVotes then
    let _ ← onRoundState pc.voter "rs nil in pc" (RoundState.setPreCommit c pc.obj)

def setPreCommitNil (pcn : Validated PreCommitNil) : EStateM Err RoundStates Unit := do
  let _ ← onRoundState pcn.voter "rs nil in pcn" (RoundState.setPreCommitNil c pcn.obj)

/-- `SetNextHeight` ignores every error of `SetProposal`. -/
def setNextHeight (nh : Validated NextHeight) : EStateM Err RoundStates Unit := do
  let _ ← Prog.attempt (setProposal c { nh with obj := nh.obj.proposal })
  let _ ← onRoundState nh.voter "rs nil in nh" (RoundState.setNextHeight c nh.obj)

def setNextRound (nr : Validated NextRound) : EStateM Err RoundStates Unit := do
  let _ ← onRoundState nr.voter "rs nil in nr" (RoundState.setNextRound c nr.obj)

end

end RoundStates

/-- A vote as it is stored after validation. -/
inductive VoteMsg where
  | proposal (v : Validated Proposal)
  | preVote (v : Validated PreVote)
  | preVoteNil (v : Validated PreVoteNil)
  | preCommit (v : Validated PreCommit)
  | preCommitNil (v : Validated PreCommitNil)
  | nextRound (v : Validated NextRound)
  | nextHeight (v : Validated NextHeight)
  deriving DecidableEq

/-- The setter that `Handlers.Store` calls for a vote. -/
def VoteMsg.apply (c : Crypto) : VoteMsg → EStateM Err RoundStates Unit
  | proposal v => RoundStates.setProposal c v
  | preVote v => RoundStates.setPreVote c v
  | preVoteNil v => RoundStates.setPreVoteNil c v
  | preCommit v => RoundStates.setPreCommit c v
  | preCommitNil v => RoundStates.setPreCommitNil c v
  | nextRound v => RoundStates.setNextRound c v
  | nextHeight v => RoundStates.setNextHeight c v

end MadNet
