import MadNet.Consensus.Store

/-!
# Handlers of incoming messages (`handlers.go`)

A message is validated by `PreValidate` and then stored by `Store`, in two transactions. The error
texts that print accounts and keys are cut off before these.
-/

namespace MadNet

/-- A message that `Store` takes. -/
inductive Msg where
  | vote (v : VoteMsg)
  | blockHeader (v : BlockHeader)

/-- The vote without what validation has found out about it. -/
def VoteMsg.toVote : VoteMsg → Vote
  | proposal v => .proposal v.obj
  | preVote v => .preVote v.obj
  | preVoteNil v => .preVoteNil v.obj
  | preCommit v => .preCommit v.obj
  | preCommitNil v => .preCommitNil v.obj
  | nextRound v => .nextRound v.obj
  | nextHeight v => .nextHeight v.obj

/-- `ExtractRCertAny`. -/
def Msg.rCert (c : Crypto) : Msg → RCert
  | vote v => v.toVote.rCert
  | blockHeader v => v.getRCert c

def Vote.validateSignatures (c : Crypto) : Vote → Except Err VoteMsg
  | proposal v => .proposal <$> v.validateSignatures c
  | preVote v => .preVote <$> v.validateSignatures c
  | preVoteNil v => .preVoteNil <$> v.validateSignatures c
  | preCommit v => .preCommit <$> v.validateSignatures c
  | preCommitNil v => .preCommitNil <$> v.validateSignatures c
  | nextRound v => .nextRound <$> v.validateSignatures c
  | nextHeight v => .nextHeight <$> v.validateSignatures c

namespace Handlers

variable (c : Crypto)

def store (db : Db) (m : Msg) : Except Err Db := do
  let roundState ← Store.loadState db (m.rCert c)
  match m with
  | .vote v =>
    match v.apply c roundState with
    | .error e _ => .error e
    | .ok _ roundState => return Store.writeState c roundState db
  | .blockHeader obj =>
    if obj.bClaims.height ≤ roundState.ownState.maxBHSeen.bClaims.height then
      .error (.invalid "stale bh  - <= MaxBHSeen")
    else if obj.bClaims.height ≤ roundState.ownState.syncToBH.bClaims.height then
      .error (.invalid "stale bh - <= SyncTOBH ")
    else
      let ownState := { roundState.ownState with maxBHSeen := obj }
      return Store.writeState c { roundState with ownState } db

/-! ## PreValidate -/

def subOneNoZero (height : UInt32) : UInt32 := if height ≤ 1 then 1 else height - 1

def normalizeHeightForRCERT (bHeight rHeight rNumber : UInt32) : UInt32 :=
  if bHeight ≤ 2 ∨ rNumber = 1 then bHeight else rHeight

def failIf (p : Prop) [Decidable p] (e : Err) : Except Err Unit := if p then .error e else .ok ()

variable (db : Db)

def validateRCERT (groupKey : Bytes) (bHeight rHeight rNumber : UInt32) : Except Err Unit :=
  if rHeight ≤ 2 then
    .ok ()
  else do
    let vSet ← db.getValidatorSet (normalizeHeightForRCERT bHeight rHeight rNumber)
    failIf (vSet.groupKey ≠ groupKey) (.invalid "bad rcert group key")

def proposalValidation (groupKey proposer : Bytes) (bHeight rHeight rNumber : UInt32) :
    Except Err Unit := do
  validateRCERT db groupKey bHeight rHeight rNumber
  let vSet ← db.getValidatorSet rHeight
  failIf (!vSet.isValidTuple proposer vSet.groupKey) (.invalid "invalid proposer in state handlers")
  if rNumber = Constants.deadBlockRound then
    .ok ()
  else
    failIf (vSet.proposer? rHeight rNumber ≠ some proposer) (.invalid "bad proposer")

/-- The check of the co-signers of a precommit or a `NextHeight`. -/
def coSignersValidation (vSet : ValidatorSet) (coSigners : List Bytes) : Except Err Unit :=
  failIf (coSigners.any fun cs => !vSet.isValidTuple cs vSet.groupKey) (.invalid "bad co signer")

def voteValidation (groupKey voter : Bytes) (proposer : Option Bytes) (coSigners : List Bytes)
    (bHeight rHeight rNumber : UInt32) : Except Err Unit := do
  validateRCERT db groupKey bHeight rHeight rNumber
  proposer.forM (proposalValidation db groupKey · bHeight rHeight rNumber)
  let vSet ← db.getValidatorSet rHeight
  failIf (!vSet.isValidTuple voter vSet.groupKey) (.invalid "invalid tuple in state handlers")
  coSignersValidation vSet coSigners

def voteNilValidation (groupKey voter : Bytes) (bHeight rHeight rNumber : UInt32) :
    Except Err Unit := do
  validateRCERT db groupKey bHeight rHeight rNumber
  let vSet ← db.getValidatorSet rHeight
  failIf (!vSet.isValidTuple voter vSet.groupKey) (.invalid "invalid tuple in state handlers")

def voteNextValidation (groupKey groupShare voter : Bytes) (proposer : Option Bytes)
    (coSigners : List Bytes) (bHeight rHeight rNumber : UInt32) : Except Err Unit := do
  validateRCERT db groupKey bHeight rHeight rNumber
  proposer.forM (proposalValidation db groupKey · bHeight rHeight rNumber)
  let vSet ← db.getValidatorSet rHeight
  failIf (!vSet.isValidTriplet voter groupShare vSet.groupKey)
    (.invalid "invalid triplet in state handlers")
  coSignersValidation vSet coSigners

def blockHeaderValidation (groupKey : Bytes) (bHeight : UInt32) : Except Err Unit :=
  if bHeight ≤ 1 then
    .ok ()
  else do
    let vSet ← db.getValidatorSet bHeight
    let vSet := (db.validatorSetsPostApplication vSet.notBefore).getD vSet
    failIf (groupKey ≠ vSet.groupKey) (.invalid "group key mismatch in state handlers")

/-- The name of a vote in the errors of `PreValidate`. -/
def voteName : Vote → String
  | .proposal _ => "Proposal"
  | .preVote _ => "PreVote"
  | .preVoteNil _ => "PreVoteNil"
  | .preCommit _ => "PreCommit"
  | .preCommitNil _ => "PreCommitNil"
  | .nextRound _ => "NextRound"
  | .nextHeight _ => "NextHeight"

/-- The certificate of the own round, and the check of the chain. -/
def preValidateChainID (chainID : UInt32) : Except Err RCert := do
  let os ← db.getOwnState
  let rs ← db.getCurrentRoundState os.vAddr
  failIf (rs.rCert.chainID ≠ chainID) (.invalid "cid mismatch")
  return rs.rCert

/-- The checks of a validated vote against the validator sets. -/
def membershipValidation (v : VoteMsg) : Except Err Unit :=
  let height := v.toVote.rCert.height
  let round := v.toVote.rCert.round
  let bHeight := subOneNoZero height
  match v with
  | .proposal v => proposalValidation db v.groupKey v.proposer bHeight height round
  | .preVote v => voteValidation db v.groupKey v.voter (some v.proposer) [] bHeight height round
  | .preVoteNil v => voteNilValidation db v.groupKey v.voter bHeight height round
  | .preCommit v =>
    voteValidation db v.groupKey v.voter (some v.proposer) v.signers bHeight height round
  | .preCommitNil v => voteNilValidation db v.groupKey v.voter bHeight height round
  | .nextRound v =>
    voteNextValidation db v.groupKey v.groupShare v.voter none [] bHeight height round
  | .nextHeight v =>
    voteNextValidation db v.groupKey v.groupShare v.voter (some v.proposer) v.signers bHeight height
      round

/-- `PreValidate` of a vote. An `ErrStale` is made for a round below the own one, and dropped. -/
def preValidate (v : Vote) : Except Err VoteMsg := do
  let own ← preValidateChainID db v.rCert.chainID
  let name := voteName v
  let h := own.height
  let height := v.rCert.height
  failIf (height < h) (.stale s!"{name} h<h-1: OwnH:{h} ObjH:{height}")
  let m ← v.validateSignatures c
  membershipValidation db m
  return m

/-- `PreValidate` of a block header. -/
def preValidateBlockHeader (v : BlockHeader) : Except Err Unit := do
  let _ ← preValidateChainID db v.bClaims.chainID
  let m ← v.validateSignatures c
  blockHeaderValidation db m.groupKey v.bClaims.height

end Handlers

end MadNet
