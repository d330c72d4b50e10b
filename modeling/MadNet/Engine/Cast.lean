import MadNet.Engine.LocalState

/-!
# The engine: casting votes (`statecastlocal.go`)

Once a step has decided what to do, one of these builds the object, validates it, hands it to the
gossip layer and calls the setter. The order of the last two differs between the casts.
-/

namespace MadNet

namespace Engine

variable (ce : Engine) (env : Env)

/-- Validate the signatures of an object that was just made. -/
def validate (x : Except Err α) : EngineM Unit := do
  let _ ← (MonadExcept.ofExcept x : EngineM α)

/-- The body of a function that does nothing on a node that is not a validator. -/
def whenValidator (x : EngineM Unit) : EngineM Unit := do
  if (← get).rs.isCurrentValidator then x else return

/-- `GetProposal` and the other uses of the first element of a list of votes. -/
def first (l : List α) : EngineM α :=
  match l with
  | [] => throw (.other "index out of range")
  | v :: _ => return v

/-! ## Signing -/

/-- `Proposal.Sign`. -/
def signProposal (pClaims : PClaims) (txHshLst : List Bytes) : EngineM Proposal := do
  if pClaims.rCert.round > Constants.deadBlockRound then
    throw (.invalid "Proposal.Sign; Proposal.Round > DBR")
  else
    let signature ← ext (ce.secpSign (.proposal pClaims))
    return { pClaims, signature, txHshLst }

/-- `NextHeight.Sign`. -/
def signNextHeight (proposal : Proposal) (preCommits : List Bytes) : EngineM NextHeight := do
  let signature ← ext (ce.secpSign (.nextHeight proposal.pClaims))
  let sigShare ← ext (ce.bnSign (.blockHash (ce.crypto.blockHash proposal.bClaims)))
  return { nhClaims := { proposal, sigShare }, signature, preCommits }

/-- `RCert.NextRound`. -/
def signNextRound (rCert : RCert) : EngineM NextRound := do
  let rClaims := { rCert.rClaims with round := rCert.round + 1 }
  MonadExcept.ofExcept rClaims.marshalBinary
  let sigShare ← ext (ce.bnSign (.rClaims rClaims))
  let nrClaims := { rCert, rClaims, sigShare }
  let signature ← ext (ce.secpSign (.nextRound nrClaims))
  return { nrClaims, signature }

/-! ## Casting -/

def updateValidValue (p : Proposal) : EngineM Unit := do
  let rs := (← get).rs
  let txs ← match env.getTxs p.bClaims.height rs.round p.txHshLst with
    | .ok (txs, _) => pure txs
    | .error .missingTransactions => pure []
    | .error e => throw e.toErr
  if ← isValid env p.bClaims.chainID p.bClaims.stateRoot p.bClaims.headerRoot txs then
    setMostRecentValidValue p
  else
    throw (.invalid "proposal is invalid in update vv")

def castNewProposalValue : EngineM Unit := whenValidator do
  let (txList, txRoot, stateRoot, headerRoot) ← getValidValue ce env
  let stateRoot := stateRoot.getD zeroHash
  let rs := (← get).rs
  let { chainID, height, .. } := rs.ownState.syncToBH.bClaims
  let prevBlock := rs.rCert.prevBlock
  let pClaims := {
    bClaims := { chainID, height := height + 1, prevBlock, headerRoot, stateRoot, txRoot,
                 txCount := UInt32.ofNat txList.length }
    rCert := {
      sigGroup := rs.rCert.sigGroup
      rClaims := { chainID, height := height + 1, prevBlock, round := rs.rCert.round } } }
  let p ← signProposal ce pClaims txList
  validate (p.validateSignatures ce.crypto)
  updateValidValue env p
  setMostRecentProposal ce p
  setBroadcast (.proposal p)

/-- `castProposalFromValue`; the claims of the value are proposed again in the own round. -/
def castProposalFromValue (prop : Proposal) : EngineM Unit := whenValidator do
  let rcert := (← get).rs.rCert
  let p ← signProposal ce { prop.pClaims with rCert := rcert } prop.txHshLst
  validate (p.validateSignatures ce.crypto)
  setMostRecentProposal ce p
  setBroadcast (.proposal p)

def castPreVote (p : Proposal) : EngineM Unit := whenValidator do
  let signature ← ext (ce.secpSign (.preVote p.pClaims))
  let pv : PreVote := { proposal := p, signature }
  validate (pv.validateSignatures ce.crypto)
  setMostRecentValidValue p
  setMostRecentPreVote ce pv
  setBroadcast (.preVote pv)

def castPreVoteNil : EngineM Unit := whenValidator do
  let rCert := (← get).rs.rCert
  let signature ← ext (ce.secpSign (.preVoteNil rCert))
  let pvn : PreVoteNil := { rCert, signature }
  validate (pvn.validateSignatures ce.crypto)
  setBroadcast (.preVoteNil pvn)
  setMostRecentPreVoteNil ce pvn

def castPreVoteWithLock (lock p : Proposal) : EngineM Unit := whenValidator do
  if bClaimsEqual ce.crypto lock.bClaims p.bClaims then
    castPreVote ce p
  else
    castPreVoteNil ce

def castPreCommit (preVotes : List PreVote) : EngineM Unit := whenValidator do
  let proposal := (← first preVotes).proposal
  let signature ← ext (ce.secpSign (.preCommit proposal.pClaims))
  let pc : PreCommit := { proposal, signature, preVotes := preVotes.map (·.signature) }
  validate (pc.validateSignatures ce.crypto)
  setBroadcast (.preCommit pc)
  setMostRecentPreCommit ce pc

def castPreCommitNil : EngineM Unit := whenValidator do
  let rCert := (← get).rs.rCert
  let signature ← ext (ce.secpSign (.preCommitNil rCert))
  let pcn : PreCommitNil := { rCert, signature }
  validate (pcn.validateSignatures ce.crypto)
  setBroadcast (.preCommitNil pcn)
  setMostRecentPreCommitNil ce pcn

def castNextRound : EngineM Unit := whenValidator do
  let nr ← signNextRound ce (← get).rs.rCert
  validate (nr.validateSignatures ce.crypto)
  setBroadcast (.nextRound nr)
  setMostRecentNextRound ce nr

def castNextRoundRCert (nextRounds : List NextRound) : EngineM Unit := whenValidator do
  let shares := (← get).rs.validatorSet.validators.map (·.groupShare)
  let sigGroup ← ext (env.aggregate (nextRounds.map (·.nrClaims.sigShare)) shares)
  let rc : RCert := { rClaims := (← first nextRounds).nrClaims.rClaims, sigGroup }
  validate (rc.validateSignature ce.crypto)
  setBroadcast (.rCert rc)
  setMostRecentRCert rc

/-- `castNextHeightFromNextHeight`; the `NextHeight` of a peer is signed again. -/
def castNextHeightFromNextHeight (nh : NextHeight) : EngineM Unit := whenValidator do
  let newNh ← signNextHeight ce nh.proposal nh.preCommits
  validate (newNh.validateSignatures ce.crypto)
  setBroadcast (.nextHeightFromNextHeight newNh)
  setMostRecentNextHeight ce newNh

def castNextHeightFromPreCommits (preCommits : List PreCommit) : EngineM Unit := whenValidator do
  let proposal := (← first preCommits).proposal
  let nh ← signNextHeight ce proposal (preCommits.map (·.signature))
  validate (nh.validateSignatures ce.crypto)
  setBroadcast (.nextHeightFromPreCommits nh)
  setMostRecentNextHeight ce nh

def castNewCommittedBlockHeader (nextHeights : List NextHeight) : EngineM Unit := do
  let shares := (← get).rs.validatorSet.validators.map (·.groupShare)
  let sigGroup ← ext (env.aggregate (nextHeights.map (·.nhClaims.sigShare)) shares)
  let p := (← first nextHeights).proposal
  let bh : BlockHeader := { bClaims := p.bClaims, txHshLst := p.txHshLst, sigGroup }
  let rc := bh.getRCert ce.crypto
  validate (rc.validateSignature ce.crypto)
  validate (bh.validateSignatures ce.crypto)
  setMostRecentBlockHeader ce env bh

def castNewCommittedBlockFromProposalAndRCert (p : Proposal) (rc : RCert) : EngineM Unit := do
  let bh : BlockHeader := { sigGroup := rc.sigGroup, bClaims := p.bClaims, txHshLst := p.txHshLst }
  validate (bh.validateSignatures ce.crypto)
  setMostRecentBlockHeader ce env bh

end Engine

end MadNet
