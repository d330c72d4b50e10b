import MadNet.Engine.Cast

/-!
# The engine: steps (`statechnglocal.go`, `engine.go`)

`updateLocalStateInternal` looks at the votes of all validators and decides on one action; the step
handlers work out how to take it.
-/

namespace MadNet

namespace Engine

variable (ce : Engine) (env : Env)

/-- Go on after `ErrInvalid` or `ErrMissingTransactions`; the result tells whether `x` returned. -/
def tolerate (x : EngineM Unit) : EngineM Bool := do
  match ← Prog.attempt x with
  | .ok _ => return true
  | .error e => if e.isTolerated then return false else throw e

def doPendingProposalStep : EngineM Unit := whenValidator do
  let rs := (← get).rs
  if rs.rCert.round = Constants.deadBlockRound then
    return
  else if rs.lockedValueCurrent then
    rs.lockedValue.forM (castProposalFromValue ce)
  else if rs.validValueCurrent then
    rs.validValue.forM (castProposalFromValue ce)
  else
    castNewProposalValue ce env

/-- The dead block round: every validator makes and prevotes the empty block itself. -/
def preVoteEmptyBlock : EngineM Unit := do
  let rcert := (← get).rs.rCert
  clearValues
  let txRoot ← ext (ce.crypto.makeTxRoot [])
  let bclaims := (← get).rs.ownState.syncToBH.bClaims
  let headerRoot ← getHeaderTrieRoot bclaims.height
  let pClaims := {
    bClaims := { prevBlock := rcert.prevBlock, headerRoot, stateRoot := bclaims.stateRoot, txRoot,
                 chainID := rcert.chainID, height := rcert.height, txCount := 0 }
    rCert := rcert }
  let p ← signProposal ce pClaims []
  castPreVote ce p

/-- Prevote the proposal if it is found valid. -/
def preVoteIfValid (p : Proposal) : EngineM Unit := do
  let rs := (← get).rs
  match env.getTxs p.bClaims.height rs.round p.txHshLst with
  | .error _ => castPreVoteNil ce
  | .ok (txs, _) =>
    match ← Prog.attempt
      (isValid env p.bClaims.chainID p.bClaims.stateRoot p.bClaims.headerRoot txs) with
    | .ok true => castPreVote ce p
    | .ok false => castPreVoteNil ce
    | .error e => if e.isTolerated then castPreVoteNil ce else throw e

def doPendingPreVoteStep : EngineM Unit := whenValidator do
  let rs := (← get).rs
  if rs.rCert.round = Constants.deadBlockRound then
    preVoteEmptyBlock ce
  else
    match rs.getCurrentProposal with
    | none => castPreVoteNil ce
    | some p =>
      if rs.lockedValueCurrent then
        rs.lockedValue.forM (castPreVoteWithLock ce · p)
      else if rs.validValueCurrent then
        rs.validValue.forM (castPreVoteWithLock ce · p)
      else
        preVoteIfValid ce env p

def doPreVoteStep : EngineM Unit := whenValidator do
  let rs := (← get).rs
  let (pvl, _) := rs.getCurrentPreVotes
  if pvl.length ≥ rs.getCurrentThreshold then
    castPreCommit ce pvl
  else
    return

def doPreVoteNilStep : EngineM Unit := whenValidator do
  let rs := (← get).rs
  let (pvl, pvnl) := rs.getCurrentPreVotes
  let _ ← if pvl.length ≥ rs.getCurrentThreshold then
      first pvl >>= fun pv => updateValidValue env pv.proposal
    else pure ()
  if pvnl.length ≥ rs.getCurrentThreshold then
    castPreCommitNil ce
  else
    return

/-- The last part of `doPendingPreCommit`: nil, if enough validators have voted. -/
def pendingPreCommitNil (rs : RoundStates) (votes : Nat) : EngineM Unit :=
  if rs.rCert.round ≠ Constants.deadBlockRound ∧ votes ≥ rs.getCurrentThreshold then
    castPreCommitNil ce
  else
    return

def doPendingPreCommit : EngineM Unit := whenValidator do
  let rs := (← get).rs
  let (pvl, pvnl) := rs.getCurrentPreVotes
  let votes := pvl.length + pvnl.length
  if pvl.length ≥ rs.getCurrentThreshold then
    if rs.ownRoundState.pvCurrent rs.rCert then
      castPreCommit ce pvl
    else
      let _ ← tolerate (updateValidValue env (← first pvl).proposal)
      pendingPreCommitNil ce rs votes
  else
    pendingPreCommitNil ce rs votes

def doPreCommitStep : EngineM Unit := whenValidator do
  let rs := (← get).rs
  let (pcl, _) := rs.getCurrentPreCommits
  if pcl.length ≥ rs.getCurrentThreshold then
    updateValidValue env (← first pcl).proposal
    castNextHeightFromPreCommits ce pcl
  else
    return

def doPreCommitNilStep : EngineM Unit := whenValidator do
  let rs := (← get).rs
  let (pcl, pcnl) := rs.getCurrentPreCommits
  if pcl.length ≥ rs.getCurrentThreshold then
    updateValidValue env (← first pcl).proposal
    castNextHeightFromPreCommits ce pcl
  else if pcnl.length ≥ rs.getCurrentThreshold ∧ rs.rCert.round ≠ Constants.deadBlockRoundNR then
    castNextRound ce
  else
    return

/-- Cast a `NextHeight` for the first precommit if there are enough of them; `false` if there are
not, or if that failed with an error the callers go on after. -/
def tryNextHeight (rs : RoundStates) (pcl : List PreCommit) : EngineM Bool := do
  if pcl.length ≥ rs.getCurrentThreshold then
    if ← tolerate (updateValidValue env (← first pcl).proposal) then
      tolerate (castNextHeightFromPreCommits ce pcl)
    else
      return false
  else
    return false

def doPendingNext : EngineM Unit := whenValidator do
  let rs := (← get).rs
  let (pcl, pcnl) := rs.getCurrentPreCommits
  if ← tryNextHeight ce env rs pcl then
    return
  else if rs.rCert.round ≠ Constants.deadBlockRound ∧
      (rs.rCert.round = Constants.deadBlockRoundNR → env.dbrnrExpired) ∧
      pcl.length + pcnl.length ≥ rs.getCurrentThreshold then
    castNextRound ce
  else
    return

def doNextRoundStep : EngineM Unit := whenValidator do
  let rs := (← get).rs
  let (pcl, _) := rs.getCurrentPreCommits
  if ← tryNextHeight ce env rs pcl then
    return
  else
    let rs := (← get).rs
    let (_, nrl) := rs.getCurrentNext
    if nrl.length ≥ rs.getCurrentThreshold then
      castNextRoundRCert ce env nrl
    else
      return

/-- `doRoundJump`; the valid value is updated only with more precommits than the threshold. -/
def doRoundJump (rc : RCert) : EngineM Unit := do
  let rs := (← get).rs
  let (pcl, _) := rs.getCurrentPreCommits
  let _ ← if pcl.length > rs.getCurrentThreshold then
      first pcl >>= fun pc => tolerate (updateValidValue env pc.proposal)
    else pure true
  setMostRecentRCert rc

def doCheckValidValue : EngineM Unit := do
  let rs := (← get).rs
  let (nhl, _) := rs.getCurrentNext
  let (pcl, _) := rs.getCurrentPreCommits
  let (pvl, _) := rs.getCurrentPreVotes
  if nhl.length ≥ rs.getCurrentThreshold then
    if ← tolerate (updateValidValue env (← first nhl).proposal) then
      let _ ← tolerate (castNewCommittedBlockHeader ce env nhl)
    else
      return
  else if pcl.length > rs.getCurrentThreshold then
    let _ ← tolerate (updateValidValue env (← first pcl).proposal)
  else if pvl.length ≥ rs.getCurrentThreshold then
    let _ ← tolerate (updateValidValue env (← first pvl).proposal)
  else
    return

def doNextHeightStep : EngineM Unit := whenValidator do
  let rs := (← get).rs
  let (nhl, _) := rs.getCurrentNext
  if nhl.length ≥ rs.getCurrentThreshold then
    let _ ← tolerate (castNewCommittedBlockHeader ce env nhl)
  else
    return

/-- The part of `doHeightJumpStep` that builds the block when it had no transactions. -/
def heightJumpEmptyBlock (rcert : RCert) : EngineM Bool := do
  let ownRcert := (← get).rs.rCert
  let txRoot ← ext (ce.crypto.makeTxRoot [])
  let bclaims := (← get).rs.ownState.syncToBH.bClaims
  let headerRoot ← getHeaderTrieRoot bclaims.height
  let bh : BlockHeader := {
    bClaims :=
      { prevBlock := ownRcert.prevBlock, headerRoot, stateRoot := bclaims.stateRoot, txRoot,
                 chainID := ownRcert.chainID, height := ownRcert.height, txCount := 0 }
    txHshLst := []
    sigGroup := rcert.sigGroup }
  if ce.crypto.blockHash bh.bClaims ≠ rcert.prevBlock then
    return false
  else if ← isValid env bh.bClaims.chainID bh.bClaims.stateRoot bh.bClaims.headerRoot [] then
    match bh.validateSignatures ce.crypto with
    | .error _ => return false
    | .ok _ =>
      setMostRecentBlockHeader ce env bh
      return true
  else
    return false

def doHeightJumpStep (rcert : RCert) : EngineM Bool := do
  let rs := (← get).rs
  if rcert.height ≠ rs.rCert.height + 1 ∨ rcert.round ≠ 1 then
    return false
  else
    match rs.validValue with
    | none => heightJumpEmptyBlock ce env rcert
    | some vv =>
      if rs.validValueCurrent ∧ ce.crypto.blockHash vv.bClaims = rcert.prevBlock then
        if ← tolerate (castNewCommittedBlockFromProposalAndRCert ce env vv rcert) then
          clearValues
          return true
        else
          return false
      else
        heightJumpEmptyBlock ce env rcert

/-! ## The dispatcher -/

def validatorStates (rs : RoundStates) : List RoundState :=
  rs.validatorSet.validators.filterMap fun vObj => rs.getRoundState vObj.vAddr

/-- `ChFr`: validators in a later round of the own height. -/
def futureRound (rs : RoundStates) : List RoundState :=
  (validatorStates rs).filter fun v =>
    relateH rs.rCert v.rCert == .eq && relateHR rs.rCert v.rCert == .lt

/-- `FH`: validators at a later height. -/
def futureHeight (rs : RoundStates) : List RoundState :=
  (validatorStates rs).filter fun v => relateH rs.rCert v.rCert == .lt

/-- The first of the highest certificates of round 1. -/
def maxHR (fh : List RoundState) : Option RCert :=
  fh.foldl (fun m v =>
    if v.rCert.height > (m.map (·.height)).getD 0 ∧ v.rCert.round = 1 then some v.rCert else m) none

/-- The first of the certificates of the highest round. -/
def maxRCert (chFr : List RoundState) : Option RCert :=
  chFr.foldl (fun m v =>
    match m with
    | none => some v.rCert
    | some rc => if v.rCert.round > rc.round then some v.rCert else m) none

/-- The certificate of a validator that is in the dead block round of the own height. -/
def deadBlockRoundRCert (chFr : List RoundState) : Option RCert :=
  (chFr.find? (·.rCert.round == Constants.deadBlockRound)).map (·.rCert)

/-- Continue in the own round: from a cast `NextRound` down to the proposal. -/
def dispatch : EngineM Unit := do
  let rs := (← get).rs
  let os := rs.ownRoundState
  let rcert := rs.rCert
  if os.nrCurrent rcert then
    doNextRoundStep ce env
  else if os.pcCurrent rcert then
    if env.pctoExpired then doPendingNext ce env else doPreCommitStep ce env
  else if os.pcnCurrent rcert then
    if env.pctoExpired then doPendingNext ce env else doPreCommitNilStep ce env
  else if os.pvCurrent rcert then
    if env.pvtoExpired then doPendingPreCommit ce env else doPreVoteStep ce
  else if os.pvnCurrent rcert then
    if env.pvtoExpired then doPendingPreCommit ce env else doPreVoteNilStep ce env
  else if env.ptoExpired then
    doPendingPreVoteStep ce env
  else if rs.localIsProposer ∧ ¬os.pCurrent rcert then
    doPendingProposalStep ce env
  else
    return

/-- What a validator does when there is no height jump and no jump into the dead block round. -/
def validatorStep : EngineM Unit := do
  let rs := (← get).rs
  let os := rs.ownRoundState
  let rcert := rs.rCert
  if os.nrCurrent rcert ∧ rcert.round = Constants.deadBlockRoundNR then
    doNextRoundStep ce env
  else
    match rs.getCurrentNext.1 with
    | nh :: _ =>
      if os.nhCurrent rcert then doNextHeightStep ce env else castNextHeightFromNextHeight ce nh
    | [] =>
      match maxRCert (futureRound rs) with
      | some rc => doRoundJump env rc
      | none => dispatch ce env

/-- `updateLocalStateInternal`; the result tells whether the node is in sync. -/
def updateLocalStateInternal : EngineM Bool := do
  let rs := (← get).rs
  let fh := futureHeight rs
  match maxHR fh with
  | some rc => doHeightJumpStep ce env rc
  | none =>
    match deadBlockRoundRCert (futureRound rs) with
    | some rc =>
      doRoundJump env rc
      return true
    | none =>
      if rs.isCurrentValidator then
        validatorStep ce env
        return true
      else
        doCheckValidValue ce env
        return fh.isEmpty

end Engine

end MadNet
