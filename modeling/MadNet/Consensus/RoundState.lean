import MadNet.Consensus.Signatures

/-!
# The round state of one validator (`rs.go`)

A `RoundState` holds the votes seen from one validator in its current round, the `NextHeight` seen
from it at its current height, and the evidence of equivocation found so far. Every setter is a
program over the `RoundState`; what it has written before it fails stays written.
-/

namespace MadNet

structure RoundState where
  vAddr : Bytes
  groupKey : Bytes
  groupShare : Bytes
  groupIdx : UInt8
  rCert : RCert
  conflictingRCert : Option RCert := none
  proposal : Option Proposal := none
  conflictingProposal : Option Proposal := none
  preVote : Option PreVote := none
  conflictingPreVote : Option PreVote := none
  preVoteNil : Option PreVoteNil := none
  implicitPVN : Bool := false
  preCommit : Option PreCommit := none
  conflictingPreCommit : Option PreCommit := none
  preCommitNil : Option PreCommitNil := none
  implicitPCN : Bool := false
  nextRound : Option NextRound := none
  nextHeight : Option NextHeight := none
  conflictingNextHeight : Option NextHeight := none
  deriving DecidableEq, Inhabited

/-- The types `setReset` and `setType` accept: a round certificate or a vote. -/
inductive RoundObj where
  | rCert (v : RCert)
  | vote (v : Vote)

def RoundObj.toRCert : RoundObj → RCert
  | rCert v => v
  | vote v => v.rCert

namespace RoundState

/-- `Reset`. It also sets `RCert` to nil; its one caller then stores a new one, so the field keeps
its value here. -/
def reset (b : RoundState) : RoundState :=
  { b with
    conflictingRCert := none
    proposal := none
    conflictingProposal := none
    preVote := none
    conflictingPreVote := none
    preVoteNil := none
    implicitPVN := false
    preCommit := none
    conflictingPreCommit := none
    preCommitNil := none
    implicitPCN := false
    nextRound := none }

/-! ## Queries -/

def pCurrent (b : RoundState) (a : RCert) : Bool := b.proposal.any (relateHR a ·.rCert == .eq)
def pvCurrent (b : RoundState) (a : RCert) : Bool := b.preVote.any (relateHR a ·.rCert == .eq)
def pvnCurrent (b : RoundState) (a : RCert) : Bool := b.preVoteNil.any (relateHR a ·.rCert == .eq)
def pcCurrent (b : RoundState) (a : RCert) : Bool := b.preCommit.any (relateHR a ·.rCert == .eq)
def pcnCurrent (b : RoundState) (a : RCert) : Bool := b.preCommitNil.any (relateHR a ·.rCert == .eq)
def nrCurrent (b : RoundState) (a : RCert) : Bool := b.nextRound.any (relateHR a ·.rCert == .eq)

/-- In the dead block round only a `NextHeight` of that round counts, before it one of any round
of the height. -/
def nhCurrent (b : RoundState) (a : RCert) : Bool :=
  b.nextHeight.any fun nh =>
    if isDeadBlockRound a || isDeadBlockRound b.rCert then
      relateHR a nh.rCert == .eq
    else
      relateH a nh.rCert == .eq

/-! ## Storing a vote -/

/-- `setType`. -/
def setVote (b : RoundState) : Vote → RoundState
  | .proposal v => { b with proposal := some v }
  | .preVote v => { b with preVote := some v }
  | .preVoteNil v => { b with preVoteNil := some v }
  | .preCommit v => { b with preCommit := some v }
  | .preCommitNil v => { b with preCommitNil := some v }
  | .nextRound v => { b with nextRound := some v }
  | .nextHeight v => { b with nextHeight := some v }

def setType (b : RoundState) : RoundObj → RoundState
  | .rCert v => { b with rCert := v }
  | .vote v => b.setVote v

/-- The round in which `setReset` drops the `NextHeight` votes of the validator. -/
def nextHeightResetRound : RoundObj → UInt32
  | .vote (.nextRound _) => Constants.deadBlockRoundNR
  | _ => Constants.deadBlockRound

def setReset (b : RoundState) (any : RoundObj) : RoundState :=
  let isFutureHeight := relateH b.rCert any.toRCert == .lt
  let b :=
    if any.toRCert.round == nextHeightResetRound any || isFutureHeight then
      { b with nextHeight := none, conflictingNextHeight := none }
    else b
  (b.reset.setType (.rCert any.toRCert)).setType any

def setTypeConflict (b : RoundState) (any : Vote) (internal : Bool) : RoundState :=
  let b :=
    if internal then
      match any with
      | .proposal v => { b with conflictingProposal := some v }
      | .preVote v => { b with conflictingPreVote := some v }
      | .preVoteNil v => { b with conflictingRCert := some v.rCert }
      | .preCommit v => { b with conflictingPreCommit := some v }
      | .preCommitNil v => { b with conflictingRCert := some v.rCert }
      | .nextRound v => { b with conflictingRCert := some v.rCert }
      | .nextHeight v => { b with conflictingNextHeight := some v }
    else b
  { b with implicitPVN := true, implicitPCN := true }

/-! ## Checks -/

def resetNHForDBR (b : RoundState) (v : Vote) : RoundState :=
  if isDeadBlockRound v.rCert then
    { b with
      nextHeight := b.nextHeight.filter (isDeadBlockRound ·.rCert)
      conflictingNextHeight := b.conflictingNextHeight.filter (isDeadBlockRound ·.rCert) }
  else b

def checkSameTypeConflict (b : RoundState) (any : Vote) : Except Err Unit :=
  if b.implicitPVN || b.implicitPCN then
    .error (.invalid "RoundState.checkSameTypeConflict; pvn or pcn implicit nil set")
  else if b.conflictingRCert.isSome then
    .error (.invalid "RoundState.checkSameTypeConflict; conflicting rc")
  else
    match any with
    | .proposal _ =>
      if b.conflictingProposal.isSome then
        .error (.invalid "RoundState.checkSameTypeConflict; conflicting p set")
      else .ok ()
    | .preVote _ =>
      if b.preVoteNil.isSome then
        .error (.invalid "RoundState.checkSameTypeConflict; conflicting pvn set")
      else if b.conflictingPreVote.isSome then
        .error (.invalid "RoundState.checkSameTypeConflict; conflicting pv set")
      else .ok ()
    | .preVoteNil _ =>
      if b.preVote.isSome then
        .error (.invalid "RoundState.checkSameTypeConflict; pv and pvn")
      else .ok ()
    | .preCommit _ =>
      if b.preVoteNil.isSome then
        .error (.invalid "RoundState.checkSameTypeConflict; pc and pvn")
      else if b.preCommitNil.isSome then
        .error (.invalid "RoundState.checkSameTypeConflict; pc and pcn")
      else if b.conflictingPreCommit.isSome then
        .error (.invalid "RoundState.checkSameTypeConflict; pc and conflicting pc set")
      else .ok ()
    | .preCommitNil _ =>
      if b.preCommit.isSome then
        .error (.invalid "RoundState.checkSameTypeConflict; pc and pcn on nil side")
      else .ok ()
    | .nextRound _ => .ok ()
    | .nextHeight _ =>
      if b.conflictingNextHeight.isSome then
        .error (.invalid "RoundState.checkSameTypeConflict; nh conflicting set")
      else .ok ()

def checkTypeStale (b : RoundState) (any : Vote) (internal : Bool) : Except Err Unit :=
  if !internal then .ok ()
  else
    match any with
    | .proposal _ =>
      if b.proposal.isSome then .error (.stale "RoundState.checkTypeStale; prop already set")
      else .ok ()
    | .preVote _ =>
      if b.preVote.isSome then .error (.stale "RoundState.checkTypeStale; pv already set")
      else .ok ()
    | .preVoteNil _ =>
      if b.preVoteNil.isSome then .error (.stale "RoundState.checkTypeStale; pvn already set")
      else .ok ()
    | .preCommit _ =>
      if b.preCommit.isSome then .error (.stale "RoundState.checkTypeStale; pc already set")
      else .ok ()
    | .preCommitNil _ =>
      if b.preCommitNil.isSome then .error (.stale "RoundState.checkTypeStale; pcn already set")
      else .ok ()
    | .nextHeight _ =>
      if b.nextHeight.isSome then .error (.stale "RoundState.checkTypeStale; nh already set")
      else .ok ()
    | .nextRound _ =>
      if b.nextRound.isSome then .error (.stale "RoundState.checkTypeStale; nr already set")
      else .ok ()

section Setters

variable (c : Crypto)

/-- The stored claims `b` equal those of `a`, if both exist. -/
def bClaimsAgree (a : Vote) (b : Option BClaims) : Bool :=
  match a.bClaims?, b with
  | some x, some y => bClaimsEqual c x y
  | _, _ => true

/-- The stored certificate `b` names the same previous block as `a`, if it exists. -/
def prevBlockAgree (a : Vote) (b : Option RCert) : Bool := b.all (prevBlockEqual a.rCert)

/-- The comparisons of `checkConflict` with the stored votes. -/
def agreesWithStored (b : RoundState) (a : Vote) : Bool := prevBlockEqual b.rCert a.rCert &&
  bClaimsAgree c a (b.proposal.map (·.bClaims)) &&
  bClaimsAgree c a (b.preVote.map (·.bClaims)) &&
  prevBlockAgree a (b.preVoteNil.map (·.rCert)) &&
  bClaimsAgree c a (b.preCommit.map (·.bClaims)) &&
  prevBlockAgree a (b.preCommitNil.map (·.rCert)) &&
  prevBlockAgree a (b.nextRound.map (·.rCert)) &&
  bClaimsAgree c a (b.nextHeight.map (·.bClaims))

def checkConflict (a : Vote) (internal : Bool) : EStateM Err RoundState Unit := do
  if internal then
    modify (·.resetNHForDBR a)
    MonadExcept.ofExcept ((← get).checkSameTypeConflict a)
  unless (← get).agreesWithStored c a do
    throw .conflict

def checkStaleAndConflict (a : Vote) (internal : Bool) : EStateM Err RoundState Bool := do
  match ← Prog.attempt (checkConflict c a internal) with
  | .error .conflict =>
    modify (·.setTypeConflict a internal)
    return false
  | .error e => throw e
  | .ok _ =>
    MonadExcept.ofExcept ((← get).checkTypeStale a internal)
    return true

/-- `genericSet`. Its branch for a `NextHeight` of an earlier round has no caller and is left out:
`SetNextHeight` does not go through this function. -/
def genericSet (v : Vote) : EStateM Err RoundState Bool := do
  let b ← get
  match relateH b.rCert v.rCert with
  | .gt => throw (.stale "RoundState.genericSet; relationH == 1")
  | .lt =>
    set (b.setReset (.vote v))
    return true
  | .eq =>
    match relateHR b.rCert v.rCert with
    | .gt => throw (.stale "RoundState.genericSet; relationHR == 1")
    | .lt =>
      set (b.setReset (.vote v))
      return true
    | .eq =>
      if ← checkStaleAndConflict c v true then
        modify (·.setVote v)
        return true
      else
        return false

/-- `SetProposal`, `SetPreVote` and `SetPreCommit`, which carry a proposal: the dead block round
admits no transactions and no conflicting vote. -/
def setWithProposal (v : Vote) (p : Proposal) (txs corrupt : String) :
    EStateM Err RoundState Bool := do
  if isDeadBlockRound v.rCert && !p.txHshLst.isEmpty then
    throw (.invalid txs)
  else
    let ok ← genericSet c v
    if !ok && isDeadBlockRound v.rCert then
      throw (.invalid corrupt)
    else
      return ok

/-- `SetPreVoteNil`, `SetPreCommitNil` and `SetNextRound`: there is no such vote in the dead block
round, so their second test of the round never holds. -/
def setBelowDBR (v : Vote) (dbr : String) : EStateM Err RoundState Bool := do
  if isDeadBlockRound v.rCert then
    throw (.invalid dbr)
  else
    genericSet c v

def setProposal (v : Proposal) : EStateM Err RoundState Bool :=
  setWithProposal c (.proposal v) v "RoundState.SetProposal; tx hash in DBR set proposal"
    "RoundState.SetProposal; corrupt p in dbr"

def setPreVote (v : PreVote) : EStateM Err RoundState Bool :=
  setWithProposal c (.preVote v) v.proposal "RoundState.SetPreVote; tx hash in dbr set pv"
    "RoundState.SetPreVote; corrupt pv in dbr"

def setPreVoteNil (v : PreVoteNil) : EStateM Err RoundState Bool :=
  setBelowDBR c (.preVoteNil v) "RoundState.SetPreVoteNil; dbr tx hash in set pvn"

def setPreCommit (v : PreCommit) : EStateM Err RoundState Bool :=
  setWithProposal c (.preCommit v) v.proposal "RoundState.SetPreCommit; dbr tx hash in set pc"
    "RoundState.SetPreCommit; corrupt pc in dbr"

def setPreCommitNil (v : PreCommitNil) : EStateM Err RoundState Bool :=
  setBelowDBR c (.preCommitNil v) "RoundState.SetPreCommitNil; dbr tx hash in pcn"

def setNextRound (v : NextRound) : EStateM Err RoundState Bool :=
  setBelowDBR c (.nextRound v) "RoundState.SetNextRound; nr in dbr"

/-- `SetNextHeight` compares heights only: the vote of any round of the height is stored, and the
round certificate stays. -/
def setNextHeight (v : NextHeight) : EStateM Err RoundState Bool := do
  if isDeadBlockRound v.rCert && !v.proposal.txHshLst.isEmpty then
    throw (.invalid "RoundState.SetNextHeight; set nh dbr tx hash")
  else
    let b ← get
    match relateH b.rCert v.rCert with
    | .gt => throw (.stale "RoundState.SetNextHeight; set nh relation == 1")
    | .lt =>
      set (b.setReset (.vote (.nextHeight v)))
      return true
    | .eq =>
      if ← checkStaleAndConflict c (.nextHeight v) true then
        modify (·.setVote (.nextHeight v))
        return true
      else
        return false

def setRCert (rc : RCert) : EStateM Err RoundState Unit :=
  modify (·.setReset (.rCert rc))

/-- `TrackExternalConflicts` ignores what `checkStaleAndConflict` returns. -/
def trackExternalConflicts (v : Proposal) : EStateM Err RoundState Unit := do
  match relateHR (← get).rCert v.rCert with
  | .eq =>
    let _ ← Prog.attempt (checkStaleAndConflict c (.proposal v) false)
  | _ => return

/-- The setter of each vote type. -/
def set (v : Vote) : EStateM Err RoundState Bool :=
  match v with
  | .proposal v => setProposal c v
  | .preVote v => setPreVote c v
  | .preVoteNil v => setPreVoteNil c v
  | .preCommit v => setPreCommit c v
  | .preCommitNil v => setPreCommitNil c v
  | .nextRound v => setNextRound c v
  | .nextHeight v => setNextHeight c v

end Setters

end RoundState

end MadNet
