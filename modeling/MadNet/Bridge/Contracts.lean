import MadNet.Bridge.CryptoLibrary

/-!
# The state of `ETHDKG` and `ValidatorPool`

The two contracts call each other, so that they are one state here. The staking contracts appear as
what they answer (`Ctx.staking`), and so do the getters of `Snapshots`. Of the validators only the
addresses are kept: no modelled function reads the token IDs or depends on their order.
-/

namespace MadNet.Bridge

open Monitor (Address G2Big Log PhaseEvent)

/-! ## State -/

inductive Phase where
  | registrationOpen
  | shareDistribution
  | disputeShareDistribution
  | keyShareSubmission
  | mpkSubmission
  | gpkjSubmission
  | disputeGPKJSubmission
  | completion
  deriving DecidableEq

structure Participant where
  publicKey : Point
  nonce : Nat
  index : Nat
  phase : Phase
  distributedSharesHash : Nat
  commitmentsFirstCoefficient : Point
  keyShares : Point
  gpkj : G2Big

/-- The record of an address that never registered. -/
def Participant.zero : Participant where
  publicKey := (0, 0)
  nonce := 0
  index := 0
  phase := .registrationOpen
  distributedSharesHash := 0
  commitmentsFirstCoefficient := (0, 0)
  keyShares := (0, 0)
  gpkj := (0, 0, 0, 0)

/-- `ETHDKGStorage`. -/
structure Ethdkg where
  nonce : Nat
  phaseStartBlock : Nat
  phase : Phase
  numParticipants : Nat
  badParticipants : Nat
  phaseLength : Nat
  confirmationLength : Nat
  customAliceNetHeight : Nat
  masterPublicKey : G2Big
  mpkG1 : Point
  masterPublicKeyHash : Nat
  participants : Address → Participant

/-- `ValidatorPoolStorage`. -/
structure Pool where
  maxNumValidators : Nat
  isConsensusRunning : Bool
  validators : List Address
  /-- `_freeAfter` of an address in the exiting queue, of the others 0. -/
  freeAfter : Address → Nat

structure World where
  ethdkg : Ethdkg
  pool : Pool
  /-- The logs that have a processor, in the order in which they were emitted. -/
  logs : List Log

/-- What a call finds around it. -/
structure Ctx where
  sender : Address
  block : Nat
  /-- `Snapshots.getEpoch`. -/
  epoch : Nat
  /-- `Snapshots.getCommittedHeightFromLatestSnapshot`. -/
  committedHeight : Nat
  /-- `Snapshots.getAliceNetHeightFromLatestSnapshot`. -/
  aliceNetHeight : Nat
  /-- The sender owns the position in `PublicStaking`. -/
  owns : Nat → Bool
  /-- What burning, minting and transferring for an account do: they fail, or leave a number of
  shares (in a slash what remains after the reward of the disputer) in a position with an ID. -/
  staking : Address → Option (Nat × Nat)

/-- The addresses that have a role. -/
structure Roles where
  factory : Address
  snapshots : Address

namespace Roles

variable (roles : Roles) (ctx : Ctx)

def onlyFactory : Except Revert Unit := require (ctx.sender = roles.factory) "2000"

def onlySnapshots : Except Revert Unit := require (ctx.sender = roles.snapshots) "2008"

end Roles

/-! ## Phases of a round -/

namespace Ethdkg

variable (s : Ethdkg) (block : Nat)

/-- In the phase, within its length. -/
def inPhase (phase : Phase) : Bool :=
  s.phase = phase && s.phaseStartBlock ≤ block && block < s.phaseStartBlock + s.phaseLength

/-- `_phaseStartBlock + 2 * _phaseLength`, where the product is a `uint16`. -/
def phaseEnd : Except Revert Nat :=
  if 2 * s.phaseLength < 2 ^ 16 then .ok (s.phaseStartBlock + 2 * s.phaseLength)
  else .error .panic

/-- In the phase, after its length and before twice its length. -/
def pastPhase (phase : Phase) : Except Revert Bool :=
  if s.phase = phase ∧ s.phaseStartBlock + s.phaseLength ≤ block then
    return block < (← s.phaseEnd)
  else return false

def isETHDKGCompleted : Bool := s.phase = .completion

def isETHDKGHalted : Except Revert Bool := do
  let ethdkgFailedInDisputePhase :=
    (s.phase = .disputeShareDistribution || s.phase = .disputeGPKJSubmission) &&
      s.phaseStartBlock + s.phaseLength ≤ block && s.badParticipants != 0
  let ethdkgFailedInNormalPhase := (← s.phaseEnd) ≤ block
  return ethdkgFailedInNormalPhase || ethdkgFailedInDisputePhase

def isETHDKGRunning : Except Revert Bool :=
  -- Handling initial case
  if s.phaseStartBlock = 0 then return false
  else if s.isETHDKGCompleted then return false
  else return !(← s.isETHDKGHalted block)

def setPhase (phase : Phase) : Ethdkg :=
  { s with phase := phase, phaseStartBlock := block, numParticipants := 0 }

def setParticipant (a : Address) (p : Participant) : Ethdkg :=
  { s with participants := Function.update s.participants a p }

/-- `_moveToNextPhase`: if all validators took part, we can proceed to the next phase. -/
def moveToNextPhase (phase : Phase) (numValidators numParticipants : Nat) : Bool × Ethdkg :=
  if numParticipants = numValidators then
    (true, { s.setPhase block phase with phaseStartBlock := block + s.confirmationLength })
  else (false, { s with numParticipants := numParticipants })

end Ethdkg

def getThreshold (numParticipants : Nat) : Nat :=
  let quotient := numParticipants / 3
  if numParticipants - 3 * quotient = 2 then 2 * quotient + 1 else 2 * quotient

/-! ## `ValidatorPool` -/

namespace Pool

variable (p : Pool) (ctx : Ctx) (a : Address)

def isValidator : Bool := a ∈ p.validators

def isInExitingQueue : Bool := 0 < p.freeAfter a

def isAccusable : Bool := p.isValidator a || p.isInExitingQueue a

def removeValidatorData : Pool := { p with validators := p.validators.erase a }

def removeExitingQueueData : Pool := { p with freeAfter := Function.update p.freeAfter a 0 }

def claimPeriod : Nat := 3

def maxIntervalWithoutSnapshots : Nat := 8192

def moveToExitingQueue : Pool :=
  { p.removeValidatorData a with
    freeAfter := Function.update p.freeAfter a (ctx.epoch + claimPeriod) }

/-- What the staking contracts do for the account. -/
def stake : Except Revert (Nat × Nat) :=
  match ctx.staking a with
  | some position => .ok position
  | none => .error .staking

def registerValidator : Except Revert Pool := do
  require (p.validators.length ≤ p.maxNumValidators) "805"
  require (!p.isAccusable a) "816"
  let _ ← stake ctx a
  return { p with validators := p.validators ++ [a] }

def unregisterValidator : Except Revert Pool := do
  require (p.isValidator a) "817"
  let _ ← stake ctx a
  return p.moveToExitingQueue ctx a

end Pool

namespace World

variable (roles : Roles) (ctx : Ctx) (w : World)

def assertNotETHDKGRunning : Except Revert Unit := do
  require (!(← w.ethdkg.isETHDKGRunning ctx.block)) "802"

def assertNotConsensusRunning : Except Revert Unit := require (!w.pool.isConsensusRunning) "801"

/-- The modifiers of the functions that change the validators or open a round. -/
def onlyFactoryWhileHalted : Except Revert Unit := do
  roles.onlyFactory ctx
  w.assertNotETHDKGRunning ctx
  w.assertNotConsensusRunning

def registerValidators (validators : List Address) (stakerTokenIDs : List Nat) :
    Except Revert World := do
  w.onlyFactoryWhileHalted roles ctx
  require (validators.length + w.pool.validators.length ≤ w.pool.maxNumValidators) "805"
  require (validators.length = stakerTokenIDs.length) "806"
  let pool ← (validators.zip stakerTokenIDs).foldlM (fun pool v => do
    require (ctx.owns v.2) "807"
    pool.registerValidator ctx v.1) w.pool
  return { w with pool := pool }

def unregisterValidators (validators : List Address) : Except Revert World := do
  w.onlyFactoryWhileHalted roles ctx
  require (validators.length ≤ w.pool.validators.length) "808"
  let pool ← validators.foldlM (fun pool v => pool.unregisterValidator ctx v) w.pool
  return { w with pool := pool }

def unregisterAllValidators : Except Revert World := do
  w.onlyFactoryWhileHalted roles ctx
  let pool ← w.pool.validators.reverse.foldlM (fun pool v => pool.unregisterValidator ctx v) w.pool
  return { w with pool := pool }

def claimExitingNFTPosition : Except Revert World := do
  require (0 < w.pool.freeAfter ctx.sender) "812"
  require (w.pool.freeAfter ctx.sender < ctx.epoch) "813"
  let _ ← Pool.stake ctx ctx.sender
  return { w with pool := w.pool.removeExitingQueueData ctx.sender }

def setMaxNumValidators (maxNumValidators : Nat) : Except Revert World := do
  roles.onlyFactory ctx
  return { w with pool := { w.pool with maxNumValidators := maxNumValidators } }

def pauseConsensus : Except Revert World := do
  roles.onlySnapshots ctx
  return { w with pool := { w.pool with isConsensusRunning := false } }

/-- `ETHDKG.setCustomAliceNetHeight`, which only the pool may call. -/
def setCustomAliceNetHeight (aliceNetHeight : Nat) : World :=
  { w with
    ethdkg := { w.ethdkg with customAliceNetHeight := aliceNetHeight }
    logs := w.logs ++ [.validatorSetCompleted 0 w.ethdkg.nonce ctx.epoch ctx.committedHeight
      aliceNetHeight (0, 0, 0, 0)] }

def pauseConsensusOnArbitraryHeight (aliceNetHeight : Nat) : Except Revert World := do
  roles.onlyFactory ctx
  require (ctx.committedHeight + Pool.maxIntervalWithoutSnapshots < ctx.block) "804"
  return World.setCustomAliceNetHeight ctx
    { w with pool := { w.pool with isConsensusRunning := false } } aliceNetHeight

/-! ### Slashing, which only `ETHDKG` may do -/

def majorSlash (dishonestValidator : Address) : Except Revert World := do
  require (w.pool.isAccusable dishonestValidator) "814"
  let _ ← Pool.stake ctx dishonestValidator
  return {
    w with
    pool := if w.pool.isValidator dishonestValidator then
        w.pool.removeValidatorData dishonestValidator
      else w.pool.removeExitingQueueData dishonestValidator
    logs := w.logs ++ [.validatorMajorSlashed dishonestValidator] }

def minorSlash (dishonestValidator : Address) : Except Revert World := do
  require (w.pool.isAccusable dishonestValidator) "814"
  let (minerShares, stakeTokenID) ← Pool.stake ctx dishonestValidator
  -- Without shares for a new position the state is just cleaned.
  return {
    w with
    pool := if 0 < minerShares then w.pool.moveToExitingQueue ctx dishonestValidator
      else if w.pool.isValidator dishonestValidator then w.pool.removeValidatorData
      dishonestValidator
      else w.pool.removeExitingQueueData dishonestValidator
    logs := w.logs ++ [.validatorMinorSlashed dishonestValidator
      (if 0 < minerShares then stakeTokenID else 0)] }

/-! ## `ETHDKG` -/

def minValidators : Nat := 4

def onlyValidator : Except Revert Unit := require (w.pool.isValidator ctx.sender) "100"

def initializeETHDKG : Except Revert World := do
  w.onlyFactoryWhileHalted roles ctx
  let numberValidators := w.pool.validators.length
  require (minValidators ≤ numberValidators) "102"
  let nonce := w.ethdkg.nonce + 1
  return {
    w with
    ethdkg := { w.ethdkg with
      phaseStartBlock := ctx.block
      nonce := nonce
      numParticipants := 0
      badParticipants := 0
      phase := .registrationOpen }
    logs := w.logs ++ [.registrationOpened ctx.block numberValidators nonce w.ethdkg.phaseLength
      w.ethdkg.confirmationLength] }

/-- The check of the two setters. -/
def onlyFactoryWhileNotRunning : Except Revert Unit := do
  roles.onlyFactory ctx
  require (!(← w.ethdkg.isETHDKGRunning ctx.block)) "101"

def setPhaseLength (phaseLength : Nat) : Except Revert World := do
  w.onlyFactoryWhileNotRunning roles ctx
  return { w with ethdkg := { w.ethdkg with phaseLength := phaseLength % 2 ^ 16 } }

def setConfirmationLength (confirmationLength : Nat) : Except Revert World := do
  w.onlyFactoryWhileNotRunning roles ctx
  return { w with ethdkg := { w.ethdkg with confirmationLength := confirmationLength % 2 ^ 16 } }

/-! ### `ETHDKGPhases` -/

/-- The end of the functions by which the validators take part: the sender has taken part in the
phase, and if it was the last one the `next` phase starts. -/
def takePart (next : Phase) (log : Log) (done : PhaseEvent) (s : Ethdkg) : World :=
  let moved := s.moveToNextPhase ctx.block next w.pool.validators.length (s.numParticipants + 1)
  { w with
    ethdkg := moved.2
    logs := w.logs ++ log :: if moved.1 then [.phase done] else [] }

def register (publicKey : Point) : Except Revert World := do
  w.onlyValidator ctx
  require (w.ethdkg.inPhase ctx.block .registrationOpen) "128"
  require (publicKey.1 != 0 && publicKey.2 != 0) "130"
  require (bn128IsOnCurve publicKey) "131"
  require ((w.ethdkg.participants ctx.sender).nonce < w.ethdkg.nonce) "132"
  let participant : Participant := {
    publicKey := publicKey
    index := w.ethdkg.numParticipants + 1
    nonce := w.ethdkg.nonce
    phase := w.ethdkg.phase
    distributedSharesHash := 0
    commitmentsFirstCoefficient := (0, 0)
    keyShares := (0, 0)
    gpkj := (0, 0, 0, 0) }
  return w.takePart ctx .shareDistribution (.phase .addressRegistered) .registrationComplete
    (w.ethdkg.setParticipant ctx.sender participant)

/-- `keccak256` of the hash of the shares and the hash of the commitments. -/
def sharesHash (L : Precompiles) (encryptedShares : List Nat) (commitments : List Point) : Nat :=
  L.keccak256 (word (L.keccak256 (encryptedShares.flatMap word)) ++
    word (L.keccak256 (commitments.flatMap Point.bytes)))

def checkCommitment (c : Point) : Except Revert Unit := do
  require (bn128IsOnCurve c) "138"
  require (c.1 != 0) "138"

def distributeShares (L : Precompiles) (encryptedShares : List Nat) (commitments : List Point) :
    Except Revert World := do
  w.onlyValidator ctx
  require (w.ethdkg.inPhase ctx.block .shareDistribution) "133"
  let participant := w.ethdkg.participants ctx.sender
  require (participant.nonce = w.ethdkg.nonce) "134"
  require (participant.phase = .registrationOpen) "135"
  let numValidators := w.pool.validators.length
  require (encryptedShares.length = numValidators - 1) "136"
  require (commitments.length = getThreshold numValidators + 1) "137"
  commitments.forM checkCommitment
  let distributedSharesHash := sharesHash L encryptedShares commitments
  require (distributedSharesHash != 0) "139"
  let participant := { participant with
    distributedSharesHash := distributedSharesHash
    commitmentsFirstCoefficient := commitments.headD (0, 0)
    phase := .shareDistribution }
  return w.takePart ctx .disputeShareDistribution (.phase .sharesDistributed)
    .shareDistributionComplete (w.ethdkg.setParticipant ctx.sender participant)

/-- The state in which a key share is accepted. After the dispute stage it is set here. -/
def keySharePhase : Except Revert Ethdkg :=
  if w.ethdkg.inPhase ctx.block .keyShareSubmission then return w.ethdkg
  else do
    let past ← w.ethdkg.pastPhase ctx.block .disputeShareDistribution
    require (past && w.ethdkg.badParticipants == 0) "140"
    return w.ethdkg.setPhase ctx.block .keyShareSubmission

def submitKeyShare (L : Precompiles) (keyShareG1 keyShareG1CorrectnessProof : Point)
    (keyShareG2 : G2Big) : Except Revert World := do
  w.onlyValidator ctx
  let s ← w.keySharePhase ctx
  let participant := s.participants ctx.sender
  require (participant.nonce = s.nonce) "150"
  require (participant.phase = .shareDistribution) "141"
  require (← L.discreteLogEquality H1 keyShareG1 G1 participant.commitmentsFirstCoefficient
    keyShareG1CorrectnessProof) "141"
  require (← L.bn128CheckPairing keyShareG1 H2 H1 keyShareG2) "142"
  let participant := { participant with keyShares := keyShareG1, phase := .keyShareSubmission }
  let mpkG1 := if 1 < s.numParticipants + 1 then s.mpkG1 else (0, 0)
  let mpkG1 ← L.bn128Add mpkG1 participant.keyShares
  return w.takePart ctx .mpkSubmission (.phase .keyShareSubmitted) .keyShareSubmissionComplete
    { s.setParticipant ctx.sender participant with mpkG1 := mpkG1 }

def submitMasterPublicKey (L : Precompiles) (masterPublicKey : G2Big) : Except Revert World := do
  require (w.ethdkg.inPhase ctx.block .mpkSubmission) "143"
  require (← L.bn128CheckPairing w.ethdkg.mpkG1 H2 H1 masterPublicKey) "144"
  return {
    w with
    ethdkg := Ethdkg.setPhase { w.ethdkg with
      masterPublicKey := masterPublicKey
      masterPublicKeyHash := L.keccak256 (bytesG2 masterPublicKey) } ctx.block .gpkjSubmission
    logs := w.logs ++ [.phase .mpkSet] }

def submitGPKJ (gpkj : G2Big) : Except Revert World := do
  w.onlyValidator ctx
  require (w.ethdkg.inPhase ctx.block .gpkjSubmission) "145"
  let participant := w.ethdkg.participants ctx.sender
  require (participant.nonce = w.ethdkg.nonce) "150"
  require (participant.phase = .keyShareSubmission) "146"
  require (gpkj.1 != 0 || gpkj.2.1 != 0 || gpkj.2.2.1 != 0 || gpkj.2.2.2 != 0) "147"
  return w.takePart ctx .disputeGPKJSubmission
    (.validatorMemberAdded ctx.sender participant.index participant.nonce ctx.epoch gpkj)
    .gpkjSubmissionComplete (w.ethdkg.setParticipant ctx.sender
      { participant with gpkj := gpkj, phase := .gpkjSubmission })

def complete : Except Revert World := do
  w.onlyValidator ctx
  require (← w.ethdkg.pastPhase ctx.block .disputeGPKJSubmission) "148"
  require (w.ethdkg.badParticipants = 0) "149"
  let s := w.ethdkg.setPhase ctx.block .completion
  let aliceNetHeight :=
    if s.customAliceNetHeight = 0 then ctx.aliceNetHeight else s.customAliceNetHeight
  return {
    ethdkg := { s with customAliceNetHeight := 0 }
    -- `completeETHDKG`
    pool := { w.pool with isConsensusRunning := true }
    logs := w.logs ++ [.validatorSetCompleted (w.pool.validators.length % 2 ^ 8) s.nonce ctx.epoch
      ctx.committedHeight aliceNetHeight s.masterPublicKey] }

/-- One validator of `migrateValidators`: its address, its index and its share. -/
abbrev Migrated := Address × Nat × G2Big

def migrate (nonce : Nat) (ps : Address → Participant) (v : Migrated) : Address → Participant :=
  Function.update ps v.1
    { ps v.1 with index := v.2.1 % 2 ^ 64, nonce := nonce, phase := .completion, gpkj := v.2.2 }

def migrateValidators (L : Precompiles) (validatorsAccounts : List Address)
    (validatorIndexes : List Nat) (validatorShares : List G2Big)
    (validatorCount epoch sideChainHeight ethHeight : Nat) (masterPublicKey : G2Big) :
    Except Revert World := do
  roles.onlyFactory ctx
  require (w.ethdkg.nonce = 0) "151"
  require (validatorsAccounts.length = validatorIndexes.length &&
    validatorsAccounts.length = validatorShares.length) "152"
  let nonce := 1
  let count := validatorCount % 2 ^ 8
  let validators : List Migrated := validatorsAccounts.zip (validatorIndexes.zip validatorShares)
  return {
    ethdkg := { w.ethdkg with
      participants := validators.foldl (migrate nonce) w.ethdkg.participants
      masterPublicKey := masterPublicKey
      masterPublicKeyHash := L.keccak256 (bytesG2 masterPublicKey)
      nonce := nonce
      numParticipants := count }
    -- `completeETHDKG`
    pool := { w.pool with isConsensusRunning := true }
    logs := w.logs ++ .registrationOpened ctx.block count nonce 0 0 ::
      validators.map (fun _ => .phase .addressRegistered) ++
      validators.map (fun v => .validatorMemberAdded v.1 v.2.1 nonce epoch v.2.2) ++
      [.validatorSetCompleted count nonce epoch ethHeight sideChainHeight masterPublicKey] }

end World

end MadNet.Bridge
