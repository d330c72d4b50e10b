import MadNet.Bridge.Contracts

/-!
# `libraries/ethdkg/ETHDKGAccusations.sol` and the calls of the two contracts
-/

namespace MadNet.Bridge

open Monitor (Address G2Big)

namespace World

variable (L : Precompiles) (roles : Roles) (ctx : Ctx) (w : World)

/-! ## Accusations of not taking part -/

/-- `badParticipants++` of a `uint16`. -/
def countBad (w : World) : Except Revert World :=
  if w.ethdkg.badParticipants + 1 < 2 ^ 16 then
    .ok { w with ethdkg := { w.ethdkg with badParticipants := w.ethdkg.badParticipants + 1 } }
  else .error .panic

/-- Slash each of the addresses, which must be validators whose record passes `check`. A minor fine
is enough to evict a validator from the pool, so that nobody is accused twice. -/
def accuseEach (check : Participant → Except Revert Unit) (dishonestAddresses : List Address) :
    Except Revert World :=
  dishonestAddresses.foldlM (fun w a => do
    require (w.pool.isValidator a) "104"
    check (w.ethdkg.participants a)
    countBad (← w.minorSlash ctx a)) w

def accuseParticipantNotRegistered (dishonestAddresses : List Address) : Except Revert World := do
  require (← w.ethdkg.pastPhase ctx.block .registrationOpen) "103"
  w.accuseEach ctx (fun p => require (p.nonce != w.ethdkg.nonce) "105") dishonestAddresses

def accuseParticipantDidNotDistributeShares (dishonestAddresses : List Address) :
    Except Revert World := do
  require (← w.ethdkg.pastPhase ctx.block .shareDistribution) "106"
  w.accuseEach ctx (fun p => do
    require (p.nonce = w.ethdkg.nonce) "107"
    require (p.phase ≠ .shareDistribution) "108"
    require (p.distributedSharesHash = 0) "108"
    require (p.commitmentsFirstCoefficient = (0, 0)) "109") dishonestAddresses

def accuseParticipantDidNotSubmitKeyShares (dishonestAddresses : List Address) :
    Except Revert World := do
  require (← w.ethdkg.pastPhase ctx.block .keyShareSubmission) "116"
  w.accuseEach ctx (fun p => do
    require (p.nonce = w.ethdkg.nonce) "107"
    require (p.phase ≠ .keyShareSubmission) "117"
    require (p.keyShares = (0, 0)) "117") dishonestAddresses

def accuseParticipantDidNotSubmitGPKJ (dishonestAddresses : List Address) :
    Except Revert World := do
  require (← w.ethdkg.pastPhase ctx.block .gpkjSubmission) "118"
  w.accuseEach ctx (fun p => do
    require (p.nonce = w.ethdkg.nonce) "107"
    require (p.phase ≠ .gpkjSubmission) "120"
    require (p.gpkj = (0, 0, 0, 0)) "121") dishonestAddresses

/-! ## Accusations of bad data -/

/-- In the dispute phase, or past the phase before it: we should allow an accusation even if some of
the participants did not participate. -/
def inDispute (dispute before : Phase) : Except Revert Bool := do
  if w.ethdkg.inPhase ctx.block dispute then return true
  else w.ethdkg.pastPhase ctx.block before

/-- An element of an array, whose index is checked. -/
def at? {α : Type} (xs : List α) (i : Nat) : Except Revert α :=
  match xs[i]? with
  | some x => .ok x
  | none => .error .panic

/-- `a - b` of unsigned integers. -/
def sub (a b : Nat) : Except Revert Nat :=
  if b ≤ a then .ok (a - b) else .error .panic

def encryptedShareFor (disputerIndex dishonestIndex : Nat) (encryptedShares : List Nat) :
    Except Revert Nat := do
  if disputerIndex < dishonestIndex then at? encryptedShares (← sub disputerIndex 1)
  else at? encryptedShares (← sub disputerIndex 2)

/-- Use the shared key to decrypt the share for the disputer. -/
def decryptShare (sharedKey : Point) (disputerIndex share : Nat) : Nat :=
  share ^^^ L.keccak256 (word sharedKey.1 ++ uint64 disputerIndex)

/-- Add the terms of higher degree: `x` is the last power of the `index`. -/
def addTerms (index : Nat) : Nat → Point → List Point → Except Revert Point
  | _, result, [] => .ok result
  | x, result, c :: cs => do
    let x := x * index % GROUP_ORDER
    addTerms index x (← L.bn128Add result (← L.bn128Multiply c x)) cs

/-- The polynomial defined by the commitments (in group G1) evaluated at the `index`. -/
def evalCommitments (index : Nat) (commitments : List Point) : Except Revert Point := do
  let c₀ ← at? commitments 0
  let c₁ ← at? commitments 1
  let result ← L.bn128Add c₀ (← L.bn128Multiply c₁ index)
  addTerms L index index result (commitments.drop 2)

def accuseParticipantDistributedBadShares (dishonestAddress : Address) (encryptedShares : List Nat)
    (commitments : List Point) (sharedKey sharedKeyCorrectnessProof : Point) :
    Except Revert World := do
  w.onlyValidator ctx
  require (← w.inDispute ctx .disputeShareDistribution .shareDistribution) "110"
  require (w.pool.isValidator dishonestAddress) "104"
  let dishonestParticipant := w.ethdkg.participants dishonestAddress
  let disputer := w.ethdkg.participants ctx.sender
  require (disputer.nonce = w.ethdkg.nonce) "111"
  require (dishonestParticipant.nonce = w.ethdkg.nonce) "107"
  require (dishonestParticipant.phase = .shareDistribution) "112"
  require (disputer.phase = .shareDistribution) "113"
  require (dishonestParticipant.distributedSharesHash = sharesHash L encryptedShares commitments)
    "114"
  require (← L.discreteLogEquality G1 disputer.publicKey dishonestParticipant.publicKey sharedKey
    sharedKeyCorrectnessProof) "115"
  let share ← encryptedShareFor disputer.index dishonestParticipant.index encryptedShares
  let share := decryptShare L sharedKey disputer.index share
  let result ← evalCommitments L disputer.index commitments
  let tmp ← L.bn128Multiply G1 share
  -- Either the shared value is invalid, so the dishonest address should be burned; otherwise, the
  -- share is valid, and whoever submitted this accusation should be burned.
  countBad (← w.majorSlash ctx (if result ≠ tmp then dishonestAddress else ctx.sender))

/-- The arguments of an accusation for one of the participants. -/
structure Dealing where
  validator : Address
  encryptedSharesHash : Nat
  commitments : List Point

/-- The initial check of the arguments for each participant. The bits of `bitMap` are the indices
that have been seen. -/
def checkDealings (threshold : Nat) : List Dealing → Nat → Except Revert Unit
  | [], _ => .ok ()
  | d :: ds, bitMap => do
    require (d.commitments.length = threshold + 1) "125"
    let commitmentsHash := L.keccak256 (d.commitments.flatMap Point.bytes)
    let participant := w.ethdkg.participants d.validator
    require (participant.nonce = w.ethdkg.nonce && participant.index < 2 ^ 8 &&
      !bitMap.testBit participant.index) "126"
    require (participant.distributedSharesHash =
      L.keccak256 (word d.encryptedSharesHash ++ word commitmentsHash)) "127"
    checkDealings threshold ds (bitMap ||| 1 <<< participant.index)

/-- The sum of the terms of degree `k` of all participants. -/
def addDegree (commitments : List (List Point)) (k : Nat) : Except Revert Point := do
  let first ← at? (← at? commitments 0) k
  (commitments.drop 1).foldlM (fun tmp c => do L.bn128Add tmp (← at? c k)) first

/-- Add the terms of the degrees `ks`: `pow` is the last power of the `index`. -/
def addDegrees (commitments : List (List Point)) (index : Nat) : Nat → Point → List Nat →
    Except Revert Point
  | _, gpkjStar, [] => .ok gpkjStar
  | pow, gpkjStar, k :: ks => do
    let pow := pow * index % GROUP_ORDER
    let tmp ← L.bn128Multiply (← addDegree L commitments k) pow
    addDegrees commitments index pow (← L.bn128Add gpkjStar tmp) ks

/-- The sum of the polynomials of all participants at the `index`. -/
def computeGPKJStar (commitments : List (List Point)) (index threshold : Nat) :
    Except Revert Point := do
  let gpkjStar ← addDegree L commitments 0
  let tmp ← L.bn128Multiply (← addDegree L commitments 1) index
  let gpkjStar ← L.bn128Add gpkjStar tmp
  addDegrees L commitments index index gpkjStar (List.range' 2 (threshold - 1))

def accuseParticipantSubmittedBadGPKJ (validators : List Address) (encryptedSharesHash : List Nat)
    (commitments : List (List Point)) (dishonestAddress : Address) : Except Revert World := do
  w.onlyValidator ctx
  require (← w.inDispute ctx .disputeGPKJSubmission .gpkjSubmission) "118"
  require (w.pool.isValidator dishonestAddress) "104"
  let dishonestParticipant := w.ethdkg.participants dishonestAddress
  let disputer := w.ethdkg.participants ctx.sender
  require (dishonestParticipant.nonce = w.ethdkg.nonce && dishonestParticipant.phase =
    .gpkjSubmission) "122"
  require (disputer.nonce = w.ethdkg.nonce && disputer.phase = .gpkjSubmission) "123"
  let numParticipants := w.pool.validators.length + w.ethdkg.badParticipants
  let threshold := getThreshold numParticipants
  require (validators.length = numParticipants && encryptedSharesHash.length = numParticipants &&
    commitments.length = numParticipants) "124"
  let dealings := (validators.zip (encryptedSharesHash.zip commitments)).map fun d =>
    { validator := d.1, encryptedSharesHash := d.2.1, commitments := d.2.2 : Dealing }
  w.checkDealings L threshold dealings 0
  let gpkjStar ← computeGPKJStar L commitments dishonestParticipant.index threshold
  let isValid ← L.bn128CheckPairing gpkjStar H2 G1 dishonestParticipant.gpkj
  countBad (← w.majorSlash ctx (if !isValid then dishonestAddress else ctx.sender))

end World

/-! ## Calls -/

inductive Call where
  | register (publicKey : Point)
  | distributeShares (encryptedShares : List Nat) (commitments : List Point)
  | submitKeyShare (keyShareG1 keyShareG1CorrectnessProof : Point) (keyShareG2 : G2Big)
  | submitMasterPublicKey (masterPublicKey : G2Big)
  | submitGPKJ (gpkj : G2Big)
  | complete
  | accuseParticipantNotRegistered (dishonestAddresses : List Address)
  | accuseParticipantDidNotDistributeShares (dishonestAddresses : List Address)
  | accuseParticipantDistributedBadShares (dishonestAddress : Address)
    (encryptedShares : List Nat) (commitments : List Point)
    (sharedKey sharedKeyCorrectnessProof : Point)
  | accuseParticipantDidNotSubmitKeyShares (dishonestAddresses : List Address)
  | accuseParticipantDidNotSubmitGPKJ (dishonestAddresses : List Address)
  | accuseParticipantSubmittedBadGPKJ (validators : List Address)
    (encryptedSharesHash : List Nat) (commitments : List (List Point)) (dishonestAddress : Address)
  | migrateValidators (validatorsAccounts : List Address) (validatorIndexes : List Nat)
    (validatorShares : List G2Big) (validatorCount epoch sideChainHeight ethHeight : Nat)
    (masterPublicKey : G2Big)
  | setPhaseLength (phaseLength : Nat)
  | setConfirmationLength (confirmationLength : Nat)
  | initializeETHDKG
  | registerValidators (validators : List Address) (stakerTokenIDs : List Nat)
  | unregisterValidators (validators : List Address)
  | unregisterAllValidators
  | claimExitingNFTPosition
  | setMaxNumValidators (maxNumValidators : Nat)
  | pauseConsensus
  | pauseConsensusOnArbitraryHeight (aliceNetHeight : Nat)

/-- A call by `ctx.sender`. -/
def World.call (L : Precompiles) (roles : Roles) (ctx : Ctx) (w : World) :
    Call → Except Revert World
  | .register publicKey => w.register ctx publicKey
  | .distributeShares encryptedShares commitments =>
    w.distributeShares ctx L encryptedShares commitments
  | .submitKeyShare keyShareG1 proof keyShareG2 =>
    w.submitKeyShare ctx L keyShareG1 proof keyShareG2
  | .submitMasterPublicKey masterPublicKey => w.submitMasterPublicKey ctx L masterPublicKey
  | .submitGPKJ gpkj => w.submitGPKJ ctx gpkj
  | .complete => w.complete ctx
  | .accuseParticipantNotRegistered as => w.accuseParticipantNotRegistered ctx as
  | .accuseParticipantDidNotDistributeShares as => w.accuseParticipantDidNotDistributeShares ctx as
  | .accuseParticipantDistributedBadShares a encryptedShares commitments sharedKey proof =>
    w.accuseParticipantDistributedBadShares L ctx a encryptedShares commitments sharedKey proof
  | .accuseParticipantDidNotSubmitKeyShares as => w.accuseParticipantDidNotSubmitKeyShares ctx as
  | .accuseParticipantDidNotSubmitGPKJ as => w.accuseParticipantDidNotSubmitGPKJ ctx as
  | .accuseParticipantSubmittedBadGPKJ validators encryptedSharesHash commitments a =>
    w.accuseParticipantSubmittedBadGPKJ L ctx validators encryptedSharesHash commitments a
  | .migrateValidators accounts indexes shares count epoch sideChainHeight ethHeight key =>
    w.migrateValidators roles ctx L accounts indexes shares count epoch sideChainHeight ethHeight
      key
  | .setPhaseLength phaseLength => w.setPhaseLength roles ctx phaseLength
  | .setConfirmationLength confirmationLength =>
    w.setConfirmationLength roles ctx confirmationLength
  | .initializeETHDKG => w.initializeETHDKG roles ctx
  | .registerValidators validators stakerTokenIDs =>
    w.registerValidators roles ctx validators stakerTokenIDs
  | .unregisterValidators validators => w.unregisterValidators roles ctx validators
  | .unregisterAllValidators => w.unregisterAllValidators roles ctx
  | .claimExitingNFTPosition => w.claimExitingNFTPosition ctx
  | .setMaxNumValidators maxNumValidators => w.setMaxNumValidators roles ctx maxNumValidators
  | .pauseConsensus => w.pauseConsensus roles ctx
  | .pauseConsensusOnArbitraryHeight height => w.pauseConsensusOnArbitraryHeight roles ctx height

/-- The contracts as they are deployed and initialized. -/
def World.deployed (phaseLength confirmationLength maxNumValidators : Nat) : World where
  ethdkg := {
    nonce := 0
    phaseStartBlock := 0
    phase := .registrationOpen
    numParticipants := 0
    badParticipants := 0
    phaseLength := phaseLength % 2 ^ 16
    confirmationLength := confirmationLength % 2 ^ 16
    customAliceNetHeight := 0
    masterPublicKey := (0, 0, 0, 0)
    mpkG1 := (0, 0)
    masterPublicKeyHash := 0
    participants := fun _ => .zero }
  pool := {
    maxNumValidators := maxNumValidators
    isConsensusRunning := false
    validators := []
    freeAfter := fun _ => 0 }
  logs := []

end MadNet.Bridge
