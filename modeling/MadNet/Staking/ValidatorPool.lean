import MadNet.Lib.EnumerableMap
import MadNet.Staking.StakingNFT

/-!
# `ValidatorPool.sol`

The pool holds the positions of the validators: those of the active validators are positions of
ValidatorStaking, and those of the validators that leave are positions of PublicStaking until they
are claimed. A position is moved by burning it in one contract and minting it in the other, so that
both contracts and the balances of the pool belong to the state.
-/

namespace MadNet.Staking

open Monitor (Address)

structure ValidatorData where
  address : Address
  tokenID : Nat
  deriving DecidableEq

structure ExitingValidatorData where
  tokenID : Nat
  freeAfter : Nat
  deriving DecidableEq

abbrev ValidatorDataMap := EnumerableMap Address ValidatorData

/-- The addresses of the contracts. -/
structure Contracts extends Roles where
  validatorPool : Address
  ethdkg : Address
  snapshots : Address
  factory_ne : factory ≠ validatorPool

structure ValidatorPool where
  stakeAmount : Nat
  maxNumValidators : Nat
  disputerReward : Nat
  isConsensusRunning : Bool
  validators : ValidatorDataMap
  exitingValidatorsData : Address → ExitingValidatorData

/-- The pool, the two staking contracts, and what the pool has of AToken and Ether. -/
structure PoolState where
  pool : ValidatorPool
  publicStaking : StakingNFT
  validatorStaking : StakingNFT
  balanceToken : Nat
  balanceEth : Nat

/-- What a call of the pool finds around it; a single transfer that fails reverts the call. -/
structure PoolCtx where
  sender : Address
  number : Nat
  /-- `Snapshots.getEpoch`, which is a `uint32` there. -/
  epoch : Fin (2 ^ 32)
  /-- `ETHDKG.isETHDKGRunning`. -/
  ethdkgRunning : Bool
  /-- Transfers of AToken succeed. -/
  transfer : Bool
  /-- The receivers take Ether. -/
  accepts : Bool
  /-- The factory has approved the pool for its positions. -/
  approved : Bool
  /-- The receiver of a position implements `onERC721Received`. -/
  receives : Bool

def claimPeriod : Nat := 3
def positionLockPeriod : Nat := 172800

/-- The two contracts in which the pool has positions. -/
inductive Holding where
  | publicStaking | validatorStaking
  deriving DecidableEq

def ExitingValidatorData.zero : ExitingValidatorData := ⟨0, 0⟩

namespace PoolState

variable (w : PoolState)

def staking : Holding → StakingNFT
  | .publicStaking => w.publicStaking
  | .validatorStaking => w.validatorStaking

def setStaking (s : StakingNFT) : Holding → PoolState
  | .publicStaking => { w with publicStaking := s }
  | .validatorStaking => { w with validatorStaking := s }

def setValidators (m : ValidatorDataMap) : PoolState :=
  { w with pool := { w.pool with validators := m } }

def setExiting (v : Address) (d : ExitingValidatorData) : PoolState :=
  { w with pool := { w.pool with
      exitingValidatorsData := Function.update w.pool.exitingValidatorsData v d } }

def isValidator (account : Address) : Bool := w.pool.validators.contains account

def isInExitingQueue (account : Address) : Bool :=
  0 < (w.pool.exitingValidatorsData account).freeAfter

def isAccusable (account : Address) : Bool := w.isValidator account || w.isInExitingQueue account

def removeValidatorData (v : Address) : PoolState :=
  w.setValidators (w.pool.validators.remove ValidatorData.address v)

def removeExitingQueueData (v : Address) : PoolState := w.setExiting v .zero

/-- The last statement of both slashes: which state to clean. -/
def removeData (v : Address) : PoolState :=
  if w.isValidator v then w.removeValidatorData v else w.removeExitingQueueData v

/-- `_validators.get(validator_)._tokenID`. -/
def validatorTokenID (v : Address) : Except Revert Nat :=
  match w.pool.validators.tryGet v with
  | some d => .ok d.tokenID
  | none => .error (.code "1900")

section

variable (C : Contracts) (c : PoolCtx)

/-- A call of the pool to a staking contract. It has approved the amount, and the staking contracts
may send Ether to it. -/
def stakingCtx (amount : Nat) : Ctx :=
  { sender := C.validatorPool, number := c.number, value := 0,
    transferFrom := amount ≤ w.balanceToken, transfer := c.transfer, accepts := true,
    approved := c.approved }

def moveToExitingQueue (v : Address) (stakeTokenID : Nat) : PoolState :=
  (if w.isValidator v then w.removeValidatorData v else w).setExiting v
    { tokenID := stakeTokenID % 2 ^ 128, freeAfter := (c.epoch.val + claimPeriod) % 2 ^ 128 }

/-! ## Positions and balances -/

/-- `_burnNFTPosition`: the shares of the position and the payouts in Ether and in tokens. -/
def burnNFTPosition (h : Holding) (tokenID : Nat) :
    Except Revert (Nat × Nat × Nat × PoolState) := do
  require ((w.staking h).owners tokenID).isSome "604"
  let minerShares := ((w.staking h).positions tokenID).shares
  let (payout, s) ← (w.staking h).burn (w.stakingCtx C c 0) tokenID
  return (minerShares, payout.1, payout.2,
    { w.setStaking s h with
      balanceToken := w.balanceToken + payout.2, balanceEth := w.balanceEth + payout.1 })

def mintStakingPosition (h : Holding) (minerShares : Nat) : Except Revert (Nat × PoolState) := do
  let (tokenID, s) ← (w.staking h).mint (w.stakingCtx C c minerShares) minerShares
  return (tokenID, { w.setStaking s h with balanceToken := w.balanceToken - minerShares })

def mintValidatorStakingPosition (minerShares : Nat) : Except Revert (Nat × PoolState) :=
  w.mintStakingPosition C c .validatorStaking minerShares

def mintPublicStakingPosition (minerShares : Nat) : Except Revert (Nat × PoolState) :=
  w.mintStakingPosition C c .publicStaking minerShares

def burnValidatorStakingPosition (v : Address) : Except Revert (Nat × Nat × Nat × PoolState) := do
  let tokenID ← w.validatorTokenID v
  w.burnNFTPosition C c .validatorStaking tokenID

def burnExitingPublicStakingPosition (v : Address) : Except Revert (Nat × Nat × Nat × PoolState) :=
  w.burnNFTPosition C c .publicStaking (w.pool.exitingValidatorsData v).tokenID

/-- `_safeTransferERC20` from the pool. -/
def transferToken (to_ : Address) (amount : Nat) : Except Revert PoolState :=
  if amount = 0 then .ok w else do
    require c.transfer "ERC20SafeTransfer: Transfer failed."
    require (amount ≤ w.balanceToken) "ERC20: transfer amount exceeds balance"
    if to_ = C.validatorPool then return w
    else return { w with balanceToken := w.balanceToken - amount }

/-- `_safeTransferEth` from the pool, which takes Ether from the staking contracts only. -/
def transferEth (to_ : Address) (amount : Nat) : Except Revert PoolState :=
  if amount = 0 then .ok w else do
    require (to_ != 0) "EthSafeTransfer: cannot transfer ETH to address 0x0"
    require (c.accepts && to_ != C.validatorPool && amount ≤ w.balanceEth)
      "EthSafeTransfer: Transfer failed."
    return { w with balanceEth := w.balanceEth - amount }

def transferEthAndTokens (to_ : Address) (payoutEth payoutToken : Nat) :
    Except Revert PoolState := do
  let w ← w.transferToken C c to_ payoutToken
  w.transferEth C c to_ payoutEth

/-- The balances are those of before, `w₀`. -/
def requireBalances (w₀ : PoolState) : Except Revert Unit := do
  require (w₀.balanceToken = w.balanceToken) "810"
  require (w₀.balanceEth = w.balanceEth) "811"

/-! ## Joining and leaving -/

def swapPublicStakingForValidatorStaking (to_ : Address) (stakerTokenID : Nat) :
    Except Revert (Nat × Nat × Nat × PoolState) := do
  require (w.publicStaking.owners stakerTokenID).isSome "604"
  let stakeShares := (w.publicStaking.positions stakerTokenID).shares
  require (w.pool.stakeAmount ≤ stakeShares) "821"
  let s ← w.publicStaking.transferPosition (w.stakingCtx C c 0) to_ C.validatorPool stakerTokenID
  let (_, payoutEth, payoutToken, w₁) ←
    { w with publicStaking := s }.burnNFTPosition C c .publicStaking stakerTokenID
  require (stakeShares ≤ payoutToken) "819"
  let payoutToken ← checkedSub payoutToken w.pool.stakeAmount
  let (tokenID, w₂) ← w₁.mintValidatorStakingPosition C c w.pool.stakeAmount
  return (tokenID, payoutEth, payoutToken, w₂)

def swapValidatorStakingForPublicStaking (v : Address) :
    Except Revert (Nat × Nat × Nat × PoolState) := do
  let (minerShares, payoutEth, payoutToken, w₁) ← w.burnValidatorStakingPosition C c v
  require (minerShares ≤ payoutToken) "819"
  let (stakeTokenID, w₂) ← w₁.mintPublicStakingPosition C c minerShares
  return (stakeTokenID, payoutEth, payoutToken - minerShares, w₂)

def registerValidator (v : Address) (stakerTokenID : Nat) : Except Revert PoolState := do
  require (w.pool.validators.values.length ≤ w.pool.maxNumValidators) "805"
  require (!w.isAccusable v) "816"
  let (tokenID, payoutEth, payoutToken, w₁) ←
    w.swapPublicStakingForValidatorStaking C c c.sender stakerTokenID
  let w₂ := w₁.setValidators (w₁.pool.validators.add ValidatorData.address ⟨v, tokenID⟩)
  let w₃ ← w₂.transferEthAndTokens C c v payoutEth payoutToken
  w₃.requireBalances w
  return w₃

def unregisterValidator (v : Address) : Except Revert PoolState := do
  require (w.isValidator v) "817"
  let (stakeTokenID, payoutEth, payoutToken, w₁) ← w.swapValidatorStakingForPublicStaking C c v
  let w₂ := w₁.moveToExitingQueue c v stakeTokenID
  let w₃ ← w₂.transferEthAndTokens C c v payoutEth payoutToken
  w₃.requireBalances w
  return w₃

/-- `onlyFactory assertNotETHDKGRunning assertNotConsensusRunning`. -/
def onlyFactoryAtRest : Except Revert Unit := do
  require (c.sender = C.factory) "2000"
  require (!c.ethdkgRunning) "802"
  require (!w.pool.isConsensusRunning) "801"

def registerValidators (validators : List Address) (stakerTokenIDs : List Nat) :
    Except Revert PoolState := do
  w.onlyFactoryAtRest C c
  require (validators.length + w.pool.validators.values.length ≤ w.pool.maxNumValidators) "805"
  require (validators.length = stakerTokenIDs.length) "806"
  (validators.zip stakerTokenIDs).foldlM (fun w (v, tokenID) => do
    let owner ← w.publicStaking.ownerOf tokenID
    require (c.sender = owner) "807"
    w.registerValidator C c v tokenID) w

def unregisterValidators (validators : List Address) : Except Revert PoolState := do
  w.onlyFactoryAtRest C c
  require (validators.length ≤ w.pool.validators.values.length) "808"
  validators.foldlM (fun w v => w.unregisterValidator C c v) w

/-- The loop of `unregisterAllValidators`, which takes the last validator `n` times. -/
def unregisterLast : Nat → PoolState → Except Revert PoolState
  | 0, w => .ok w
  | n + 1, w =>
    match w.pool.validators.values.getLast? with
    | none => .ok w
    | some d => do
      let w ← w.unregisterValidator C c d.address
      unregisterLast n w

def unregisterAllValidators : Except Revert PoolState := do
  w.onlyFactoryAtRest C c
  unregisterLast C c w.pool.validators.values.length w

/-! ## Profits and claims -/

/-- What is paid to the pool itself is part of its balances. -/
def credit (to_ : Address) (payoutEth payoutToken : Nat) : PoolState :=
  if to_ = C.validatorPool then
    { w with balanceEth := w.balanceEth + payoutEth, balanceToken := w.balanceToken + payoutToken }
  else w

def collectProfits : Except Revert PoolState := do
  require (w.isValidator c.sender) "800"
  require w.pool.isConsensusRunning "809"
  let tokenID ← w.validatorTokenID c.sender
  let ctx := { w.stakingCtx C c 0 with accepts := c.accepts }
  let (payoutEth, s₁) ← w.validatorStaking.collectEthTo ctx c.sender tokenID
  let (payoutToken, s₂) ← s₁.collectTokenTo ctx c.sender tokenID
  let w₁ := { w with validatorStaking := s₂ }.credit C c.sender payoutEth payoutToken
  w₁.requireBalances w
  return w₁

def claimExitingNFTPosition : Except Revert PoolState := do
  let data := w.pool.exitingValidatorsData c.sender
  require (0 < data.freeAfter) "812"
  require (data.freeAfter < c.epoch.val) "813"
  let w₁ := w.removeExitingQueueData c.sender
  let s₁ ← w₁.publicStaking.lockOwnPosition (w₁.stakingCtx C c 0) data.tokenID positionLockPeriod
  let s₂ ← s₁.transferPosition (w₁.stakingCtx C c 0) C.validatorPool c.sender data.tokenID
  if c.receives then return { w₁ with publicStaking := s₂ } else .error .erc721

/-! ## Slashing -/

/-- The first part of `_slash`. -/
def burnAccused (dishonest : Address) : Except Revert (Nat × Nat × Nat × PoolState) :=
  if w.isValidator dishonest then w.burnValidatorStakingPosition C c dishonest
  else w.burnExitingPublicStakingPosition C c dishonest

/-- `_slash`: what is left of the shares, and the payouts without them. -/
def slash (dishonest : Address) : Except Revert (Nat × Nat × Nat × PoolState) := do
  require (w.isAccusable dishonest) "820"
  let (minerShares, payoutEth, payoutToken, w₁) ← w.burnAccused C c dishonest
  -- zero if there are not enough shares to cover the reward
  let minerShares := minerShares - w.pool.disputerReward
  require (minerShares ≤ payoutToken) "819"
  return (minerShares, payoutEth, payoutToken - minerShares, w₁)

def majorSlash (dishonest disputer : Address) : Except Revert PoolState := do
  require (c.sender = C.ethdkg) "2016"
  require (w.isAccusable dishonest) "814"
  let (minerShares, payoutEth, payoutToken, w₁) ← w.slash C c dishonest
  let w₂ := w₁.removeData dishonest
  let s ← w₂.validatorStaking.depositToken (w₂.stakingCtx C c minerShares) magicValue minerShares
  let w₃ := { w₂ with validatorStaking := s, balanceToken := w₂.balanceToken - minerShares }
  let w₄ ← w₃.transferEthAndTokens C c disputer payoutEth payoutToken
  w₄.requireBalances w
  return w₄

/-- If there are not enough shares for a new position, the state is just cleaned. -/
def requeue (dishonest : Address) (minerShares : Nat) : Except Revert PoolState :=
  if 0 < minerShares then do
    let (stakeTokenID, w₁) ← w.mintPublicStakingPosition C c minerShares
    return w₁.moveToExitingQueue c dishonest stakeTokenID
  else .ok (w.removeData dishonest)

def minorSlash (dishonest disputer : Address) : Except Revert PoolState := do
  require (c.sender = C.ethdkg) "2016"
  require (w.isAccusable dishonest) "814"
  let (minerShares, payoutEth, payoutToken, w₁) ← w.slash C c dishonest
  let w₂ ← w₁.requeue C c dishonest minerShares
  let w₃ ← w₂.transferEthAndTokens C c disputer payoutEth payoutToken
  w₃.requireBalances w
  return w₃

end

/-- A setting of the pool, which one address may change. -/
def set (c : PoolCtx) (who : Address) (code : String) (p : ValidatorPool) :
    Except Revert PoolState := do
  require (c.sender = who) code
  return { w with pool := p }

end PoolState

/-! ## Runs -/

inductive PoolCall where
  | registerValidators (validators : List Address) (stakerTokenIDs : List Nat)
  | unregisterValidators (validators : List Address)
  | unregisterAllValidators
  | collectProfits
  | claimExitingNFTPosition
  | majorSlash (dishonestValidator disputer : Address)
  | minorSlash (dishonestValidator disputer : Address)
  | setStakeAmount (stakeAmount : Nat)
  | setMaxNumValidators (maxNumValidators : Nat)
  | setDisputerReward (disputerReward : Nat)
  | completeETHDKG
  | pauseConsensus
  deriving DecidableEq

inductive PoolEvent where
  | call (c : PoolCtx) (x : PoolCall)
  /-- A call of another account to PublicStaking. -/
  | staking (ctx : Ctx) (x : Call)
  /-- A call of another account to ValidatorStaking. -/
  | validatorStaking (ctx : Ctx) (x : Call)
  /-- Ether and AToken that others send to the pool. -/
  | received (eth token : Nat)

/-- `ValidatorStaking` overrides the functions that mint and burn: they are for the pool only. -/
def Call.isOverridden : Call → Bool
  | .mint .. | .mintTo .. | .burn .. | .burnTo .. => true
  | _ => false

/-- A call to ValidatorStaking. -/
def StakingNFT.validatorCall (C : Contracts) (ctx : Ctx) (s : StakingNFT) (x : Call) :
    Except Revert ((Nat × Nat) × StakingNFT) := do
  require (!x.isOverridden || ctx.sender = C.validatorPool) "2010"
  s.call C.toRoles ctx x

namespace PoolState

def call (C : Contracts) (c : PoolCtx) (w : PoolState) : PoolCall → Except Revert PoolState
  | .registerValidators validators stakerTokenIDs =>
  w.registerValidators C c validators stakerTokenIDs
  | .unregisterValidators validators => w.unregisterValidators C c validators
  | .unregisterAllValidators => w.unregisterAllValidators C c
  | .collectProfits => w.collectProfits C c
  | .claimExitingNFTPosition => w.claimExitingNFTPosition C c
  | .majorSlash dishonest disputer => w.majorSlash C c dishonest disputer
  | .minorSlash dishonest disputer => w.minorSlash C c dishonest disputer
  | .setStakeAmount n => w.set c C.factory "2000" { w.pool with stakeAmount := n }
  | .setMaxNumValidators n => w.set c C.factory "2000" { w.pool with maxNumValidators := n }
  | .setDisputerReward n => w.set c C.factory "2000" { w.pool with disputerReward := n }
  | .completeETHDKG => w.set c C.ethdkg "2016" { w.pool with isConsensusRunning := true }
  | .pauseConsensus => w.set c C.snapshots "2008" { w.pool with isConsensusRunning := false }

/-- A call that is reverted changes nothing. -/
def step (C : Contracts) (w : PoolState) : PoolEvent → PoolState
  | .call c x =>
    match w.call C c x with
    | .ok w' => w'
    | .error _ => w
  | .staking ctx x => { w with publicStaking := w.publicStaking.step C.toRoles (ctx, x) }
  | .validatorStaking ctx x =>
    match w.validatorStaking.validatorCall C ctx x with
    | .ok (_, s) => { w with validatorStaking := s }
    | .error _ => w
  | .received eth token =>
    { w with balanceEth := w.balanceEth + eth, balanceToken := w.balanceToken + token }

def deployed : PoolState where
  pool :=
    { stakeAmount := 0, maxNumValidators := 0, disputerReward := 0, isConsensusRunning := false,
      validators := .empty, exitingValidatorsData := fun _ => .zero }
  publicStaking := .deployed
  validatorStaking := .deployed
  balanceToken := 0
  balanceEth := 0

end PoolState

end MadNet.Staking
