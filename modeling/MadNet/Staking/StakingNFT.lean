import MadNet.Monitor.Events

/-!
# `libraries/StakingNFT/StakingNFT.sol`

A position in the pool is a token with a number of shares. What is deposited is credited to the
shares through an accumulator that is scaled and wraps around; what does not divide evenly stays in
the slush. Ether and AToken are distributed by the same functions, so that an `Asset` is a parameter
here. What other contracts answer to a transfer is part of the context of a call.
-/

namespace MadNet.Staking

open Monitor (Address)

/-- Why a call is reverted. -/
inductive Revert where
  /-- `require` with its text. -/
  | code (c : String)
  /-- A sum or a product does not fit its type. -/
  | overflow
  /-- A difference is negative. -/
  | underflow
  /-- The ERC721 base contract. -/
  | erc721
  deriving DecidableEq

/-- Solidity's `require`. -/
def require (p : Bool) (code : String) : Except Revert Unit :=
  if p then .ok () else .error (.code code)

/-- The number as a `uint` of `w` bits. -/
def checked (w n : Nat) : Except Revert Nat := if n < 2 ^ w then .ok n else .error .overflow

def checkedSub (a b : Nat) : Except Revert Nat := if b ≤ a then .ok (a - b) else .error .underflow

/-! ## State -/

inductive Asset where
  | eth | token
  deriving DecidableEq

structure Position where
  shares : Nat
  freeAfter : Nat
  withdrawFreeAfter : Nat
  accumulatorEth : Nat
  accumulatorToken : Nat
  deriving DecidableEq

structure Accumulator where
  accumulator : Nat
  slush : Nat
  deriving DecidableEq

/-- `StakingNFTStorage`, and the owners of the tokens. -/
structure StakingNFT where
  counter : Nat
  circuitBreaker : Bool
  shares : Nat
  tokenState : Accumulator
  ethState : Accumulator
  positions : Nat → Position
  reserveEth : Nat
  reserveToken : Nat
  owners : Nat → Option Address

/-- What a call finds around it. -/
structure Ctx where
  sender : Address
  number : Nat
  value : Nat
  transferFrom : Bool
  /-- `AToken.transfer` succeeds. -/
  transfer : Bool
  /-- The receiver takes Ether. -/
  accepts : Bool
  /-- The sender may transfer the token. -/
  approved : Bool

def maxMintLock : Nat := 1051200
def maxGovernanceLock : Nat := 172800
def magicValue : Nat := 42

/-- `_ACCUMULATOR_SCALE_FACTOR`. -/
def scale : Nat := 1000000000000000000

/-- `type(uint168).max`. -/
def maxAccumulator : Nat := 2 ^ 168 - 1

def Position.zero : Position := ⟨0, 0, 0, 0, 0⟩

def Position.accumulator (p : Position) : Asset → Nat
  | .eth => p.accumulatorEth
  | .token => p.accumulatorToken

def Position.setAccumulator (p : Position) (acc : Nat) : Asset → Position
  | .eth => { p with accumulatorEth := acc }
  | .token => { p with accumulatorToken := acc }

/-! ## Distributions -/

/-- The number of accumulator steps that a position needs distributions from. -/
def accumulatorDelta (accumulator positionAccumulatorValue : Nat) : Except Revert Nat :=
  if accumulator < positionAccumulatorValue then do
    let rest ← checkedSub maxAccumulator positionAccumulatorValue
    checked 256 (rest + accumulator)
  else checkedSub accumulator positionAccumulatorValue

/-- `_collect`: the new accumulator, the value of the position and what is paid out. -/
def collect (shares : Nat) (state : Accumulator) (p : Position) (positionAccumulatorValue : Nat) :
    Except Revert (Accumulator × Nat × Nat) := do
  let delta ← accumulatorDelta state.accumulator positionAccumulatorValue
  let payout ← checked 256 (delta * p.shares)
  -- if there are no shares other than this position, flush the slush fund
  let payout ← checked 256 (if shares = p.shares then payout + state.slush else payout)
  let payoutRemainder := payout - payout / scale * scale
  let slush ← checked 256 ((if shares = p.shares then 0 else state.slush) + payoutRemainder)
  return ({ state with slush }, state.accumulator, payout / scale)

def slushSkim (shares accumulator slush : Nat) : Except Revert (Nat × Nat) :=
  if 0 < shares then do
    let deltaAccumulator := slush / shares
    let accumulator ← checked 256 (accumulator + deltaAccumulator)
    return (if maxAccumulator < accumulator then accumulator % maxAccumulator else accumulator,
      slush - deltaAccumulator * shares)
  else .ok (accumulator, slush)

/-- `_deposit`: if there are no staked positions, all value is stored in the slush. -/
def deposit (shares delta : Nat) (state : Accumulator) : Except Revert Accumulator := do
  let amount ← checked 256 (delta * scale)
  let slush ← checked 256 (state.slush + amount)
  let (accumulator, slush) ← slushSkim shares state.accumulator slush
  require (slush < 2 ^ 167) "608"
  return { accumulator, slush }

/-! ## Transfers -/

namespace Ctx

variable (ctx : Ctx)

/-- `_safeTransferFromERC20` returns without a call if the amount is zero, and so do the others. -/
def safeTransferFromERC20 (amount : Nat) : Except Revert Unit :=
  if amount = 0 then .ok () else require ctx.transferFrom "ERC20SafeTransfer: Transfer failed."

def safeTransferERC20 (amount : Nat) : Except Revert Unit :=
  if amount = 0 then .ok () else require ctx.transfer "ERC20SafeTransfer: Transfer failed."

def safeTransferEth (to_ amount : Nat) : Except Revert Unit :=
  if amount = 0 then .ok () else do
    require (to_ != 0) "EthSafeTransfer: cannot transfer ETH to address 0x0"
    require ctx.accepts "EthSafeTransfer: Transfer failed."

def safeTransfer (to_ amount : Nat) : Asset → Except Revert Unit
  | .eth => ctx.safeTransferEth to_ amount
  | .token => ctx.safeTransferERC20 amount

end Ctx

/-! ## The functions of the contract -/

namespace StakingNFT

variable (s : StakingNFT)

def state : Asset → Accumulator
  | .eth => s.ethState
  | .token => s.tokenState

def setState (x : Accumulator) : Asset → StakingNFT
  | .eth => { s with ethState := x }
  | .token => { s with tokenState := x }

def reserve : Asset → Nat
  | .eth => s.reserveEth
  | .token => s.reserveToken

def setReserve (n : Nat) : Asset → StakingNFT
  | .eth => { s with reserveEth := n }
  | .token => { s with reserveToken := n }

def setPosition (tokenID : Nat) (p : Position) : StakingNFT :=
  { s with positions := Function.update s.positions tokenID p }

def setOwner (tokenID : Nat) (owner : Option Address) : StakingNFT :=
  { s with owners := Function.update s.owners tokenID owner }

def ownerOf (tokenID : Nat) : Except Revert Address :=
  match s.owners tokenID with
  | some owner => .ok owner
  | none => .error .erc721

def withCircuitBreaker : Except Revert Unit := require (!s.circuitBreaker) "500"

/-- `_collectEth` and `_collectToken`. -/
def collectAsset (a : Asset) (shares : Nat) (p : Position) :
    Except Revert (Position × Nat × StakingNFT) := do
  let (x, acc, payout) ← collect shares (s.state a) p (p.accumulator a)
  return (p.setAccumulator acc a, payout, s.setState x a)

/-- `_lockPosition`. -/
def lock (number tokenID duration : Nat) : Except Revert StakingNFT := do
  require (s.owners tokenID).isSome "604"
  let p := s.positions tokenID
  let freeDur ← checked 32 (number % 2 ^ 32 + duration % 2 ^ 32)
  return s.setPosition tokenID { p with freeAfter := max freeDur p.freeAfter }

/-- `_lockWithdraw`. -/
def lockWithdrawal (number tokenID duration : Nat) : Except Revert StakingNFT := do
  require (s.owners tokenID).isSome "604"
  let p := s.positions tokenID
  let freeDur ← checked 256 (number + duration)
  return s.setPosition tokenID { p with withdrawFreeAfter := max freeDur p.withdrawFreeAfter }

/-- `_mintNFT`, after the transfer of the tokens. -/
def mintPosition (number : Nat) (to_ : Address) (amount : Nat) :
    Except Revert (Nat × StakingNFT) := do
  let tokenID ← checked 256 (s.counter + 1)
  let shares ← checked 256 (s.shares + amount)
  let freeAfter ← checked 32 (number % 2 ^ 32 + 1)
  let reserveToken ← checked 256 (s.reserveToken + amount)
  let p : Position :=
    { shares := amount, freeAfter, withdrawFreeAfter := freeAfter,
      accumulatorEth := s.ethState.accumulator, accumulatorToken := s.tokenState.accumulator }
  if to_ = 0 ∨ (s.owners tokenID).isSome then .error .erc721
  else
    return (tokenID,
      ({ s with counter := tokenID, shares, reserveToken }.setPosition tokenID p).setOwner
      tokenID (some to_))

def mintNFT (ctx : Ctx) (to_ : Address) (amount : Nat) : Except Revert (Nat × StakingNFT) := do
  require (amount ≤ 2 ^ 224 - 1) "605"
  ctx.safeTransferFromERC20 amount
  s.mintPosition ctx.number to_ amount

/-- `_burn`, before the transfers: the payouts in Ether and in tokens. -/
def burnPosition (number : Nat) (sender : Address) (tokenID : Nat) :
    Except Revert ((Nat × Nat) × StakingNFT) := do
  let owner ← s.ownerOf tokenID
  require (sender = owner) "600"
  let p := s.positions tokenID
  require (p.freeAfter < number && p.withdrawFreeAfter < number) "606"
  let (p, payoutEth, s₁) ← s.collectAsset .eth s.shares p
  let (p, payoutToken, s₂) ← s₁.collectAsset .token s.shares p
  let payoutToken ← checked 256 (payoutToken + p.shares)
  let shares ← checkedSub s₂.shares p.shares
  let reserveToken ← checkedSub s₂.reserveToken payoutToken
  let reserveEth ← checkedSub s₂.reserveEth payoutEth
  return ((payoutEth, payoutToken),
    ({ s₂ with shares, reserveToken, reserveEth }.setPosition tokenID .zero).setOwner tokenID none)

/-- `collectEth`, `collectEthTo`, `collectToken` and `collectTokenTo`. -/
def collectTo (ctx : Ctx) (a : Asset) (to_ : Address) (tokenID : Nat) :
    Except Revert (Nat × StakingNFT) := do
  let owner ← s.ownerOf tokenID
  require (ctx.sender = owner) "600"
  let p := s.positions tokenID
  require (p.withdrawFreeAfter < ctx.number) "603"
  let (p, payout, s₁) ← s.collectAsset a s.shares p
  let reserve ← checkedSub (s₁.reserve a) payout
  ctx.safeTransfer to_ payout a
  return (payout, (s₁.setPosition tokenID p).setReserve reserve a)

/-- The owner is the sender. -/
def collectEth (ctx : Ctx) (tokenID : Nat) : Except Revert (Nat × StakingNFT) :=
  s.collectTo ctx .eth ctx.sender tokenID

def collectEthTo (ctx : Ctx) (to_ : Address) (tokenID : Nat) : Except Revert (Nat × StakingNFT) :=
  s.collectTo ctx .eth to_ tokenID

def collectToken (ctx : Ctx) (tokenID : Nat) : Except Revert (Nat × StakingNFT) :=
  s.collectTo ctx .token ctx.sender tokenID

def collectTokenTo (ctx : Ctx) (to_ : Address) (tokenID : Nat) : Except Revert (Nat × StakingNFT) :=
  s.collectTo ctx .token to_ tokenID

def burnTo (ctx : Ctx) (to_ : Address) (tokenID : Nat) :
    Except Revert ((Nat × Nat) × StakingNFT) := do
  let (payout, s₁) ← s.burnPosition ctx.number ctx.sender tokenID
  ctx.safeTransferERC20 payout.2
  ctx.safeTransferEth to_ payout.1
  return (payout, s₁)

def burn (ctx : Ctx) (tokenID : Nat) : Except Revert ((Nat × Nat) × StakingNFT) :=
  s.burnTo ctx ctx.sender tokenID

def mint (ctx : Ctx) (amount : Nat) : Except Revert (Nat × StakingNFT) := do
  s.withCircuitBreaker
  s.mintNFT ctx ctx.sender amount

def mintTo (ctx : Ctx) (to_ : Address) (amount lockDuration : Nat) :
    Except Revert (Nat × StakingNFT) := do
  s.withCircuitBreaker
  require (lockDuration ≤ maxMintLock) "602"
  let (tokenID, s₁) ← s.mintNFT ctx to_ amount
  if 0 < lockDuration then return (tokenID, ← s₁.lock ctx.number tokenID lockDuration)
  else return (tokenID, s₁)

/-- The part that `depositEth` and `depositToken` have in common. -/
def depositAsset (a : Asset) (amount : Nat) : Except Revert StakingNFT := do
  let x ← deposit s.shares amount (s.state a)
  let reserve ← checked 256 (s.reserve a + amount)
  return (s.setState x a).setReserve reserve a

def depositEth (ctx : Ctx) (magic : Nat) : Except Revert StakingNFT := do
  s.withCircuitBreaker
  require (magic = magicValue) "2200"
  s.depositAsset .eth ctx.value

def depositToken (ctx : Ctx) (magic amount : Nat) : Except Revert StakingNFT := do
  s.withCircuitBreaker
  require (magic = magicValue) "2200"
  ctx.safeTransferFromERC20 amount
  s.depositAsset .token amount

def lockPosition (ctx : Ctx) (governance caller : Address) (tokenID lockDuration : Nat) :
    Except Revert StakingNFT := do
  s.withCircuitBreaker
  require (ctx.sender = governance) "2003"
  let owner ← s.ownerOf tokenID
  require (caller = owner) "600"
  require (lockDuration ≤ maxGovernanceLock) "601"
  s.lock ctx.number tokenID lockDuration

def lockOwnPosition (ctx : Ctx) (tokenID lockDuration : Nat) : Except Revert StakingNFT := do
  s.withCircuitBreaker
  let owner ← s.ownerOf tokenID
  require (ctx.sender = owner) "600"
  require (lockDuration ≤ maxGovernanceLock) "601"
  s.lock ctx.number tokenID lockDuration

def lockWithdraw (ctx : Ctx) (tokenID lockDuration : Nat) : Except Revert StakingNFT := do
  s.withCircuitBreaker
  let owner ← s.ownerOf tokenID
  require (ctx.sender = owner) "600"
  require (lockDuration ≤ maxGovernanceLock) "601"
  s.lockWithdrawal ctx.number tokenID lockDuration

/-- `transferFrom` of the ERC721 base contract. -/
def transferPosition (ctx : Ctx) (from_ to_ : Address) (tokenID : Nat) :
    Except Revert StakingNFT := do
  let owner ← s.ownerOf tokenID
  if (ctx.sender = owner ∨ ctx.approved) ∧ from_ = owner ∧ to_ ≠ 0 then
    return s.setOwner tokenID (some to_)
  else .error .erc721

def tripCB (ctx : Ctx) (factory : Address) : Except Revert StakingNFT := do
  require (ctx.sender = factory) "2000"
  s.withCircuitBreaker
  return { s with circuitBreaker := true }

end StakingNFT

/-! ## Runs -/

/-- The addresses that have a role. -/
structure Roles where
  factory : Address
  governance : Address

inductive Call where
  | mint (amount : Nat)
  | mintTo (to_ : Address) (amount lockDuration : Nat)
  | burn (tokenID : Nat)
  | burnTo (to_ : Address) (tokenID : Nat)
  | collectEth (tokenID : Nat)
  | collectEthTo (to_ : Address) (tokenID : Nat)
  | collectToken (tokenID : Nat)
  | collectTokenTo (to_ : Address) (tokenID : Nat)
  | depositEth (magic : Nat)
  | depositToken (magic amount : Nat)
  | lockPosition (caller : Address) (tokenID lockDuration : Nat)
  | lockOwnPosition (tokenID lockDuration : Nat)
  | lockWithdraw (tokenID lockDuration : Nat)
  | transferFrom (from_ to_ : Address) (tokenID : Nat)
  | tripCB
  deriving DecidableEq

namespace StakingNFT

/-- The payouts of a call in Ether and in tokens, and the state after it. -/
def call (roles : Roles) (ctx : Ctx) (s : StakingNFT) :
    Call → Except Revert ((Nat × Nat) × StakingNFT)
  | .mint amount => do return ((0, 0), (← s.mint ctx amount).2)
  | .mintTo to_ amount lockDuration => do
    return ((0, 0), (← s.mintTo ctx to_ amount lockDuration).2)
  | .burn tokenID => s.burn ctx tokenID
  | .burnTo to_ tokenID => s.burnTo ctx to_ tokenID
  | .collectEth tokenID => do
    let (payout, s) ← s.collectEth ctx tokenID
    return ((payout, 0), s)
  | .collectEthTo to_ tokenID => do
    let (payout, s) ← s.collectEthTo ctx to_ tokenID
    return ((payout, 0), s)
  | .collectToken tokenID => do
    let (payout, s) ← s.collectToken ctx tokenID
    return ((0, payout), s)
  | .collectTokenTo to_ tokenID => do
    let (payout, s) ← s.collectTokenTo ctx to_ tokenID
    return ((0, payout), s)
  | .depositEth magic => do return ((0, 0), ← s.depositEth ctx magic)
  | .depositToken magic amount => do return ((0, 0), ← s.depositToken ctx magic amount)
  | .lockPosition caller tokenID lockDuration => do
    return ((0, 0), ← s.lockPosition ctx roles.governance caller tokenID lockDuration)
  | .lockOwnPosition tokenID lockDuration => do
    return ((0, 0), ← s.lockOwnPosition ctx tokenID lockDuration)
  | .lockWithdraw tokenID lockDuration => do
    return ((0, 0), ← s.lockWithdraw ctx tokenID lockDuration)
  | .transferFrom from_ to_ tokenID => do
    return ((0, 0), ← s.transferPosition ctx from_ to_ tokenID)
  | .tripCB => do return ((0, 0), ← s.tripCB ctx roles.factory)

/-- A call that is reverted changes nothing. -/
def step (roles : Roles) (s : StakingNFT) (c : Ctx × Call) : StakingNFT :=
  match s.call roles c.1 c.2 with
  | .ok (_, s') => s'
  | .error _ => s

/-- The contract after `initialize`. -/
def deployed : StakingNFT where
  counter := 0
  circuitBreaker := false
  shares := 0
  tokenState := ⟨0, 0⟩
  ethState := ⟨0, 0⟩
  positions := fun _ => .zero
  reserveEth := 0
  reserveToken := 0
  owners := fun _ => none

end StakingNFT

end MadNet.Staking
