import MadNet.Token.Sigmoid

/-!
# `BToken.sol`

The token is minted and burned along the curve: a quarter of the Ether that is sent goes to the
pool. What the receivers of Ether answer is part of the context of a call. The ERC20 base contract
is reduced to the balances and the supply.
-/

namespace MadNet.Token

open Monitor (Address)
open Staking (Revert require checked checkedSub)

structure Deposit where
  accountType : Nat
  account : Address
  value : Nat
  deriving DecidableEq

structure BToken where
  poolBalance : Nat
  totalSupply : Nat
  balances : Address → Nat
  depositID : Nat
  totalDeposited : Nat
  deposits : Nat → Deposit
  admin : Address
  /-- `address(this).balance`. -/
  ether : Nat

/-- What a call finds around it. -/
structure Ctx where
  sender : Address
  value : Nat
  /-- There is code at the address. -/
  isContract : Address → Bool
  /-- The receiver takes Ether. -/
  accepts : Bool

def marketSpread : Nat := 4

/-! ## Prices -/

def ethToBTokens (poolBalance numEth : Nat) : Except Revert Nat := do
  let sum ← checked 256 (poolBalance + numEth)
  let after ← fx sum
  let before ← fx poolBalance
  checkedSub after before

def bTokensToEth (poolBalance totalSupply numBTK : Nat) : Except Revert Nat := do
  require (numBTK ≤ totalSupply) "311"
  let before ← fp totalSupply
  let after ← fp (totalSupply - numBTK)
  let numEth ← checkedSub before after
  return min poolBalance numEth

namespace BToken

variable (s : BToken) (ctx : Ctx)

/-! ## The ERC20 base contract -/

def erc20Mint (account : Address) (amount : Nat) : Except Revert BToken := do
  require (account ≠ 0) "ERC20: mint to the zero address"
  let totalSupply ← checked 256 (s.totalSupply + amount)
  let balance ← checked 256 (s.balances account + amount)
  return {
    s with totalSupply := totalSupply, balances := Function.update s.balances account balance }

def erc20Burn (account : Address) (amount : Nat) : Except Revert BToken := do
  require (account ≠ 0) "ERC20: burn from the zero address"
  require (amount ≤ s.balances account) "ERC20: burn amount exceeds balance"
  let totalSupply ← checkedSub s.totalSupply amount
  return { s with
    totalSupply := totalSupply
    balances := Function.update s.balances account (s.balances account - amount) }

/-! ## Internal functions -/

def safeTransferEth (to_ : Address) (amount : Nat) : Except Revert BToken :=
  if amount = 0 then .ok s
  else do
    require (to_ ≠ 0) "EthSafeTransfer: cannot transfer ETH to address 0x0"
    require (ctx.accepts && amount ≤ s.ether) "EthSafeTransfer: Transfer failed."
    return { s with ether := s.ether - amount }

/-- `_mint`, with the number of tokens. -/
def mintInternal (to_ : Address) (numEth minBTK : Nat) : Except Revert (Nat × BToken) := do
  require (marketSpread ≤ numEth) "306"
  let numEth := numEth / marketSpread
  let numBTK ← ethToBTokens s.poolBalance numEth
  require (minBTK ≤ numBTK) "308"
  let poolBalance ← checked 256 (s.poolBalance + numEth)
  let s ← { s with poolBalance := poolBalance }.erc20Mint to_ numBTK
  return (numBTK, s)

/-- `_burn`, with the Ether that is sent. -/
def burnInternal (from_ to_ : Address) (numBTK minEth : Nat) : Except Revert (Nat × BToken) := do
  require (numBTK ≠ 0) "302"
  let numEth ← bTokensToEth s.poolBalance s.totalSupply numBTK
  require (minEth ≤ numEth) "309"
  let poolBalance ← checkedSub s.poolBalance numEth
  let s ← { s with poolBalance := poolBalance }.erc20Burn from_ numBTK
  let s ← s.safeTransferEth ctx to_ numEth
  return (numEth, s)

/-- Burns the tokens of a deposit; the Ether stays in the contract. -/
def destroyTokens (numBTK : Nat) : Except Revert BToken := do
  require (numBTK ≠ 0) "302"
  let numEth ← bTokensToEth s.poolBalance s.totalSupply numBTK
  let poolBalance ← checkedSub s.poolBalance numEth
  { s with poolBalance := poolBalance }.erc20Burn ctx.sender numBTK

/-- `_doDepositCommon`, with the ID of the deposit. -/
def doDepositCommon (accountType : Nat) (to_ : Address) (amount : Nat) :
    Except Revert (Nat × BToken) := do
  let depositID ← checked 256 (s.depositID + 1)
  let totalDeposited ← checked 256 (s.totalDeposited + amount)
  return (depositID, { s with
    deposits := Function.update s.deposits depositID ⟨accountType, to_, amount⟩
    totalDeposited := totalDeposited
    depositID := depositID })

/-! ## Public functions -/

def mint (minBTK : Nat) : Except Revert (Nat × BToken) :=
  { s with ether := s.ether + ctx.value }.mintInternal ctx.sender ctx.value minBTK

def mintTo (to_ : Address) (minBTK : Nat) : Except Revert (Nat × BToken) :=
  { s with ether := s.ether + ctx.value }.mintInternal to_ ctx.value minBTK

def burn (amount minEth : Nat) : Except Revert (Nat × BToken) :=
  s.burnInternal ctx ctx.sender ctx.sender amount minEth

def burnTo (to_ : Address) (amount minEth : Nat) : Except Revert (Nat × BToken) :=
  s.burnInternal ctx ctx.sender to_ amount minEth

def deposit (accountType : Nat) (to_ : Address) (amount : Nat) : Except Revert (Nat × BToken) := do
  require (!ctx.isContract to_) "303"
  require (0 < amount) "304"
  let s ← s.destroyTokens ctx amount
  s.doDepositCommon accountType to_ amount

def virtualMintDeposit (accountType : Nat) (to_ : Address) (amount : Nat) :
    Except Revert (Nat × BToken) := do
  require (ctx.sender = s.admin) "1700"
  require (!ctx.isContract to_) "303"
  require (0 < amount) "304"
  s.doDepositCommon accountType to_ amount

def mintDeposit (accountType : Nat) (to_ : Address) (minBTK : Nat) :
    Except Revert (Nat × BToken) := do
  require (!ctx.isContract to_) "303"
  require (marketSpread ≤ ctx.value) "306"
  let amount ← ethToBTokens s.poolBalance (ctx.value / marketSpread)
  require (minBTK ≤ amount) "307"
  { s with ether := s.ether + ctx.value }.doDepositCommon accountType to_ amount

/-- No tokens and no Ether. -/
def initial (admin : Address) : BToken where
  poolBalance := 0
  totalSupply := 0
  balances _ := 0
  depositID := 0
  totalDeposited := 0
  deposits _ := ⟨0, 0, 0⟩
  admin := admin
  ether := 0

end BToken

inductive Call where
  | mint (minBTK : Nat)
  | mintTo (to_ : Address) (minBTK : Nat)
  | burn (amount minEth : Nat)
  | burnTo (to_ : Address) (amount minEth : Nat)
  | deposit (accountType : Nat) (to_ : Address) (amount : Nat)
  | virtualMintDeposit (accountType : Nat) (to_ : Address) (amount : Nat)
  | mintDeposit (accountType : Nat) (to_ : Address) (minBTK : Nat)

/-- A call, with what it returns. -/
def BToken.call (s : BToken) (ctx : Ctx) : Call → Except Revert (Nat × BToken)
  | .mint minBTK => s.mint ctx minBTK
  | .mintTo to_ minBTK => s.mintTo ctx to_ minBTK
  | .burn amount minEth => s.burn ctx amount minEth
  | .burnTo to_ amount minEth => s.burnTo ctx to_ amount minEth
  | .deposit accountType to_ amount => s.deposit ctx accountType to_ amount
  | .virtualMintDeposit accountType to_ amount => s.virtualMintDeposit ctx accountType to_ amount
  | .mintDeposit accountType to_ minBTK => s.mintDeposit ctx accountType to_ minBTK

end MadNet.Token
