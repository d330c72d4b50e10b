import MadNet.Token.MintDeposit

/-!
# Calls from within the calls of `BToken.sol`

`burn`, `burnTo` and `distribute` send Ether, and whoever receives it may call the contract again
before the call goes on. A call is a tree here: with it come the receivers of its transfers, and
with every receiver the calls that it makes. Each of the functions has its effects first, then its
transfers, and `distribute` a last check; only `distribute` takes the lock.
-/

namespace MadNet.Token

open List Nat
open Prog (bind_ok bind₂_ok)
open Monitor (Address)
open Staking (Revert require checked checkedSub require_eq_ok checked_eq_ok checkedSub_eq_ok)

/-- A call of `distribute`: what was above the pool when it began, and what it has sent. -/
structure Distribution where
  excess : Nat
  sent : Nat
  deriving DecidableEq

/-- The contract with what `distribute` uses, and with a record of what has been paid. -/
structure FullBToken extends BToken where
  /-- `_mutex` is `_LOCKED`. -/
  locked : Bool
  validatorStakingSplit : Nat
  publicStakingSplit : Nat
  liquidityProviderStakingSplit : Nat
  protocolFee : Nat
  /-- The wei that mints have added to the pool. -/
  minted : Nat
  /-- The wei that burns have paid. -/
  burned : Nat
  /-- The wei that `distribute` has sent. -/
  distributed : Nat
  distributions : List Distribution

/-- The public functions that change something. -/
inductive Fn where
  | mint (minBTK : Nat)
  | mintTo (to_ : Address) (minBTK : Nat)
  | burn (amount minEth : Nat)
  | burnTo (to_ : Address) (amount minEth : Nat)
  | deposit (accountType : Nat) (to_ : Address) (amount : Nat)
  | virtualMintDeposit (accountType : Nat) (to_ : Address) (amount : Nat)
  | mintDeposit (accountType : Nat) (to_ : Address) (minBTK : Nat)
  | distribute
  | setSplits (validatorStakingSplit publicStakingSplit liquidityProviderStakingSplit
    protocolFee : Nat)
  | setAdmin (admin : Address)
  /-- `transfer`, or `transferFrom` with the answer of the allowance. -/
  | transferFrom (allowed : Bool) (from_ to_ : Address) (amount : Nat)

def Fn.isPayable : Fn → Bool
  | mint _ => true
  | mintTo .. => true
  | mintDeposit .. => true
  | _ => false

def Fn.distributes : Fn → Bool
  | distribute => true
  | _ => false

def percentageScale : Nat := 1000

/-- `_burn` up to the transfer, with the Ether that is to be sent. -/
def BToken.burnEffects (s : BToken) (from_ to_ : Address) (numBTK minEth : Nat) :
    Except Revert (Nat × BToken) := do
  require (numBTK ≠ 0) "302"
  let numEth ← bTokensToEth s.poolBalance s.totalSupply numBTK
  require (minEth ≤ numEth) "309"
  let poolBalance ← checkedSub s.poolBalance numEth
  let s ← { s with poolBalance := poolBalance }.erc20Burn from_ numBTK
  require (numEth = 0 ∨ to_ ≠ 0) "EthSafeTransfer: cannot transfer ETH to address 0x0"
  return (numEth, s)

/-- `ERC20Upgradeable._transfer`. -/
def BToken.erc20Transfer (s : BToken) (from_ to_ : Address) (amount : Nat) :
    Except Revert BToken := do
  require (from_ ≠ 0) "ERC20: transfer from the zero address"
  require (to_ ≠ 0) "ERC20: transfer to the zero address"
  require (amount ≤ s.balances from_) "ERC20: transfer amount exceeds balance"
  let balances := Function.update s.balances from_ (s.balances from_ - amount)
  let balance ← checked 256 (balances to_ + amount)
  return { s with balances := Function.update balances to_ balance }

namespace FullBToken

variable (s : FullBToken) (ctx : Ctx)

/-- The amounts that `_distribute` sends to the foundation, the validators, the stakers and the
liquidity providers. -/
def shares : Except Revert (List Nat) := do
  let excess ← checkedSub s.ether s.poolBalance
  let foundation ← checked 256 (excess * s.protocolFee)
  let foundationAmount := foundation / percentageScale
  let staking ← checked 256 (excess * s.publicStakingSplit)
  let stakingAmount := staking / percentageScale
  let lpStaking ← checked 256 (excess * s.liquidityProviderStakingSplit)
  let lpStakingAmount := lpStaking / percentageScale
  let sum ← checked 256 (stakingAmount + lpStakingAmount)
  let sum ← checked 256 (sum + foundationAmount)
  let minerAmount ← checkedSub excess sum
  return [foundationAmount, minerAmount, stakingAmount, lpStakingAmount]

/-- What a function does before its transfers, with the amounts of these. -/
def effects : Fn → Except Revert (FullBToken × List Nat)
  | .mint minBTK => do
    let (_, token) ← s.toBToken.mint ctx minBTK
    return ({ s with toBToken := token, minted := s.minted + ctx.value / marketSpread }, [])
  | .mintTo to_ minBTK => do
    let (_, token) ← s.toBToken.mintTo ctx to_ minBTK
    return ({ s with toBToken := token, minted := s.minted + ctx.value / marketSpread }, [])
  | .burn amount minEth => do
    let (numEth, token) ← s.toBToken.burnEffects ctx.sender ctx.sender amount minEth
    return ({ s with toBToken := token, burned := s.burned + numEth }, [numEth])
  | .burnTo to_ amount minEth => do
    let (numEth, token) ← s.toBToken.burnEffects ctx.sender to_ amount minEth
    return ({ s with toBToken := token, burned := s.burned + numEth }, [numEth])
  | .deposit accountType to_ amount => do
    let (_, token) ← s.toBToken.deposit ctx accountType to_ amount
    return ({ s with toBToken := token }, [])
  | .virtualMintDeposit accountType to_ amount => do
    let (_, token) ← s.toBToken.virtualMintDeposit ctx accountType to_ amount
    return ({ s with toBToken := token }, [])
  | .mintDeposit accountType to_ minBTK => do
    let (_, token) ← s.toBToken.mintDeposit ctx accountType to_ minBTK
    return ({ s with toBToken := token }, [])
  | .distribute => do
    require (!s.locked) "2300"
    let amounts ← s.shares
    return ({ s with locked := true }, amounts)
  | .setSplits validatorStakingSplit publicStakingSplit liquidityProviderStakingSplit
    protocolFee => do
    require (ctx.sender = s.admin) "1700"
    let sum ← checked 256 (validatorStakingSplit + publicStakingSplit)
    let sum ← checked 256 (sum + liquidityProviderStakingSplit)
    let sum ← checked 256 (sum + protocolFee)
    require (sum = percentageScale) "310"
    return ({ s with
      validatorStakingSplit := validatorStakingSplit
      publicStakingSplit := publicStakingSplit
      liquidityProviderStakingSplit := liquidityProviderStakingSplit
      protocolFee := protocolFee }, [])
  | .setAdmin admin => do
    require (ctx.sender = s.admin) "1700"
    return ({ s with admin := admin }, [])
  | .transferFrom allowed from_ to_ amount => do
    require allowed "ERC20: insufficient allowance"
    let token ← s.toBToken.erc20Transfer from_ to_ amount
    return ({ s with toBToken := token }, [])

/-- The value of a transfer has left before the receiver acts. -/
def send (distributes : Bool) (amount : Nat) : Except Revert FullBToken := do
  require (amount ≤ s.ether) "EthSafeTransfer: Transfer failed."
  return { s with
    ether := s.ether - amount
    distributed := if distributes then s.distributed + amount else s.distributed }

/-- What a function does after its transfers; `before` is the contract when it began. -/
def finish (before : FullBToken) : Fn → Except Revert FullBToken
  | .distribute => do
    require (before.poolBalance ≤ s.ether) "301"
    return { s with
      locked := false
      distributions :=
        ⟨before.ether - before.poolBalance, s.distributed - before.distributed⟩ :: s.distributions }
  | _ => .ok s

/-- After `initialize`. -/
def initial (admin : Address) : FullBToken where
  toBToken := .initial admin
  locked := false
  validatorStakingSplit := 332
  publicStakingSplit := 332
  liquidityProviderStakingSplit := 332
  protocolFee := 4
  minted := 0
  burned := 0
  distributed := 0
  distributions := []

end FullBToken

/-! ## Trees of calls -/

mutual

/-- A call of a public function, with the receivers of its Ether in turn. -/
inductive Invocation where
  | mk (ctx : Ctx) (fn : Fn) (receivers : Receivers)

/-- Each receiver makes calls, and takes the Ether or not; after the last one nobody calls back. -/
inductive Receivers where
  | nil
  | cons (accepts : Bool) (calls : Invocations) (rest : Receivers)

inductive Invocations where
  | nil
  | cons (call : Invocation) (rest : Invocations)

end

mutual

def Invocation.exec : Invocation → FullBToken → Except Revert FullBToken
  | .mk ctx fn receivers, s => do
    require (fn.isPayable || ctx.value = 0) ""
    let (s₁, amounts) ← s.effects ctx fn
    let s₂ ← receivers.pay fn.distributes (amounts.filter (· ≠ 0)) s₁
    s₂.finish s fn

/-- The transfers of a call; it fails with the first receiver that does not take the Ether. -/
def Receivers.pay : Receivers → Bool → List Nat → FullBToken → Except Revert FullBToken
  | .nil, distributes, amounts, s => amounts.foldlM (fun s amount => s.send distributes amount) s
  | .cons _ _ _, _, [], s => .ok s
  | .cons accepts calls rest, distributes, amount :: amounts, s => do
    let s ← s.send distributes amount
    let s := calls.run s
    require accepts "EthSafeTransfer: Transfer failed."
    rest.pay distributes amounts s

/-- Calls one after the other; one that is reverted changes nothing. -/
def Invocations.run : Invocations → FullBToken → FullBToken
  | .nil, s => s
  | .cons call rest, s =>
    match call.exec s with
    | .ok s' => rest.run s'
    | .error _ => rest.run s

end

/-! ## What each part of a call does -/

/-- What holds between calls. -/
structure FullBToken.Sound (s : FullBToken) : Prop where
  ether : s.poolBalance ≤ s.ether
  pool : s.poolBalance + s.burned ≤ s.minted
  exact_ : ∀ d ∈ s.distributions, d.sent = d.excess

/-- What calls leave as it was: under the lock nothing is distributed, and what is above the pool
does not become less. -/
structure Kept (s s' : FullBToken) : Prop where
  locked : s'.locked = s.locked
  gap : s.locked = true → s.ether + s'.poolBalance ≤ s'.ether + s.poolBalance
  distributed : s.locked = true → s'.distributed = s.distributed

/-- The effects of a function other than `distribute`. -/
structure Begun (s s₁ : FullBToken) (amounts : List Nat) : Prop where
  locked : s₁.locked = s.locked
  distributed : s₁.distributed = s.distributed
  distributions : s₁.distributions = s.distributions
  gap : s.ether + s₁.poolBalance + amounts.sum ≤ s₁.ether + s.poolBalance
  pool : s.poolBalance + s.burned ≤ s.minted → s₁.poolBalance + s₁.burned ≤ s₁.minted
  single : amounts.length ≤ 1

section Parts

variable {s s₁ s' : FullBToken} {ctx : Ctx} {amounts : List Nat}

variable {from_ to_ : Address}

theorem burnEffects_eq_ok {b b' : BToken} {numBTK minEth numEth : Nat}
    (h : b.burnEffects from_ to_ numBTK minEth = .ok (numEth, b')) :
    numEth ≤ b.poolBalance ∧ b'.poolBalance = b.poolBalance - numEth ∧ b'.ether = b.ether := by
  obtain ⟨_, numEth', -, -, h2⟩ := bind₂_ok h
  obtain ⟨_, poolBalance, -, hpool, h4⟩ := bind₂_ok h2
  obtain ⟨b1, _, hburn, -, h6⟩ := bind₂_ok h4
  obtain ⟨_, _, -, -, h8⟩ := bind₂_ok hburn
  obtain ⟨_, -, h9⟩ := bind_ok h8
  obtain ⟨hle, rfl⟩ := checkedSub_eq_ok.mp hpool
  cases h9
  cases h6
  exact ⟨hle, rfl, rfl⟩

variable {token : BToken}

theorem begun_mint {r : Nat} {minBTK : Nat}
    (h : { s.toBToken with ether := s.ether + ctx.value }.mintInternal to_ ctx.value minBTK =
      .ok (r, token)) :
    Begun s { s with toBToken := token, minted := s.minted + ctx.value / marketSpread } [] := by
  obtain ⟨-, -, -, -, -, -, -, rfl⟩ := mintInternal_eq_ok.mp h
  have hle := div_le_self ctx.value marketSpread
  refine ⟨rfl, rfl, rfl, ?_, fun hpool => ?_, zero_le _⟩
  · change s.ether + (s.poolBalance + ctx.value / marketSpread) + 0 ≤ s.ether +
      ctx.value + s.poolBalance
    omega
  · change s.poolBalance + ctx.value / marketSpread + s.burned ≤ s.minted + ctx.value / marketSpread
    omega

theorem begun_burn {numBTK minEth numEth : Nat}
    (h : s.toBToken.burnEffects from_ to_ numBTK minEth = .ok (numEth, token)) :
    Begun s { s with toBToken := token, burned := s.burned + numEth } [numEth] := by
  obtain ⟨hle, hpool, hether⟩ := burnEffects_eq_ok h
  refine ⟨rfl, rfl, rfl, ?_, fun hminted => ?_, le_refl _⟩
  · change s.ether + token.poolBalance + numEth ≤ token.ether + s.poolBalance
    omega
  · change token.poolBalance + (s.burned + numEth) ≤ s.minted
    omega

/-- A function that sends nothing, and takes nothing from the Ether. -/
theorem begun_keep (hpool : token.poolBalance ≤ s.poolBalance) (hether : s.ether ≤ token.ether) :
    Begun s { s with toBToken := token } [] := by
  refine ⟨rfl, rfl, rfl, ?_, fun hminted => ?_, zero_le _⟩
  · change s.ether + token.poolBalance + 0 ≤ token.ether + s.poolBalance
    omega
  · change token.poolBalance + s.burned ≤ s.minted
    omega

theorem effects_begun {fn : Fn} (hfn : fn.distributes = false)
    (h : s.effects ctx fn = .ok (s₁, amounts)) :
    Begun s s₁ amounts := by
  cases fn with
  | distribute => cases hfn
  | mint minBTK | mintTo to_ minBTK =>
    obtain ⟨⟨r, token⟩, hmint, h1⟩ := bind_ok h
    cases h1
    exact begun_mint hmint
  | burn amount minEth | burnTo to_ amount minEth =>
    obtain ⟨⟨numEth, token⟩, hburn, h1⟩ := bind_ok h
    cases h1
    exact begun_burn hburn
  | deposit accountType to_ amount =>
    obtain ⟨⟨r, token⟩, hdeposit, h1⟩ := bind_ok h
    cases h1
    obtain ⟨-, -, destroyed, hdestroy, hcommon⟩ := deposit_eq_ok.mp hdeposit
    obtain ⟨-, numEth, -, -, -, -, -, rfl⟩ := destroyTokens_eq_ok.mp hdestroy
    obtain ⟨-, -, -, rfl⟩ := doDepositCommon_eq_ok.mp hcommon
    exact begun_keep (sub_le _ _) (le_refl _)
  | virtualMintDeposit accountType to_ amount =>
    obtain ⟨⟨r, token⟩, hdeposit, h1⟩ := bind_ok h
    cases h1
    obtain ⟨_, _, -, -, h3⟩ := bind₂_ok hdeposit
    obtain ⟨_, -, hcommon⟩ := bind_ok h3
    obtain ⟨-, -, -, rfl⟩ := doDepositCommon_eq_ok.mp hcommon
    exact begun_keep (le_refl _) (le_refl _)
  | mintDeposit accountType to_ minBTK =>
    obtain ⟨⟨r, token⟩, hdeposit, h1⟩ := bind_ok h
    cases h1
    obtain ⟨-, -, amount, -, -, hcommon⟩ := mintDeposit_eq_ok.mp hdeposit
    obtain ⟨-, -, -, rfl⟩ := doDepositCommon_eq_ok.mp hcommon
    exact begun_keep (le_refl _) (le_add_right _ _)
  | setSplits v p l f =>
    obtain ⟨_, _, -, -, h2⟩ := bind₂_ok h
    obtain ⟨_, _, -, -, h4⟩ := bind₂_ok h2
    obtain ⟨_, -, h5⟩ := bind_ok h4
    cases h5
    exact ⟨rfl, rfl, rfl, le_refl _, id, zero_le _⟩
  | setAdmin admin =>
    obtain ⟨_, -, h1⟩ := bind_ok h
    cases h1
    exact begun_keep (le_refl _) (le_refl _)
  | transferFrom allowed from_ to_ amount =>
    obtain ⟨_, token, -, htransfer, h2⟩ := bind₂_ok h
    obtain ⟨_, _, -, -, h4⟩ := bind₂_ok htransfer
    obtain ⟨_, _, -, -, h6⟩ := bind₂_ok h4
    cases h6
    cases h2
    exact begun_keep (le_refl _) (le_refl _)

theorem sum_shares (h : s.shares = .ok amounts) : s.poolBalance ≤ s.ether ∧
    amounts.sum = s.ether - s.poolBalance := by
  obtain ⟨excess, foundation, hexcess, -, h2⟩ := bind₂_ok h
  obtain ⟨staking, lpStaking, -, -, h4⟩ := bind₂_ok h2
  obtain ⟨sum, sum', hsum, hsum', h6⟩ := bind₂_ok h4
  obtain ⟨minerAmount, hminer, h7⟩ := bind_ok h6
  obtain ⟨hle, rfl⟩ := checkedSub_eq_ok.mp hexcess
  obtain ⟨-, rfl⟩ := checked_eq_ok.mp hsum
  obtain ⟨-, rfl⟩ := checked_eq_ok.mp hsum'
  obtain ⟨hle', rfl⟩ := checkedSub_eq_ok.mp hminer
  cases h7
  refine ⟨hle, ?_⟩
  simp only [sum_cons, sum_nil]
  omega

/-- The contract can pay the amounts, and may do so: under the lock, or because there is only one.
-/
structure Payable (s : FullBToken) (amounts : List Nat) : Prop where
  ether : s.poolBalance + amounts.sum ≤ s.ether
  pool : s.poolBalance + s.burned ≤ s.minted
  exact_ : ∀ d ∈ s.distributions, d.sent = d.excess
  single : s.locked = true ∨ amounts.length ≤ 1

structure Paid (distributes : Bool) (s : FullBToken) (amounts : List Nat) (s' : FullBToken) :
    Prop where
  sound : s'.Sound
  locked : s'.locked = s.locked
  gap : s.locked = true → s.ether + s'.poolBalance ≤ s'.ether + s.poolBalance + amounts.sum
  distributed : s.locked = true → s'.distributed = s.distributed + if distributes then amounts.sum
    else 0

theorem sum_filter_ne_zero (amounts : List Nat) : (amounts.filter (· ≠ 0)).sum = amounts.sum := by
  induction amounts with
  | nil => rfl
  | cons amount amounts ih =>
    by_cases hamount : amount = 0
    · rw [filter_cons_of_neg (by simpa using hamount), ih, sum_cons, hamount, zero_add]
    · rw [filter_cons_of_pos (by simpa using hamount), sum_cons, sum_cons, ih]

theorem Payable.filter (h : Payable s amounts) : Payable s (amounts.filter (· ≠ 0)) where
  ether := by rw [sum_filter_ne_zero]; exact h.ether
  pool := h.pool
  exact_ := h.exact_
  single := h.single.imp_right (le_trans (length_filter_le _ _))

variable {distributes : Bool}

theorem Payable.paid_nil (h : Payable s []) : Paid distributes s [] s where
  sound := ⟨h.ether, h.pool, h.exact_⟩
  locked := rfl
  gap _ := le_refl _
  distributed _ := by simp

/-- The first transfer, with what the receiver does. -/
theorem Payable.send {amount : Nat} (h : Payable s (amount :: amounts))
    (hsend : s.send distributes amount = .ok s₁) {s₂ : FullBToken}
    (hrun : s₁.Sound → s₂.Sound ∧ Kept s₁ s₂) :
    Payable s₂ amounts ∧ ∀ s', Paid distributes s₂ amounts s' → Paid distributes s
      (amount :: amounts) s' := by
  obtain ⟨_, hle, h1⟩ := bind_ok hsend
  cases h1
  have hether := h.ether
  rw [sum_cons] at hether
  obtain ⟨hsound, hkept⟩ := hrun ⟨(by omega : s.poolBalance ≤ s.ether - amount), h.pool, h.exact_⟩
  have hlocked : s₂.locked = s.locked := hkept.locked
  have hgap : s.locked = true → s.ether - amount + s₂.poolBalance ≤ s₂.ether + s.poolBalance :=
    hkept.gap
  have hsent : s.locked = true →
      s₂.distributed = if distributes then s.distributed + amount else s.distributed :=
        hkept.distributed
  refine ⟨⟨?_, hsound.pool, hsound.exact_, ?_⟩,
    fun s' hpaid => ⟨hpaid.sound, hpaid.locked.trans hlocked, ?_, ?_⟩⟩
  · rcases h.single with hlock | hsingle
    · have := hgap hlock
      omega
    · obtain rfl : amounts = [] := length_eq_zero_iff.mp (by simpa using hsingle)
      exact hsound.ether
  · rw [hlocked]
    exact h.single.imp_right fun hsingle => le_trans (le_succ _) hsingle
  · intro hlock
    have h2 := hgap hlock
    have h3 := hpaid.gap (hlocked.trans hlock)
    rw [sum_cons]
    omega
  · intro hlock
    rw [hpaid.distributed (hlocked.trans hlock), hsent hlock]
    cases distributes with
    | false => rfl
    | true =>
      simp only [if_true, sum_cons]
      omega

/-- Transfers to receivers that do not call back. -/
theorem Payable.foldlM (h : Payable s amounts)
    (hpay : amounts.foldlM (fun s amount => s.send distributes amount) s = .ok s') :
    Paid distributes s amounts s' := by
  induction amounts generalizing s with
  | nil =>
    cases hpay
    exact h.paid_nil
  | cons amount amounts ih =>
    obtain ⟨s₁, hsend, hrest⟩ := bind_ok hpay
    obtain ⟨hpayable, hpaid⟩ :=
      h.send hsend fun hsound => ⟨hsound, rfl, fun _ => le_refl _, fun _ => rfl⟩
    exact hpaid s' (ih hpayable hrest)

end Parts

/-! ## Whole trees -/

variable {s s₁ s₂ s' : FullBToken}

/-- `distribute`, once its transfers are understood. -/
theorem FullBToken.Sound.distribute {ctx : Ctx} {amounts : List Nat} (h : s.Sound)
    (heffects : s.effects ctx .distribute = .ok (s₁, amounts))
    (hpay : Payable s₁ (amounts.filter (· ≠ 0)) → Paid true s₁ (amounts.filter (· ≠ 0)) s₂)
    (hfinish : s₂.finish s .distribute = .ok s') : s'.Sound ∧ Kept s s' := by
  obtain ⟨_, amounts', hunlocked, hshares, h2⟩ := bind₂_ok heffects
  obtain ⟨rfl, rfl⟩ := Prod.mk.inj (Except.ok.inj h2)
  obtain ⟨_, -, h3⟩ := bind_ok hfinish
  obtain rfl := Except.ok.inj h3
  obtain ⟨hle, hsum⟩ := sum_shares hshares
  have hlocked : s.locked = false := by simpa using require_eq_ok.mp hunlocked
  have hpaid :=
    hpay (Payable.filter ⟨by change s.poolBalance + amounts'.sum ≤ s.ether; omega, h.pool, h.exact_,
    .inl rfl⟩)
  have hsent : s₂.distributed = s.distributed + (s.ether - s.poolBalance) := by
    have := hpaid.distributed rfl
    rwa [if_pos rfl, sum_filter_ne_zero, hsum] at this
  refine ⟨⟨hpaid.sound.ether, hpaid.sound.pool, fun d hd => ?_⟩, hlocked.symm, ?_, ?_⟩
  · rcases mem_cons.mp hd with rfl | hold
    · change s₂.distributed - s.distributed = s.ether - s.poolBalance
      omega
    · exact hpaid.sound.exact_ d hold
  all_goals
    intro hlock
    rw [hlocked] at hlock
    cases hlock

/-- Any other function. -/
theorem FullBToken.Sound.other {ctx : Ctx} {fn : Fn} {amounts : List Nat} (h : s.Sound)
    (hfn : fn.distributes = false) (heffects : s.effects ctx fn = .ok (s₁, amounts))
    (hpay : Payable s₁ (amounts.filter (· ≠ 0)) → Paid false s₁ (amounts.filter (· ≠ 0)) s₂) :
    s₂.Sound ∧ Kept s s₂ := by
  have hbegun := effects_begun hfn heffects
  have hgap := hbegun.gap
  have hether := h.ether
  have hpaid :=
    hpay (Payable.filter
    ⟨by omega, hbegun.pool h.pool, by rw [hbegun.distributions]; exact h.exact_,
    .inr hbegun.single⟩)
  refine ⟨hpaid.sound, hpaid.locked.trans hbegun.locked, fun hlock => ?_, fun hlock => ?_⟩
  · have := hpaid.gap (hbegun.locked.trans hlock)
    rw [sum_filter_ne_zero] at this
    omega
  · exact (hpaid.distributed (hbegun.locked.trans hlock)).trans hbegun.distributed

mutual

theorem Invocation.exec_sound {s s' : FullBToken} : (c : Invocation) → s.Sound → c.exec s = .ok s' →
    s'.Sound ∧ Kept s s'
  | .mk ctx fn receivers, h, hexec => by
    rw [Invocation.exec] at hexec
    obtain ⟨_, ⟨s₁, amounts⟩, -, heffects, h2⟩ := bind₂_ok hexec
    obtain ⟨s₂, hpay, hfinish⟩ := bind_ok h2
    cases hfn : fn.distributes with
    | true =>
      obtain rfl : fn = .distribute := by
        cases fn <;> first | rfl | cases hfn
      exact h.distribute heffects (fun hpayable => receivers.pay_sound hpayable hpay) hfinish
    | false =>
      have hsame : s₂.finish s fn = .ok s₂ := by
        cases fn <;> first | rfl | cases hfn
      obtain rfl := Except.ok.inj (hsame.symm.trans hfinish)
      rw [hfn] at hpay
      exact h.other hfn heffects fun hpayable => receivers.pay_sound hpayable hpay

theorem Receivers.pay_sound {distributes : Bool} {s s' : FullBToken} {amounts : List Nat} :
    (rs : Receivers) →
    Payable s amounts → rs.pay distributes amounts s = .ok s' → Paid distributes s amounts s'
  | .nil, h, hpay => by
    rw [Receivers.pay] at hpay
    exact h.foldlM hpay
  | .cons accepts calls rest, h, hpay => by
    cases amounts with
    | nil =>
      rw [Receivers.pay] at hpay
      cases hpay
      exact h.paid_nil
    | cons amount amounts =>
      rw [Receivers.pay] at hpay
      obtain ⟨s₁, _, hsend, -, hrest⟩ := bind₂_ok hpay
      obtain ⟨hpayable, hpaid⟩ := h.send hsend fun hsound => calls.run_sound hsound
      exact hpaid s' (rest.pay_sound hpayable hrest)

theorem Invocations.run_sound {s : FullBToken} : (cs : Invocations) → s.Sound →
    (cs.run s).Sound ∧ Kept s (cs.run s)
  | .nil, h => by
    rw [Invocations.run]
    exact ⟨h, rfl, fun _ => le_refl _, fun _ => rfl⟩
  | .cons call rest, h => by
    rw [Invocations.run]
    split
    next s' hexec =>
      obtain ⟨hsound, hkept⟩ := call.exec_sound h hexec
      obtain ⟨hsound', hkept'⟩ := rest.run_sound hsound
      refine ⟨hsound', hkept'.locked.trans hkept.locked, fun hlock => ?_, fun hlock => ?_⟩
      · have h1 := hkept.gap hlock
        have h2 := hkept'.gap (hkept.locked.trans hlock)
        omega
      · rw [hkept'.distributed (hkept.locked.trans hlock), hkept.distributed hlock]
    next => exact rest.run_sound h

end

theorem FullBToken.sound_initial (admin : Address) : (initial admin).Sound :=
  ⟨le_refl _, le_refl _, nofun⟩

/-- Whatever is called, by whom and from within which call: the contract has the Ether of its pool,
every `distribute` has sent what was above the pool when it began, and burns have not paid more than
mints have added. -/
theorem FullBToken.ether_accounting (admin : Address) (cs : Invocations) :
    (cs.run (initial admin)).poolBalance ≤ (cs.run (initial admin)).ether ∧
    (∀ d ∈ (cs.run (initial admin)).distributions, d.sent = d.excess) ∧
    (cs.run (initial admin)).burned ≤ (cs.run (initial admin)).minted := by
  obtain ⟨hsound, -⟩ := cs.run_sound (sound_initial admin)
  exact ⟨hsound.ether, hsound.exact_, le_trans (le_add_left _ _) hsound.pool⟩

end MadNet.Token
