import MadNet.Token.BToken

/-!
# The pool and the curve

Minting goes along the curve from the balance of the pool, burning from the supply. Minting keeps
the number of tokens by which the supply is ahead of the curve, burning keeps the wei by which the
pool is behind it. Between the two, a wei is worth up to 401 tokens where the curve is steep and one
token where it is flat.
-/

namespace MadNet.Token

open Prog (bind_ok bind₂_ok)
open Monitor (Address)
open Staking (checked_eq_ok checkedSub_eq_ok require_eq_ok)
open Curve

/-! ## What a call does to the pool and to the supply -/

variable {poolBalance n numBTK amount k : Nat}

theorem ethToBTokens_ok {numEth : Nat} (h : ethToBTokens poolBalance numEth = .ok n) :
    n + tokens poolBalance = tokens (poolBalance + numEth) := by
  obtain ⟨sum, after, hsum, hafter, h2⟩ := bind₂_ok h
  obtain ⟨before, hbefore, h3⟩ := bind_ok h2
  obtain ⟨-, rfl⟩ := checked_eq_ok.mp hsum
  obtain ⟨-, rfl⟩ := fx_eq_ok.mp hafter
  obtain ⟨-, rfl⟩ := fx_eq_ok.mp hbefore
  obtain ⟨hle, rfl⟩ := checkedSub_eq_ok.mp h3
  exact Nat.sub_add_cancel hle

theorem bTokensToEth_ok {totalSupply : Nat}
    (h : bTokensToEth poolBalance totalSupply numBTK = .ok n) :
    numBTK ≤ totalSupply ∧ n = min poolBalance
      (price totalSupply - price (totalSupply - numBTK)) := by
  obtain ⟨_, before, hle, hbefore, h2⟩ := bind₂_ok h
  obtain ⟨after, numEth, hafter, hnumEth, h4⟩ := bind₂_ok h2
  obtain ⟨-, rfl⟩ := fp_eq_ok.mp hbefore
  obtain ⟨-, rfl⟩ := fp_eq_ok.mp hafter
  obtain ⟨-, rfl⟩ := checkedSub_eq_ok.mp hnumEth
  exact ⟨of_decide_eq_true (require_eq_ok.mp hle), (Except.ok.inj h4).symm⟩

/-- The call mints tokens for the Ether that is sent. -/
def Call.mints : Call → Bool
  | mint _ => true
  | mintTo .. => true
  | _ => false

/-- What a call does to the pool and to the supply. -/
inductive Moves (ctx : Ctx) (c : Call) (s s' : BToken) : Prop where
  | minted (hc : c.mints = true)
      (poolBalance : s'.poolBalance = s.poolBalance + ctx.value / marketSpread)
      (totalSupply : s'.totalSupply + tokens s.poolBalance = s.totalSupply + tokens s'.poolBalance)
  | burned (n : Nat) (hc : c.mints = false) (hn : n ≤ s.totalSupply)
      (poolBalance : s'.poolBalance =
        s.poolBalance - min s.poolBalance (price s.totalSupply - price (s.totalSupply - n)))
      (totalSupply : s'.totalSupply = s.totalSupply - n)
  | kept (hc : c.mints = false) (poolBalance : s'.poolBalance = s.poolBalance)
      (totalSupply : s'.totalSupply = s.totalSupply)

variable {ctx : Ctx} {c : Call} {s s' : BToken} {r : Nat}

variable {account to_ : Address}

theorem erc20Mint_ok (h : s.erc20Mint account amount = .ok s') :
    s'.poolBalance = s.poolBalance ∧ s'.totalSupply = s.totalSupply + amount := by
  obtain ⟨_, _, -, hsupply, h2⟩ := bind₂_ok h
  obtain ⟨_, -, h3⟩ := bind_ok h2
  obtain ⟨-, rfl⟩ := checked_eq_ok.mp hsupply
  cases h3
  exact ⟨rfl, rfl⟩

theorem erc20Burn_ok (h : s.erc20Burn account amount = .ok s') :
    s'.poolBalance = s.poolBalance ∧ s'.totalSupply = s.totalSupply - amount := by
  obtain ⟨_, _, -, -, h2⟩ := bind₂_ok h
  obtain ⟨_, hsupply, h3⟩ := bind_ok h2
  obtain ⟨-, rfl⟩ := checkedSub_eq_ok.mp hsupply
  cases h3
  exact ⟨rfl, rfl⟩

theorem safeTransferEth_ok (h : s.safeTransferEth ctx to_ amount = .ok s') :
    s'.poolBalance = s.poolBalance ∧ s'.totalSupply = s.totalSupply := by
  unfold BToken.safeTransferEth at h
  split at h
  · cases h
    exact ⟨rfl, rfl⟩
  · obtain ⟨_, _, -, -, h2⟩ := bind₂_ok h
    cases h2
    exact ⟨rfl, rfl⟩

theorem doDepositCommon_ok {accountType : Nat}
    (h : s.doDepositCommon accountType to_ amount = .ok (r, s')) :
    s'.poolBalance = s.poolBalance ∧ s'.totalSupply = s.totalSupply := by
  obtain ⟨_, _, -, -, h2⟩ := bind₂_ok h
  cases h2
  exact ⟨rfl, rfl⟩

theorem mintInternal_moves {minBTK ether : Nat} (hc : c.mints = true)
    (h : { s with ether := ether }.mintInternal to_ ctx.value minBTK = .ok (r, s')) :
    Moves ctx c s s' := by
  obtain ⟨_, numBTK, -, hnumBTK, h2⟩ := bind₂_ok h
  obtain ⟨_, poolBalance, -, hpool, h4⟩ := bind₂_ok h2
  obtain ⟨s1, hmint, h5⟩ := bind_ok h4
  cases h5
  obtain ⟨hpool1, hsupply1⟩ := erc20Mint_ok hmint
  obtain ⟨-, rfl⟩ := checked_eq_ok.mp hpool
  refine .minted hc hpool1 ?_
  have htokens := ethToBTokens_ok hnumBTK
  rw [hpool1, hsupply1]
  dsimp only at *
  omega

theorem burnInternal_moves {from_ : Address} {minEth : Nat} (hc : c.mints = false)
    (h : s.burnInternal ctx from_ to_ numBTK minEth = .ok (r, s')) : Moves ctx c s s' := by
  obtain ⟨_, numEth, -, hnumEth, h2⟩ := bind₂_ok h
  obtain ⟨_, poolBalance, -, hpool, h4⟩ := bind₂_ok h2
  obtain ⟨s1, s2, hburn, htransfer, h6⟩ := bind₂_ok h4
  cases h6
  obtain ⟨hle, rfl⟩ := bTokensToEth_ok hnumEth
  obtain ⟨-, rfl⟩ := checkedSub_eq_ok.mp hpool
  obtain ⟨hpool1, hsupply1⟩ := erc20Burn_ok hburn
  obtain ⟨hpool2, hsupply2⟩ := safeTransferEth_ok htransfer
  exact .burned numBTK hc hle (hpool2.trans hpool1) (hsupply2.trans hsupply1)

theorem destroyTokens_ok (h : s.destroyTokens ctx numBTK = .ok s') : numBTK ≤ s.totalSupply ∧
    s'.poolBalance =
      s.poolBalance - min s.poolBalance (price s.totalSupply - price (s.totalSupply - numBTK)) ∧
    s'.totalSupply = s.totalSupply - numBTK := by
  obtain ⟨_, numEth, -, hnumEth, h2⟩ := bind₂_ok h
  obtain ⟨poolBalance, hpool, hburn⟩ := bind_ok h2
  obtain ⟨hle, rfl⟩ := bTokensToEth_ok hnumEth
  obtain ⟨-, rfl⟩ := checkedSub_eq_ok.mp hpool
  obtain ⟨hpool1, hsupply1⟩ := erc20Burn_ok hburn
  exact ⟨hle, hpool1, hsupply1⟩

theorem call_moves (h : s.call ctx c = .ok (r, s')) : Moves ctx c s s' := by
  cases c with
  | mint | mintTo => exact mintInternal_moves rfl h
  | burn | burnTo => exact burnInternal_moves rfl h
  | deposit =>
    obtain ⟨_, _, -, -, h2⟩ := bind₂_ok h
    obtain ⟨s1, hdestroy, hdeposit⟩ := bind_ok h2
    obtain ⟨hpool, hsupply⟩ := doDepositCommon_ok hdeposit
    obtain ⟨hle, hpool1, hsupply1⟩ := destroyTokens_ok hdestroy
    exact .burned _ rfl hle (hpool.trans hpool1) (hsupply.trans hsupply1)
  | virtualMintDeposit =>
    obtain ⟨_, _, -, -, h2⟩ := bind₂_ok h
    obtain ⟨_, -, hdeposit⟩ := bind_ok h2
    obtain ⟨hpool, hsupply⟩ := doDepositCommon_ok hdeposit
    exact .kept rfl hpool hsupply
  | mintDeposit =>
    obtain ⟨_, _, -, -, h2⟩ := bind₂_ok h
    obtain ⟨_, _, -, -, hdeposit⟩ := bind₂_ok h2
    obtain ⟨hpool, hsupply⟩ := doDepositCommon_ok hdeposit
    exact .kept rfl hpool hsupply

/-! ## The distance from the curve -/

/-- The supply is not behind the curve, and so the pool is not ahead of it. -/
def Backed (s : BToken) : Prop := tokens s.poolBalance ≤ s.totalSupply

theorem Backed.pool_le (h : Backed s) : s.poolBalance ≤ price s.totalSupply :=
  tokens_le_iff_le_price.mp h

/-- The pool is at most `k` wei away from the price of the supply, so that no payout is cut by more.
-/
structure Consistent (k : Nat) (s : BToken) : Prop where
  pool_le : s.poolBalance ≤ price s.totalSupply + k
  price_le : price s.totalSupply ≤ s.poolBalance + k
  payout : ∀ n numEth, bTokensToEth s.poolBalance s.totalSupply n = .ok numEth →
    price s.totalSupply - price (s.totalSupply - n) ≤ numEth + k

/-- The pool is never ahead of the curve, and how far it is behind says how much a payout is cut. -/
theorem Backed.consistent_iff (h : Backed s) : Consistent k s ↔
    price s.totalSupply ≤ s.poolBalance + k := by
  refine ⟨fun hk => hk.price_le, fun hle => ⟨?_, hle, fun n numEth hn => ?_⟩⟩
  · exact Nat.le_trans h.pool_le (Nat.le_add_right _ _)
  · obtain ⟨-, rfl⟩ := bTokensToEth_ok hn
    omega

theorem Backed.moves (h : Backed s) (hmoves : Moves ctx c s s') : Backed s' := by
  cases hmoves with
  | minted _ hpool hsupply =>
    unfold Backed at *
    omega
  | burned n _ hn hpool hsupply =>
    have hle := h.pool_le
    refine tokens_le_iff_le_price.mpr ?_
    rw [hpool, hsupply]
    omega
  | kept _ hpool hsupply =>
    unfold Backed
    rw [hpool, hsupply]
    exact h

/-- A mint after `k` calls: the tokens by which the supply is ahead of the curve are fewer than what
`k + 2` wei buy where the mint leads to. -/
def Smooth (k : Nat) (s : BToken) (ctx : Ctx) : Prop :=
  let poolBalance := s.poolBalance + ctx.value / marketSpread
  s.totalSupply - tokens s.poolBalance < tokens (poolBalance + (k + 2)) - tokens poolBalance

/-- Burning keeps the wei by which the pool is behind the curve; when the pool is emptied they
become fewer. -/
theorem Moves.price_le (hmoves : Moves ctx c s s') (hc : c.mints = false)
    (h : price s.totalSupply ≤ s.poolBalance + k) : price s'.totalSupply ≤ s'.poolBalance + k := by
  cases hmoves with
  | minted hc' =>
    rw [hc] at hc'
    cases hc'
  | burned n _ hn hpool hsupply =>
    have hmono := gc.monotone_u (Nat.sub_le s.totalSupply n)
    rw [hpool, hsupply]
    omega
  | kept _ hpool hsupply =>
    rw [hpool, hsupply]
    exact h

/-- Minting keeps the tokens by which the supply is ahead of the curve. -/
theorem Moves.price_le_iff (hmoves : Moves ctx c s s') (hc : c.mints = true) (h : Backed s) :
    price s'.totalSupply ≤ s'.poolBalance + (k + 1) ↔ Smooth k s ctx := by
  cases hmoves with
  | minted _ hpool hsupply =>
    unfold Smooth Backed at *
    rw [← hpool]
    have hmono := gc.monotone_l (Nat.le_add_right s'.poolBalance (k + 2))
    have hiff := @tokens_le_iff_le_price (s'.poolBalance + (k + 2)) s'.totalSupply
    dsimp only
    omega
  | burned _ hc' | kept hc' =>
    rw [hc] at hc'
    cases hc'

/-! ## Runs -/

open Run

/-- The contract after a number of calls. -/
structure Counted where
  token : BToken
  calls : Nat

namespace Counted

/-- A call that is reverted leaves the contract as it was. -/
def step (s : Counted) (e : Ctx × Call) : Counted where
  token := match s.token.call e.1 e.2 with
    | .ok (_, token) => token
    | .error _ => s.token
  calls := s.calls + 1

/-- A mint that is not reverted is smooth. -/
def Admits (s : Counted) (e : Ctx × Call) : Prop :=
  e.2.mints = true → (∃ r, s.token.call e.1 e.2 = .ok r) → Smooth s.calls s.token e.1

theorem step_token (s : Counted) (e : Ctx × Call) :
    (∃ r, s.token.call e.1 e.2 = .ok r ∧ Moves e.1 e.2 s.token (s.step e).token) ∨
      (∀ r, s.token.call e.1 e.2 ≠ .ok r) ∧ (s.step e).token = s.token := by
  unfold step
  dsimp only
  split
  next h => exact .inl ⟨_, h, call_moves h⟩
  next h =>
    refine .inr ⟨fun r hr => ?_, rfl⟩
    rw [h] at hr
    cases hr

theorem backed_step {s : Counted} (e : Ctx × Call) (h : Backed s.token) :
    Backed (s.step e).token := by
  rcases step_token s e with ⟨_, _, hmoves⟩ | ⟨-, hsame⟩
  · exact h.moves hmoves
  · rw [hsame]
    exact h

theorem consistent_step_iff {s : Counted} (e : Ctx × Call) (hbacked : Backed s.token)
    (h : Consistent s.calls s.token) :
    Consistent (s.step e).calls (s.step e).token ↔ s.Admits e := by
  rw [(backed_step e hbacked).consistent_iff]
  have hle := h.price_le
  rcases step_token s e with ⟨r, hcall, hmoves⟩ | ⟨hrevert, hsame⟩
  · cases hc : e.2.mints with
    | true =>
      refine (hmoves.price_le_iff hc hbacked).trans ⟨fun hsmooth _ _ => hsmooth, fun hadmits => ?_⟩
      exact hadmits hc ⟨r, hcall⟩
    | false =>
      refine ⟨fun _ hc' => ?_, fun _ => ?_⟩
      · rw [hc] at hc'
        cases hc'
      · exact Nat.le_succ_of_le (hmoves.price_le hc hle)
  · rw [hsame]
    refine ⟨fun _ _ ⟨r, hr⟩ => absurd hr (hrevert r), fun _ => ?_⟩
    exact Nat.le_succ_of_le hle

theorem exec_calls (s : Counted) (es : List (Ctx × Call)) :
    (exec step s es).calls = s.calls + es.length := by
  induction es generalizing s with
  | nil => rfl
  | cons e es ih =>
    rw [exec_cons, ih, List.length_cons]
    exact Nat.add_right_comm s.calls 1 es.length

/-- In every run the pool stays within as many wei of the curve as there were calls exactly when
every mint is smooth. -/
theorem consistent_iff_smooth (admin : Address) (es : List (Ctx × Call)) :
    (∀ es', es' <+: es → Consistent es'.length (exec step ⟨.initial admin, 0⟩ es').token) ↔
      Along Admits step ⟨.initial admin, 0⟩ es := by
  have hbacked : Backed (BToken.initial admin) := Nat.le_of_eq tokens_zero
  have hconsistent : Consistent 0 (BToken.initial admin) :=
    hbacked.consistent_iff.mpr (Nat.le_of_eq price_zero)
  rw [← forall_exec_iff_along (fun s => Consistent s.calls s.token) (fun s => Backed s.token)
    (fun s e hs => backed_step e hs) (fun s e hs hk => consistent_step_iff e hs hk)
    hconsistent hbacked]
  simp only [exec_calls, Nat.zero_add]

/-- A mint, a burn that leaves 500 tokens and a little more, and the same mint again. -/
def alternating : List (Ctx × Call) :=
  let ctx : Ctx := ⟨1, 4 * 10 ^ 23, fun _ => false, true⟩
  [(ctx, .mint 0), ({ ctx with value := 0 }, .burn 1104347042211346124419077 0), (ctx, .mint 0)]

/-- After three calls the pool is 247 wei behind the curve. -/
theorem alternating_inconsistent :
    let s := (exec step ⟨.initial 0, 0⟩ alternating).token
    price s.totalSupply = s.poolBalance + 247 ∧ ¬Consistent alternating.length s := by
  intro s
  have hpool : s.poolBalance = 100001253043219011972838 := by decide +kernel
  have hsupply : s.totalSupply = 1104848296902184805657864 := by decide +kernel
  have hprice : price 1104848296902184805657864 = 100001253043219011973085 :=
    (fp_eq_ok.mp (by decide +kernel)).2
  have hbehind : price s.totalSupply = s.poolBalance + 247 := by rw [hsupply, hprice, hpool]
  refine ⟨hbehind, fun h => ?_⟩
  have hle := h.price_le
  rw [hbehind] at hle
  exact absurd hle (by simp [alternating])

end Counted

end MadNet.Token
