import MadNet.Token.CurveRuns

/-!
# Depositing at once

`mintDeposit` records a deposit for the tokens that the Ether would buy, without minting them. On
the curve it is the same as minting the tokens and depositing them: what the tokens cost is what
they are worth.
-/

namespace MadNet.Token

open Prog (bind_eq_ok)
open Curve Nat
open Monitor (Address)
open Staking (require_eq_ok checked_eq_ok checkedSub_eq_ok checkedSub_of_le)

/-! ## Pools of up to `2 ^ 110` wei -/

theorem safeAbsSub_le {x : Nat} (hx : x ≤ 2 ^ 110) : safeAbsSub B x ≤ 2 ^ 110 := by
  have hmax : max B x ≤ 2 ^ 110 := max_le (by decide) hx
  unfold safeAbsSub
  omega

theorem fx_of_le {x : Nat} (hx : x ≤ 2 ^ 110) : fx x = .ok (tokens x) := by
  refine fx_eq_ok.mpr ⟨⟨?_, ?_⟩, rfl⟩
  · unfold A
    omega
  · have hsquare : safeAbsSub B x ^ 2 ≤ (2 ^ 110) ^ 2 := Nat.pow_le_pow_left (safeAbsSub_le hx) 2
    unfold discriminant
    omega

theorem tokens_le_of_le {x : Nat} (hx : x ≤ 2 ^ 110) : tokens x ≤ 2 ^ 118 := by
  unfold tokens A
  omega

theorem fp_of_le {p : Nat} (hp : p ≤ 2 ^ 118) : fp p = .ok (price p) := by
  have hsquare : p ^ 2 ≤ (2 ^ 118) ^ 2 := Nat.pow_le_pow_left hp 2
  have hdiscriminant : discriminant' p < 2 ^ 252 := by
    unfold discriminant'
    omega
  have hroot : Nat.sqrt (discriminant' p) ≤ discriminant' p := Nat.sqrt_le_self _
  exact fp_eq_ok.mpr ⟨⟨by omega, by omega, by omega, by omega⟩, rfl⟩

/-! ## What the calls do -/

section Calls

variable {s s' : BToken} {ctx : Ctx} {r : Nat}

variable {numEth minBTK accountType amount numBTK n : Nat} {to_ : Address}

theorem mintInternal_eq_ok : s.mintInternal to_ numEth minBTK = .ok (r, s') ↔
    marketSpread ≤ numEth ∧ ethToBTokens s.poolBalance (numEth / marketSpread) = .ok r ∧
      minBTK ≤ r ∧
      s.poolBalance + numEth / marketSpread < 2 ^ 256 ∧ to_ ≠ 0 ∧ s.totalSupply + r < 2 ^ 256 ∧
      s.balances to_ + r < 2 ^ 256 ∧ s' = { s with
        poolBalance := s.poolBalance + numEth / marketSpread
        totalSupply := s.totalSupply + r
        balances := Function.update s.balances to_ (s.balances to_ + r) } := by
  simp only [BToken.mintInternal, BToken.erc20Mint, bind_eq_ok, require_eq_ok, checked_eq_ok,
    and_assoc, exists_and_left, exists_eq_left', exists_const, decide_eq_true_eq]
  constructor
  · rintro ⟨hspread, numBTK, hnumBTK, hmin, hpool, hto, hsupply, hbalance, minted, h, h'⟩
    cases h
    cases h'
    exact ⟨hspread, hnumBTK, hmin, hpool, hto, hsupply, hbalance, rfl⟩
  · rintro ⟨hspread, hnumBTK, hmin, hpool, hto, hsupply, hbalance, rfl⟩
    exact ⟨hspread, _, hnumBTK, hmin, hpool, hto, hsupply, hbalance, _, rfl, rfl⟩

theorem doDepositCommon_eq_ok : s.doDepositCommon accountType to_ amount = .ok (r, s') ↔
      s.depositID + 1 < 2 ^ 256 ∧ s.totalDeposited + amount < 2 ^ 256 ∧
      r = s.depositID + 1 ∧ s' = { s with
        deposits := Function.update s.deposits (s.depositID + 1) ⟨accountType, to_, amount⟩
        totalDeposited := s.totalDeposited + amount
        depositID := s.depositID + 1 } := by
  simp only [BToken.doDepositCommon, bind_eq_ok, checked_eq_ok, and_assoc, exists_and_left,
    exists_eq_left', pure, Except.pure, Except.ok.injEq, Prod.mk.injEq, @eq_comm _ _ r,
    @eq_comm _ _ s']

theorem destroyTokens_eq_ok : s.destroyTokens ctx numBTK = .ok s' ↔
    numBTK ≠ 0 ∧ ∃ numEth, bTokensToEth s.poolBalance s.totalSupply numBTK = .ok numEth ∧
      numEth ≤ s.poolBalance ∧ ctx.sender ≠ 0 ∧ numBTK ≤ s.balances ctx.sender ∧
      numBTK ≤ s.totalSupply ∧
      s' = { s with
        poolBalance := s.poolBalance - numEth
        totalSupply := s.totalSupply - numBTK
        balances := Function.update s.balances ctx.sender (s.balances ctx.sender - numBTK) } := by
  simp only [BToken.destroyTokens, BToken.erc20Burn, bind_eq_ok, require_eq_ok, checkedSub_eq_ok,
    and_assoc, exists_and_left, exists_eq_left', exists_const, decide_eq_true_eq, pure, Except.pure,
    Except.ok.injEq, @eq_comm _ _ s']

theorem deposit_eq_ok :
    s.deposit ctx accountType to_ amount = .ok (r, s') ↔ ctx.isContract to_ = false ∧ 0 < amount ∧
      ∃ s₁, s.destroyTokens ctx amount = .ok s₁ ∧ s₁.doDepositCommon accountType to_
      amount = .ok (r, s') := by
  simp only [BToken.deposit, bind_eq_ok, require_eq_ok, exists_and_left, exists_const,
    decide_eq_true_eq, Bool.not_eq_true']

theorem mintDeposit_eq_ok : s.mintDeposit ctx accountType to_ minBTK = .ok (r, s') ↔
      ctx.isContract to_ = false ∧ marketSpread ≤ ctx.value ∧
      ∃ amount, ethToBTokens s.poolBalance (ctx.value / marketSpread) = .ok amount ∧
      minBTK ≤ amount ∧
        { s with ether := s.ether + ctx.value }.doDepositCommon accountType to_
        amount = .ok (r, s') := by
  simp only [BToken.mintDeposit, bind_eq_ok, require_eq_ok, exists_and_left, exists_const,
    decide_eq_true_eq, Bool.not_eq_true']

theorem bTokensToEth_of_le (poolBalance : Nat) {totalSupply : Nat} (hn : n ≤ totalSupply)
    (hsupply : totalSupply ≤ 2 ^ 118) : bTokensToEth poolBalance totalSupply n =
      .ok (min poolBalance (price totalSupply - price (totalSupply - n))) := by
  refine bind_eq_ok.mpr ⟨(), require_eq_ok.mpr (decide_eq_true hn), ?_⟩
  refine bind_eq_ok.mpr ⟨_, fp_of_le hsupply, ?_⟩
  refine bind_eq_ok.mpr ⟨_, fp_of_le (le_trans (sub_le _ _) hsupply), ?_⟩
  exact bind_eq_ok.mpr ⟨_, checkedSub_of_le (gc.monotone_u (sub_le _ _)), rfl⟩

/-- What is minted on the curve is worth what it has cost. -/
theorem bTokensToEth_minted {poolBalance : Nat}
    (hminted : numBTK + tokens poolBalance = tokens (poolBalance + numEth))
    (h : bTokensToEth (poolBalance + numEth) (tokens poolBalance + numBTK) numBTK = .ok n) :
    n = numEth := by
  obtain ⟨-, rfl⟩ := bTokensToEth_ok h
  have hsupply : tokens poolBalance + numBTK =
    tokens (poolBalance + numEth) := by rw [← hminted, Nat.add_comm]
  rw [Nat.add_sub_cancel, hsupply, price_tokens, price_tokens]
  omega

end Calls

section Equivalent

variable {s s₁ s' s₂ : BToken} {ctx : Ctx} {accountType minBTK id₁ id₂ n : Nat} {to_ : Address}

/-- `mintDeposit` leaves the contract as `mint` and `deposit` do. -/
theorem mintDeposit_eq (hcurve : fx s.poolBalance = .ok s.totalSupply)
    (hdirect : s.mintDeposit ctx accountType to_ minBTK = .ok (id₁, s₁))
    (hmint : s.mint ctx minBTK = .ok (n, s'))
    (hdeposit : s'.deposit { ctx with value := 0 } accountType to_ n = .ok (id₂, s₂)) :
    id₁ = id₂ ∧ s₁ = s₂ ∧ (s₁.deposits id₁).value = n := by
  obtain ⟨-, htokens⟩ := fx_eq_ok.mp hcurve
  obtain ⟨-, -, amount, hamount, -, hcommon⟩ := mintDeposit_eq_ok.mp hdirect
  obtain ⟨-, -, rfl, rfl⟩ := doDepositCommon_eq_ok.mp hcommon
  obtain ⟨-, hnumBTK, -, -, -, -, -, rfl⟩ := mintInternal_eq_ok.mp hmint
  obtain ⟨-, -, destroyed, hdestroy, hcommon'⟩ := deposit_eq_ok.mp hdeposit
  obtain ⟨-, numEth, hnumEth, -, -, -, -, rfl⟩ := destroyTokens_eq_ok.mp hdestroy
  obtain ⟨-, -, rfl, rfl⟩ := doDepositCommon_eq_ok.mp hcommon'
  obtain rfl : amount = n := Except.ok.inj (hamount.symm.trans hnumBTK)
  dsimp only at hnumEth ⊢
  rw [← htokens] at hnumEth
  refine ⟨rfl, ?_, by rw [Function.update_self]⟩
  rw [bTokensToEth_minted (ethToBTokens_ok hamount) hnumEth]
  simp

/-- One succeeds exactly if the other one does. -/
theorem mintDeposit_succeeds_iff (hcurve : fx s.poolBalance = .ok s.totalSupply)
    (hbound : s.poolBalance + ctx.value / marketSpread ≤ 2 ^ 110) (hsender : ctx.sender ≠ 0)
    (hbalance : s.balances ctx.sender ≤ s.totalSupply) :
    (∃ r, s.mintDeposit ctx accountType to_ minBTK = .ok r) ↔ ∃ n s', s.mint ctx
      minBTK = .ok (n, s') ∧
      ∃ r, s'.deposit { ctx with value := 0 } accountType to_ n = .ok r := by
  obtain ⟨-, htokens⟩ := fx_eq_ok.mp hcurve
  have hsum := tokens_le_of_le hbound
  constructor
  · rintro ⟨⟨id, s₁⟩, hdirect⟩
    obtain ⟨hcontract, hspread, amount, hamount, hmin, hcommon⟩ := mintDeposit_eq_ok.mp hdirect
    obtain ⟨hID, htotal, -, -⟩ := doDepositCommon_eq_ok.mp hcommon
    have hminted := ethToBTokens_ok hamount
    -- at least one wei goes to the pool, and buys a token
    have hpos : 0 < amount := by
      have hwei : 0 < ctx.value / marketSpread := div_pos hspread (by decide)
      have hlt :=
        gc.monotone_l (show s.poolBalance + 1 ≤ s.poolBalance + ctx.value / marketSpread by omega)
      have := tokens_lt_succ s.poolBalance
      omega
    obtain ⟨minted, hmint, hsupply, hbalances, hID', htotal'⟩ : ∃ minted,
      s.mint ctx minBTK = .ok (amount, minted) ∧
        minted.totalSupply = tokens s.poolBalance + amount ∧ amount ≤ minted.balances ctx.sender ∧
        minted.depositID = s.depositID ∧ minted.totalDeposited = s.totalDeposited := by
      refine ⟨_, mintInternal_eq_ok.mpr ⟨hspread, hamount, hmin, ?_, hsender, ?_, ?_,
        rfl⟩, by rw [htokens], ?_,
        rfl, rfl⟩
      all_goals dsimp only
      · omega
      · omega
      · omega
      · rw [Function.update_self]
        exact le_add_left _ _
    have hnumEth :=
      bTokensToEth_of_le minted.poolBalance (show amount ≤ minted.totalSupply by omega) (by omega)
    refine ⟨amount, minted, hmint, _, deposit_eq_ok.mpr ⟨hcontract, hpos, _, destroyTokens_eq_ok.mpr
      ⟨ne_of_gt hpos, _, hnumEth, min_le_left _ _, hsender, hbalances, by omega, rfl⟩,
      doDepositCommon_eq_ok.mpr ⟨?_, ?_, rfl, rfl⟩⟩⟩
    · rw [hID']
      exact hID
    · rw [htotal']
      exact htotal
  · rintro ⟨n, s', hmint, ⟨id, s₂⟩, hdeposit⟩
    obtain ⟨hspread, hnumBTK, hmin, -, -, -, -, rfl⟩ := mintInternal_eq_ok.mp hmint
    obtain ⟨hcontract, -, destroyed, hdestroy, hcommon⟩ := deposit_eq_ok.mp hdeposit
    obtain ⟨-, numEth, -, -, -, -, -, rfl⟩ := destroyTokens_eq_ok.mp hdestroy
    obtain ⟨hID, htotal, -, -⟩ := doDepositCommon_eq_ok.mp hcommon
    exact ⟨_, mintDeposit_eq_ok.mpr ⟨hcontract, hspread, n, hnumBTK, hmin,
      doDepositCommon_eq_ok.mpr ⟨hID, htotal, rfl, rfl⟩⟩⟩

end Equivalent

/-- The two directions of the curve are inverse to each other and do not overflow; on the curve,
`mintDeposit` does what `mint` and `deposit` do. -/
theorem curve_inverse :
    (∀ x y, x ≤ y → y ≤ 2 ^ 110 → ∃ a b, fx x = .ok a ∧ fx y = .ok b ∧ a ≤ b ∧
      (∀ p, p ≤ max y b → ∃ e, fp p = .ok e) ∧ ∃ e, fp a = .ok e ∧ x - 1 ≤ e ∧ e ≤ x) ∧
    fx 0 = .ok 0 ∧
    ∀ (s : BToken) (ctx : Ctx) (accountType minBTK : Nat) (to_ : Address),
      fx s.poolBalance = .ok s.totalSupply → s.poolBalance + ctx.value / marketSpread ≤ 2 ^ 110 →
      (∀ id₁ s₁ n s' id₂ s₂, s.mintDeposit ctx accountType to_ minBTK = .ok (id₁, s₁) →
        s.mint ctx minBTK = .ok (n, s') →
        s'.deposit { ctx with value := 0 } accountType to_ n = .ok (id₂, s₂) →
        (s₁.deposits id₁).value = n ∧ (s₂.deposits id₂).value = n ∧
        s₁.totalSupply = s₂.totalSupply ∧
          s₁.totalDeposited = s₂.totalDeposited ∧
          s₁.poolBalance ≤ s₂.poolBalance + 1 ∧ s₂.poolBalance ≤ s₁.poolBalance + 1) ∧
      (ctx.sender ≠ 0 → s.balances ctx.sender ≤ s.totalSupply →
        ((∃ r, s.mintDeposit ctx accountType to_ minBTK = .ok r) ↔
          ∃ n s', s.mint ctx minBTK = .ok (n, s') ∧
          ∃ r, s'.deposit { ctx with value := 0 } accountType to_ n = .ok r)) := by
  refine ⟨fun x y hxy hy => ?_, ?_, fun s ctx accountType minBTK to_ hcurve hbound => ⟨?_, ?_⟩⟩
  · have hx := le_trans hxy hy
    refine ⟨_, _, fx_of_le hx, fx_of_le hy, gc.monotone_l hxy, fun p hp => ⟨_, fp_of_le ?_⟩, _,
      fp_of_le (tokens_le_of_le hx), ?_, ?_⟩
    · have := tokens_le_of_le hy
      omega
    · rw [price_tokens]
      exact sub_le x 1
    · rw [price_tokens]
  · rw [fx_of_le (zero_le _), tokens_zero]
  · intro id₁ s₁ n s' id₂ s₂ hdirect hmint hdeposit
    obtain ⟨rfl, rfl, hvalue⟩ := mintDeposit_eq hcurve hdirect hmint hdeposit
    exact ⟨hvalue, hvalue, rfl, rfl, le_succ _, le_succ _⟩
  · intro hsender hbalance
    exact mintDeposit_succeeds_iff hcurve hbound hsender hbalance

/-- Account 1 pays 4000 wei in the first call. -/
theorem curve_inverse_first :
    let s := BToken.initial 9
    let ctx : Ctx := { sender := 1, value := 4000, isContract := fun _ => false, accepts := true }
    ∃ id₁ s₁ n s' id₂ s₂, s.mintDeposit ctx 1 1 0 = .ok (id₁, s₁) ∧ s.mint ctx 0 = .ok (n, s') ∧
      s'.deposit { ctx with value := 0 } 1 1 n = .ok (id₂, s₂) ∧ 0 < n ∧
      (s₁.deposits id₁).value = n ∧ (s₂.deposits id₂).value = n ∧
      s₁.totalSupply = s₂.totalSupply := by
  intro s ctx
  obtain ⟨-, hzero, hboth⟩ := curve_inverse
  obtain ⟨hequal, hsucceeds⟩ := hboth s ctx 1 0 1 hzero (by decide)
  obtain ⟨⟨id₁, s₁⟩, h₁⟩ :=
    Prog.exists_ok_of_isOk (x := s.mintDeposit ctx 1 1 0) (by decide +kernel)
  obtain ⟨n, s', hmint, ⟨id₂, s₂⟩, h₂⟩ := (hsucceeds (by decide) (by decide)).mp ⟨_, h₁⟩
  obtain ⟨hvalue₁, hvalue₂, hsupply, -⟩ := hequal _ _ _ _ _ _ h₁ hmint h₂
  have hpos : (s.mint ctx 0).map (decide <| 0 < ·.1) = .ok true := by decide +kernel
  rw [hmint] at hpos
  have hpos : 0 < n := of_decide_eq_true (Except.ok.inj hpos)
  exact ⟨id₁, s₁, n, s', id₂, s₂, h₁, hmint, h₂, hpos, hvalue₁, hvalue₂, hsupply⟩

end MadNet.Token
