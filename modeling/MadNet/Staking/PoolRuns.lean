import MadNet.Staking.Custody

/-!
# Runs of the validator pool

Each call of the pool keeps custody and its balances. A token ID is stored in 128 bits, so that
custody is kept as long as PublicStaking has not minted that many positions.
-/

namespace MadNet.Staking

open Run StakingNFT
open Function (update_self update_of_ne update update_idem)
open Prog (bind_ok bind₂_ok bind_eq_ok)
open Monitor (Address)

/-! ## Owners after a call of the staking contract -/

namespace StakingNFT

variable {s s' : StakingNFT} {ctx : Ctx} {id : Nat} {payout : Nat × Nat}

theorem burn_owners (h : s.burn ctx id = .ok (payout, s')) :
    s.owners id = some ctx.sender ∧ s'.owners = update s.owners id none ∧
      s'.counter = s.counter := by
  cases burnTo_effect h with
  | burned howner => exact ⟨howner, rfl, rfl⟩

theorem mint_owners {amount : Nat} (h : s.mint ctx amount = .ok (id, s')) :
    s.owners id = none ∧ s'.owners = update s.owners id (some ctx.sender) ∧
      id = s.counter + 1 ∧ s'.counter = id := by
  obtain ⟨_, -, h⟩ := bind_ok h
  obtain ⟨rfl, heffect⟩ := mintNFT_effect h
  cases heffect with
  | minted _ _ hnew _ => exact ⟨hnew, rfl, rfl, rfl⟩

/-- Nothing but a mint, a burn or a transfer changes owners. -/
theorem Effect.owners_eq {k : Kind} (h : Effect ctx s k payout s')
    (hk : match k with | .mint .. | .burn _ | .transfer .. => False | _ => True) :
    s'.owners = s.owners ∧ s'.counter = s.counter := by
  cases h with
  | minted | burned | transferred => exact hk.elim
  | collected | deposited => exact ⟨by simp, by simp⟩
  | locked | tripped => exact ⟨rfl, rfl⟩

theorem transferPosition_owners {from_ to_ : Address}
    (h : s.transferPosition ctx from_ to_ id = .ok s') :
    s.owners id = some from_ ∧ s'.owners = update s.owners id (some to_) ∧
      s'.counter = s.counter := by
  obtain ⟨owner, howner, h⟩ := bind_ok h
  rw [ownerOf_eq_ok] at howner
  split at h
  next hif =>
    cases h
    rw [hif.2.1]
    exact ⟨howner, rfl, rfl⟩
  next => cases h

theorem Effect.counter_le {k : Kind} (h : Effect ctx s k payout s') : s.counter ≤ s'.counter := by
  cases h with
  | minted => exact Nat.le_succ _
  | burned | transferred | locked | tripped => exact Nat.le_refl _
  | collected | deposited => simp

end StakingNFT

namespace PoolState

variable {C : Contracts} {c : PoolCtx} {w w' : PoolState}

/-! ## Parts of a call -/

variable {id n payoutEth payoutToken : Nat}

theorem validatorTokenID_eq_ok {v : Address} (h : w.validatorTokenID v = .ok id) :
    ∃ d, w.pool.validators.tryGet v = some d ∧ d.tokenID = id := by
  unfold validatorTokenID at h
  split at h
  next d hd => exact ⟨d, hd, Except.ok.inj h⟩
  next => cases h

theorem burnNFTPosition_eq_ok {k : Holding}
    (h : w.burnNFTPosition C c k id = .ok (n, payoutEth, payoutToken, w')) :
    (w.staking k).owners id = some C.validatorPool ∧ w'.pool = w.pool ∧
      ∃ s, s.owners = update (w.staking k).owners id none ∧ s.counter = (w.staking k).counter ∧
        w'.publicStaking = (w.setStaking s k).publicStaking ∧
        w'.validatorStaking = (w.setStaking s k).validatorStaking := by
  obtain ⟨_, ⟨payout, s⟩, -, hburn, h⟩ := bind₂_ok h
  obtain ⟨howner, howners, hcounter⟩ := burn_owners hburn
  cases h
  exact ⟨howner, by cases k <;> rfl, s, howners, hcounter, rfl, rfl⟩

theorem mintStakingPosition_eq_ok {k : Holding} (h : w.mintStakingPosition C c k n = .ok (id, w')) :
    (w.staking k).owners id = none ∧ w'.pool = w.pool ∧
      ∃ s, s.owners = update (w.staking k).owners id (some C.validatorPool) ∧
        id = (w.staking k).counter + 1 ∧ s.counter = id ∧
        w'.publicStaking = (w.setStaking s k).publicStaking ∧
        w'.validatorStaking = (w.setStaking s k).validatorStaking := by
  obtain ⟨⟨tokenID, s⟩, hmint, h⟩ := bind_ok h
  cases h
  obtain ⟨hnone, howners, hid, hcounter⟩ := mint_owners hmint
  exact ⟨hnone, by cases k <;> rfl, s, howners, hid, hcounter, rfl, rfl⟩

/-- The states differ in the balances only. -/
structure SameHoldings (w w' : PoolState) : Prop where
  pool : w'.pool = w.pool
  publicStaking : w'.publicStaking = w.publicStaking
  validatorStaking : w'.validatorStaking = w.validatorStaking

variable {to_ : Address}

theorem transferToken_eq_ok (h : w.transferToken C c to_ n = .ok w') :
    SameHoldings w w' := by
  unfold transferToken at h
  split at h
  · cases h
    exact ⟨rfl, rfl, rfl⟩
  · obtain ⟨_, _, -, -, h⟩ := bind₂_ok h
    split at h <;> obtain rfl := Except.ok.inj h <;> exact ⟨rfl, rfl, rfl⟩

theorem transferEth_eq_ok (h : w.transferEth C c to_ n = .ok w') :
    SameHoldings w w' := by
  unfold transferEth at h
  split at h
  · cases h
    exact ⟨rfl, rfl, rfl⟩
  · obtain ⟨_, _, -, -, h⟩ := bind₂_ok h
    cases h
    exact ⟨rfl, rfl, rfl⟩

theorem transferEthAndTokens_eq_ok
    (h : w.transferEthAndTokens C c to_ payoutEth payoutToken = .ok w') : SameHoldings w w' := by
  obtain ⟨w₁, htoken, heth⟩ := bind_ok h
  have h1 := transferToken_eq_ok htoken
  have h2 := transferEth_eq_ok heth
  exact ⟨h2.pool.trans h1.pool, h2.publicStaking.trans h1.publicStaking,
    h2.validatorStaking.trans h1.validatorStaking⟩

theorem requireBalances_eq_ok {u : Unit} (h : w'.requireBalances w = .ok u) :
    w'.balanceToken = w.balanceToken ∧ w'.balanceEth = w.balanceEth := by
  obtain ⟨_, htoken, heth⟩ := bind_ok h
  exact ⟨(of_decide_eq_true (require_eq_ok.mp htoken)).symm,
    (of_decide_eq_true (require_eq_ok.mp heth)).symm⟩

/-! ## Custody is kept -/

/-- The entries of the pool fit the owners of the positions. -/
def InCustody (C : Contracts) (w : PoolState) : Prop :=
  Custody C.validatorPool w.pool.validators w.pool.exitingValidatorsData w.validatorStaking.owners
    w.publicStaking.owners

structure Keeps (C : Contracts) (w w' : PoolState) : Prop where
  counter_le : w.publicStaking.counter ≤ w'.publicStaking.counter
  balanceToken : w'.balanceToken = w.balanceToken
  balanceEth : w'.balanceEth = w.balanceEth
  custody : w'.publicStaking.counter < 2 ^ 128 → w.InCustody C → w'.InCustody C

theorem Keeps.refl (w : PoolState) : Keeps C w w := ⟨Nat.le_refl _, rfl, rfl, fun _ h => h⟩

theorem Keeps.trans {w₁ w2 w3 : PoolState} (h1 : Keeps C w₁ w2) (h2 : Keeps C w2 w3) :
    Keeps C w₁ w3 where
  counter_le := h1.counter_le.trans h2.counter_le
  balanceToken := h2.balanceToken.trans h1.balanceToken
  balanceEth := h2.balanceEth.trans h1.balanceEth
  custody hlt h := h2.custody hlt (h1.custody (Nat.lt_of_le_of_lt h2.counter_le hlt) h)

/-! ### A position is burned -/

section

variable {v : Address} {n id payoutEth payoutToken : Nat} {w₁ w2 : PoolState}

/-- The position that an account has in the pool was burned. -/
inductive Burned (w : PoolState) (v : Address) (w₁ : PoolState) : Prop where
  | validator {d : ValidatorData} (hd : w.pool.validators.tryGet v = some d)
      (hvs : w₁.validatorStaking.owners = Function.update w.validatorStaking.owners d.tokenID none)
      (hps : w₁.publicStaking = w.publicStaking) (hpool : w₁.pool = w.pool) : Burned w v w₁
  | exiting (hv : w.isValidator v = false) (hx : w.isInExitingQueue v)
      (hvs : w₁.validatorStaking = w.validatorStaking)
      (hps : w₁.publicStaking.owners = Function.update w.publicStaking.owners
        (w.pool.exitingValidatorsData v).tokenID none)
      (hcounter : w₁.publicStaking.counter = w.publicStaking.counter)
      (hpool : w₁.pool = w.pool) : Burned w v w₁

theorem Burned.counter_eq (h : Burned w v w₁) :
    w₁.publicStaking.counter = w.publicStaking.counter := by
  cases h with
  | validator _ _ hps _ => rw [hps]
  | exiting _ _ _ _ hcounter _ => exact hcounter

theorem burnValidatorStakingPosition_burned
    (h : w.burnValidatorStakingPosition C c v = .ok (n, payoutEth, payoutToken, w₁)) :
    Burned w v w₁ := by
  obtain ⟨id, hid, h⟩ := bind_ok h
  obtain ⟨d, hd, rfl⟩ := validatorTokenID_eq_ok hid
  obtain ⟨-, hpool, s, howners, -, hps, hvs⟩ := burnNFTPosition_eq_ok h
  exact .validator hd (by rw [hvs]; exact howners) hps hpool

theorem burnAccused_burned (hv : w.isAccusable v)
    (h : w.burnAccused C c v = .ok (n, payoutEth, payoutToken, w₁)) : Burned w v w₁ := by
  unfold burnAccused at h
  split at h
  next => exact burnValidatorStakingPosition_burned h
  next hnot =>
    rw [Bool.not_eq_true] at hnot
    obtain ⟨-, hpool, s, howners, hcounter, hps, hvs⟩ := burnNFTPosition_eq_ok h
    refine .exiting hnot ?_ hvs (by rw [hps]; exact howners) (by rw [hps]; exact hcounter) hpool
    unfold isAccusable at hv
    rwa [hnot, Bool.false_or] at hv

theorem removeData_pool (hpool : w2.pool = w₁.pool) :
    (w2.removeData v).pool = (w₁.removeData v).pool := by
  have hv : w2.isValidator v = w₁.isValidator v := by
    unfold isValidator
    rw [hpool]
  unfold removeData
  rw [hv]
  split
  · unfold removeValidatorData setValidators
    rw [hpool]
  · unfold removeExitingQueueData setExiting
    rw [hpool]

theorem removeData_publicStaking : (w.removeData v).publicStaking = w.publicStaking := by
  unfold removeData
  split <;> rfl

theorem removeData_validatorStaking : (w.removeData v).validatorStaking = w.validatorStaking := by
  unfold removeData
  split <;> rfl

/-- Without its entry and its position, the account is not in the pool. -/
theorem Burned.removeData (h : Burned w v w₁) (H : w.InCustody C) :
    (w₁.removeData v).InCustody C ∧ (w₁.removeData v).pool.validators.contains v = false ∧
      ((w₁.removeData v).pool.exitingValidatorsData v).freeAfter = 0 := by
  cases h with
  | @validator d hd hvs hps hpool =>
    obtain ⟨hmem, rfl⟩ := H.wellFormed.tryGet_eq_some.mp hd
    have hcontains : w.pool.validators.contains d.address :=
      H.wellFormed.contains_iff.mpr ⟨d, hmem, rfl⟩
    have hremove : w₁.removeData d.address = w₁.removeValidatorData d.address := by
      have : w₁.isValidator d.address := by
        unfold isValidator
        rwa [hpool]
      unfold PoolState.removeData
      rw [if_pos this]
    rw [hremove]
    have hleave := Custody.leave H hmem
    refine ⟨?_, ?_, ?_⟩ <;> simp only [InCustody, removeValidatorData, setValidators,
      hvs, hps, hpool]
    · exact hleave
    · rw [Bool.eq_false_iff]
      intro hin
      obtain ⟨d', hd', haddr⟩ := hleave.wellFormed.contains_iff.mp hin
      exact (H.wellFormed.mem_remove.mp hd').2 haddr
    · exact H.apart _ hcontains
  | exiting hv hx hvs hps _ hpool =>
    have hremove : w₁.removeData v = w₁.removeExitingQueueData v := by
      have : w₁.isValidator v = false := by
        unfold isValidator
        rwa [hpool]
      unfold PoolState.removeData
      rw [this]
      rfl
    rw [hremove]
    have hdequeue := Custody.dequeue H (of_decide_eq_true hx) none nofun
    refine ⟨?_, ?_, ?_⟩ <;> simp only [InCustody, removeExitingQueueData, setExiting,
      hvs, hps, hpool]
    · exact hdequeue
    · exact hv
    · rw [update_self]
      rfl

/-! ### An entry with a new position -/

theorem moveToExitingQueue_eq : w.moveToExitingQueue c v id = (w.removeData v).setExiting v
    { tokenID := id % 2 ^ 128, freeAfter := (c.epoch.val + claimPeriod) % 2 ^ 128 } := by
  unfold moveToExitingQueue removeData
  split
  · rfl
  · simp [removeExitingQueueData, setExiting]

theorem freeAfter_pos (c : PoolCtx) : 0 < (c.epoch.val + claimPeriod) % 2 ^ 128 := by
  have := c.epoch.isLt
  rw [Nat.mod_eq_of_lt (by unfold claimPeriod; omega)]
  exact Nat.succ_pos _

/-- The account has a new position of PublicStaking for the one that was burned. -/
theorem Burned.requeued (h : Burned w v w₁)
    (hmint : w₁.mintPublicStakingPosition C c n = .ok (id, w2)) :
    w.publicStaking.counter ≤ (w2.moveToExitingQueue c v id).publicStaking.counter ∧
      ((w2.moveToExitingQueue c v id).publicStaking.counter < 2 ^ 128 → w.InCustody C →
        (w2.moveToExitingQueue c v id).InCustody C) := by
  obtain ⟨hnone, hpool, s, howners, hid, hcounter, hps, hvs⟩ := mintStakingPosition_eq_ok hmint
  change w2.publicStaking = s at hps
  change w2.validatorStaking = w₁.validatorStaking at hvs
  have hqueue : (w2.moveToExitingQueue c v id).publicStaking = w2.publicStaking := by
    rw [moveToExitingQueue_eq]
    exact removeData_publicStaking
  rw [hqueue, hps, hcounter]
  refine ⟨?_, fun hlt H => ?_⟩
  · change id = w₁.publicStaking.counter + 1 at hid
    rw [← h.counter_eq]
    omega
  · obtain ⟨hremoved, hcontains, hfree⟩ := h.removeData H
    unfold InCustody at hremoved
    rw [removeData_publicStaking, removeData_validatorStaking] at hremoved
    have henqueue := Custody.enqueue hremoved hcontains hfree
      (e := ⟨id % 2 ^ 128, (c.epoch.val + claimPeriod) % 2 ^ 128⟩)
      (by rw [Nat.mod_eq_of_lt hlt]; exact hnone) (freeAfter_pos c)
    rw [moveToExitingQueue_eq]
    unfold InCustody setExiting
    dsimp only
    rw [removeData_publicStaking, removeData_validatorStaking, removeData_pool hpool,
      hps, hvs, howners]
    rw [Nat.mod_eq_of_lt hlt] at henqueue ⊢
    exact henqueue

theorem swapValidatorStakingForPublicStaking_eq_ok
    (h : w.swapValidatorStakingForPublicStaking C c v = .ok (id, payoutEth, payoutToken, w2)) :
    ∃ n w₁, Burned w v w₁ ∧ w₁.mintPublicStakingPosition C c n = .ok (id, w2) := by
  obtain ⟨⟨minerShares, _, _, w₁⟩, _, hburn, -, h2⟩ := bind₂_ok h
  obtain ⟨⟨id', w2'⟩, hmint, h3⟩ := bind_ok h2
  cases h3
  exact ⟨minerShares, w₁, burnValidatorStakingPosition_burned hburn, hmint⟩

/-- The last statements of a call: the payouts are sent, and the balances are compared. -/
theorem settle_keeps {to_ : Address} {u : Unit}
    (htransfer : w₁.transferEthAndTokens C c to_ payoutEth payoutToken = .ok w2)
    (hbalances : w2.requireBalances w = .ok u)
    (hcounter : w.publicStaking.counter ≤ w₁.publicStaking.counter)
    (hcustody : w₁.publicStaking.counter < 2 ^ 128 → w.InCustody C → w₁.InCustody C) :
    Keeps C w w2 := by
  obtain ⟨htoken, heth⟩ := requireBalances_eq_ok hbalances
  obtain ⟨hpool, hps, hvs⟩ := transferEthAndTokens_eq_ok htransfer
  refine ⟨by rwa [hps], htoken, heth, fun hlt H => ?_⟩
  unfold InCustody
  rw [hpool, hps, hvs]
  exact hcustody (by rwa [← hps]) H

theorem unregisterValidator_keeps (h : w.unregisterValidator C c v = .ok w') : Keeps C w w' := by
  obtain ⟨_, ⟨stakeTokenID, payoutEth, payoutToken, w2⟩, -, hswap, h2⟩ := bind₂_ok h
  obtain ⟨w3, _, htransfer, hbalances, h4⟩ := bind₂_ok h2
  cases h4
  obtain ⟨n, w₁, hburned, hmint⟩ := swapValidatorStakingForPublicStaking_eq_ok hswap
  obtain ⟨hcounter, hcustody⟩ := hburned.requeued hmint
  exact settle_keeps htransfer hbalances hcounter hcustody

theorem slash_eq_ok (h : w.slash C c v = .ok (n, payoutEth, payoutToken, w₁)) : Burned w v w₁ := by
  obtain ⟨_, ⟨shares, eth, token, w1'⟩, hv, hburn, h2⟩ := bind₂_ok h
  obtain ⟨_, -, h3⟩ := bind_ok h2
  cases h3
  exact burnAccused_burned (require_eq_ok.mp hv) hburn

theorem requeue_eq_ok (hburned : Burned w v w₁) (h : w₁.requeue C c v n = .ok w2) :
    w.publicStaking.counter ≤ w2.publicStaking.counter ∧
      (w2.publicStaking.counter < 2 ^ 128 → w.InCustody C → w2.InCustody C) := by
  unfold requeue at h
  split at h
  · obtain ⟨⟨id, w1'⟩, hmint, h1⟩ := bind_ok h
    cases h1
    exact hburned.requeued hmint
  · cases h
    rw [removeData_publicStaking]
    exact ⟨hburned.counter_eq.ge, fun _ H => (hburned.removeData H).1⟩

theorem minorSlash_keeps {disputer : Address} (h : w.minorSlash C c v disputer = .ok w') :
    Keeps C w w' := by
  obtain ⟨_, _, -, -, h2⟩ := bind₂_ok h
  obtain ⟨⟨n, payoutEth, payoutToken, w₁⟩, w2, hslash, hrequeue, h4⟩ := bind₂_ok h2
  obtain ⟨w3, _, htransfer, hbalances, h6⟩ := bind₂_ok h4
  cases h6
  obtain ⟨hcounter, hcustody⟩ := requeue_eq_ok (slash_eq_ok hslash) hrequeue
  exact settle_keeps htransfer hbalances hcounter hcustody

theorem majorSlash_keeps {disputer : Address} (h : w.majorSlash C c v disputer = .ok w') :
    Keeps C w w' := by
  obtain ⟨_, _, -, -, h2⟩ := bind₂_ok h
  obtain ⟨⟨n, payoutEth, payoutToken, w₁⟩, s, hslash, hdeposit, h4⟩ := bind₂_ok h2
  obtain ⟨w3, _, htransfer, hbalances, h6⟩ := bind₂_ok h4
  cases h6
  have hburned := slash_eq_ok hslash
  obtain ⟨howners, -⟩ := (depositToken_effect hdeposit).owners_eq trivial
  refine settle_keeps htransfer hbalances ?_ fun _ H => ?_
  · change _ ≤ (w₁.removeData v).publicStaking.counter
    rw [removeData_publicStaking]
    exact hburned.counter_eq.ge
  · have hremoved := (hburned.removeData H).1
    unfold InCustody at hremoved ⊢
    rw [← howners] at hremoved
    exact hremoved

/-! ### Joining -/

/-- The position of the factory is burned for a new position of ValidatorStaking. -/
theorem swapPublicStakingForValidatorStaking_eq_ok {stakerTokenID : Nat}
    (h : w.swapPublicStakingForValidatorStaking C c c.sender stakerTokenID =
      .ok (id, payoutEth, payoutToken, w2)) :
    w2.pool = w.pool ∧ w2.publicStaking.counter = w.publicStaking.counter ∧
      w.publicStaking.owners stakerTokenID = some c.sender ∧
      w2.publicStaking.owners = update w.publicStaking.owners stakerTokenID none ∧
      w.validatorStaking.owners id = none ∧
      w2.validatorStaking.owners = update w.validatorStaking.owners id (some C.validatorPool) := by
  obtain ⟨_, _, -, -, h2⟩ := bind₂_ok h
  obtain ⟨s, ⟨_, eth, token, w₁⟩, htransfer, hburn, h4⟩ := bind₂_ok h2
  obtain ⟨_, _, -, -, h6⟩ := bind₂_ok h4
  obtain ⟨⟨id', w2'⟩, hmint, h7⟩ := bind_ok h6
  cases h7
  obtain ⟨howner, howners, hcounter⟩ := transferPosition_owners htransfer
  obtain ⟨-, hpool1, s1, howners1, hcounter1, hps1, hvs1⟩ := burnNFTPosition_eq_ok hburn
  obtain ⟨hnone, hpool2, s2, howners2, -, -, hps2, hvs2⟩ := mintStakingPosition_eq_ok hmint
  change s1.owners = update s.owners stakerTokenID none at howners1
  change s1.counter = s.counter at hcounter1
  change w₁.publicStaking = s1 at hps1
  change w₁.validatorStaking = w.validatorStaking at hvs1
  change w2.publicStaking = w₁.publicStaking at hps2
  change w2.validatorStaking = s2 at hvs2
  change w₁.validatorStaking.owners id = none at hnone
  change s2.owners = update w₁.validatorStaking.owners id _ at howners2
  rw [hvs1] at hnone howners2
  refine ⟨hpool2.trans hpool1, ?_, howner, ?_, hnone, ?_⟩
  · rw [hps2, hps1, hcounter1, hcounter]
  · rw [hps2, hps1, howners1, howners, update_idem]
  · rw [hvs2, howners2]

theorem registerValidator_keeps {stakerTokenID : Nat} (hsender : c.sender = C.factory)
    (h : w.registerValidator C c v stakerTokenID = .ok w') : Keeps C w w' := by
  obtain ⟨_, _, -, hnew, h2⟩ := bind₂_ok h
  obtain ⟨⟨id, payoutEth, payoutToken, w₁⟩, w3, hswap, htransfer, h4⟩ := bind₂_ok h2
  obtain ⟨_, hbalances, h5⟩ := bind_ok h4
  cases h5
  obtain ⟨hpool, hcounter, howner, hps, hnone, hvs⟩ :=
    swapPublicStakingForValidatorStaking_eq_ok hswap
  have hnew : w.pool.validators.contains v = false ∧
    (w.pool.exitingValidatorsData v).freeAfter = 0 := by
    have := require_eq_ok.mp hnew
    simpa [isAccusable, isValidator, isInExitingQueue] using this
  refine settle_keeps htransfer hbalances hcounter.ge fun _ H => ?_
  have hjoin := Custody.join H hnew.1 hnew.2 hnone
  unfold InCustody setValidators
  dsimp only
  rw [hpool, hps, hvs]
  refine hjoin.foreign (fun _ => Iff.rfl) fun j => ?_
  by_cases hj : j = stakerTokenID
  · -- the position was the factory's
    subst hj
    rw [update_self, howner, hsender]
    refine ⟨nofun, fun h => absurd (Option.some.inj h) C.factory_ne⟩
  · rw [update_of_ne hj]

theorem onlyFactoryAtRest_eq_ok {u : Unit} (h : w.onlyFactoryAtRest C c = .ok u) :
    c.sender = C.factory := by
  obtain ⟨_, hsender, -⟩ := bind_ok h
  exact of_decide_eq_true (require_eq_ok.mp hsender)

theorem registerValidators_keeps {validators : List Address} {stakerTokenIDs : List Nat}
    (h : w.registerValidators C c validators stakerTokenIDs = .ok w') : Keeps C w w' := by
  obtain ⟨_, hrest, h1⟩ := bind_ok h
  have hsender := onlyFactoryAtRest_eq_ok hrest
  obtain ⟨_, _, -, -, h3⟩ := bind₂_ok h1
  refine Prog.foldlM_invariant (Keeps C w) (fun {w₁ x w2} hx hw1 => ?_) h3 (.refl w)
  obtain ⟨_, _, -, -, hx2⟩ := bind₂_ok hx
  exact hw1.trans (registerValidator_keeps hsender hx2)

/-! ### Leaving -/

theorem unregisterValidators_keeps {validators : List Address}
    (h : w.unregisterValidators C c validators = .ok w') : Keeps C w w' := by
  obtain ⟨_, _, -, -, h2⟩ := bind₂_ok h
  exact Prog.foldlM_invariant (Keeps C w)
    (fun hx hw1 => hw1.trans (unregisterValidator_keeps hx)) h2 (.refl w)

theorem unregisterLast_keeps (h : unregisterLast C c n w = .ok w') : Keeps C w w' := by
  induction n generalizing w with
  | zero =>
    obtain rfl := Except.ok.inj h
    exact .refl w
  | succ n ih =>
    unfold unregisterLast at h
    split at h
    · obtain rfl := Except.ok.inj h
      exact .refl w
    · obtain ⟨w₁, hw1, h1⟩ := bind_ok h
      exact (unregisterValidator_keeps hw1).trans (ih h1)

theorem unregisterAllValidators_keeps (h : w.unregisterAllValidators C c = .ok w') :
    Keeps C w w' := by
  obtain ⟨_, -, h1⟩ := bind_ok h
  exact unregisterLast_keeps h1

/-! ### Profits and claims -/

theorem collectProfits_keeps (h : w.collectProfits C c = .ok w') : Keeps C w w' := by
  obtain ⟨_, _, -, -, h2⟩ := bind₂_ok h
  obtain ⟨id, ⟨payoutEth, s1⟩, -, heth, h4⟩ := bind₂_ok h2
  obtain ⟨⟨payoutToken, s2⟩, _, htoken, hbalances, h6⟩ := bind₂_ok h4
  cases h6
  obtain ⟨hbtoken, hbeth⟩ := requireBalances_eq_ok hbalances
  have howners : s2.owners = w.validatorStaking.owners :=
    ((collectTo_effect htoken).owners_eq trivial).1.trans
      ((collectTo_effect heth).owners_eq trivial).1
  refine ⟨?_, hbtoken, hbeth, fun _ H => ?_⟩
  · unfold credit
    split <;> exact Nat.le_refl _
  · unfold InCustody at H ⊢
    rw [← howners] at H
    unfold credit
    split <;> exact H

theorem claimExitingNFTPosition_keeps (hsender : c.sender ≠ C.validatorPool)
    (h : w.claimExitingNFTPosition C c = .ok w') : Keeps C w w' := by
  obtain ⟨_, _, hfree, -, h2⟩ := bind₂_ok h
  obtain ⟨s1, s2, hlock, htransfer, h4⟩ := bind₂_ok h2
  split at h4
  next =>
    cases h4
    obtain ⟨howners1, hcounter1⟩ := (lockOwnPosition_effect hlock).owners_eq trivial
    obtain ⟨-, howners2, hcounter2⟩ := transferPosition_owners htransfer
    refine ⟨?_, rfl, rfl, fun _ H => ?_⟩
    · change w.publicStaking.counter ≤ s2.counter
      rw [hcounter2, hcounter1]
      exact Nat.le_refl _
    · have hdequeue :=
        Custody.dequeue H (of_decide_eq_true (require_eq_ok.mp hfree)) (some c.sender)
        fun h => hsender (Option.some.inj h)
      unfold InCustody removeExitingQueueData setExiting
      dsimp only
      rw [howners2, howners1]
      exact hdequeue
  next => cases h4

theorem set_keeps {who : Address} {code : String} {p : ValidatorPool}
    (h : w.set c who code p = .ok w')
    (hp : p.validators = w.pool.validators)
    (hx : p.exitingValidatorsData = w.pool.exitingValidatorsData) : Keeps C w w' := by
  obtain ⟨_, -, h1⟩ := bind_ok h
  cases h1
  refine ⟨Nat.le_refl _, rfl, rfl, fun _ H => ?_⟩
  unfold InCustody
  dsimp only
  rw [hp, hx]
  exact H

theorem call_keeps (hsender : c.sender ≠ C.validatorPool) {x : PoolCall}
    (h : w.call C c x = .ok w') :
    Keeps C w w' := by
  cases x with
  | registerValidators => exact registerValidators_keeps h
  | unregisterValidators => exact unregisterValidators_keeps h
  | unregisterAllValidators => exact unregisterAllValidators_keeps h
  | collectProfits => exact collectProfits_keeps h
  | claimExitingNFTPosition => exact claimExitingNFTPosition_keeps hsender h
  | majorSlash => exact majorSlash_keeps h
  | minorSlash => exact minorSlash_keeps h
  | setStakeAmount | setMaxNumValidators | setDisputerReward | completeETHDKG | pauseConsensus =>
    exact set_keeps h rfl rfl

end

/-! ## Runs -/

/-- Nobody gives a position to the pool, which approves nobody. -/
def Foreign (C : Contracts) (s : StakingNFT) (ctx : Ctx) : Kind → Prop
  | .mint to_ _ => to_ ≠ C.validatorPool
  | .transfer to_ id => to_ ≠ C.validatorPool ∧ (ctx.approved → s.owners id ≠ some C.validatorPool)
  | _ => True

/-- What others can do: the pool does not call itself and approves nobody, and nobody gives it
positions. In ValidatorStaking nobody else can mint one. -/
def Admissible (C : Contracts) (w : PoolState) : PoolEvent → Prop
  | .call c _ => c.sender ≠ C.validatorPool
  | .staking ctx x =>
    ctx.sender ≠ C.validatorPool ∧ Foreign C w.publicStaking ctx (x.kind ctx)
  | .validatorStaking ctx x => ctx.sender ≠ C.validatorPool ∧
    (x.isOverridden = false → Foreign C w.validatorStaking ctx (x.kind ctx))
  | .received _ _ => True

/-- The positions of the pool stay its own whatever others do in a staking contract. -/
theorem Foreign.owners_iff {ctx : Ctx} {k : Kind} {payout : Nat × Nat} {s s' : StakingNFT}
    (hforeign : Foreign C s ctx k) (hsender : ctx.sender ≠ C.validatorPool)
    (h : StakingNFT.Effect ctx s k payout s') (id : Nat) :
    s'.owners id = some C.validatorPool ↔ s.owners id = some C.validatorPool := by
  cases h with
  | @minted to_ amount p _ _ hnew _ =>
    change update s.owners (s.counter + 1) (some to_) id = _ ↔ _
    by_cases hid : id = s.counter + 1
    · subst hid
      rw [update_self, hnew]
      exact ⟨fun h => absurd (Option.some.inj h) hforeign, nofun⟩
    · rw [update_of_ne hid]
  | @burned tokenID _ _ _ _ _ _ howner =>
    change update s.owners tokenID none id = _ ↔ _
    by_cases hid : id = tokenID
    · subst hid
      rw [update_self, howner]
      exact ⟨nofun, fun h => absurd (Option.some.inj h) hsender⟩
    · rw [update_of_ne hid]
  | collected | deposited => simp
  | @transferred to_ tokenID _ hmay =>
    change update s.owners tokenID (some to_) id = _ ↔ _
    by_cases hid : id = tokenID
    · subst hid
      rw [update_self]
      refine ⟨fun h => absurd (Option.some.inj h) hforeign.1, fun h => ?_⟩
      rcases hmay with howner | happroved
      · rw [howner] at h
        exact absurd (Option.some.inj h) hsender
      · exact absurd h (hforeign.2 happroved)
    · rw [update_of_ne hid]
  | locked | tripped => rfl

/-- An event keeps custody as long as the token IDs fit. -/
theorem step_custody {e : PoolEvent} (hadm : Admissible C w e)
    (H : w.publicStaking.counter < 2 ^ 128 → w.InCustody C) :
    (w.step C e).publicStaking.counter < 2 ^ 128 → (w.step C e).InCustody C := by
  cases e with
  | call c x =>
    unfold step
    dsimp only
    split
    next w' hcall =>
      have hkeeps := call_keeps hadm hcall
      exact fun hlt => hkeeps.custody hlt (H (Nat.lt_of_le_of_lt hkeeps.counter_le hlt))
    next => exact H
  | staking ctx x =>
    unfold step StakingNFT.step
    dsimp only
    split
    next payout s' hcall =>
      have heffect := call_effect hcall
      exact fun hlt => (H (Nat.lt_of_le_of_lt heffect.counter_le hlt)).foreign (fun _ => Iff.rfl)
        (hadm.2.owners_iff hadm.1 heffect)
    next => exact H
  | validatorStaking ctx x =>
    unfold step
    dsimp only
    split
    next payout s' hcall =>
      obtain ⟨_, hguard, hcall⟩ := bind_ok hcall
      have hother : x.isOverridden = false := by simpa [hadm.1] using require_eq_ok.mp hguard
      exact fun hlt => (H hlt).foreign ((hadm.2 hother).owners_iff hadm.1 (call_effect hcall))
        fun _ => Iff.rfl
    next => exact H
  | received eth token => exact H

theorem step_balances {x : PoolCall} (hadm : Admissible C w (.call c x)) :
    (w.step C (.call c x)).balanceToken = w.balanceToken ∧
      (w.step C (.call c x)).balanceEth = w.balanceEth := by
  unfold step
  dsimp only
  split
  next w' hcall =>
    have hkeeps := call_keeps hadm hcall
    exact ⟨hkeeps.balanceToken, hkeeps.balanceEth⟩
  next => exact ⟨rfl, rfl⟩

theorem inCustody_deployed (C : Contracts) : deployed.InCustody C := by
  refine ⟨EnumerableMap.wellFormed_empty, fun _ _ => rfl, fun _ h => ?_,
    fun _ h => ?_, fun _ h => ?_,
    fun _ h => ?_, fun _ _ h => ?_, fun _ h => ?_⟩ <;> cases h

end PoolState

/-- Each state of a run in which fewer than `2 ^ 128` positions of PublicStaking have been minted is
in custody, and no call of the pool changes its balances. -/
theorem custody_of_run (C : Contracts) (es : List PoolEvent)
    (h : Run.Along (PoolState.Admissible C) (PoolState.step C) .deployed es) :
    ((Run.exec (PoolState.step C) .deployed es).publicStaking.counter < 2 ^ 128 →
      (Run.exec (PoolState.step C) .deployed es).InCustody C) ∧
    Run.Along (fun w e => ∀ c x, e = .call c x → (w.step C e).balanceToken = w.balanceToken ∧
      (w.step C e).balanceEth = w.balanceEth) (PoolState.step C) .deployed es := by
  refine ⟨?_, ?_⟩
  · exact invariant (fun w => w.publicStaking.counter < 2 ^ 128 → w.InCustody C)
      (fun w e H hadm => PoolState.step_custody hadm H) (fun _ => PoolState.inCustody_deployed C) h
  · refine along_of_invariant (fun _ => True) (fun _ _ _ _ => trivial) (fun w e _ hadm => ?_)
      trivial h
    rintro c x rfl
    exact PoolState.step_balances hadm

/-! ### Token IDs that do not fit -/

/-- The addresses of the contracts are 5, …, 9. -/
def sampleContracts : Contracts where
  factory := 5
  governance := 6
  validatorPool := 7
  ethdkg := 8
  snapshots := 9
  factory_ne := by decide

def factoryMints (k : Nat) : List PoolEvent :=
  List.replicate k (.staking ⟨5, 0, 0, true, true, true, true⟩ (.mint 0))

/-- Account 1 becomes a validator with the first position of the factory, and leaves. -/
def joinAndLeave : List PoolEvent :=
  [.call ⟨5, 0, 0, false, true, true, true, true⟩ (.setMaxNumValidators 1),
    .call ⟨5, 2, 0, false, true, true, true, true⟩ (.registerValidators [1] [1]),
    .call ⟨5, 4, 0, false, true, true, true, true⟩ (.unregisterValidators [1])]

theorem admissible_joinAndLeave (k : Nat) :
    Run.Along (PoolState.Admissible sampleContracts) (PoolState.step sampleContracts) .deployed
      (factoryMints k ++ joinAndLeave) := by
  have hne : (5 : Address) ≠ 7 := by decide
  refine along_of_forall fun w e he => ?_
  rcases List.mem_append.mp he with he | he
  · obtain rfl := List.eq_of_mem_replicate he
    exact ⟨hne, hne⟩
  · simp only [joinAndLeave, List.mem_cons, List.not_mem_nil, or_false] at he
    rcases he with rfl | rfl | rfl <;> exact hne

/-- Account 1 becomes a validator with a stake of 100, account 2 deposits Ether for the validators,
and account 1 leaves. -/
def joinEarnAndLeave : List PoolEvent :=
  [.call ⟨5, 0, 0, false, true, true, true, true⟩ (.setStakeAmount 100),
    .call ⟨5, 0, 0, false, true, true, true, true⟩ (.setMaxNumValidators 1),
    .staking ⟨5, 0, 0, true, true, true, true⟩ (.mint 100),
    .call ⟨5, 2, 0, false, true, true, true, true⟩ (.registerValidators [1] [1]),
    .validatorStaking ⟨2, 3, 50, true, true, true, true⟩ (.depositEth 42),
    .call ⟨5, 4, 0, false, true, true, true, true⟩ (.unregisterValidators [1])]

/-- The stake is in custody as the second position of PublicStaking, and the pool keeps nothing of
the Ether. -/
theorem custody_of_run_staked :
    let w := Run.exec (PoolState.step sampleContracts) .deployed joinEarnAndLeave
    (w.publicStaking.positions (w.pool.exitingValidatorsData 1).tokenID).shares = 100 ∧
    w.InCustody sampleContracts ∧
    Run.Along (fun w e => ∀ c x, e = .call c x →
        (w.step sampleContracts e).balanceToken = w.balanceToken ∧
        (w.step sampleContracts e).balanceEth = w.balanceEth)
      (PoolState.step sampleContracts) .deployed joinEarnAndLeave := by
  intro w
  have hadm : Run.Along (PoolState.Admissible sampleContracts) (PoolState.step sampleContracts)
      .deployed joinEarnAndLeave := by
    refine along_of_forall fun w e he => ?_
    have hne : (5 : Address) ≠ 7 := by decide
    simp only [joinEarnAndLeave, List.mem_cons, List.not_mem_nil, or_false] at he
    rcases he with rfl | rfl | rfl | rfl | rfl | rfl
    · exact hne
    · exact hne
    · exact ⟨hne, hne⟩
    · exact hne
    · exact ⟨by decide, fun _ => trivial⟩
    · exact hne
  obtain ⟨hcustody, hbalances⟩ := custody_of_run sampleContracts joinEarnAndLeave hadm
  exact ⟨by decide +kernel, hcustody (by decide +kernel), hbalances⟩

/-- PublicStaking after the factory has minted `k` positions without shares. -/
def factoryMinted (k : Nat) : StakingNFT :=
  { StakingNFT.deployed with
    counter := k
    positions := fun id => if 0 < id ∧ id ≤ k then ⟨0, 1, 1, 0, 0⟩ else .zero
    owners := fun id => if 0 < id ∧ id ≤ k then some 5 else none }

theorem mint_factoryMinted {k : Nat} (hk : k + 1 < 2 ^ 256) :
    (factoryMinted k).mint ⟨5, 0, 0, true, true, true, true⟩
      0 = .ok (k + 1, factoryMinted (k + 1)) := by
  have hnone : (factoryMinted k).owners (k + 1) = none := if_neg (by omega)
  have hrange (j : Nat) (hj : j ≠ k + 1) : (0 < j ∧ j ≤ k + 1) ↔ (0 < j ∧ j ≤ k) := by omega
  refine bind_eq_ok.mpr ⟨(), rfl, bind_eq_ok.mpr ⟨(), rfl, ?_⟩⟩
  refine bind_eq_ok.mpr ⟨(), rfl, bind_eq_ok.mpr ⟨k + 1, ?_, ?_⟩⟩
  · exact checked_of_lt hk
  refine bind_eq_ok.mpr ⟨0, rfl, bind_eq_ok.mpr ⟨1, rfl, ?_⟩⟩
  refine bind_eq_ok.mpr ⟨0, rfl, ?_⟩
  rw [hnone, if_neg (by decide)]
  have hnext {α : Type} (x y : α) : update (fun j => if 0 < j ∧ j ≤ k then x else y) (k + 1) x =
      fun j => if 0 < j ∧ j ≤ k + 1 then x else y := by
    funext j
    by_cases hj : j = k + 1
    · rw [hj, update_self]
      exact (if_pos (by omega)).symm
    · rw [update_of_ne hj]
      exact if_congr (hrange j hj).symm rfl rfl
  have hpositions : update (factoryMinted k).positions (k + 1) ⟨0, 1, 1, 0, 0⟩ =
      (factoryMinted (k + 1)).positions := hnext _ _
  have howners : update (factoryMinted k).owners (k + 1) (some 5) =
    (factoryMinted (k + 1)).owners :=
    hnext _ _
  refine congrArg (fun s => Except.ok (k + 1, s)) ?_
  change mk (k + 1) false 0 ⟨0, 0⟩ ⟨0, 0⟩ (update (factoryMinted k).positions _ _)
    0 0 (update (factoryMinted k).owners _ _) = _
  rw [howners]
  exact congrArg (fun positions => mk (k + 1) false 0 ⟨0, 0⟩ ⟨0, 0⟩ positions 0 0 _) hpositions

theorem factoryMinted_zero : factoryMinted 0 = .deployed := by
  have hrange (j : Nat) : ¬(0 < j ∧ j ≤ 0) := by omega
  simp only [factoryMinted, if_neg (hrange _)]
  rfl

theorem exec_factoryMints {k : Nat} (hk : k < 2 ^ 256) :
    exec (PoolState.step sampleContracts) .deployed (factoryMints k) =
      { PoolState.deployed with publicStaking := factoryMinted k } := by
  induction k with
  | zero =>
    rw [factoryMinted_zero]
    rfl
  | succ k ih =>
    unfold factoryMints
    rw [List.replicate_succ', exec_append]
    change exec _ (exec _ _ (factoryMints k)) _ = _
    rw [ih (by omega), exec_cons, exec_nil]
    unfold PoolState.step step call
    dsimp only
    rw [mint_factoryMinted hk]
    rfl

/-- The 128 bits of the entry name a position that was burned. -/
theorem custody_truncated :
    Run.Along (PoolState.Admissible sampleContracts) (PoolState.step sampleContracts) .deployed
      (factoryMints (2 ^ 128) ++ joinAndLeave) ∧
    ¬(Run.exec (PoolState.step sampleContracts) .deployed
      (factoryMints (2 ^ 128) ++ joinAndLeave)).InCustody sampleContracts := by
  refine ⟨admissible_joinAndLeave _, ?_⟩
  rw [exec_append, exec_factoryMints (by decide)]
  intro H
  have howned := H.exiting_owned 1 (by decide +kernel)
  revert howned
  decide +kernel

end MadNet.Staking
