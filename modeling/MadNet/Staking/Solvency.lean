import MadNet.Staking.Accounting

/-!
# The reserves of the staking contract suffice

In a state whose accounts are exact no difference that a call computes is negative, and as long as
what is owed fits in 256 bits every position that is not locked can be burned, in any order.
-/

namespace MadNet.Staking

open Prog Tracked
open Function (update update_of_ne update_self)
open Monitor (Address)
open Finset (range)

/-! ## Calls without differences -/

theorem bind_ne_underflow {α β : Type} {x : Except Revert α} {f : α → Except Revert β}
    (hx : x ≠ .error .underflow) (hf : ∀ a, x = .ok a → f a ≠ .error .underflow) :
    x >>= f ≠ .error .underflow := by
  intro h
  rcases except_bind_eq_error.mp h with h | ⟨a, ha, h⟩
  · exact hx h
  · exact hf a ha h

@[simp] theorem map_eq_underflow {α β : Type} {g : α → β} {x : Except Revert α} :
    g <$> x = .error .underflow ↔ x = .error .underflow := by
  cases x <;> simp [Functor.map, Except.map]

@[simp] theorem pure_ne_underflow {α : Type} (a : α) :
    (pure a : Except Revert α) ≠ .error .underflow := nofun

@[simp] theorem require_ne_underflow (p : Bool) (code : String) :
    require p code ≠ .error .underflow := by
  cases p <;> simp [require]

@[simp] theorem checked_ne_underflow (w n : Nat) : checked w n ≠ .error .underflow := by
  unfold checked
  split <;> simp

theorem checkedSub_ne_underflow {a b : Nat} (h : b ≤ a) : checkedSub a b ≠ .error .underflow := by
  rw [checkedSub_of_le h]
  simp

@[simp] theorem safeTransferFromERC20_ne_underflow (ctx : Ctx) (n : Nat) :
    ctx.safeTransferFromERC20 n ≠ .error .underflow := by
  unfold Ctx.safeTransferFromERC20
  split <;> simp

@[simp] theorem safeTransferERC20_ne_underflow (ctx : Ctx) (n : Nat) :
    ctx.safeTransferERC20 n ≠ .error .underflow := by
  unfold Ctx.safeTransferERC20
  split <;> simp

@[simp] theorem safeTransferEth_ne_underflow (ctx : Ctx) (to_ : Address) (n : Nat) :
    ctx.safeTransferEth to_ n ≠ .error .underflow := by
  unfold Ctx.safeTransferEth
  split <;> simp [except_bind_eq_error]

@[simp] theorem safeTransfer_ne_underflow (ctx : Ctx) (to_ : Address) (n : Nat) (a : Asset) :
    ctx.safeTransfer to_ n a ≠ .error .underflow := by
  cases a
  · exact safeTransferEth_ne_underflow ctx to_ n
  · exact safeTransferERC20_ne_underflow ctx n

theorem collect_ne_underflow {shares pos : Nat} {state : Accumulator} {p : Position}
    (hpos : pos ≤ maxAccumulator) : collect shares state p pos ≠ .error .underflow := by
  unfold collect
  rw [accumulatorDelta_of_le hpos, ok_bind]
  simp [except_bind_eq_error]

@[simp] theorem slushSkim_ne_underflow (shares slush acc : Nat) :
    slushSkim shares slush acc ≠ .error .underflow := by
  unfold slushSkim
  split <;> simp

@[simp] theorem deposit_ne_underflow (shares delta : Nat) (state : Accumulator) :
    deposit shares delta state ≠ .error .underflow := by
  simp [deposit, except_bind_eq_error]

namespace StakingNFT

variable {s : StakingNFT} {ctx : Ctx}

@[simp] theorem ownerOf_ne_underflow (id : Nat) : s.ownerOf id ≠ .error .underflow := by
  unfold ownerOf
  split <;> simp

@[simp] theorem withCircuitBreaker_ne_underflow : s.withCircuitBreaker ≠ .error .underflow :=
  require_ne_underflow _ _

@[simp] theorem lock_ne_underflow (number id duration : Nat) :
    s.lock number id duration ≠ .error .underflow := by
  simp [lock, except_bind_eq_error]

@[simp] theorem lockWithdrawal_ne_underflow (number id duration : Nat) :
    s.lockWithdrawal number id duration ≠ .error .underflow := by
  simp [lockWithdrawal, except_bind_eq_error]

@[simp] theorem mintNFT_ne_underflow (to_ : Address) (amount : Nat) :
    s.mintNFT ctx to_ amount ≠ .error .underflow := by
  simp only [mintNFT, mintPosition, ne_eq, except_bind_eq_error, require_ne_underflow,
    safeTransferFromERC20_ne_underflow, checked_ne_underflow, false_or, not_exists, not_and]
  intros
  split <;> simp

@[simp] theorem depositAsset_ne_underflow (a : Asset) (amount : Nat) :
    s.depositAsset a amount ≠ .error .underflow := by
  simp [depositAsset, except_bind_eq_error]

end StakingNFT

/-! ## Payouts are covered -/

namespace Tracked

variable {t : Tracked} {ctx : Ctx} {id : Nat}

theorem Accounts.shares_le (H : t.Accounts) (id : Nat) :
    (t.nft.positions id).shares ≤ t.nft.shares := by
  by_cases hid : id < t.nft.counter + 1
  · rw [← H.shares]
    exact Finset.single_le_sum (f := fun j => (t.nft.positions j).shares) (fun _ _ => Nat.zero_le _)
      (Finset.mem_range.mpr hid)
  · rw [H.unowned id (H.fresh id (by omega))]
    exact Nat.zero_le _

theorem Accounts.le_due (H : t.Accounts) (howner : (t.nft.owners id).isSome) (a : Asset) :
    (t.nft.positions id).shares * t.steps a id ≤ t.due a :=
  Finset.single_le_sum (f := fun j => (t.nft.positions j).shares * t.steps a j)
    (fun _ _ => Nat.zero_le _) (Finset.mem_range.mpr (H.lt_of_owned howner))

/-- What is paid out is not taken from the stakes. -/
theorem Accounts.payout_le (H : t.Accounts) (hb : t.Bounded) {a : Asset} {shares acc n : Nat}
    {x : Accumulator} {p : Position} (howner : (t.nft.owners id).isSome)
    (hp : p.shares = (t.nft.positions id).shares)
    (h : collect shares (t.nft.state a) p ((t.nft.positions id).accumulator a) = .ok (x, acc, n)) :
    n + t.nft.stake a ≤ t.nft.reserve a := by
  obtain ⟨-, -, hpay⟩ := H.collect_eq hb howner hp h
  have hlaw := H.law a
  have hdue := H.le_due howner a
  have hscale : 0 < scale := by decide
  refine Nat.le_of_mul_le_mul_left ?_ hscale
  rw [Nat.mul_add]
  omega

/-- Both payouts of a position that is burned, with its stake. -/
theorem Accounts.payouts_le (H : t.Accounts) (hb : t.Bounded)
    {accEth accToken payoutEth payoutToken : Nat}
    {x y : Accumulator} (howner : (t.nft.owners id).isSome)
    (hx : collect t.nft.shares t.nft.ethState (t.nft.positions id)
      (t.nft.positions id).accumulatorEth =
      .ok (x, accEth, payoutEth))
    (hy : collect t.nft.shares t.nft.tokenState ((t.nft.positions id).setAccumulator accEth .eth)
      (t.nft.positions id).accumulatorToken = .ok (y, accToken, payoutToken)) :
    payoutEth ≤ t.nft.reserveEth ∧ payoutToken + (t.nft.positions id).shares ≤
      t.nft.reserveToken := by
  have htoken : payoutToken + t.nft.shares ≤ t.nft.reserveToken :=
    H.payout_le (a := .token) hb howner rfl hy
  have hshares := H.shares_le id
  exact ⟨H.payout_le (a := .eth) hb howner rfl hx, by omega⟩

theorem Accounts.collectAsset_ne_underflow (H : t.Accounts) (howner : (t.nft.owners id).isSome)
    {s : StakingNFT} {p : Position} {a : Asset} {shares : Nat}
    (hp : p.accumulator a = (t.nft.positions id).accumulator a) :
    s.collectAsset a shares p ≠ .error .underflow := by
  refine bind_ne_underflow (collect_ne_underflow ?_) fun _ _ => pure_ne_underflow _
  rw [hp]
  exact (H.follows a id howner).start_le

theorem Accounts.collectTo_ne_underflow (H : t.Accounts) (hb : t.Bounded) (a : Asset)
    (to_ : Address) (id : Nat) : t.nft.collectTo ctx a to_ id ≠ .error .underflow := by
  refine bind_ne_underflow (by simp) fun owner howner => ?_
  have hsome : (t.nft.owners id).isSome :=
    Option.isSome_iff_exists.mpr ⟨owner, StakingNFT.ownerOf_eq_ok.mp howner⟩
  iterate 2 refine bind_ne_underflow (by simp) fun _ _ => ?_
  refine bind_ne_underflow (H.collectAsset_ne_underflow hsome rfl)
    fun ⟨p, payout, s1⟩ hcollect => ?_
  obtain ⟨x, acc, hx, rfl, rfl⟩ := StakingNFT.collectAsset_eq_ok hcollect
  have hle := H.payout_le hb hsome rfl hx
  refine bind_ne_underflow (checkedSub_ne_underflow ?_) fun _ _ => ?_
  · rw [StakingNFT.setState_reserve]
    omega
  · exact bind_ne_underflow (by simp) fun _ _ => pure_ne_underflow _

theorem Accounts.burnTo_ne_underflow (H : t.Accounts) (hb : t.Bounded) (to_ : Address) (id : Nat) :
    t.nft.burnTo ctx to_ id ≠ .error .underflow := by
  refine bind_ne_underflow ?_ fun _ _ => ?_
  · refine bind_ne_underflow (by simp) fun owner howner => ?_
    have hsome : (t.nft.owners id).isSome :=
      Option.isSome_iff_exists.mpr ⟨owner, StakingNFT.ownerOf_eq_ok.mp howner⟩
    iterate 2 refine bind_ne_underflow (by simp) fun _ _ => ?_
    refine bind_ne_underflow (H.collectAsset_ne_underflow hsome rfl)
      fun ⟨p1, payoutEth, s1⟩ heth => ?_
    obtain ⟨x, accEth, hx, rfl, rfl⟩ := StakingNFT.collectAsset_eq_ok heth
    refine bind_ne_underflow (H.collectAsset_ne_underflow hsome rfl)
      fun ⟨p2, payoutToken, s2⟩ htoken => ?_
    obtain ⟨y, accToken, hy, rfl, rfl⟩ := StakingNFT.collectAsset_eq_ok htoken
    obtain ⟨heth, htoken⟩ := H.payouts_le hb hsome hx hy
    refine bind_ne_underflow (by simp) fun total htotal => ?_
    obtain ⟨-, rfl⟩ := checked_eq_ok.mp htotal
    refine bind_ne_underflow (checkedSub_ne_underflow (H.shares_le id)) fun _ _ => ?_
    refine bind_ne_underflow (checkedSub_ne_underflow htoken) fun _ _ => ?_
    refine bind_ne_underflow (checkedSub_ne_underflow heth) fun _ _ => ?_
    exact pure_ne_underflow _
  · simp [except_bind_eq_error]

open StakingNFT in
/-- No call is reverted for lack of reserve. -/
theorem Accounts.call_ne_underflow (H : t.Accounts) (hb : t.Bounded) (roles : Roles) (ctx : Ctx)
    (c : Call) : t.nft.call roles ctx c ≠ .error .underflow := by
  cases c with
  | burn id => exact H.burnTo_ne_underflow hb _ id
  | burnTo to_ id => exact H.burnTo_ne_underflow hb to_ id
  | mintTo to_ amount lockDuration =>
    refine bind_ne_underflow ?_ fun _ _ => pure_ne_underflow _
    refine bind_ne_underflow (by simp) fun _ _ => bind_ne_underflow (by simp) fun _ _ => ?_
    refine bind_ne_underflow (by simp) fun ⟨id, s1⟩ _ => ?_
    dsimp only
    split <;> simp
  | transferFrom from_ to_ id =>
    refine bind_ne_underflow ?_ fun _ _ => pure_ne_underflow _
    refine bind_ne_underflow (by simp) fun _ _ => ?_
    split <;> simp
  | _ =>
    simp [call, mint, collectEth, collectEthTo, collectToken, collectTokenTo,
      depositEth, depositToken,
      lockPosition, lockOwnPosition, lockWithdraw, tripCB, except_bind_eq_error,
      H.collectTo_ne_underflow hb]

end Tracked

/-! ## Positions can be burned -/

namespace StakingNFT

/-- The owner burns a position whose locks are over, and takes what is paid out. -/
structure Burnable (s : StakingNFT) (ctx : Ctx) (id : Nat) : Prop where
  owner : s.owners id = some ctx.sender
  sender : ctx.sender ≠ 0
  freeAfter : (s.positions id).freeAfter < ctx.number
  withdrawFreeAfter : (s.positions id).withdrawFreeAfter < ctx.number
  transfer : ctx.transfer
  accepts : ctx.accepts

/-- What is owed beyond the stakes, scaled, is a `uint256`. -/
def Fits (s : StakingNFT) : Prop := ∀ a, scale * (s.reserve a - s.stake a) < 2 ^ 256

/-- The positions are burned one after the other. -/
def burnAll (ctx : Nat → Ctx) (ids : List Nat) (s : StakingNFT) : Except Revert StakingNFT :=
  ids.foldlM (fun s id => do return (← s.burn (ctx id) id).2) s

theorem burnAll_cons {ctx : Nat → Ctx} {id : Nat} {ids : List Nat} {s s1 : StakingNFT}
    {payout : Nat × Nat} (h : s.burn (ctx id) id = .ok (payout, s1)) :
    s.burnAll ctx (id :: ids) = s1.burnAll ctx ids := by
  unfold burnAll
  rw [List.foldlM_cons, h]
  rfl

end StakingNFT

namespace Tracked

section

variable {t : Tracked} {ctx : Ctx} {id : Nat} {payout : Nat × Nat} {s' : StakingNFT}

theorem Accounts.collect_fits (H : t.Accounts) (hb : t.Bounded) (hf : t.nft.Fits)
    (howner : (t.nft.owners id).isSome) (a : Asset) :
    (t.nft.state a).slush + Cyclic.distance maxAccumulator (t.nft.state a).accumulator
      ((t.nft.positions id).accumulator a) * (t.nft.positions id).shares < 2 ^ 256 := by
  rw [(H.follows a id howner).distance_eq (hb a id howner), Nat.mul_comm]
  have hfits := hf a
  have hdue := H.le_due howner a
  have hlaw := H.law a
  rw [Nat.mul_sub] at hfits
  omega

theorem Accounts.burnPosition_ok (H : t.Accounts) (hb : t.Bounded) (hf : t.nft.Fits)
    (h : t.nft.Burnable ctx id) : ∃ r, t.nft.burnPosition ctx.number ctx.sender id = .ok r := by
  have hsome : (t.nft.owners id).isSome := Option.isSome_iff_exists.mpr ⟨_, h.owner⟩
  have hx : ∃ r, collect t.nft.shares t.nft.ethState (t.nft.positions id)
      (t.nft.positions id).accumulatorEth = .ok r :=
    collect_of_fits (H.follows .eth id hsome).start_le (H.collect_fits hb hf hsome .eth)
  obtain ⟨⟨x, accEth, payoutEth⟩, hx⟩ := hx
  have hy : ∃ r,
    collect t.nft.shares t.nft.tokenState ((t.nft.positions id).setAccumulator accEth .eth)
      (t.nft.positions id).accumulatorToken = .ok r :=
    collect_of_fits (H.follows .token id hsome).start_le (H.collect_fits hb hf hsome .token)
  obtain ⟨⟨y, accToken, payoutToken⟩, hy⟩ := hy
  obtain ⟨heth, htoken⟩ := H.payouts_le hb hsome hx hy
  have hlt : t.nft.reserveToken < 2 ^ 256 := H.reserve_lt .token
  refine except_exists_bind (StakingNFT.ownerOf_eq_ok.mpr h.owner) ?_
  refine except_exists_bind (require_eq_ok (u := ()).mpr (decide_eq_true rfl)) ?_
  refine except_exists_bind (require_eq_ok (u := ()).mpr ?_) ?_
  · simp [h.freeAfter, h.withdrawFreeAfter]
  refine except_exists_bind (bind_eq_ok.mpr ⟨_, hx, rfl⟩) ?_
  refine except_exists_bind (bind_eq_ok.mpr ⟨_, hy, rfl⟩) ?_
  refine except_exists_bind (checked_of_lt ?_) ?_
  · change payoutToken + (t.nft.positions id).shares < _
    omega
  refine except_exists_bind (checkedSub_of_le (H.shares_le id)) ?_
  refine except_exists_bind (checkedSub_of_le htoken) ?_
  exact except_exists_bind (checkedSub_of_le heth) ⟨_, rfl⟩

theorem Accounts.burn_ok (H : t.Accounts) (hb : t.Bounded) (hf : t.nft.Fits)
    (h : t.nft.Burnable ctx id) : ∃ payout s', t.nft.burn ctx id = .ok (payout, s') := by
  obtain ⟨⟨payout, s1⟩, hburn⟩ := H.burnPosition_ok hb hf h
  have htoken : ctx.safeTransferERC20 payout.2 = .ok () := by
    simp [Ctx.safeTransferERC20, require, h.transfer]
  have heth : ctx.safeTransferEth ctx.sender payout.1 = .ok () := by
    unfold Ctx.safeTransferEth
    split
    · rfl
    · simp [require, h.sender, h.accepts, bind, Except.bind]
  refine ⟨payout, s1, bind_eq_ok.mpr ⟨_, hburn, ?_⟩⟩
  exact bind_eq_ok.mpr ⟨_, htoken, bind_eq_ok.mpr ⟨_, heth, rfl⟩⟩

/-- What a burn leaves of the other positions. -/
theorem burn_frame (h : t.nft.burn ctx id = .ok (payout, s')) :
    s'.owners = update t.nft.owners id none ∧
      s'.positions = update t.nft.positions id .zero := by
  cases StakingNFT.burnTo_effect h with
  | burned => exact ⟨rfl, rfl⟩

theorem Bounded.burned (hb : t.Bounded) (h : t.nft.burn ctx id = .ok (payout, s')) :
    (t.after (.burn id) s').Bounded := by
  intro a j hj
  change (s'.owners j).isSome at hj
  rw [(burn_frame h).1] at hj
  have hne : j ≠ id := by
    rintro rfl
    rw [update_self] at hj
    cases hj
  rw [update_of_ne hne] at hj
  simpa [after, Kind.resets, Kind.steps, hne] using hb a j hj

theorem Fits.burned (hf : t.nft.Fits) (h : t.nft.burn ctx id = .ok (payout, s')) : s'.Fits := by
  cases StakingNFT.burnTo_effect h with
  | burned _ _ _ hshares heth htoken =>
    intro a
    refine Nat.lt_of_le_of_lt (Nat.mul_le_mul_left _ ?_) (hf a)
    cases a
    · change t.nft.reserveEth - _ - 0 ≤ t.nft.reserveEth - 0
      omega
    · change t.nft.reserveToken - (_ + (t.nft.positions id).shares) -
        (t.nft.shares - (t.nft.positions id).shares) ≤ t.nft.reserveToken - t.nft.shares
      omega

/-- Positions that are not locked can be burned in any order. -/
theorem Accounts.burnAll_ok (H : t.Accounts) (hb : t.Bounded) (hf : t.nft.Fits) {ctx : Nat → Ctx}
    {ids : List Nat} (hids : ids.Nodup) (h : ∀ id ∈ ids, t.nft.Burnable (ctx id) id) :
    ∃ s', t.nft.burnAll ctx ids = .ok s' ∧
      ∀ id, s'.owners id = if id ∈ ids then none else t.nft.owners id := by
  induction ids generalizing t with
  | nil => exact ⟨t.nft, rfl, fun _ => rfl⟩
  | cons id ids ih =>
    obtain ⟨hid, hids⟩ := List.nodup_cons.mp hids
    obtain ⟨payout, s1, hburn⟩ := H.burn_ok hb hf (h id (by simp))
    obtain ⟨howners, hpositions⟩ := burn_frame hburn
    have hrest (j : Nat) (hj : j ∈ ids) : s1.Burnable (ctx j) j := by
      have hne : j ≠ id := fun hji => hid (hji ▸ hj)
      obtain ⟨howner, hsender, hfree, hwithdraw, htransfer, haccepts⟩ := h j (by simp [hj])
      refine ⟨?_, hsender, ?_, ?_, htransfer, haccepts⟩
      · rwa [howners, update_of_ne hne]
      · rwa [hpositions, update_of_ne hne]
      · rwa [hpositions, update_of_ne hne]
    obtain ⟨s', hs', hnone⟩ := ih (t := t.after (.burn id) s1)
      (H.burned hb (StakingNFT.burnTo_effect hburn)) (hb.burned hburn) (Fits.burned hf hburn) hids
      hrest
    refine ⟨s', (StakingNFT.burnAll_cons hburn).trans hs', fun j => ?_⟩
    rw [hnone]
    change (if j ∈ ids then none else s1.owners j) = _
    rw [howners]
    by_cases hj : j = id
    · subst hj
      simp
    · simp [hj]

end

end Tracked

/-! ## Exact accounting -/

namespace StakingNFT

/-- How far the accumulator is from its value when the position last collected, modulo its range. -/
def distance (s : StakingNFT) (a : Asset) (id : Nat) : Nat :=
  ((s.state a).accumulator + (maxAccumulator - (s.positions id).accumulator a)) % maxAccumulator

/-- What the positions can still collect of an asset, scaled. -/
def owed (s : StakingNFT) (a : Asset) : Nat :=
  ∑ id ∈ range (s.counter + 1), (s.positions id).shares * s.distance a id

structure Exact (roles : Roles) (s : StakingNFT) : Prop where
  shares : ∑ id ∈ range (s.counter + 1), (s.positions id).shares = s.shares
  fresh : ∀ id, s.counter < id → s.positions id = .zero
  reserveEth : scale * s.reserveEth = s.ethState.slush + s.owed .eth
  stake_le : s.shares ≤ s.reserveToken
  reserveToken : scale * (s.reserveToken - s.shares) = s.tokenState.slush + s.owed .token
  /-- No call is reverted for lack of reserve. -/
  covered : ∀ ctx c, s.call roles ctx c ≠ .error .underflow
  /-- All positions can be burned in any order. -/
  burnable : s.Fits → ∀ (ctx : Nat → Ctx) (ids : List Nat), ids.Nodup →
    (∀ id ∈ ids, s.Burnable (ctx id) id) →
    ∃ s', s.burnAll ctx ids = .ok s' ∧ ∀ id ∈ ids, s'.owners id = none

end StakingNFT

namespace Tracked

theorem Accounts.owed_eq {t : Tracked} (H : t.Accounts) (hb : t.Bounded) (a : Asset) :
    t.nft.owed a = t.due a := by
  refine Finset.sum_congr rfl fun id _ => ?_
  cases howner : t.nft.owners id with
  | none =>
    rw [H.unowned id howner]
    simp [Position.zero]
  | some owner =>
    have hsome : (t.nft.owners id).isSome := Option.isSome_iff_exists.mpr ⟨owner, howner⟩
    rw [StakingNFT.distance, (H.follows a id hsome).distance_modEq (hb a id hsome)]

theorem Accounts.exact {t : Tracked} (H : t.Accounts) (hb : t.Bounded) (roles : Roles) :
    t.nft.Exact roles := by
  have heth := H.law .eth
  have htoken := H.law .token
  have hscale : 0 < scale := by decide
  have hstake : t.nft.shares ≤ t.nft.reserveToken := by
    refine Nat.le_of_mul_le_mul_left ?_ hscale
    change scale * t.nft.reserveToken = scale * t.nft.shares + _ + _ at htoken
    omega
  refine ⟨H.shares, fun id hid => H.unowned id (H.fresh id hid), ?_, hstake, ?_,
    H.call_ne_underflow hb roles, fun hf ctx ids hids h => ?_⟩
  · rw [H.owed_eq hb]
    change scale * t.nft.reserveEth = scale * 0 + _ + _ at heth
    rw [Nat.mul_zero, Nat.zero_add] at heth
    exact heth
  · rw [H.owed_eq hb, Nat.mul_sub]
    change scale * t.nft.reserveToken = scale * t.nft.shares + _ + _ at htoken
    rw [htoken, Nat.add_assoc, Nat.add_sub_cancel_left]
    rfl
  · obtain ⟨s', hs', hnone⟩ := H.burnAll_ok hb hf hids h
    refine ⟨s', hs', fun id hid => ?_⟩
    rw [hnone, if_pos hid]

/-- As long as no accumulator goes around between two collections of a position. -/
def Slow (roles : Roles) (cs : List (Ctx × Call)) : Prop :=
  Run.Along (fun t c => (t.step roles c).Bounded) (step roles) deployed cs

theorem accounts_of_slow {roles : Roles} {cs : List (Ctx × Call)} (h : Slow roles cs) :
    (Run.exec (step roles) deployed cs).Accounts ∧ (Run.exec (step roles) deployed cs).Bounded := by
  have hinit : deployed.Accounts ∧ deployed.Bounded :=
    ⟨accounts_deployed, fun a id hid => by cases hid⟩
  refine Run.invariant (fun t => t.Accounts ∧ t.Bounded) (fun t c ht hc => ?_) hinit h
  exact ⟨ht.1.step ht.2 c, hc⟩

end Tracked

/-- Whatever is minted, burned, collected, deposited, locked and transferred, the accounts are
exact. -/
theorem exact_of_slow (roles : Roles) (cs : List (Ctx × Call)) (h : Tracked.Slow roles cs) :
    (Run.exec (StakingNFT.step roles) .deployed cs).Exact roles := by
  obtain ⟨H, hb⟩ := accounts_of_slow h
  have hexact := H.exact hb roles
  rwa [exec_nft] at hexact

/-- Account 1 stakes `amount`, and `value` is deposited as often as the list is long. -/
def stakeAndDeposit (amount : Nat) (values : List Nat) : List (Ctx × Call) :=
  (⟨1, 0, 0, true, true, true, true⟩, .mint amount) ::
    values.map fun value => (⟨2, 0, value, true, true, true, true⟩, .depositEth magicValue)

/-- The bound has to be checked at the position of account 1 only. -/
theorem Tracked.bounded_of_single {t : Tracked} (h : ∀ id, id ≠ 1 → t.nft.owners id = none)
    (h1 : t.steps .eth 1 < maxAccumulator) (h2 : t.steps .token 1 < maxAccumulator) :
    t.Bounded := by
  intro a id hid
  by_cases hne : id = 1
  · subst hne
    cases a
    · exact h1
    · exact h2
  · rw [h id hne] at hid
    cases hid

theorem exact_of_slow_three : Tracked.Slow ⟨0, 0⟩ (stakeAndDeposit 3 [10]) ∧
    (Run.exec (StakingNFT.step ⟨0, 0⟩) .deployed (stakeAndDeposit 3 [10])).Exact ⟨0, 0⟩ := by
  have h : Tracked.Slow ⟨0, 0⟩ (stakeAndDeposit 3 [10]) := by
    refine ⟨?_, ?_, trivial⟩
    all_goals
      refine bounded_of_single (fun id hid => ?_) ?_ ?_
      · exact update_of_ne hid _ _
      all_goals decide +kernel
  exact ⟨h, exact_of_slow _ _ h⟩

/-- The product of the steps and the shares is too large for a `uint256`, and the only position
cannot be burned although its locks are over. -/
theorem burn_overflows :
    Tracked.Slow ⟨0, 0⟩ (stakeAndDeposit (scale * 2 ^ 160) [2 ^ 195, 2 ^ 195, 2 ^ 195]) ∧
    (Run.exec (StakingNFT.step ⟨0, 0⟩) .deployed
      (stakeAndDeposit (scale * 2 ^ 160) [2 ^ 195, 2 ^ 195, 2 ^ 195])).Burnable
        ⟨1, 2, 0, true, true, true, true⟩ 1 ∧
    StakingNFT.burnAll (fun _ => ⟨1, 2, 0, true, true, true, true⟩) [1]
      (Run.exec (StakingNFT.step ⟨0, 0⟩) .deployed
        (stakeAndDeposit (scale * 2 ^ 160) [2 ^ 195, 2 ^ 195, 2 ^ 195])) = .error .overflow := by
  refine ⟨?_, ⟨by decide +kernel, by decide, by decide +kernel, by decide +kernel, rfl, rfl⟩, ?_⟩
  · refine ⟨?_, ?_, ?_, ?_, trivial⟩
    all_goals
      refine bounded_of_single (fun id hid => ?_) ?_ ?_
      · exact update_of_ne hid _ _
      all_goals decide +kernel
  · rfl

end MadNet.Staking
