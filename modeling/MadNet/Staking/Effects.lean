import MadNet.Lib.Cyclic
import MadNet.Staking.StakingNFT

/-!
# What a call of the staking contract does

`Effect` lists what a call that is not reverted changes. Later proofs go through `call_effect` and
the equations of `collect` and `deposit`, and do not unfold the functions.
-/

namespace MadNet.Staking

open Prog (bind_ok bind₂_ok ok_bind)
open Monitor (Address)

@[simp] theorem require_eq_ok {p : Bool} {code : String} {u : Unit} :
    require p code = .ok u ↔ p = true := by
  cases p <;> simp [require]

variable {w n a b shares delta acc pos : Nat}

theorem checked_eq_ok {m : Nat} : checked w n = .ok m ↔ n < 2 ^ w ∧ n = m := by
  unfold checked
  split <;> simp_all

theorem checked_of_lt (h : n < 2 ^ w) : checked w n = .ok n := if_pos h

theorem checkedSub_of_le (h : b ≤ a) : checkedSub a b = .ok (a - b) := if_pos h

theorem checkedSub_eq_ok {c : Nat} : checkedSub a b = .ok c ↔ b ≤ a ∧ a - b = c := by
  unfold checkedSub
  split <;> simp_all

/-! ## Fields after an update -/

namespace StakingNFT

section Fields

variable (s : StakingNFT) (x : Accumulator) (n : Nat) (a b : Asset) (id : Nat) (p : Position)
  (owner : Option Address)

@[simp] theorem setState_counter : (s.setState x a).counter = s.counter := by cases a <;> rfl
@[simp] theorem setState_shares : (s.setState x a).shares = s.shares := by cases a <;> rfl
@[simp] theorem setState_positions : (s.setState x a).positions = s.positions := by cases a <;> rfl
@[simp] theorem setState_owners : (s.setState x a).owners = s.owners := by cases a <;> rfl
@[simp] theorem setState_reserve : (s.setState x a).reserve b = s.reserve b := by
  cases a <;> cases b <;> rfl
@[simp] theorem setState_state : (s.setState x a).state b = if b = a then x else s.state b := by
  cases a <;> cases b <;> rfl

@[simp] theorem setReserve_counter : (s.setReserve n a).counter = s.counter := by cases a <;> rfl
@[simp] theorem setReserve_shares : (s.setReserve n a).shares = s.shares := by cases a <;> rfl
@[simp] theorem setReserve_positions : (s.setReserve n a).positions = s.positions := by
  cases a <;> rfl
@[simp] theorem setReserve_owners : (s.setReserve n a).owners = s.owners := by cases a <;> rfl
@[simp] theorem setReserve_state : (s.setReserve n a).state b = s.state b := by
  cases a <;> cases b <;> rfl
@[simp] theorem setReserve_reserve : (s.setReserve n a).reserve b = if b = a then n
    else s.reserve b := by
  cases a <;> cases b <;> rfl

@[simp] theorem setPosition_counter : (s.setPosition id p).counter = s.counter := rfl
@[simp] theorem setPosition_shares : (s.setPosition id p).shares = s.shares := rfl
@[simp] theorem setPosition_positions :
    (s.setPosition id p).positions = Function.update s.positions id p := rfl
@[simp] theorem setPosition_owners : (s.setPosition id p).owners = s.owners := rfl
@[simp] theorem setPosition_state : (s.setPosition id p).state b = s.state b := by cases b <;> rfl
@[simp] theorem setPosition_reserve : (s.setPosition id p).reserve b = s.reserve b := by
  cases b <;> rfl

@[simp] theorem setOwner_counter : (s.setOwner id owner).counter = s.counter := rfl
@[simp] theorem setOwner_shares : (s.setOwner id owner).shares = s.shares := rfl
@[simp] theorem setOwner_positions : (s.setOwner id owner).positions = s.positions := rfl
@[simp] theorem setOwner_owners :
    (s.setOwner id owner).owners = Function.update s.owners id owner := rfl
@[simp] theorem setOwner_state : (s.setOwner id owner).state b = s.state b := by cases b <;> rfl
@[simp] theorem setOwner_reserve : (s.setOwner id owner).reserve b = s.reserve b := by
  cases b <;> rfl

end Fields

end StakingNFT

@[simp] theorem Position.setAccumulator_shares (p : Position) (acc : Nat) (a : Asset) :
    (p.setAccumulator acc a).shares = p.shares := by cases a <;> rfl

@[simp] theorem Position.setAccumulator_accumulator (p : Position) (acc : Nat) (a b : Asset) :
    (p.setAccumulator acc a).accumulator b = if b = a then acc else p.accumulator b := by
  cases a <;> cases b <;> rfl

/-! ## Distributions -/

def depositSteps (shares delta : Nat) (state : Accumulator) : Nat :=
  (state.slush + delta * scale) / shares

variable {state x : Accumulator}

theorem deposit_spec (hacc : state.accumulator ≤ maxAccumulator)
    (h : deposit shares delta state = .ok x) :
    x.accumulator = Cyclic.advance maxAccumulator state.accumulator
      (depositSteps shares delta state) ∧
      x.slush + depositSteps shares delta state * shares = state.slush + delta * scale := by
  obtain ⟨amount, hamount, h⟩ := bind_ok h
  obtain ⟨-, rfl⟩ := checked_eq_ok.mp hamount
  obtain ⟨slush, hslush, h⟩ := bind_ok h
  obtain ⟨-, rfl⟩ := checked_eq_ok.mp hslush
  obtain ⟨⟨acc, rest⟩, _, hskim, -, h⟩ := bind₂_ok h
  cases h
  unfold slushSkim at hskim
  split at hskim
  next hpos =>
    obtain ⟨acc', hacc', hskim⟩ := bind_ok hskim
    obtain ⟨-, rfl⟩ := checked_eq_ok.mp hacc'
    cases hskim
    refine ⟨rfl, ?_⟩
    have := Nat.div_mul_le_self (state.slush + delta * scale) shares
    unfold depositSteps
    dsimp only
    omega
  next hpos =>
    cases hskim
    obtain rfl : shares = 0 := by omega
    have hsteps : depositSteps 0 delta state = 0 := Nat.div_zero _
    rw [hsteps, Cyclic.advance, if_neg (by omega)]
    exact ⟨rfl, by simp⟩

theorem accumulatorDelta_eq_ok (h : accumulatorDelta acc pos = .ok delta) :
    delta = Cyclic.distance maxAccumulator acc pos := by
  unfold accumulatorDelta at h
  unfold Cyclic.distance
  split at h
  next hlt =>
    obtain ⟨rest, hrest, h⟩ := bind_ok h
    obtain ⟨-, rfl⟩ := checkedSub_eq_ok.mp hrest
    obtain ⟨-, rfl⟩ := checked_eq_ok.mp h
    rw [if_pos hlt]
  next hle =>
    obtain ⟨-, rfl⟩ := checkedSub_eq_ok.mp h
    rw [if_neg hle]

theorem accumulatorDelta_of_le (hpos : pos ≤ maxAccumulator) :
    accumulatorDelta acc pos = .ok (Cyclic.distance maxAccumulator acc pos) := by
  unfold accumulatorDelta Cyclic.distance
  split
  next hlt =>
    have hfits : maxAccumulator - pos + acc < 2 ^ 256 := by
      have : maxAccumulator < 2 ^ 256 := by decide
      omega
    rw [checkedSub_of_le hpos]
    exact checked_of_lt hfits
  next hle => exact checkedSub_of_le (by omega)

theorem payout_eq (n : Nat) : scale * (n / scale) + (n - n / scale * scale) = n := by
  have := Nat.div_mul_le_self n scale
  rw [Nat.mul_comm]
  omega

/-- What is paid out is taken from the steps of the position and from the slush. -/
theorem collect_spec {payout : Nat} {p : Position}
    (h : collect shares state p pos = .ok (x, acc, payout)) :
    x.accumulator = state.accumulator ∧ acc = state.accumulator ∧ scale * payout + x.slush =
        state.slush + Cyclic.distance maxAccumulator state.accumulator pos * p.shares := by
  obtain ⟨delta, hdelta, h⟩ := bind_ok h
  obtain rfl := accumulatorDelta_eq_ok hdelta
  obtain ⟨due, hdue, h⟩ := bind_ok h
  obtain ⟨-, rfl⟩ := checked_eq_ok.mp hdue
  obtain ⟨total, htotal, h⟩ := bind_ok h
  obtain ⟨-, htotal⟩ := checked_eq_ok.mp htotal
  obtain ⟨slush, hslush, h⟩ := bind_ok h
  obtain ⟨-, hslush⟩ := checked_eq_ok.mp hslush
  cases h
  refine ⟨rfl, rfl, ?_⟩
  have hpay := payout_eq total
  dsimp only
  split at htotal
  next heq =>
    rw [if_pos heq] at hslush
    omega
  next hne =>
    rw [if_neg hne] at hslush
    omega

/-- The sum of what is due and the slush has to fit. -/
theorem collect_of_fits {p : Position} (hpos : pos ≤ maxAccumulator)
    (hfits : state.slush + Cyclic.distance maxAccumulator state.accumulator pos *
      p.shares < 2 ^ 256) :
    ∃ r, collect shares state p pos = .ok r := by
  unfold collect
  rw [accumulatorDelta_of_le hpos, ok_bind]
  generalize Cyclic.distance maxAccumulator state.accumulator pos * p.shares = due at hfits ⊢
  have htotal : (if shares = p.shares then due + state.slush else due) < 2 ^ 256 := by
    split <;> omega
  have hslush (n m : Nat) (hn : n = if shares = p.shares then due + state.slush else due) :
      (if shares = p.shares then 0 else state.slush) + (n - m) < 2 ^ 256 := by
    split at hn <;> split <;> omega
  rw [checked_of_lt (by omega), ok_bind, checked_of_lt htotal, ok_bind]
  dsimp only
  rw [checked_of_lt (hslush _ _ rfl)]
  exact ⟨_, rfl⟩

/-! ## Calls -/

/-- What a call is to the accounts of the contract. -/
inductive Kind where
  | mint (to_ : Address) (amount : Nat)
  | burn (tokenID : Nat)
  | collect (a : Asset) (tokenID : Nat)
  | deposit (a : Asset) (amount : Nat)
  | transfer (to_ : Address) (tokenID : Nat)
  | other
  deriving DecidableEq

def Call.kind (ctx : Ctx) : Call → Kind
  | mint amount => .mint ctx.sender amount
  | mintTo to_ amount _ => .mint to_ amount
  | burn tokenID => .burn tokenID
  | burnTo _ tokenID => .burn tokenID
  | collectEth tokenID => .collect .eth tokenID
  | collectEthTo _ tokenID => .collect .eth tokenID
  | collectToken tokenID => .collect .token tokenID
  | collectTokenTo _ tokenID => .collect .token tokenID
  | depositEth _ => .deposit .eth ctx.value
  | depositToken _ amount => .deposit .token amount
  | transferFrom _ to_ tokenID => .transfer to_ tokenID
  | _ => .other

def payoutOf (n : Nat) : Asset → Nat × Nat
  | .eth => (n, 0)
  | .token => (0, n)

/-- The positions differ in their locks only. -/
structure Position.Relocked (p p' : Position) : Prop where
  shares : p'.shares = p.shares
  accumulator : ∀ a, p'.accumulator a = p.accumulator a

theorem Position.Relocked.refl (p : Position) : p.Relocked p := ⟨rfl, fun _ => rfl⟩

namespace StakingNFT

/-- What a call that is not reverted does. -/
inductive Effect (ctx : Ctx) (s : StakingNFT) : Kind → Nat × Nat → StakingNFT → Prop where
  | minted {to_ amount p} (hp : p.shares = amount)
      (hacc : ∀ a, p.accumulator a = (s.state a).accumulator)
      (hnew : s.owners (s.counter + 1) = none) (hfits : s.reserveToken + amount < 2 ^ 256) :
      Effect ctx s (.mint to_ amount) (0, 0)
        (({ s with counter := s.counter + 1, shares := s.shares + amount,
                   reserveToken := s.reserveToken + amount }.setPosition (s.counter + 1) p).setOwner
          (s.counter + 1) (some to_))
  | burned {tokenID accEth payoutEth accToken payoutToken} {x y : Accumulator}
      (howner : s.owners tokenID = some ctx.sender)
      (heth : collect s.shares s.ethState (s.positions tokenID)
        (s.positions tokenID).accumulatorEth = .ok (x, accEth, payoutEth))
      (htoken : collect s.shares s.tokenState ((s.positions tokenID).setAccumulator accEth .eth)
        (s.positions tokenID).accumulatorToken = .ok (y, accToken, payoutToken))
      (hshares : (s.positions tokenID).shares ≤ s.shares)
      (hreserveEth : payoutEth ≤ s.reserveEth)
      (hreserveToken : payoutToken + (s.positions tokenID).shares ≤ s.reserveToken) :
      Effect ctx s (.burn tokenID) (payoutEth, payoutToken + (s.positions tokenID).shares)
        (({ s with ethState := x, tokenState := y,
                   shares := s.shares - (s.positions tokenID).shares,
                   reserveEth := s.reserveEth - payoutEth,
                   reserveToken :=
                     s.reserveToken - (payoutToken + (s.positions tokenID).shares) }.setPosition
          tokenID .zero).setOwner tokenID none)
  | collected {a tokenID acc payout} {x : Accumulator} (howner : s.owners tokenID = some ctx.sender)
      (h : collect s.shares (s.state a) (s.positions tokenID)
      ((s.positions tokenID).accumulator a) =
        .ok (x, acc, payout))
      (hreserve : payout ≤ s.reserve a) :
      Effect ctx s (.collect a tokenID) (payoutOf payout a)
        (((s.setState x a).setPosition tokenID
        ((s.positions tokenID).setAccumulator acc a)).setReserve
          (s.reserve a - payout) a)
  | deposited {a amount} {x : Accumulator} (h : deposit s.shares amount (s.state a) = .ok x)
      (hfits : s.reserve a + amount < 2 ^ 256) :
      Effect ctx s (.deposit a amount) (0, 0) ((s.setState x a).setReserve (s.reserve a + amount) a)
  | transferred {to_ tokenID} (howner : (s.owners tokenID).isSome)
      (hsender : s.owners tokenID = some ctx.sender ∨ ctx.approved) :
      Effect ctx s (.transfer to_ tokenID) (0, 0) (s.setOwner tokenID (some to_))
  | locked {tokenID p} (howner : (s.owners tokenID).isSome)
    (hp : (s.positions tokenID).Relocked p) :
      Effect ctx s .other (0, 0) (s.setPosition tokenID p)
  | tripped : Effect ctx s .other (0, 0) { s with circuitBreaker := true }

section

variable {s s' : StakingNFT} {ctx : Ctx} {roles : Roles} {tokenID : Nat}

theorem setPosition_setPosition (p q : Position) :
    (s.setPosition tokenID p).setPosition tokenID q = s.setPosition tokenID q := by
  simp [setPosition]

theorem setPosition_setOwner {id : Nat} (p : Position) (owner : Option Address) :
    (s.setOwner tokenID owner).setPosition id p = (s.setPosition id p).setOwner tokenID owner := rfl

theorem ownerOf_eq_ok {owner : Address} : s.ownerOf tokenID = .ok owner ↔
    s.owners tokenID = some owner := by
  unfold ownerOf
  cases s.owners tokenID <;> simp

variable {number duration amount payout : Nat}

theorem lock_eq_ok
    (h : s.lock number tokenID duration = .ok s' ∨
      s.lockWithdrawal number tokenID duration = .ok s') :
    ∃ p, (s.owners tokenID).isSome ∧ (s.positions tokenID).Relocked p ∧ s' = s.setPosition
      tokenID p := by
  rcases h with h | h
  all_goals
    obtain ⟨_, _, howner, -, h⟩ := bind₂_ok h
    cases h
    refine ⟨_, require_eq_ok.mp howner, ?_, rfl⟩
    exact ⟨rfl, fun a => by cases a <;> rfl⟩

variable {to_ : Address}

theorem mintNFT_effect (h : s.mintNFT ctx to_ amount = .ok (tokenID, s')) :
    tokenID = s.counter + 1 ∧ Effect ctx s (.mint to_ amount) (0, 0) s' := by
  obtain ⟨_, _, -, -, h⟩ := bind₂_ok h
  obtain ⟨_, hid, h⟩ := bind_ok h
  obtain ⟨-, rfl⟩ := checked_eq_ok.mp hid
  obtain ⟨_, hshares, h⟩ := bind_ok h
  obtain ⟨-, rfl⟩ := checked_eq_ok.mp hshares
  obtain ⟨freeAfter, _, -, hreserve, h⟩ := bind₂_ok h
  obtain ⟨hfits, rfl⟩ := checked_eq_ok.mp hreserve
  split at h
  · cases h
  next hto =>
    cases h
    refine ⟨rfl, .minted rfl (fun a => by cases a <;> rfl) ?_ hfits⟩
    exact Option.not_isSome_iff_eq_none.mp fun hsome => hto (.inr hsome)

theorem mintTo_effect {lockDuration : Nat}
    (h : s.mintTo ctx to_ amount lockDuration = .ok (tokenID, s')) :
    Effect ctx s (.mint to_ amount) (0, 0) s' := by
  obtain ⟨_, _, -, -, h⟩ := bind₂_ok h
  obtain ⟨⟨id, s1⟩, hmint, h⟩ := bind_ok h
  obtain ⟨hid, heff⟩ := mintNFT_effect hmint
  dsimp only at h
  split at h
  · -- the lock changes the position that was minted
    obtain ⟨s2, hlock, h⟩ := bind_ok h
    cases h
    obtain ⟨p, -, hp, rfl⟩ := lock_eq_ok (.inl hlock)
    cases heff with
    | @minted _ _ q hq hacc hnew hfits =>
      rw [hid] at hp ⊢
      rw [show StakingNFT.positions _ (s.counter + 1) = q from Function.update_self _ _ _] at hp
      rw [setPosition_setOwner, setPosition_setPosition]
      exact .minted (hp.shares.trans hq) (fun a => (hp.accumulator a).trans (hacc a)) hnew hfits
  · cases h
    exact heff

theorem collectAsset_eq_ok {a : Asset} {shares : Nat} {p p' : Position}
    (h : s.collectAsset a shares p = .ok (p', payout, s')) :
    ∃ x acc, collect shares (s.state a) p (p.accumulator a) = .ok (x, acc, payout) ∧
      p' = p.setAccumulator acc a ∧ s' = s.setState x a := by
  obtain ⟨⟨x, acc, payout'⟩, hcollect, hrest⟩ := bind_ok h
  obtain ⟨hp, hrest⟩ := Prod.mk.inj (Except.ok.inj hrest)
  obtain ⟨hpayout, hs⟩ := Prod.mk.inj hrest
  exact ⟨x, acc, hpayout ▸ hcollect, hp.symm, hs.symm⟩

theorem collectTo_effect {a : Asset} (h : s.collectTo ctx a to_ tokenID = .ok (payout, s')) :
    Effect ctx s (.collect a tokenID) (payoutOf payout a) s' := by
  obtain ⟨owner, howner, h⟩ := bind_ok h
  rw [ownerOf_eq_ok] at howner
  obtain ⟨_, hsender, h⟩ := bind_ok h
  rw [← of_decide_eq_true (require_eq_ok.mp hsender)] at howner
  obtain ⟨_, ⟨p, payout', s1⟩, -, hcollect, h⟩ := bind₂_ok h
  obtain ⟨reserve, _, hreserve, -, h⟩ := bind₂_ok h
  cases h
  obtain ⟨x, acc, hx, rfl, rfl⟩ := collectAsset_eq_ok hcollect
  obtain ⟨hle, rfl⟩ := checkedSub_eq_ok.mp hreserve
  have hres : (s.setState x a).reserve a = s.reserve a := by cases a <;> rfl
  rw [hres] at hle ⊢
  exact .collected howner hx hle

theorem burnTo_effect {payout : Nat × Nat} (h : s.burnTo ctx to_ tokenID = .ok (payout, s')) :
    Effect ctx s (.burn tokenID) payout s' := by
  obtain ⟨⟨payout', s3⟩, _, hburn, -, h⟩ := bind₂_ok h
  obtain ⟨_, -, h⟩ := bind_ok h
  cases h
  obtain ⟨owner, howner, hburn⟩ := bind_ok hburn
  rw [ownerOf_eq_ok] at howner
  obtain ⟨_, hsender, hburn⟩ := bind_ok hburn
  rw [← of_decide_eq_true (require_eq_ok.mp hsender)] at howner
  obtain ⟨_, ⟨p1, payoutEth, s1⟩, -, heth, hburn⟩ := bind₂_ok hburn
  obtain ⟨⟨p2, payoutToken, s2⟩, _, htoken, hpay, hburn⟩ := bind₂_ok hburn
  obtain ⟨_, _, hshares, hreserveToken, hburn⟩ := bind₂_ok hburn
  obtain ⟨_, hreserveEth, hburn⟩ := bind_ok hburn
  cases hburn
  obtain ⟨x, accEth, hx, rfl, rfl⟩ := collectAsset_eq_ok heth
  obtain ⟨y, accToken, hy, rfl, rfl⟩ := collectAsset_eq_ok htoken
  obtain ⟨-, rfl⟩ := checked_eq_ok.mp hpay
  obtain ⟨hle1, rfl⟩ := checkedSub_eq_ok.mp hshares
  obtain ⟨hle2, rfl⟩ := checkedSub_eq_ok.mp hreserveToken
  obtain ⟨hle3, rfl⟩ := checkedSub_eq_ok.mp hreserveEth
  exact .burned howner hx hy hle1 hle3 hle2

theorem depositAsset_effect {a : Asset} (h : s.depositAsset a amount = .ok s') :
    Effect ctx s (.deposit a amount) (0, 0) s' := by
  obtain ⟨x, _, hx, hreserve, h⟩ := bind₂_ok h
  obtain ⟨hfits, rfl⟩ := checked_eq_ok.mp hreserve
  cases h
  exact .deposited hx hfits

theorem depositToken_effect {magic : Nat} (h : s.depositToken ctx magic amount = .ok s') :
    Effect ctx s (.deposit .token amount) (0, 0) s' := by
  obtain ⟨_, _, -, -, h⟩ := bind₂_ok h
  obtain ⟨_, -, h⟩ := bind_ok h
  exact depositAsset_effect h

theorem lockOwnPosition_effect (h : s.lockOwnPosition ctx tokenID duration = .ok s') :
    Effect ctx s .other (0, 0) s' := by
  iterate 2 obtain ⟨_, _, -, -, h⟩ := bind₂_ok h
  obtain ⟨p, howner, hp, rfl⟩ := lock_eq_ok (.inl h)
  exact .locked howner hp

theorem transferPosition_effect {from_ : Address}
    (h : s.transferPosition ctx from_ to_ tokenID = .ok s') :
    Effect ctx s (.transfer to_ tokenID) (0, 0) s' := by
  obtain ⟨owner, howner, h⟩ := bind_ok h
  rw [ownerOf_eq_ok] at howner
  split at h
  next hif =>
    cases h
    refine .transferred (Option.isSome_iff_exists.mpr ⟨owner, howner⟩) ?_
    rcases hif.1 with hsender | happroved
    · exact .inl (hsender ▸ howner)
    · exact .inr happroved
  next => cases h

theorem call_effect {c : Call} {payout : Nat × Nat} (h : s.call roles ctx c = .ok (payout, s')) :
    Effect ctx s (c.kind ctx) payout s' := by
  cases c with
  | mint amount =>
    obtain ⟨⟨id, s1⟩, hmint, h⟩ := bind_ok h
    cases h
    obtain ⟨_, -, hmint⟩ := bind_ok hmint
    exact (mintNFT_effect hmint).2
  | mintTo to_ amount lockDuration =>
    obtain ⟨⟨id, s1⟩, hmint, h⟩ := bind_ok h
    cases h
    exact mintTo_effect hmint
  | burn tokenID | burnTo to_ tokenID => exact burnTo_effect h
  | collectEth tokenID | collectEthTo to_ tokenID | collectToken tokenID
  | collectTokenTo to_ tokenID =>
    obtain ⟨⟨n, s1⟩, hcollect, h⟩ := bind_ok h
    cases h
    exact collectTo_effect hcollect
  | depositEth magic =>
    obtain ⟨s1, hdeposit, h⟩ := bind_ok h
    cases h
    obtain ⟨_, _, -, -, hdeposit⟩ := bind₂_ok hdeposit
    exact depositAsset_effect hdeposit
  | depositToken magic amount =>
    obtain ⟨s1, hdeposit, h⟩ := bind_ok h
    cases h
    exact depositToken_effect hdeposit
  | lockPosition caller tokenID lockDuration =>
    obtain ⟨s1, hlock, h⟩ := bind_ok h
    cases h
    iterate 2 obtain ⟨_, _, -, -, hlock⟩ := bind₂_ok hlock
    obtain ⟨_, -, hlock⟩ := bind_ok hlock
    obtain ⟨p, howner, hp, rfl⟩ := lock_eq_ok (.inl hlock)
    exact .locked howner hp
  | lockOwnPosition tokenID lockDuration =>
    obtain ⟨s1, hlock, h⟩ := bind_ok h
    cases h
    exact lockOwnPosition_effect hlock
  | lockWithdraw tokenID lockDuration =>
    obtain ⟨s1, hlock, h⟩ := bind_ok h
    cases h
    iterate 2 obtain ⟨_, _, -, -, hlock⟩ := bind₂_ok hlock
    obtain ⟨p, howner, hp, rfl⟩ := lock_eq_ok (.inr hlock)
    exact .locked howner hp
  | transferFrom from_ to_ tokenID =>
    obtain ⟨s1, htransfer, h⟩ := bind_ok h
    cases h
    exact transferPosition_effect htransfer
  | tripCB =>
    obtain ⟨s1, htrip, h⟩ := bind_ok h
    cases h
    obtain ⟨_, _, -, -, htrip⟩ := bind₂_ok htrip
    cases htrip
    exact .tripped

end

end StakingNFT

end MadNet.Staking
