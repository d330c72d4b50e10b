import MadNet.Staking.Effects

/-!
# The accounts of the staking contract

What the contract holds of an asset, beyond the stakes, is the slush and what is due to the
positions: their shares times the steps that the accumulator has made since they last collected.
-/

namespace MadNet.Staking

open StakingNFT Finset Nat
open Function (update_self update_of_ne update)
open Monitor (Address)

namespace StakingNFT

/-- What the positions have staked of an asset. -/
def stake (s : StakingNFT) : Asset → Nat
  | .eth => 0
  | .token => s.shares

end StakingNFT

/-! ## Steps of the accumulators -/

namespace Kind

/-- The steps that a call makes with the accumulator of an asset. -/
def steps (s : StakingNFT) : Kind → Asset → Nat
  | deposit a amount, b => if a = b then depositSteps s.shares amount (s.state a) else 0
  | _, _ => 0

/-- The call opens or closes the position, or collects the asset for it. -/
def resets (s : StakingNFT) : Kind → Asset → Nat → Bool
  | mint _ _, _, id => id = s.counter + 1
  | burn tokenID, _, id => id = tokenID
  | collect a tokenID, b, id => a = b && id = tokenID
  | _, _, _ => false

end Kind

/-- The contract, and for each position the steps that an accumulator has made since it was opened
or last collected. -/
structure Tracked where
  nft : StakingNFT
  steps : Asset → Nat → Nat

namespace Tracked

def deployed : Tracked := ⟨.deployed, fun _ _ => 0⟩

def after (t : Tracked) (k : Kind) (s' : StakingNFT) : Tracked where
  nft := s'
  steps a id := if k.resets t.nft a id then 0 else t.steps a id + k.steps t.nft a

def step (roles : Roles) (t : Tracked) (c : Ctx × Call) : Tracked :=
  match t.nft.call roles c.1 c.2 with
  | .ok (_, s') => t.after (c.2.kind c.1) s'
  | .error _ => t

theorem step_nft (roles : Roles) (t : Tracked) (c : Ctx × Call) :
    (t.step roles c).nft = t.nft.step roles c := by
  unfold step StakingNFT.step
  split <;> simp_all [after]

theorem exec_nft (roles : Roles) (t : Tracked) (cs : List (Ctx × Call)) :
    (Run.exec (step roles) t cs).nft = Run.exec (StakingNFT.step roles) t.nft cs := by
  induction cs generalizing t with
  | nil => rfl
  | cons c cs ih => rw [Run.exec_cons, Run.exec_cons, ih, step_nft]

/-- No accumulator has gone around since a position last collected. -/
def Bounded (t : Tracked) : Prop := ∀ a id, (t.nft.owners id).isSome → t.steps a id < maxAccumulator

/-! ## The law of the accounts -/

/-- What is due to the positions, scaled. -/
def due (t : Tracked) (a : Asset) : Nat :=
  ∑ id ∈ range (t.nft.counter + 1), (t.nft.positions id).shares * t.steps a id

structure Accounts (t : Tracked) : Prop where
  unowned : ∀ id, t.nft.owners id = none → t.nft.positions id = .zero
  fresh : ∀ id, t.nft.counter < id → t.nft.owners id = none
  shares : ∑ id ∈ range (t.nft.counter + 1), (t.nft.positions id).shares = t.nft.shares
  reserve_lt : ∀ a, t.nft.reserve a < 2 ^ 256
  accumulator_le : ∀ a, (t.nft.state a).accumulator ≤ maxAccumulator
  follows : ∀ a id, (t.nft.owners id).isSome → Cyclic.Follows maxAccumulator
    ((t.nft.positions id).accumulator a) (t.steps a id) (t.nft.state a).accumulator
  law : ∀ a, scale * t.nft.reserve a = scale * t.nft.stake a + (t.nft.state a).slush + t.due a

@[simp] theorem zero_shares : Position.zero.shares = 0 := rfl

/-- Two sums that differ in one summand. -/
theorem sum_range_eq {f g : Nat → Nat} {n i : Nat} (hi : i < n) (h : ∀ j, j ≠ i → g j = f j) :
    ∑ j ∈ range n, g j + f i = ∑ j ∈ range n, f j + g i := by
  rw [← add_sum_erase _ g (mem_range.mpr hi), ← add_sum_erase _ f (mem_range.mpr hi)]
  have hrest : ∑ j ∈ (range n).erase i, g j = ∑ j ∈ (range n).erase i, f j :=
    sum_congr rfl fun j hj => h j (ne_of_mem_erase hj)
  rw [hrest]
  omega

section

variable {t : Tracked} {ctx : Ctx} {k : Kind} {payout : Nat × Nat} {s' : StakingNFT}

variable {id amount acc n : Nat}

theorem Accounts.lt_of_owned (H : t.Accounts) (h : (t.nft.owners id).isSome) :
    id < t.nft.counter + 1 := by
  by_contra hid
  rw [H.fresh id (by omega)] at h
  cases h

theorem accounts_deployed : deployed.Accounts := by
  refine ⟨fun _ _ => rfl, fun _ _ => rfl, rfl, fun a => ?_, fun a => ?_,
    fun a id h => ?_, fun a => ?_⟩
  · cases a <;> exact Nat.two_pow_pos _
  · cases a <;> exact Nat.zero_le _
  · cases h
  · cases a <;> rfl

variable {x : Accumulator}

theorem Accounts.deposited (H : t.Accounts) {a : Asset}
    (h : deposit t.nft.shares amount (t.nft.state a) = .ok x)
    (hfits : t.nft.reserve a + amount < 2 ^ 256) :
    (t.after (.deposit a amount)
      ((t.nft.setState x a).setReserve (t.nft.reserve a + amount) a)).Accounts := by
  obtain ⟨hacc, hslush⟩ := deposit_spec (H.accumulator_le a) h
  have hM : 0 < maxAccumulator := by decide
  refine ⟨by simpa [after] using H.unowned, by simpa [after] using H.fresh,
    by simpa [after] using H.shares, fun b => ?_, fun b => ?_, fun b id hid => ?_, fun b => ?_⟩
  · by_cases hb : b = a
    · subst hb
      simpa [after] using hfits
    · simpa [after, hb] using H.reserve_lt b
  · by_cases hb : b = a
    · subst hb
      simpa [after, hacc] using Cyclic.advance_le hM
    · simpa [after, hb] using H.accumulator_le b
  · have hfollows := H.follows b id (by simpa [after] using hid)
    by_cases hb : b = a
    · subst hb
      simpa [after, hacc, Kind.resets, Kind.steps] using hfollows.advance hM
    · have hb' : ¬a = b := fun h => hb h.symm
      simpa [after, hb, hb', Kind.resets, Kind.steps] using hfollows
  · have hlaw := H.law b
    have hstake : (t.after (.deposit a amount)
        ((t.nft.setState x a).setReserve (t.nft.reserve a + amount) a)).nft.stake b =
        t.nft.stake b := by cases b <;> simp [stake, after]
    rw [hstake]
    by_cases hb : b = a
    · subst hb
      have hdue : (t.after (.deposit b amount)
          ((t.nft.setState x b).setReserve (t.nft.reserve b + amount) b)).due b =
          t.due b + depositSteps t.nft.shares amount (t.nft.state b) * t.nft.shares := by
        simp only [due, after, Kind.resets, Kind.steps, setReserve_counter,
          setState_counter, setReserve_positions,
          setState_positions, Bool.false_eq_true, if_false, if_true, mul_add,
          sum_add_distrib]
        rw [← sum_mul, H.shares, mul_comm t.nft.shares]
      rw [hdue]
      simp only [after, setReserve_reserve, if_true, setReserve_state, setState_state, mul_add]
      rw [mul_comm scale amount]
      omega
    · have hb' : ¬a = b := fun h => hb h.symm
      simpa [after, hb, hb', due, Kind.resets, Kind.steps] using hlaw

variable {p : Position}

/-- What is collected was due to the position, or was in the slush. -/
theorem Accounts.collect_eq (H : t.Accounts) (hb : t.Bounded) {a : Asset} {shares : Nat}
    (howner : (t.nft.owners id).isSome) (hp : p.shares = (t.nft.positions id).shares)
    (h : collect shares (t.nft.state a) p ((t.nft.positions id).accumulator a) = .ok (x, acc, n)) :
    x.accumulator = (t.nft.state a).accumulator ∧ acc = (t.nft.state a).accumulator ∧
      scale * n + x.slush =
        (t.nft.state a).slush + (t.nft.positions id).shares * t.steps a id := by
  obtain ⟨hx, hacc, hn⟩ := collect_spec h
  rw [(H.follows a id howner).distance_eq (hb a id howner), hp, mul_comm (t.steps a id)] at hn
  exact ⟨hx, hacc, hn⟩

/-- Positions that were never opened add nothing to a sum over the positions. -/
theorem Accounts.sum_shares (H : t.Accounts) (hn : t.nft.counter ≤ n) (f : Nat → Nat) :
    ∑ j ∈ range (n + 1), (t.nft.positions j).shares * f j =
      ∑ j ∈ range (t.nft.counter + 1), (t.nft.positions j).shares * f j := by
  refine (sum_subset (range_subset_range.mpr (by omega)) fun j _ hj => ?_).symm
  rw [mem_range] at hj
  rw [H.unowned j (H.fresh j (by omega))]
  exact Nat.zero_mul _

/-- The law after a call that changes one position, if it holds of this position. -/
theorem Accounts.changed (H : t.Accounts) (id : Nat) (hcounter : t.nft.counter ≤ s'.counter)
    (hid : id < s'.counter + 1)
    (hother : ∀ j, j ≠ id → s'.positions j = t.nft.positions j ∧ s'.owners j = t.nft.owners j ∧
      ∀ a, (t.after k s').steps a j = t.steps a j)
    (hunowned : s'.owners id = none → s'.positions id = .zero)
    (hshares : s'.shares + (t.nft.positions id).shares = t.nft.shares + (s'.positions id).shares)
    (hlt : ∀ a, s'.reserve a < 2 ^ 256)
    (hacc : ∀ a, (s'.state a).accumulator = (t.nft.state a).accumulator)
    (hfollows : ∀ a, (s'.owners id).isSome → Cyclic.Follows maxAccumulator
      ((s'.positions id).accumulator a) ((t.after k s').steps a id) (t.nft.state a).accumulator)
    (hlaw : ∀ a, scale * s'.reserve a + scale * t.nft.stake a + (t.nft.state a).slush +
        (t.nft.positions id).shares * t.steps a id =
      scale * t.nft.reserve a + scale * s'.stake a + (s'.state a).slush +
        (s'.positions id).shares * (t.after k s').steps a id) : (t.after k s').Accounts := by
  refine ⟨fun j hj => ?_, fun j hj => ?_, ?_, hlt, fun a => ?_, fun a j hj => ?_, fun a => ?_⟩
  · by_cases hj' : j = id
    · subst hj'
      exact hunowned hj
    · obtain ⟨hpositions, howners, -⟩ := hother j hj'
      exact hpositions.trans (H.unowned j (howners.symm.trans hj))
  · change s'.counter < j at hj
    obtain ⟨-, howners, -⟩ := hother j (by omega)
    exact howners.trans (H.fresh j (by omega))
  · have hsum := sum_range_eq (f := fun j => (t.nft.positions j).shares)
      (g := fun j => (s'.positions j).shares) hid fun j hj => by rw [(hother j hj).1]
    have hold := H.sum_shares hcounter fun _ => 1
    simp only [mul_one] at hold
    rw [hold, H.shares] at hsum
    change ∑ j ∈ range (s'.counter + 1), (s'.positions j).shares = s'.shares
    omega
  · change (s'.state a).accumulator ≤ _
    rw [hacc]
    exact H.accumulator_le a
  · change Cyclic.Follows _ ((s'.positions j).accumulator a) _ (s'.state a).accumulator
    rw [hacc]
    by_cases hj' : j = id
    · subst hj'
      exact hfollows a hj
    · obtain ⟨hpositions, howners, hsteps⟩ := hother j hj'
      rw [hpositions, hsteps]
      exact H.follows a j (howners ▸ hj)
  · have hsum := sum_range_eq (f := fun j => (t.nft.positions j).shares * t.steps a j)
      (g := fun j => (s'.positions j).shares * (t.after k s').steps a j) hid fun j hj => by
        obtain ⟨hpositions, -, hsteps⟩ := hother j hj
        rw [hpositions, hsteps]
    rw [H.sum_shares hcounter] at hsum
    have hold : scale * t.nft.reserve a = scale * t.nft.stake a + (t.nft.state a).slush +
      ∑ j ∈ range (t.nft.counter + 1), (t.nft.positions j).shares * t.steps a j := H.law a
    have hnew := hlaw a
    change scale * s'.reserve a = scale * s'.stake a + (s'.state a).slush +
      ∑ j ∈ range (s'.counter + 1), (s'.positions j).shares * (t.after k s').steps a j
    omega

theorem Accounts.collected (H : t.Accounts) (hb : t.Bounded) {a : Asset}
    (howner : (t.nft.owners id).isSome)
    (h : collect t.nft.shares (t.nft.state a) (t.nft.positions id)
      ((t.nft.positions id).accumulator a) = .ok (x, acc, n)) (hn : n ≤ t.nft.reserve a) :
    (t.after (.collect a id) (((t.nft.setState x a).setPosition id
      ((t.nft.positions id).setAccumulator acc a)).setReserve (t.nft.reserve
      a - n) a)).Accounts := by
  obtain ⟨hx, hacc, hpay⟩ := H.collect_eq hb howner rfl h
  have hother (b : Asset) (hb' : ¬b = a) : ¬a = b := fun h => hb' h.symm
  refine H.changed id (by simp) (by simpa using H.lt_of_owned howner)
    (fun j hj => ⟨by simp [hj], by simp, fun b => by simp [after, Kind.resets, Kind.steps, hj]⟩)
    (fun hnone => ?_) (by simp) (fun b => ?_) (fun b => ?_) (fun b hsome => ?_) fun b => ?_
  · simp only [setReserve_owners, setPosition_owners, setState_owners] at hnone
    rw [hnone] at howner
    cases howner
  · have hlt := H.reserve_lt b
    by_cases hb' : b = a
    · subst hb'
      simpa using Nat.lt_of_le_of_lt (Nat.sub_le _ n) hlt
    · simpa [hb'] using hlt
  · by_cases hb' : b = a
    · simp [hb', hx]
    · simp [hb']
  · by_cases hb' : b = a
    · subst hb'
      simpa [after, hacc, Kind.resets] using Cyclic.Follows.refl (H.accumulator_le b)
    · simpa [after, hb', hother b hb', Kind.resets, Kind.steps] using H.follows b id howner
  · have hstake : (((t.nft.setState x a).setPosition id
        ((t.nft.positions id).setAccumulator acc a)).setReserve (t.nft.reserve a - n) a).stake b =
        t.nft.stake b := by cases b <;> simp [stake]
    rw [hstake]
    by_cases hb' : b = a
    · subst hb'
      have hle := Nat.mul_le_mul_left scale hn
      simp [after, Kind.resets, Nat.mul_sub]
      omega
    · simp [after, hb', hother b hb', Kind.resets, Kind.steps]

/-- A position is closed when both assets are paid out and the stake is returned. -/
theorem Accounts.burned (H : t.Accounts) (hb : t.Bounded)
    (h : StakingNFT.Effect ctx t.nft (.burn id) payout s') : (t.after (.burn id) s').Accounts := by
  cases h with
  | @burned _ accEth payoutEth accToken payoutToken x y howner heth htoken hshares hreserveEth
      hreserveToken =>
    have hsome : (t.nft.owners id).isSome := Option.isSome_iff_exists.mpr ⟨_, howner⟩
    obtain ⟨hx, -, hpayEth⟩ := H.collect_eq (a := .eth) hb hsome rfl heth
    obtain ⟨hy, -, hpayToken⟩ := H.collect_eq (a := .token) hb hsome rfl htoken
    refine H.changed id (Nat.le_refl _) (H.lt_of_owned hsome)
      (fun j hj => ⟨update_of_ne hj .., update_of_ne hj .., fun a => by
        simp [after, Kind.resets, Kind.steps, hj]⟩) (fun _ => update_self ..) ?_ (fun a => ?_)
      (fun a => ?_) (fun a hnew => ?_) fun a => ?_
    · simpa using Nat.sub_add_cancel hshares
    · have hlt := H.reserve_lt a
      cases a <;> exact Nat.lt_of_le_of_lt (sub_le _ _) hlt
    · cases a
      · exact hx
      · exact hy
    · simp at hnew
    · have hsteps : (update t.nft.positions id .zero id).shares = 0 := by simp
      cases a
      · change scale * (t.nft.reserveEth - payoutEth) + scale * 0 + _ + _ =
          scale * t.nft.reserveEth + scale * 0 + x.slush +
          (update t.nft.positions id .zero id).shares * _
        have hle := Nat.mul_le_mul_left scale hreserveEth
        rw [hsteps, Nat.mul_sub]
        omega
      · change scale * (t.nft.reserveToken - (payoutToken + (t.nft.positions id).shares)) +
          scale * t.nft.shares + _ + _ = scale * t.nft.reserveToken +
          scale * (t.nft.shares - (t.nft.positions id).shares) + y.slush +
            (update t.nft.positions id .zero id).shares * _
        have hle := Nat.mul_le_mul_left scale hreserveToken
        have hle' := Nat.mul_le_mul_left scale hshares
        rw [hsteps, Nat.mul_sub, Nat.mul_sub, mul_add]
        rw [mul_add] at hle
        omega

/-- A position is opened at the current accumulators, behind which it is by no step. -/
theorem Accounts.minted (H : t.Accounts) {to_ : Address}
    (hp : p.shares = amount) (hacc : ∀ a, p.accumulator a = (t.nft.state a).accumulator)
    (hnew : t.nft.owners (t.nft.counter + 1) = none)
    (hfits : t.nft.reserveToken + amount < 2 ^ 256) :
    (t.after (.mint to_ amount) (({ t.nft with
        counter := t.nft.counter + 1, shares := t.nft.shares + amount,
        reserveToken := t.nft.reserveToken + amount }.setPosition (t.nft.counter + 1) p).setOwner
      (t.nft.counter + 1) (some to_))).Accounts := by
  have hzero := H.unowned _ hnew
  refine H.changed (t.nft.counter + 1) (Nat.le_succ _) (Nat.lt_succ_self _)
    (fun j hj => ⟨update_of_ne hj .., update_of_ne hj .., fun a => by
      simp [after, Kind.resets, Kind.steps, hj]⟩) (fun hnone => ?_) ?_ (fun a => ?_) (fun a => ?_)
    (fun a _ => ?_) fun a => ?_
  · simp at hnone
  · simp [hzero, hp]
  · cases a
    · exact H.reserve_lt .eth
    · exact hfits
  · cases a <;> rfl
  · simpa [after, Kind.resets, hacc] using Cyclic.Follows.refl (H.accumulator_le a)
  · rw [hzero]
    cases a <;> simp [after, Kind.resets, stake, reserve, state, setOwner, setPosition]
    ring

/-- A call that changes locks, the owner of a position or the circuit breaker only. -/
theorem Accounts.kept (H : t.Accounts) (hid : id < t.nft.counter + 1)
    (hsteps : ∀ a, (t.after k s').steps a = t.steps a) (hcounter : s'.counter = t.nft.counter)
    (hshares : s'.shares = t.nft.shares) (hstate : ∀ a, s'.state a = t.nft.state a)
    (hreserve : ∀ a, s'.reserve a = t.nft.reserve a)
    (hother : ∀ j, j ≠ id → s'.positions j = t.nft.positions j ∧ s'.owners j = t.nft.owners j)
    (hp : (t.nft.positions id).Relocked (s'.positions id))
    (howner : (s'.owners id).isSome = (t.nft.owners id).isSome)
    (hunowned : s'.owners id = none → s'.positions id = .zero) : (t.after k s').Accounts := by
  refine H.changed id hcounter.ge (hcounter ▸ hid) (fun j hj => ⟨(hother j hj).1, (hother j hj).2,
    fun a => by rw [hsteps]⟩) hunowned (by rw [hshares, hp.shares]) (fun a => ?_) (fun a => ?_)
    (fun a hsome => ?_) fun a => ?_
  · rw [hreserve]
    exact H.reserve_lt a
  · rw [hstate]
  · rw [hp.accumulator, hsteps]
    exact H.follows a id (howner ▸ hsome)
  · have hstake : s'.stake a = t.nft.stake a := by
      cases a
      · rfl
      · exact hshares
    rw [hreserve, hstake, hstate, hp.shares, hsteps]

/-- Every call keeps the accounts. -/
theorem Accounts.effect (H : t.Accounts) (hb : t.Bounded)
    (h : StakingNFT.Effect ctx t.nft k payout s') :
    (t.after k s').Accounts := by
  cases h with
  | minted hp hacc hnew hfits => exact H.minted hp hacc hnew hfits
  | burned howner heth htoken hshares hreserveEth hreserveToken =>
    exact H.burned hb (.burned howner heth htoken hshares hreserveEth hreserveToken)
  | collected howner hcollect hreserve =>
    exact H.collected hb (Option.isSome_iff_exists.mpr ⟨_, howner⟩) hcollect hreserve
  | deposited hdeposit hfits => exact H.deposited hdeposit hfits
  | @transferred to_ id howner _ =>
    refine H.kept (H.lt_of_owned howner) (fun _ => rfl) rfl rfl (fun a => by simp)
      (fun a => by simp)
      (fun j hj => ⟨rfl, update_of_ne hj ..⟩) (.refl _) ?_ fun hnone => ?_
    · simp [howner]
    · simp at hnone
  | @locked id p howner hp =>
    refine H.kept (H.lt_of_owned howner) (fun _ => rfl) rfl rfl (fun a => by simp)
      (fun a => by simp)
      (fun j hj => ⟨update_of_ne hj .., rfl⟩) (by simpa using hp) rfl fun hnone => ?_
    rw [setPosition_owners] at hnone
    rw [hnone] at howner
    cases howner
  | tripped =>
    exact H.kept (Nat.succ_pos _) (fun _ => rfl) rfl rfl (fun a => by cases a <;> rfl)
      (fun a => by cases a <;> rfl) (fun j _ => ⟨rfl, rfl⟩) (.refl _) rfl (H.unowned 0)

theorem Accounts.step (H : t.Accounts) (hb : t.Bounded) {roles : Roles} (c : Ctx × Call) :
    (t.step roles c).Accounts := by
  unfold Tracked.step
  split
  next payout s' hcall => exact H.effect hb (call_effect hcall)
  next => exact H

end

end Tracked

end MadNet.Staking
