import MadNet.Staking.Effects

/-!
# Payouts to an account without stake

A position without shares is due nothing from the accumulators. The slush goes to a position that
has all the shares there are, and that is any position without shares once everybody else has left.
-/

namespace MadNet.Staking

open Function (update_self update_of_ne update)
open Monitor (Address)

/-- What a position is paid: its part of the accumulator, and the slush if it has all the shares. -/
theorem collect_payout {shares pos acc payout : Nat} {state x : Accumulator} {p : Position}
    (h : collect shares state p pos = .ok (x, acc, payout)) :
    payout = (Cyclic.distance maxAccumulator state.accumulator pos * p.shares +
      if shares = p.shares then state.slush else 0) / scale := by
  obtain ⟨delta, hdelta, h⟩ := Prog.bind_ok h
  obtain rfl := accumulatorDelta_eq_ok hdelta
  obtain ⟨due, hdue, h⟩ := Prog.bind_ok h
  obtain ⟨-, rfl⟩ := checked_eq_ok.mp hdue
  obtain ⟨total, htotal, h⟩ := Prog.bind_ok h
  obtain ⟨-, htotal⟩ := checked_eq_ok.mp htotal
  obtain ⟨slush, -, h⟩ := Prog.bind_ok h
  cases h
  rw [← htotal]
  split <;> rfl

/-- No shares are given to the account. -/
def Kind.GivesNoShares (who : Address) : Kind → Prop
  | mint to_ amount => to_ = who → amount = 0
  | transfer to_ _ => to_ ≠ who
  | _ => True

/-- The call pays the asset out. -/
def Kind.Pays : Kind → Asset → Prop
  | collect a _, b => a = b
  | burn _, _ => True
  | _, _ => False

/-- There is stake, or not a unit of the asset in the slush. -/
def StakingNFT.NoLooseSlush (s : StakingNFT) (a : Asset) : Prop :=
  s.shares ≠ 0 ∨ (s.state a).slush < scale

/-- The positions of the account have no shares. -/
def StakingNFT.Unstaked (who : Address) (s : StakingNFT) : Prop :=
  ∀ id, s.owners id = some who → (s.positions id).shares = 0

section

variable {who : Address} {s s' : StakingNFT} {ctx : Ctx} {k : Kind} {payout : Nat × Nat}

theorem StakingNFT.Unstaked.effect (hs : s.Unstaked who) (hk : k.GivesNoShares who)
    (h : Effect ctx s k payout s') : s'.Unstaked who := by
  intro id hid
  cases h with
  | @minted to_ amount p hp _ _ _ =>
    change update s.owners (s.counter + 1) (some to_) id = some who at hid
    change (update s.positions (s.counter + 1) p id).shares = 0
    by_cases hnew : id = s.counter + 1
    · subst hnew
      rw [update_self] at hid ⊢
      exact hp.trans (hk (Option.some.inj hid))
    · rw [update_of_ne hnew] at hid ⊢
      exact hs id hid
  | @burned tokenID =>
    change update s.owners tokenID none id = some who at hid
    change (update s.positions tokenID .zero id).shares = 0
    by_cases hburned : id = tokenID
    · subst hburned
      rw [update_self]
      rfl
    · rw [update_of_ne hburned] at hid ⊢
      exact hs id hid
  | @collected a tokenID acc n =>
    simp only [setReserve_owners, setPosition_owners, setState_owners] at hid
    simp only [setReserve_positions, setPosition_positions, setState_positions]
    by_cases hcollected : id = tokenID
    · subst hcollected
      rw [update_self, Position.setAccumulator_shares]
      exact hs id hid
    · rw [update_of_ne hcollected]
      exact hs id hid
  | deposited =>
    simp only [setReserve_owners, setState_owners] at hid
    simpa using hs id hid
  | @transferred to_ tokenID =>
    change update s.owners tokenID (some to_) id = some who at hid
    by_cases hmoved : id = tokenID
    · subst hmoved
      rw [update_self] at hid
      exact absurd (Option.some.inj hid) hk
    · rw [update_of_ne hmoved] at hid
      exact hs id hid
  | @locked tokenID p _ hp =>
    change (update s.positions tokenID p id).shares = 0
    by_cases hlocked : id = tokenID
    · subst hlocked
      rw [update_self]
      exact hp.shares.trans (hs id hid)
    · rw [update_of_ne hlocked]
      exact hs id hid
  | tripped => exact hs id hid

/-- A position without shares is paid the slush or nothing. -/
theorem collect_payout_eq_zero {shares pos acc n : Nat} {state x : Accumulator} {p : Position}
    (hp : p.shares = 0) (hslush : shares ≠ 0 ∨ state.slush < scale)
    (h : collect shares state p pos = .ok (x, acc, n)) : n = 0 := by
  rw [collect_payout h, hp, Nat.mul_zero, Nat.zero_add]
  split
  next hshares =>
    rcases hslush with hne | hlt
    · exact absurd hshares hne
    · exact Nat.div_eq_of_lt hlt
  next => exact Nat.zero_div _

/-- What is paid to the owner of positions without shares. -/
theorem StakingNFT.Unstaked.payout_eq_zero (hs : s.Unstaked ctx.sender)
    (hslush : ∀ a, k.Pays a → s.NoLooseSlush a) (h : Effect ctx s k payout s') :
    payout = (0, 0) := by
  cases h with
  | burned howner heth htoken =>
    have hp := hs _ howner
    rw [collect_payout_eq_zero hp (hslush .eth trivial) heth, hp,
      collect_payout_eq_zero hp (hslush .token trivial) htoken]
  | @collected a tokenID acc n x howner hcollect =>
    rw [collect_payout_eq_zero (hs _ howner) (hslush a rfl) hcollect]
    cases a <;> rfl
  | minted | deposited | transferred | locked | tripped => rfl

end

/-- An account that is never given shares is paid nothing, as long as it does not collect or burn
while nobody has stake and the slush holds a unit of the asset. -/
theorem unstaked_paid_nothing (roles : Roles) (who : Address) (cs : List (Ctx × Call))
    (hgiven : ∀ c ∈ cs, (c.2.kind c.1).GivesNoShares who)
    (hslush : Run.Along (fun s c => c.1.sender = who → ∀ a, (c.2.kind c.1).Pays a →
      s.NoLooseSlush a)
      (StakingNFT.step roles) .deployed cs) :
    Run.Along (fun s c => c.1.sender = who → ∀ payout s',
      s.call roles c.1 c.2 = .ok (payout, s') → payout = (0, 0)) (StakingNFT.step
      roles) .deployed cs := by
  have hrun := Run.along_and.mpr ⟨Run.along_of_forall fun _ => hgiven, hslush⟩
  have hinit : StakingNFT.deployed.Unstaked who := fun _ hid => by cases hid
  refine Run.along_of_invariant (StakingNFT.Unstaked who) (fun s c hs hc => ?_)
    (fun s c hs hc => ?_)
    hinit hrun
  · unfold StakingNFT.step
    split
    next payout s' hcall => exact hs.effect hc.1 (StakingNFT.call_effect hcall)
    next => exact hs
  · rintro rfl payout s' hcall
    exact hs.payout_eq_zero (hc.2 rfl) (StakingNFT.call_effect hcall)

/-- Account 2 stakes `amount` and deposits 5 units; account 1 mints a position without shares and
collects Ether. -/
def freeRide (amount : Nat) : List (Ctx × Call) :=
  [(⟨2, 0, 0, true, true, true, true⟩, .mint amount),
    (⟨2, 0, 5, true, true, true, true⟩, .depositEth magicValue),
    (⟨1, 0, 0, true, true, true, true⟩, .mint 0),
    (⟨1, 2, 0, true, true, true, true⟩, .collectEth 2)]

theorem freeRide_givesNoShares (amount : Nat) :
    ∀ c ∈ freeRide amount, (c.2.kind c.1).GivesNoShares 1 := by
  simp [freeRide, Call.kind, Kind.GivesNoShares]

theorem unstaked_paid_nothing_three :
    Run.Along (fun s c => c.1.sender = 1 → ∀ payout s',
      s.call ⟨0, 0⟩ c.1 c.2 = .ok (payout, s') → payout = (0, 0)) (StakingNFT.step ⟨0, 0⟩) .deployed
      (freeRide 3) := by
  refine unstaked_paid_nothing ⟨0, 0⟩ 1 (freeRide 3) (freeRide_givesNoShares 3) ?_
  refine ⟨fun h => ?_, fun h => ?_, fun _ a h => ?_, fun _ a _ => .inl ?_, trivial⟩
  · cases h
  · cases h
  · cases h
  · decide +kernel

/-- Nobody has stake, and what was deposited goes to a position without shares. -/
theorem freeRide_paid : (∀ c ∈ freeRide 0, (c.2.kind c.1).GivesNoShares 1) ∧
    ∃ s', (Run.exec (StakingNFT.step ⟨0, 0⟩) .deployed ((freeRide 0).take 3)).call ⟨0, 0⟩
      ⟨1, 2, 0, true, true, true, true⟩ (.collectEth 2) = .ok ((5, 0), s') :=
  ⟨freeRide_givesNoShares 0, _, rfl⟩

end MadNet.Staking
