import MadNet.Application.Tx

/-!
# DataStores over their lifetime

The laws of a DataStore that has been paid for, at every height: what is left of its deposit, when
it expires, and in which epoch it can be mined. Heights and epochs are 32-bit numbers, and the
heights of an epoch are computed from it: only the first `2 ^ 22` epochs have heights.
-/

namespace MadNet.App

variable {ι : Type} {h h' : Nat}

theorem epoch_eq (height : Nat) : epoch height = max 1 ((height + 1023) / 1024) := by
  unfold epoch epochLength
  split
  · omega
  · split <;> omega

theorem epoch_mono (hle : h ≤ h') : epoch h ≤ epoch h' := by
  rw [epoch_eq, epoch_eq]
  omega

theorem epoch_le (hh : h < 2 ^ 32) : epoch h ≤ 2 ^ 22 := by
  rw [epoch_eq]
  omega

/-! ## The value -/

namespace DSPreImage

variable (b : DSPreImage ι)

def epochCost : Nat := b.rawData.length + baseDatasizeConst

def numEpochs : Nat := b.deposit / b.epochCost - 2

theorem paid : Paid b.chainID b.issuedAt b.deposit b.rawData.length b.numEpochs ∧
    1 ≤ b.numEpochs := by
  obtain ⟨n, hn, hpaid⟩ := validateDeposit_paid b.valid
  have hdiv : b.deposit / b.epochCost = 2 + n := by
    rw [hpaid.deposit_eq]
    exact Nat.mul_div_cancel_left _ (by unfold baseDatasizeConst; omega)
  have hnum : b.numEpochs = n := by
    rw [numEpochs, hdiv]
    omega
  rw [hnum]
  exact ⟨hpaid, Nat.pos_of_ne_zero hn⟩

theorem remainingValue_eq (h : Nat) :
    b.remainingValue
      h = .ok (remainingAfter b.rawData.length b.numEpochs (epoch h - b.issuedAt)) := by
  rw [remainingValue, rewardDepositEquation_paid b.paid.1 (by split <;> omega)]
  congr 2
  split <;> omega

end DSPreImage

/-- The deposit pays for whole epochs, and loses the cost of one with each. -/
theorem DSPreImage.deposit_decays (b : DSPreImage ι) :
    let c := b.rawData.length + baseDatasizeConst
    (∃ n, numEpochsEquation b.rawData.length b.deposit = .ok n ∧ 1 ≤ n ∧ b.deposit = c * (2 + n) ∧
      ∀ h, ∃ v, b.remainingValue h = .ok v ∧
        (epoch h - b.issuedAt ≤ n → v + c * (epoch h - b.issuedAt) = b.deposit) ∧
        (n < epoch h - b.issuedAt → v = c) ∧ c ≤ v ∧ v ≤ b.deposit ∧
        ∀ h' v', h ≤ h' → b.remainingValue h' = .ok v' → v' ≤ v) ∧
      ∀ s ≤ maxDataStoreSize, ∀ n < 2 ^ 32, (baseDepositEquation s n >>= numEpochsEquation s) =
        .ok n := by
  intro c
  obtain ⟨hpaid, hn⟩ := b.paid
  refine ⟨⟨b.numEpochs, hpaid.numEpochs, hn, hpaid.deposit_eq,
    fun h => ⟨_, b.remainingValue_eq h, ?_, ?_,
    le_remainingAfter, ?_, ?_⟩⟩, ?_⟩
  · intro hle
    rw [remainingAfter_add hle, hpaid.deposit_eq]
  · intro hlt
    rw [remainingAfter, if_pos hlt]
  · calc remainingAfter _ _ _ ≤ remainingAfter _ _ 0 := remainingAfter_antitone (Nat.zero_le _)
      _ = b.deposit := by
        rw [hpaid.deposit_eq, ← remainingAfter_add (Nat.zero_le _), Nat.mul_zero, Nat.add_zero]
  · intro h' v' hle hv
    obtain rfl := Except.ok.inj ((b.remainingValue_eq h').symm.trans hv)
    exact remainingAfter_antitone (Nat.sub_le_sub_right (epoch_mono hle) _)
  · intro s hs n hn
    rw [baseDepositEquation, check, if_pos hs]
    exact numEpochsEquation_paid hs hn

/-! ## The expiry -/

/-- It is expired exactly when its epochs are over, and this is when it is worth the reward. -/
def DSPreImage.ExpiryAgrees (b : DSPreImage ι) (n h : Nat) : Prop :=
  (b.isExpired h = .ok true ↔ (n : Int) < epoch h - b.issuedAt) ∧
    ((n : Int) < epoch h - b.issuedAt ↔
    b.remainingValue h = .ok (b.rawData.length + baseDatasizeConst))

/-- The epoch of expiration is a 32-bit number. If it does not fit, it must still be above all
epochs that there have been. -/
theorem DSPreImage.expiryAgrees_iff {b : DSPreImage ι} {n : Nat} (hiat : b.issuedAt < 2 ^ 32)
    (hn : numEpochsEquation b.rawData.length b.deposit = .ok n) (hh : h < 2 ^ 32) :
    b.ExpiryAgrees n h ↔ b.issuedAt + n + 1 < 2 ^ 32 ∨ epoch h + 2 ^ 32 < b.issuedAt + n + 1 := by
  have hexp : b.isExpired h = .ok (decide ((b.issuedAt + n + 1) % 2 ^ 32 ≤ epoch h)) := by
    rw [isExpired, epochOfExpiration, hn]
    rfl
  obtain ⟨hpaid, -⟩ := b.paid
  obtain rfl := Except.ok.inj (hpaid.numEpochs.symm.trans hn)
  have hlt := hpaid.numEpochs_lt
  have hepoch := epoch_le hh
  have hreward : (b.numEpochs : Int) < epoch h - b.issuedAt ↔
      b.remainingValue h = .ok (b.rawData.length + baseDatasizeConst) := by
    rw [b.remainingValue_eq, Except.ok.injEq, remainingAfter_eq_cost]
    omega
  rw [ExpiryAgrees, hexp, Except.ok.injEq, decide_eq_true_iff, ← hreward, iff_self, and_true]
  omega

def DSPreImage.byte (issuedAt deposit : Nat) (h : validateDeposit 1 issuedAt deposit 1 = .ok ()) :
    DSPreImage Nat where
  chainID := 1
  index := 0
  issuedAt := issuedAt
  deposit := deposit
  rawData := [0]
  txOutIdx := 0
  owner := { curveSpec := .secp256k1, account := [] }
  fee := 0
  valid := h

/-- From the first epoch on, for as many epochs as there are. -/
def DSPreImage.longest : DSPreImage Nat := byte 1 (377 * (2 ^ 32 + 1)) rfl

/-- It is expired when it is created, and worth all of its deposit. -/
theorem DSPreImage.longest_expired :
    longest.isExpired 1 = .ok true ∧ longest.remainingValue 1 = .ok longest.deposit := by
  decide +kernel

theorem DSPreImage.longest_not_expiryAgrees : ¬longest.ExpiryAgrees (2 ^ 32 - 1) 1 :=
  (expiryAgrees_iff (by decide) rfl (by decide)).not.mpr (by decide)

/-! ## The mining window -/

/-- When it was issued, if that matters for its mining. -/
def TXOut.issuedAt : TXOut ι → Option Nat
  | .dataStore ds => some ds.preImage.issuedAt
  | .valueStore _ => none
  | .atomicSwap as => some as.preImage.issuedAt

/-- `MustBeMinedBeforeHeight` of what was issued at an epoch. -/
def mustBeMinedBefore (iat : Nat) : Nat := (iat * epochLength + maxUint32) % 2 ^ 32

section Heights

variable {i j : Nat}

theorem mustBeMinedBefore_ne : mustBeMinedBefore i ≠ maxUint32 ↔ i % 2 ^ 22 ≠ 0 := by
  unfold mustBeMinedBefore epochLength maxUint32
  omega

theorem mustBeMinedBefore_inj : mustBeMinedBefore i = mustBeMinedBefore j ↔
    i % 2 ^ 22 = j % 2 ^ 22 := by
  unfold mustBeMinedBefore epochLength maxUint32
  omega

theorem epoch_mustBeMinedBefore (hi : i % 2 ^ 22 ≠ 0) :
    epoch (mustBeMinedBefore i) = i % 2 ^ 22 := by
  rw [epoch_eq]
  unfold mustBeMinedBefore epochLength maxUint32
  omega

end Heights

namespace Tx

variable {tx : Tx ι}

theorem mem_mustBeMinedBefore {m : Nat} : m ∈ tx.mustBeMinedBefore ↔
    ∃ out ∈ tx.vout, ∃ i ∈ out.issuedAt, i % 2 ^ 22 ≠ 0 ∧ App.mustBeMinedBefore i = m := by
  have hout : ∀ out : TXOut ι, (out.mustBeMinedBeforeHeight = m ∧ m ≠ maxUint32) ↔
      ∃ i ∈ out.issuedAt, i % 2 ^ 22 ≠ 0 ∧ App.mustBeMinedBefore i = m := by
    intro out
    simp only [← mustBeMinedBefore_ne]
    cases out with
    | valueStore vs => simpa [TXOut.mustBeMinedBeforeHeight, TXOut.issuedAt] using Eq.symm
    | dataStore | atomicSwap =>
      simp only [TXOut.issuedAt, Option.mem_some_iff, exists_eq_left']
      refine ⟨?_, ?_⟩
      · rintro ⟨rfl, hne⟩
        exact ⟨hne, rfl⟩
      · rintro ⟨hne, rfl⟩
        exact ⟨rfl, hne⟩
  simp only [Tx.mustBeMinedBefore, List.mem_dedup, List.mem_filter, List.mem_map,
    decide_eq_true_iff, ← hout]
  constructor
  · rintro ⟨⟨out, hmem, hm⟩, hne⟩
    exact ⟨out, hmem, hm, hne⟩
  · rintro ⟨out, hmem, hm, hne⟩
    exact ⟨⟨out, hmem, hm⟩, hne⟩

/-- The outputs that matter agree on the epoch. -/
theorem validateIssuedAtForMining_ok : tx.validateIssuedAtForMining h = .ok () ↔
    tx.vout ≠ [] ∧ ∀ m ∈ tx.mustBeMinedBefore, epoch m = epoch h ∧
      ∀ m' ∈ tx.mustBeMinedBefore, m' = m := by
  have hnodup : tx.mustBeMinedBefore.Nodup := List.nodup_dedup _
  rw [validateIssuedAtForMining, Prog.bind_eq_ok]
  simp only [check_eq_ok, exists_const]
  refine and_congr_right fun _ => ?_
  generalize tx.mustBeMinedBefore = ms at hnodup
  rcases ms with _ | ⟨m, _ | ⟨m', ms⟩⟩
  · simp
  · simp
  · simp only [List.nodup_cons, List.mem_cons, not_or] at hnodup
    refine iff_of_false (by simp) fun hall => ?_
    exact hnodup.1.1 ((hall m (by simp)).2 m' (by simp)).symm

/-- Two outputs cannot be mined in one epoch. -/
def Conflicting (tx : Tx ι) : Prop :=
  ∃ out ∈ tx.vout, ∃ i ∈ out.issuedAt, ∃ out' ∈ tx.vout, ∃ j ∈ out'.issuedAt,
    i % 2 ^ 22 ≠ 0 ∧ j % 2 ^ 22 ≠ 0 ∧ i % 2 ^ 22 ≠ j % 2 ^ 22

/-- A DataStore is mined in the epoch it was issued at only. -/
def MinedInEpoch (tx : Tx ι) : Prop :=
  ∀ h < 2 ^ 32, tx.validateIssuedAtForMining h = .ok () →
    ∀ ds, .dataStore ds ∈ tx.vout → ds.preImage.issuedAt = epoch h

theorem minedInEpoch_iff : tx.MinedInEpoch ↔
    (∀ ds, .dataStore ds ∈ tx.vout → ds.preImage.issuedAt < 2 ^ 22) ∨ tx.Conflicting := by
  constructor
  · intro hmined
    by_contra! ⟨⟨ds, hds, hlate⟩, hagree⟩
    have hvout : tx.vout ≠ [] := List.ne_nil_of_mem hds
    have hsame : ∀ m ∈ tx.mustBeMinedBefore, ∀ m' ∈ tx.mustBeMinedBefore, m' = m := by
      intro m hm m' hm'
      obtain ⟨out, hout, i, hi, hi0, rfl⟩ := mem_mustBeMinedBefore.mp hm
      obtain ⟨out', hout', j, hj, hj0, rfl⟩ := mem_mustBeMinedBefore.mp hm'
      by_contra hne
      exact hagree ⟨out, hout, i, hi, out', hout', j, hj, hi0, hj0,
        fun h => hne (mustBeMinedBefore_inj.mpr h.symm)⟩
    -- it is mined in the epoch that the other outputs have, or in any epoch
    by_cases hnone : tx.mustBeMinedBefore = []
    · have hok := validateIssuedAtForMining_ok (h := 1).mpr ⟨hvout, by simp [hnone]⟩
      have := hmined 1 (by decide) hok ds hds
      have hfirst : epoch 1 = 1 := rfl
      omega
    · obtain ⟨m, hm⟩ := List.exists_mem_of_ne_nil _ hnone
      obtain ⟨out, hout, i, hi, hi0, rfl⟩ := mem_mustBeMinedBefore.mp hm
      have hok := validateIssuedAtForMining_ok.mpr
        ⟨hvout, fun m' hm' => ⟨congrArg epoch (hsame _ hm _ hm'), hsame m' hm'⟩⟩
      have hlt : App.mustBeMinedBefore i < 2 ^ 32 := Nat.mod_lt _ (by decide)
      have := hmined _ hlt hok ds hds
      rw [epoch_mustBeMinedBefore hi0] at this
      omega
  · rintro (hearly | ⟨out, hout, i, hi, out', hout', j, hj, hi0, hj0, hne⟩) h hh hok ds hds
    · have hiat := hearly ds hds
      have hne : ds.preImage.issuedAt ≠ 0 := ds.preImage.paid.1.issuedAt_ne
      have hmod : ds.preImage.issuedAt % 2 ^ 22 = ds.preImage.issuedAt := Nat.mod_eq_of_lt hiat
      have hmem := mem_mustBeMinedBefore.mpr ⟨_, hds, _, rfl, hmod.symm ▸ hne, rfl⟩
      rw [← ((validateIssuedAtForMining_ok.mp hok).2 _ hmem).1,
        epoch_mustBeMinedBefore (hmod.symm ▸ hne), hmod]
    · have hmem := mem_mustBeMinedBefore.mpr ⟨out, hout, i, hi, hi0, rfl⟩
      have hmem' := mem_mustBeMinedBefore.mpr ⟨out', hout', j, hj, hj0, rfl⟩
      have heq := ((validateIssuedAtForMining_ok.mp hok).2 _ hmem').2 _ hmem
      exact absurd (mustBeMinedBefore_inj.mp heq) hne

/-- The heights of a DataStore are the first and the last one of its epoch. -/
def HeightsOfEpoch (tx : Tx ι) : Prop :=
  ∀ ds, .dataStore ds ∈ tx.vout → let out := TXOut.dataStore ds; let iat := ds.preImage.issuedAt
    out.cannotBeMinedBeforeHeight = (iat - 1) * epochLength + 1 ∧
      out.mustBeMinedBeforeHeight = iat * epochLength

/-- `MustBeMinedBeforeHeight` is the last height but one, so that the heights are never as
described. A transaction is mined in the wrong epoch if a DataStore has an epoch without heights and
its outputs do not conflict. -/
theorem mining_window_iff (tx : Tx ι) :
    (tx.MinedInEpoch ∧ tx.HeightsOfEpoch ↔ ∀ ds, .dataStore ds ∉ tx.vout) ∧
    (tx.MinedInEpoch ↔ (∀ ds, .dataStore ds ∈ tx.vout → ds.preImage.issuedAt < 2 ^ 22) ∨
      tx.Conflicting) ∧
    ∀ ds, .dataStore ds ∈ tx.vout → let out := TXOut.dataStore ds; let iat := ds.preImage.issuedAt
      (out.cannotBeMinedBeforeHeight = (iat - 1) * epochLength + 1 ∧
        out.mustBeMinedBeforeHeight + 1 = iat * epochLength ↔ iat ≤ 2 ^ 22) := by
  refine ⟨⟨?_, ?_⟩, minedInEpoch_iff, ?_⟩
  · intro ⟨_, hheights⟩ ds hds
    have hlast := (hheights ds hds).2
    simp only [TXOut.mustBeMinedBeforeHeight, epochLength, maxUint32] at hlast
    omega
  · exact fun hnone =>
      ⟨fun _ _ _ ds hds => absurd hds (hnone ds), fun ds hds => absurd hds (hnone ds)⟩
  · intro ds _ out iat
    have hne : iat ≠ 0 := ds.preImage.paid.1.issuedAt_ne
    simp only [out, TXOut.cannotBeMinedBeforeHeight, TXOut.mustBeMinedBeforeHeight,
      epochLength, maxUint32]
    change ((iat - 1) * 1024 + 1) % 2 ^ 32 = _ ∧ (iat * 1024 + _) % 2 ^ 32 + 1 = _ ↔ _
    omega

/-- The only output is a DataStore of one byte and one epoch. -/
def storing (issuedAt : Nat) (h : validateDeposit 1 issuedAt 1131 1 = .ok ()) : Tx Nat where
  vin := []
  vout := [.dataStore {
    preImage := .byte issuedAt 1131 h
    txHash := 0
    signature := { curveSpec := .secp256k1, signature := [] } }]
  fee := 0
  txHash := none

/-- An epoch after the last one is taken for the first one. -/
theorem late_mined_in_first_epoch :
    (storing (2 ^ 22 + 1) rfl).validateIssuedAtForMining 1 = .ok () ∧ epoch 1 ≠ 2 ^ 22 + 1 ∧
      (storing 1 rfl).vout.map TXOut.mustBeMinedBeforeHeight = [1023] ∧ epoch 1024 = 1 := by
  decide +kernel

end Tx

end MadNet.App
