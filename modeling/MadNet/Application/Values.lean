import MadNet.Consensus.Objs
import MadNet.Trie.Smt

/-!
# Values, epochs and the deposits of DataStores

A DataStore is paid for in advance. Its deposit loses the cost of an epoch with every epoch, and
what is left after it has expired is the reward for cleaning it up. Unsigned 32-bit integers are
natural numbers here, with `% 2 ^ 32` where the Go code can wrap.
-/

namespace MadNet.App

/-- Errors of the application, kept apart as far as callers distinguish them. -/
inductive Err where
  | invalid (msg : String)
  | missingTransactions
  /-- `badger.ErrKeyNotFound`. -/
  | keyNotFound
  | other (msg : String)
  /-- The Go code panics. -/
  | panic (msg : String)
  deriving DecidableEq

/-- An error of a trie; the missing node is `badger.ErrKeyNotFound`. -/
def Err.ofTrie : Trie.Err → Err
  | .differentLengths => .other "keys and values are not of the same length"
  | .duplicateKey => .other "duplicate input key"
  | .missing => .other "missing"
  | .conflicting => .other "conflicting key/value in trie"
  | .noKeys => .other "length of keys or values should not be zero"
  | .unavailable => .keyNotFound
  | .badBatch => .other "length of input value is lower than it should be"
  | .corrupt => .panic "slice bounds out of range"

/-- Fail with `ErrInvalid` unless `p` holds. -/
def check (p : Prop) [Decidable p] (msg : String) : Except Err Unit :=
  if p then .ok () else .error (.invalid msg)

@[simp] theorem check_eq_ok {p : Prop} [Decidable p] {msg : String} {u : Unit} :
    check p msg = .ok u ↔ p := by
  unfold check
  split <;> simp_all

theorem check_eq_error {p : Prop} [Decidable p] {msg : String} {e : Err} :
    check p msg = .error e ↔ ¬p ∧ .invalid msg = e := by
  unfold check
  split <;> simp_all

def maxUint32 : Nat := 2 ^ 32 - 1

def epochLength : Nat := 1024

def epoch (height : Nat) : Nat :=
  if height ≤ epochLength then 1
  else if height % epochLength = 0 then height / epochLength
  else height / epochLength + 1

/-! ## `uint256` -/

namespace Uint256

def add (a b : Nat) : Except Err Nat :=
  if a + b < 2 ^ 256 then .ok (a + b) else .error (.invalid "Error in Uint256.Add: overflow")

def sub (a b : Nat) : Except Err Nat :=
  if b ≤ a then .ok (a - b) else .error (.invalid "Error in Uint256.Sub: overflow")

def mul (a b : Nat) : Except Err Nat :=
  if a * b < 2 ^ 256 then .ok (a * b) else .error (.invalid "Error in Uint256.Mul: overflow")

def toUint32 (a : Nat) : Except Err Nat :=
  if a < 2 ^ 32 then .ok a else .error (.invalid "Error in Uint256.ToUint32: overflow")

end Uint256

/-! ## Deposits -/

def baseDatasizeConst : Nat := 376

def maxDataStoreSize : Nat := 2097152

def baseDepositEquation (dataSize numEpochs : Nat) : Except Err Nat := do
  check (dataSize ≤ maxDataStoreSize) "baseDepositEquation: dataSize is too large"
  return (dataSize + baseDatasizeConst) * (2 + numEpochs)

def numEpochsEquation (dataSize deposit : Nat) : Except Err Nat := do
  check (dataSize ≤ maxDataStoreSize) "numEpochsEquation: dataSize is too large"
  let tmp := deposit / (dataSize + baseDatasizeConst)
  check (2 ≤ tmp) "numEpochsEquation: invalid dataSize and deposit causing integer overflow"
  Uint256.toUint32 (tmp - 2)

def rewardDepositEquation (deposit dataSize epochInitial epochFinal : Nat) : Except Err Nat := do
  check (epochInitial ≤ epochFinal) "rewardDepositEquation: epochFinal < epochInitial"
  let epochDiff := epochFinal - epochInitial
  let epochCost := baseDatasizeConst + dataSize
  let numEpochs ← numEpochsEquation dataSize deposit
  if numEpochs < epochDiff then
    return epochCost
  else
    let currentDeposit ← baseDepositEquation dataSize epochDiff
    let tmp ← Uint256.sub deposit currentDeposit
    Uint256.add tmp (2 * epochCost)

/-- `ValidateDeposit`, which is part of the decoding of a DataStore. -/
def validateDeposit (chainID issuedAt deposit dataSize : Nat) : Except Err Unit := do
  check (deposit ≠ 0) "dspi.validateDeposit; dspi.deposit is zero"
  check (chainID ≠ 0) "dspi.validateDeposit; dspi.chainID is zero"
  check (issuedAt ≠ 0) "dspi.validateDeposit; dspi.issuedAt is zero"
  check (dataSize ≠ 0) "dspi.validateDeposit; dspi.rawData has length zero"
  check (dataSize ≤ maxDataStoreSize) "dspi.validateDeposit; dspi.rawData is too large"
  let numEpochs ← numEpochsEquation dataSize deposit
  check (numEpochs ≠ 0) "dspi.validateDeposit; invalid deposit: storing for zero epochs"
  let deposit' ← baseDepositEquation dataSize numEpochs
  check (deposit' = deposit)
    "dspi.validateDeposit; invalid deposit: does not match computed value"

open Prog

/-- What a deposit pays for. -/
structure Paid (chainID issuedAt deposit dataSize numEpochs : Nat) : Prop where
  chainID_ne : chainID ≠ 0
  issuedAt_ne : issuedAt ≠ 0
  dataSize_ne : dataSize ≠ 0
  dataSize_le : dataSize ≤ maxDataStoreSize
  numEpochs_lt : numEpochs < 2 ^ 32
  deposit_eq : deposit = (dataSize + baseDatasizeConst) * (2 + numEpochs)

variable {chainID issuedAt deposit dataSize n : Nat}

theorem Paid.deposit_lt (h : Paid chainID issuedAt deposit dataSize n) : deposit < 2 ^ 256 := by
  have hcost : dataSize + baseDatasizeConst ≤ 2 ^ 22 := by
    have := h.dataSize_le
    unfold maxDataStoreSize at this
    unfold baseDatasizeConst
    omega
  have hepochs : 2 + n ≤ 2 ^ 33 := by
    have := h.numEpochs_lt
    omega
  calc deposit = (dataSize + baseDatasizeConst) * (2 + n) := h.deposit_eq
    _ ≤ 2 ^ 22 * 2 ^ 33 := Nat.mul_le_mul hcost hepochs
    _ < 2 ^ 256 := by norm_num

theorem numEpochsEquation_paid (hsize : dataSize ≤ maxDataStoreSize) (hn : n < 2 ^ 32) :
    numEpochsEquation dataSize ((dataSize + baseDatasizeConst) * (2 + n)) = .ok n := by
  have hdiv : (dataSize + baseDatasizeConst) * (2 + n) / (dataSize + baseDatasizeConst) = 2 + n :=
    Nat.mul_div_cancel_left _ (by unfold baseDatasizeConst; omega)
  simp only [numEpochsEquation, hdiv, check, if_pos hsize, Uint256.toUint32]
  rw [if_pos (by omega), if_pos (by omega)]
  simp [bind, Except.bind]

theorem validateDeposit_paid (h : validateDeposit chainID issuedAt deposit dataSize = .ok ()) :
    ∃ n ≠ 0, Paid chainID issuedAt deposit dataSize n := by
  obtain ⟨_, _, -, hchain, h⟩ := bind₂_ok h
  obtain ⟨_, _, hissued, hzero, h⟩ := bind₂_ok h
  obtain ⟨_, n, hsize, hn, h⟩ := bind₂_ok h
  obtain ⟨_, d, hpos, hd, h⟩ := bind₂_ok h
  rw [check_eq_ok] at hchain hissued hzero hsize hpos h
  refine ⟨n, hpos, hchain, hissued, hzero, hsize, ?_, ?_⟩
  · obtain ⟨_, _, -, -, hn⟩ := bind₂_ok hn
    unfold Uint256.toUint32 at hn
    split at hn
    · cases hn
      assumption
    · cases hn
  · obtain ⟨_, -, hd⟩ := bind_ok hd
    rw [← h]
    exact (Except.ok.inj hd).symm

theorem Paid.numEpochs
    (h : Paid chainID issuedAt deposit dataSize n) :
    numEpochsEquation dataSize deposit = .ok n := by
  rw [h.deposit_eq]
  exact numEpochsEquation_paid h.dataSize_le h.numEpochs_lt

/-- What is left of a deposit after `diff` epochs. -/
def remainingAfter (dataSize numEpochs diff : Nat) : Nat :=
  if numEpochs < diff then dataSize + baseDatasizeConst
  else (dataSize + baseDatasizeConst) * (numEpochs - diff + 2)

theorem rewardDepositEquation_paid {final : Nat}
    (hpaid : Paid chainID issuedAt deposit dataSize n) (hfinal : issuedAt ≤ final) :
    rewardDepositEquation deposit dataSize issuedAt final =
      .ok (remainingAfter dataSize n (final - issuedAt)) := by
  have hnum := hpaid.numEpochs
  simp only [rewardDepositEquation, check, if_pos hfinal, hnum, remainingAfter, bind, Except.bind,
    pure, Except.pure]
  split
  · rw [Nat.add_comm]
  next hdiff =>
    -- the deposit of the epochs that are over is taken off, except for two epochs
    obtain ⟨k, hk⟩ : ∃ k, n = final - issuedAt + k := ⟨n - (final - issuedAt), by omega⟩
    have hsplit : deposit = (dataSize + baseDatasizeConst) * (2 + (final - issuedAt)) +
        (dataSize + baseDatasizeConst) * k := by
      rw [hpaid.deposit_eq, hk]
      ring
    have hrest : (dataSize + baseDatasizeConst) * k + 2 * (baseDatasizeConst + dataSize) ≤
      deposit := by
      nlinarith [Nat.zero_le ((dataSize + baseDatasizeConst) * (final - issuedAt))]
    simp only [baseDepositEquation, check, if_pos hpaid.dataSize_le, bind, Except.bind, pure,
      Except.pure, Uint256.sub]
    rw [if_pos (by omega)]
    have hsub : deposit - (dataSize + baseDatasizeConst) * (2 + (final - issuedAt)) =
        (dataSize + baseDatasizeConst) * k := by omega
    simp only [hsub, Uint256.add, if_pos (Nat.lt_of_le_of_lt hrest hpaid.deposit_lt)]
    rw [show n - (final - issuedAt) = k by omega]
    ring_nf

variable {dataSize n diff : Nat}

theorem remainingAfter_add (h : diff ≤ n) :
    remainingAfter dataSize n diff + (dataSize + baseDatasizeConst) * diff =
      (dataSize + baseDatasizeConst) * (2 + n) := by
  rw [remainingAfter, if_neg (by omega), ← Nat.mul_add]
  congr 1
  omega

theorem le_remainingAfter : dataSize + baseDatasizeConst ≤ remainingAfter dataSize n diff := by
  unfold remainingAfter
  split
  · exact Nat.le_refl _
  · exact Nat.le_mul_of_pos_right _ (by omega)

/-- Only the reward is worth one epoch. -/
theorem remainingAfter_eq_cost : remainingAfter dataSize n diff = dataSize + baseDatasizeConst ↔
    n < diff := by
  unfold remainingAfter
  split
  · simpa
  · refine iff_of_false (fun h => ?_) ‹_›
    rw [Nat.mul_eq_left (by unfold baseDatasizeConst; omega)] at h
    omega

theorem remainingAfter_antitone {d d' : Nat} (h : d ≤ d') :
    remainingAfter dataSize n d' ≤ remainingAfter dataSize n d := by
  unfold remainingAfter
  split <;> split
  · exact Nat.le_refl _
  · exact Nat.le_mul_of_pos_right _ (by omega)
  · omega
  · exact Nat.mul_le_mul_left _ (by omega)

end MadNet.App
