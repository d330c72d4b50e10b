import MadNet.Dkg.Cloudflare
import MadNet.Engine.Admin

/-!
# Thresholds

The round states of a node count the own one, whether or not the node is a validator; the
aggregation of signatures counts the group shares of the validators. The votes that a node takes
from others carry the signatures of a quorum, which are not counted.
-/

namespace MadNet

open Prog
open Dkg (Curve ErrBelowThreshold)

/-! ## The number of validators that make a quorum -/

/-- The smallest number of validators that is more than two thirds of them. -/
theorem isLeast_calcThreshold (n : Nat) :
    IsLeast {m : Nat | 2 * n < 3 * m} (calcThreshold n + 1) := by
  have hmod : n % 3 = n - 3 * (n / 3) := by omega
  unfold calcThreshold
  dsimp only
  constructor
  · change 2 * n < 3 * _
    split <;> omega
  · intro m hm
    change 2 * n < 3 * m at hm
    split <;> omega

theorem calcThreshold_succ_iff (n : Nat) : calcThreshold (n + 1) = calcThreshold n ↔ n % 3 = 0 := by
  unfold calcThreshold
  dsimp only
  split <;> split <;> omega

/-! ## The number of signatures that are aggregated -/

section

variable {G₁ G₂ : Type} [AddCommGroup G₁] [AddCommGroup G₂] (C : Curve G₁ G₂)

omit [AddCommGroup G₂] in
/-- Reading a point fails for a reason of its own. -/
theorem unmarshalG1_ne_belowThreshold (m : Bytes) : C.unmarshalG1 m ≠ .error ErrBelowThreshold := by
  unfold Curve.unmarshalG1
  split
  · exact fun h => absurd (Except.error.inj h) (by decide)
  split
  · exact fun h => absurd (Except.error.inj h) (by decide)
  split
  · exact fun h => nomatch h
  split
  · exact fun h => nomatch h
  · exact fun h => absurd (Except.error.inj h) (by decide)

omit [AddCommGroup G₁] in
theorem unmarshalG2_ne_belowThreshold (m : Bytes) : C.unmarshalG2 m ≠ .error ErrBelowThreshold := by
  unfold Curve.unmarshalG2
  split
  · exact fun h => absurd (Except.error.inj h) (by decide)
  split
  · exact fun h => absurd (Except.error.inj h) (by decide)
  split
  · exact fun h => nomatch h
  split
  · exact fun h => nomatch h
  · exact fun h => absurd (Except.error.inj h) (by decide)

theorem unmarshalSignature_ne_belowThreshold (m : Bytes) :
    C.unmarshalSignature m ≠ .error ErrBelowThreshold := by
  intro h
  unfold Curve.unmarshalSignature at h
  split at h
  · exact absurd (Except.error.inj h) (by decide)
  rcases except_bind_eq_error.mp h with h | ⟨⟨pubK, tmp⟩, -, h⟩
  · exact unmarshalG2_ne_belowThreshold C m h
  rcases except_bind_eq_error.mp h with h | ⟨⟨sig, rest⟩, -, h⟩
  · exact unmarshalG1_ne_belowThreshold C tmp h
  · cases h

theorem makeIndicesArray_ne_belowThreshold {K : Type} [DecidableEq K]
    (pubKs orderedPubKs : List K) :
    Dkg.makeIndicesArray pubKs orderedPubKs ≠ .error ErrBelowThreshold := by
  intro h
  obtain ⟨pubK, -, h⟩ := mapM_eq_error h
  rcases except_bind_eq_error.mp h with h | ⟨i, -, h⟩
  · unfold Dkg.findPubKIndex at h
    split at h
    · cases h
    · exact absurd (Except.error.inj h) (by decide)
  · cases h

theorem aggregateSignatures_ne_belowThreshold {sigs : List G₁} {indices : List Nat}
    {threshold : Nat}
    (hlt : threshold < sigs.length) :
    Dkg.aggregateSignatures sigs indices threshold ≠ .error ErrBelowThreshold := by
  intro h
  unfold Dkg.aggregateSignatures Dkg.lagrangeInterpolationG1 at h
  split at h
  · exact absurd (Except.error.inj h) (by decide)
  · rw [if_neg (by omega)] at h
    cases h

/-- A list of signatures is refused as below the threshold when it is no longer than it, and for no
other reason. -/
theorem aggregateMarshalledSignatures_belowThreshold [DecidableEq G₂] (sigs keys : List Bytes)
    (threshold : Nat) :
    C.aggregateMarshalledSignatures sigs keys threshold = .error ErrBelowThreshold ↔
      sigs.length ≤ threshold := by
  unfold Curve.aggregateMarshalledSignatures
  split
  next hle => exact ⟨fun _ => hle, fun _ => rfl⟩
  next hlt =>
    refine ⟨fun h => ?_, fun h => absurd h hlt⟩
    rcases except_bind_eq_error.mp h with h | ⟨sigs', hsigs, h⟩
    · obtain ⟨m, -, h⟩ := mapM_eq_error h
      exact absurd h (unmarshalSignature_ne_belowThreshold C m)
    rcases except_bind_eq_error.mp h with h | ⟨keys', -, h⟩
    · obtain ⟨m, -, h⟩ := mapM_eq_error h
      rcases except_bind_eq_error.mp h with h | ⟨_, -, h⟩
      · exact absurd h (unmarshalG2_ne_belowThreshold C m)
      · cases h
    rcases except_bind_eq_error.mp h with h | ⟨indices, -, h⟩
    · exact absurd h (makeIndicesArray_ne_belowThreshold _ _)
    · refine absurd h (aggregateSignatures_ne_belowThreshold ?_)
      rw [List.length_map, ← (mapM_eq_ok hsigs).length_eq]
      omega

end

/-! ## The two thresholds -/

/-- The number of votes that a node waits for is the number that is aggregated. -/
structure ThresholdConsistent {G₁ G₂ : Type} [AddCommGroup G₁] [AddCommGroup G₂] [DecidableEq G₂]
    (C : Curve G₁ G₂) (rs : RoundStates) : Prop where
  eq : rs.getCurrentThreshold = calcThreshold rs.validatorSet.validators.length + 1
  isLeast : IsLeast {m : Nat | 2 * rs.validatorSet.validators.length < 3 * m} rs.getCurrentThreshold
  /-- `BNGroupSigner.Aggregate` gives the group shares of the set and their threshold. -/
  refused : ∀ sigs : List Bytes,
    C.aggregateMarshalledSignatures sigs (rs.validatorSet.validators.map (·.groupShare))
        (calcThreshold (rs.validatorSet.validators.map (·.groupShare)).length) =
      .error ErrBelowThreshold ↔ sigs.length < rs.getCurrentThreshold
  recognised : ∀ voters : List Validator, voters ⊆ rs.validatorSet.validators → voters.Nodup →
    2 * rs.validatorSet.validators.length < 3 * voters.length →
    rs.getCurrentThreshold ≤ voters.length

namespace Store

/-- The threshold of a node that is not a validator is that of one more validator. -/
theorem thresholdConsistent_iff {G₁ G₂ : Type} [AddCommGroup G₁] [AddCommGroup G₂] [DecidableEq G₂]
    (C : Curve G₁ G₂) {db : Db} {rcert : RCert} {rs : RoundStates}
    (h : loadState db rcert = .ok rs) :
    ThresholdConsistent C rs ↔ rs.validatorSet.isVAddrValidator db.ownState.vAddr ∨
        rs.validatorSet.validators.length % 3 = 0 := by
  have hloaded := loadState_ok h
  have hthreshold := hloaded.threshold
  have hval : rs.isCurrentValidator = rs.validatorSet.isVAddrValidator db.ownState.vAddr := by
    rw [RoundStates.isCurrentValidator, hloaded.ownState]
  rw [hval] at hthreshold
  constructor
  · intro hc
    by_cases hv : rs.validatorSet.isVAddrValidator db.ownState.vAddr
    · exact .inl hv
    · rw [if_neg hv, hc.eq] at hthreshold
      exact .inr ((calcThreshold_succ_iff _).mp (by omega))
  · intro hcond
    have heq : rs.getCurrentThreshold = calcThreshold rs.validatorSet.validators.length + 1 := by
      rw [hthreshold]
      split
      next => rfl
      next hv => rw [(calcThreshold_succ_iff _).mpr (hcond.resolve_left hv)]
    have hleast := isLeast_calcThreshold rs.validatorSet.validators.length
    rw [← heq] at hleast
    refine ⟨heq, hleast, fun sigs => ?_, fun voters _ _ hq => hleast.2 hq⟩
    rw [aggregateMarshalledSignatures_belowThreshold, List.length_map, heq]
    omega

/-- The node of the first validator. -/
theorem thresholdConsistent_iff_genesis : ∃ rs, loadState (Four.genesis 1) (Four.rCert 1) = .ok rs ∧
      ThresholdConsistent (Curve.scalar fun _ => 0) rs := by
  have hval : (loadState (Four.genesis 1) (Four.rCert 1)).toOption.any (fun rs =>
      rs.validatorSet.isVAddrValidator (Four.genesis 1).ownState.vAddr) := by
    decide +kernel
  cases hrs : loadState (Four.genesis 1) (Four.rCert 1) with
  | error e =>
    rw [hrs] at hval
    cases hval
  | ok rs =>
    rw [hrs] at hval
    exact ⟨rs, rfl, (thresholdConsistent_iff _ hrs).mpr (.inl hval)⟩

/-- A node outside the four validators waits for all of them, where three are a quorum and are
aggregated. -/
theorem threshold_of_observer :
    (loadState (Four.genesis 9) (Four.rCert 1)).toOption.map (fun rs =>
        (rs.validatorSet.validators.length, rs.getCurrentThreshold)) = some (4, 4) ∧
      calcThreshold 4 + 1 = 3 := by
  decide +kernel

end Store

/-! ## The quorums that votes carry -/

namespace Handlers

end Handlers

end MadNet
