import MadNet.Consensus.RoundState

/-!
# What a setter of a round state can do

`SetResult` lists every outcome of storing a vote with the condition under which it happens.
Later proofs about the setters go through `set_result` and do not unfold them.
-/

namespace MadNet.RoundState

open Prog

/-- The validator has been found to conflict in its current round, so no vote of it is taken. -/
def marked (b : RoundState) : Bool := b.implicitPVN || b.implicitPCN || b.conflictingRCert.isSome

/-- `checkSameTypeConflict` lets a vote of this type through. -/
def admits (b : RoundState) (v : Vote) : Bool :=
  !b.marked &&
    match v with
    | .proposal _ => b.conflictingProposal.isNone
    | .preVote _ => b.preVoteNil.isNone && b.conflictingPreVote.isNone
    | .preVoteNil _ => b.preVote.isNone
    | .preCommit _ => b.preVoteNil.isNone && b.preCommitNil.isNone && b.conflictingPreCommit.isNone
    | .preCommitNil _ => b.preCommit.isNone
    | .nextRound _ => true
    | .nextHeight _ => b.conflictingNextHeight.isNone

/-- A vote of this type is stored already. -/
def holds (b : RoundState) : Vote → Bool
  | .proposal _ => b.proposal.isSome
  | .preVote _ => b.preVote.isSome
  | .preVoteNil _ => b.preVoteNil.isSome
  | .preCommit _ => b.preCommit.isSome
  | .preCommitNil _ => b.preCommitNil.isSome
  | .nextRound _ => b.nextRound.isSome
  | .nextHeight _ => b.nextHeight.isSome

variable {b : RoundState} {v : Vote}

theorem checkSameTypeConflict_of_admits (h : b.admits v) : b.checkSameTypeConflict v = .ok () := by
  cases v <;> simp_all [admits, marked, checkSameTypeConflict]

theorem checkSameTypeConflict_of_not_admits (h : ¬b.admits v) :
    ∃ msg, b.checkSameTypeConflict v = .error (.invalid msg) := by
  cases v <;> simp only [admits, marked, checkSameTypeConflict] at h ⊢ <;> split_ifs <;> simp_all

theorem checkTypeStale_of_not_holds (h : ¬b.holds v)
    (internal : Bool) : b.checkTypeStale v internal = .ok () := by
  cases v <;> simp_all [holds, checkTypeStale]

theorem checkTypeStale_of_holds (h : b.holds v) :
    ∃ msg, b.checkTypeStale v true = .error (.stale msg) := by
  cases v <;> simp_all [holds, checkTypeStale]

section

variable {c : Crypto}

/-- The block claims of the stored votes of the round. -/
def roundBClaims (b : RoundState) : List BClaims :=
  b.proposal.toList.map (·.bClaims) ++ b.preVote.toList.map (·.bClaims) ++
  b.preCommit.toList.map (·.bClaims)

/-- The certificates of the stored votes that carry no block. -/
def nilCerts (b : RoundState) : List RCert :=
  b.preVoteNil.toList.map (·.rCert) ++ b.preCommitNil.toList.map (·.rCert) ++
  b.nextRound.toList.map (·.rCert)

theorem agreesWithStored_iff {b : RoundState} {v : Vote} :
    b.agreesWithStored c v ↔ b.rCert.prevBlock = v.rCert.prevBlock ∧
      (∀ x ∈ v.bClaims?, (∀ y ∈ b.roundBClaims, x = y) ∧ ∀ nh ∈ b.nextHeight, x = nh.bClaims) ∧
      ∀ r ∈ b.nilCerts, v.rCert.prevBlock = r.prevBlock := by
  have hb (o : Option BClaims) : bClaimsAgree c v o ↔ ∀ x ∈ v.bClaims?, ∀ y ∈ o, x = y := by
    unfold bClaimsAgree
    cases v.bClaims? <;> cases o <;> simp [bClaimsEqual_iff]
  have hp (o : Option RCert) : prevBlockAgree v o ↔ ∀ r ∈ o, v.rCert.prevBlock = r.prevBlock := by
    cases o <;> simp [prevBlockAgree]
  simp only [agreesWithStored, Bool.and_eq_true, hb, hp, prevBlockEqual_iff, roundBClaims, nilCerts,
    List.mem_append, List.mem_map, Option.mem_toList, Option.mem_def, Option.map_eq_some_iff,
    or_imp, forall_and, forall_exists_index, and_imp, forall_apply_eq_imp_iff₂, and_assoc]
  tauto

/-- The outcomes of `checkStaleAndConflict` on a vote that is to be stored. -/
inductive CheckResult (c : Crypto) (b : RoundState) (v : Vote) :
    EStateM.Result Err RoundState Bool → Prop where
  | refused {msg} : ¬(b.resetNHForDBR v).admits v →
      CheckResult c b v (.error (.invalid msg) (b.resetNHForDBR v))
  | conflict : (b.resetNHForDBR v).admits v → ¬(b.resetNHForDBR v).agreesWithStored c v →
      CheckResult c b v (.ok false ((b.resetNHForDBR v).setTypeConflict v true))
  | duplicate {msg} : (b.resetNHForDBR v).admits v → (b.resetNHForDBR v).agreesWithStored c v →
      (b.resetNHForDBR v).holds v →
      CheckResult c b v (.error (.stale msg) (b.resetNHForDBR v))
  | fresh : (b.resetNHForDBR v).admits v → (b.resetNHForDBR v).agreesWithStored c v →
      ¬(b.resetNHForDBR v).holds v → CheckResult c b v (.ok true (b.resetNHForDBR v))

theorem checkStaleAndConflict_result (b : RoundState) (v : Vote) :
    CheckResult c b v (checkStaleAndConflict c v true b) := by
  by_cases hadm : (b.resetNHForDBR v).admits v
  · have hsame := checkSameTypeConflict_of_admits hadm
    by_cases hagr : (b.resetNHForDBR v).agreesWithStored c v
    · by_cases hhold : (b.resetNHForDBR v).holds v
      · obtain ⟨msg, hstale⟩ := checkTypeStale_of_holds hhold
        have : checkStaleAndConflict c v true b = .error (.stale msg) (b.resetNHForDBR v) := by
          simp [checkStaleAndConflict, checkConflict, bind_apply, map_apply, attempt_apply, hsame,
            hagr, hstale]
        exact this ▸ .duplicate hadm hagr hhold
      · have hstale := checkTypeStale_of_not_holds hhold true
        have : checkStaleAndConflict c v true b = .ok true (b.resetNHForDBR v) := by
          simp [checkStaleAndConflict, checkConflict, bind_apply, map_apply, attempt_apply, hsame,
            hagr, hstale]
        exact this ▸ .fresh hadm hagr hhold
    · have : checkStaleAndConflict c v true b =
        .ok false ((b.resetNHForDBR v).setTypeConflict v true) := by
        simp [checkStaleAndConflict, checkConflict, bind_apply, map_apply,
          attempt_apply, hsame, hagr]
      exact this ▸ .conflict hadm hagr
  · obtain ⟨msg, hsame⟩ := checkSameTypeConflict_of_not_admits hadm
    have : checkStaleAndConflict c v true b = .error (.invalid msg) (b.resetNHForDBR v) := by
      simp [checkStaleAndConflict, checkConflict, bind_apply, attempt_apply, hsame]
    exact this ▸ .refused hadm

/-- The vote belongs to the height and round of the round state; a `NextHeight` counts for its
height. -/
def Current (b : RoundState) : Vote → Prop
  | .nextHeight v => b.rCert.height = v.rCert.height
  | v => b.rCert.height = v.rCert.height ∧ b.rCert.round = v.rCert.round

/-- The vote belongs to a later round, or a `NextHeight` to a later height. -/
def Ahead (b : RoundState) : Vote → Prop
  | .nextHeight v => b.rCert.height < v.rCert.height
  | v => b.rCert.hr < v.rCert.hr

/-- The vote belongs to an earlier round, or a `NextHeight` to an earlier height. -/
def Behind (b : RoundState) : Vote → Prop
  | .nextHeight v => v.rCert.height < b.rCert.height
  | v => v.rCert.hr < b.rCert.hr

/-- The dead block round has no nil votes and no `NextRound`, and no transactions. -/
def dbrForbidden (v : Vote) : Bool :=
  isDeadBlockRound v.rCert &&
    match v with
    | .proposal v => !v.txHshLst.isEmpty
    | .preVote v => !v.proposal.txHshLst.isEmpty
    | .preCommit v => !v.proposal.txHshLst.isEmpty
    | .nextHeight v => !v.proposal.txHshLst.isEmpty
    | .preVoteNil _ => true
    | .preCommitNil _ => true
    | .nextRound _ => true

/-- A conflict turns into `ErrInvalid`: so it is for a proposal, prevote or precommit of the dead
block round. -/
def conflictFails (v : Vote) : Bool :=
  isDeadBlockRound v.rCert &&
    match v with
    | .nextHeight _ => false
    | _ => true

/-- Every outcome of the setter of `v`, with its condition. -/
inductive SetResult (c : Crypto) (b : RoundState) (v : Vote) :
    EStateM.Result Err RoundState Bool → Prop where
  | forbidden {msg} : dbrForbidden v → SetResult c b v (.error (.invalid msg) b)
  | behind {msg} : b.Behind v → SetResult c b v (.error (.stale msg) b)
  | moved : ¬dbrForbidden v → b.Ahead v → SetResult c b v (.ok true (b.setReset (.vote v)))
  | refused {msg} : b.Current v → ¬(b.resetNHForDBR v).admits v →
      SetResult c b v (.error (.invalid msg) (b.resetNHForDBR v))
  | conflict : b.Current v → ¬conflictFails v → (b.resetNHForDBR v).admits v →
      ¬(b.resetNHForDBR v).agreesWithStored c v →
      SetResult c b v (.ok false ((b.resetNHForDBR v).setTypeConflict v true))
  | conflictDBR {msg} : b.Current v → conflictFails v → (b.resetNHForDBR v).admits v →
      ¬(b.resetNHForDBR v).agreesWithStored c v →
      SetResult c b v (.error (.invalid msg) ((b.resetNHForDBR v).setTypeConflict v true))
  | duplicate {msg} : b.Current v → (b.resetNHForDBR v).admits v →
      (b.resetNHForDBR v).agreesWithStored c v → (b.resetNHForDBR v).holds v →
      SetResult c b v (.error (.stale msg) (b.resetNHForDBR v))
  | stored : ¬dbrForbidden v → b.Current v → (b.resetNHForDBR v).admits v →
      (b.resetNHForDBR v).agreesWithStored c v → ¬(b.resetNHForDBR v).holds v →
      SetResult c b v (.ok true ((b.resetNHForDBR v).setVote v))

/-- The outcomes of `genericSet` on a vote other than `NextHeight`. -/
inductive GenericResult (c : Crypto) (b : RoundState) (v : Vote) :
    EStateM.Result Err RoundState Bool → Prop where
  | behind {msg} : v.rCert.hr < b.rCert.hr → GenericResult c b v (.error (.stale msg) b)
  | moved : b.rCert.hr < v.rCert.hr → GenericResult c b v (.ok true (b.setReset (.vote v)))
  | checked_error {e b'} : b.rCert.height = v.rCert.height ∧ b.rCert.round = v.rCert.round →
      CheckResult c b v (.error e b') → GenericResult c b v (.error e b')
  | checked_false {b'} : b.rCert.height = v.rCert.height ∧ b.rCert.round = v.rCert.round →
      CheckResult c b v (.ok false b') → GenericResult c b v (.ok false b')
  | checked_true {b'} : b.rCert.height = v.rCert.height ∧ b.rCert.round = v.rCert.round →
      CheckResult c b v (.ok true b') → GenericResult c b v (.ok true (b'.setVote v))

theorem genericSet_result (b : RoundState) (v : Vote) : GenericResult c b v (genericSet c v b) := by
  unfold genericSet
  simp only [bind_apply, get_apply]
  cases hH : relateH b.rCert v.rCert with
  | gt =>
    rw [relateH_eq_gt] at hH
    exact .behind (RCert.hr_lt_iff.mpr (.inl hH))
  | lt =>
    rw [relateH_eq_lt] at hH
    exact .moved (RCert.hr_lt_iff.mpr (.inl hH))
  | eq =>
    cases hHR : relateHR b.rCert v.rCert with
    | gt => exact .behind (relateHR_eq_gt.mp hHR)
    | lt => exact .moved (relateHR_eq_lt.mp hHR)
    | eq =>
      have hcheck := checkStaleAndConflict_result (c := c) b v
      simp only [bind_apply]
      cases hr : checkStaleAndConflict c v true b with
      | error e b' => exact .checked_error (relateHR_eq_eq.mp hHR) (hr ▸ hcheck)
      | ok ok b' =>
        cases ok with
        | false => exact .checked_false (relateHR_eq_eq.mp hHR) (hr ▸ hcheck)
        | true => exact .checked_true (relateHR_eq_eq.mp hHR) (hr ▸ hcheck)

section

variable {b : RoundState} {v : Vote}
  (hcur : b.Current v ↔ b.rCert.height = v.rCert.height ∧ b.rCert.round = v.rCert.round)
  (hahead : b.Ahead v ↔ b.rCert.hr < v.rCert.hr) (hbehind : b.Behind v ↔ v.rCert.hr < b.rCert.hr)
include hcur hahead hbehind

/-- What a setter makes of the outcomes of `genericSet`: only for a conflict there is more to do. -/
theorem genericSet_bind {k : Bool → EStateM Err RoundState Bool} (hf : ¬dbrForbidden v)
    (htrue : ∀ b', k true b' = .ok true b')
    (hfalse : b.Current v → (b.resetNHForDBR v).admits v →
      ¬(b.resetNHForDBR v).agreesWithStored c v →
      SetResult c b v (k false ((b.resetNHForDBR v).setTypeConflict v true))) :
    SetResult c b v ((genericSet c v >>= k) b) := by
  rw [bind_apply]
  cases hr : genericSet c v b with
  | error e b' =>
    cases hr ▸ genericSet_result (c := c) b v with
    | behind h => exact .behind (hbehind.mpr h)
    | checked_error hc h =>
      cases h with
      | refused h1 => exact .refused (hcur.mpr hc) h1
      | duplicate h1 h2 h3 => exact .duplicate (hcur.mpr hc) h1 h2 h3
  | ok ok b' =>
    cases hr ▸ genericSet_result (c := c) b v with
    | moved h => simpa only [htrue] using .moved hf (hahead.mpr h)
    | checked_true hc h =>
      cases h with
      | fresh h1 h2 h3 => simpa only [htrue] using .stored hf (hcur.mpr hc) h1 h2 h3
    | checked_false hc h =>
      cases h with
      | conflict h1 h2 => exact hfalse (hcur.mpr hc) h1 h2

theorem setWithProposal_result {p : Proposal} {txs corrupt : String}
    (hforb : dbrForbidden v = (isDeadBlockRound v.rCert && !p.txHshLst.isEmpty))
    (hfails : conflictFails v = isDeadBlockRound v.rCert) :
    SetResult c b v (setWithProposal c v p txs corrupt b) := by
  unfold setWithProposal
  rw [← hforb, ← hfails]
  by_cases hf : dbrForbidden v
  · rw [if_pos hf]
    exact .forbidden hf
  rw [if_neg hf]
  refine genericSet_bind hcur hahead hbehind hf (fun _ => rfl) fun hc h1 h2 => ?_
  by_cases hk : conflictFails v
  · simpa [hk] using .conflictDBR hc hk h1 h2
  · simpa [hk] using .conflict hc hk h1 h2

theorem setBelowDBR_result {dbr : String} (hforb : dbrForbidden v = isDeadBlockRound v.rCert)
    (hfails : conflictFails v = isDeadBlockRound v.rCert) :
    SetResult c b v (setBelowDBR c v dbr b) := by
  unfold setBelowDBR
  rw [← hforb]
  by_cases hf : dbrForbidden v
  · rw [if_pos hf]
    exact .forbidden hf
  have hk : ¬conflictFails v := by rwa [hfails, ← hforb]
  rw [if_neg hf, ← bind_pure (genericSet c v)]
  exact genericSet_bind hcur hahead hbehind hf (fun _ => rfl) fun hc h1 h2 => .conflict hc hk h1 h2

end

theorem setNextHeight_result (b : RoundState) (v : NextHeight) :
    SetResult c b (.nextHeight v) (setNextHeight c v b) := by
  have hforb : dbrForbidden (.nextHeight v) =
      (isDeadBlockRound v.rCert && !v.proposal.txHshLst.isEmpty) := rfl
  unfold setNextHeight
  rw [← hforb]
  by_cases hf : dbrForbidden (.nextHeight v)
  · rw [if_pos hf]
    exact .forbidden hf
  have hk : ¬conflictFails (.nextHeight v) := by simp [conflictFails]
  rw [if_neg hf]
  simp only [bind_apply, get_apply]
  cases hH : relateH b.rCert v.rCert with
  | gt => exact .behind (relateH_eq_gt.mp hH)
  | lt => exact .moved hf (relateH_eq_lt.mp hH)
  | eq =>
    have hcur : b.Current (.nextHeight v) := relateH_eq_eq.mp hH
    simp only [bind_apply]
    have hcheck := checkStaleAndConflict_result (c := c) b (.nextHeight v)
    cases hr : checkStaleAndConflict c (.nextHeight v) true b with
    | error e b' =>
      cases hr ▸ hcheck with
      | refused h1 => exact .refused hcur h1
      | duplicate h1 h2 h3 => exact .duplicate hcur h1 h2 h3
    | ok ok b' =>
      cases hr ▸ hcheck with
      | conflict h1 h2 => exact .conflict hcur hk h1 h2
      | fresh h1 h2 h3 => exact .stored hf hcur h1 h2 h3

/-- What the setter of a vote can do. -/
theorem set_result (b : RoundState) (v : Vote) : SetResult c b v (set c v b) := by
  cases v with
  | proposal v | preVote v | preCommit v =>
    exact setWithProposal_result .rfl .rfl .rfl rfl (by simp [conflictFails])
  | preVoteNil v | preCommitNil v | nextRound v =>
    exact setBelowDBR_result .rfl .rfl .rfl (by simp [dbrForbidden]) (by simp [conflictFails])
  | nextHeight v => exact setNextHeight_result b v

/-- `TrackExternalConflicts` does nothing but mark a validator whose current round holds a vote
that conflicts with the proposal. -/
theorem trackExternalConflicts_apply (b : RoundState) (v : Proposal) :
    trackExternalConflicts c v b =
      .ok () (if relateHR b.rCert v.rCert = .eq ∧ ¬b.agreesWithStored c (.proposal v) then
        { b with implicitPVN := true, implicitPCN := true } else b) := by
  unfold trackExternalConflicts
  simp only [bind_apply, get_apply]
  cases relateHR b.rCert v.rCert with
  | lt | gt => simp
  | eq =>
    by_cases hagr : b.agreesWithStored c (.proposal v)
    · simp [checkStaleAndConflict, checkConflict, checkTypeStale, bind_apply, map_apply,
        attempt_apply, hagr]
    · simp [checkStaleAndConflict, checkConflict, setTypeConflict, bind_apply, map_apply,
        attempt_apply, hagr]

end

end MadNet.RoundState
