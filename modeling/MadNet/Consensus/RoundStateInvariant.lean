import MadNet.Consensus.RoundStateCases
import MadNet.Lib.Run

/-!
# The invariant of a round state

The votes a round state holds belong to its own height and round, it never holds a vote and its
nil counterpart, and its votes for a block are for one block.
-/

namespace MadNet.RoundState

open RoundState
open List (mem_append map_cons map_nil mem_singleton)

/-- The certificates of the stored votes that are tied to one round. -/
def roundCerts (b : RoundState) : List RCert := b.conflictingRCert.toList ++
  b.proposal.toList.map (·.rCert) ++ b.conflictingProposal.toList.map (·.rCert) ++
  b.preVote.toList.map (·.rCert) ++ b.conflictingPreVote.toList.map (·.rCert) ++
  b.preVoteNil.toList.map (·.rCert) ++
  b.preCommit.toList.map (·.rCert) ++ b.conflictingPreCommit.toList.map (·.rCert) ++
  b.preCommitNil.toList.map (·.rCert) ++ b.nextRound.toList.map (·.rCert)

/-- The certificates of the stored votes that are tied to a height only. -/
def heightCerts (b : RoundState) : List RCert :=
  b.nextHeight.toList.map (·.rCert) ++ b.conflictingNextHeight.toList.map (·.rCert)

structure Inv (b : RoundState) : Prop where
  roundCerts : ∀ r ∈ b.roundCerts, r.height = b.rCert.height ∧ r.round = b.rCert.round
  heightCerts : ∀ r ∈ b.heightCerts, r.height = b.rCert.height
  preVote : ¬(b.preVote.isSome ∧ b.preVoteNil.isSome)
  preCommit : ¬(b.preCommit.isSome ∧ b.preCommitNil.isSome)
  roundBClaims : ∀ x ∈ b.roundBClaims, ∀ y ∈ b.roundBClaims, x = y

/-! ## What the primitive updates do to the stored votes -/

section Updates

variable {b : RoundState} {v : Vote}

@[simp] theorem setVote_rCert : (b.setVote v).rCert = b.rCert := by cases v <;> rfl

@[simp] theorem resetNHForDBR_rCert : (b.resetNHForDBR v).rCert = b.rCert := by
  unfold resetNHForDBR; split <;> rfl

@[simp] theorem setTypeConflict_rCert {internal} :
    (b.setTypeConflict v internal).rCert = b.rCert := by
  cases v <;> cases internal <;> rfl

@[simp] theorem setReset_rCert {any : RoundObj} : (b.setReset any).rCert = any.toRCert := by
  cases any <;> simp [setReset, setType, RoundObj.toRCert]

/-- `resetNHForDBR` only ever drops `NextHeight` votes. -/
theorem resetNHForDBR_eq (b : RoundState) (v : Vote) :
    ∃ nh cnh, b.resetNHForDBR v = { b with nextHeight := nh, conflictingNextHeight := cnh } ∧
      (∀ w ∈ nh, w ∈ b.nextHeight) ∧ (∀ w ∈ cnh, w ∈ b.conflictingNextHeight) := by
  unfold resetNHForDBR
  split
  · exact ⟨_, _, rfl, by simp +contextual, by simp +contextual⟩
  · exact ⟨_, _, rfl, fun _ h => h, fun _ h => h⟩

theorem Inv.resetNHForDBR (H : b.Inv) : (b.resetNHForDBR v).Inv := by
  obtain ⟨nh, cnh, heq, hnh, hcnh⟩ := resetNHForDBR_eq b v
  rw [heq]
  refine ⟨H.roundCerts, fun r hr => H.heightCerts r ?_, H.preVote, H.preCommit, H.roundBClaims⟩
  simp only [RoundState.heightCerts, mem_append, List.mem_map, Option.mem_toList] at hr ⊢
  rcases hr with ⟨w, hw, rfl⟩ | ⟨w, hw, rfl⟩
  · exact .inl ⟨w, hnh w hw, rfl⟩
  · exact .inr ⟨w, hcnh w hw, rfl⟩

variable {r : RCert}

theorem mem_roundCerts_setTypeConflict (h : r ∈ (b.setTypeConflict v true).roundCerts) :
    r ∈ b.roundCerts ∨ r = v.rCert ∧ ∀ w, v ≠ .nextHeight w := by
  cases v <;>
    simp only [setTypeConflict, roundCerts, Vote.rCert, if_true,
      mem_append, Option.toList_some, map_cons, map_nil, mem_singleton] at h ⊢ <;>
    grind

theorem mem_heightCerts_setTypeConflict
    (h : r ∈ (b.setTypeConflict v true).heightCerts) : r ∈ b.heightCerts ∨ r = v.rCert := by
  cases v <;>
    simp only [setTypeConflict, heightCerts, Vote.rCert, if_true,
      mem_append, Option.toList_some, map_cons, map_nil, mem_singleton] at h ⊢ <;>
    grind

theorem Current.height (h : b.Current v) : b.rCert.height = v.rCert.height := by
  cases v <;> simp only [Current] at h <;> grind [Vote.rCert]

theorem Current.round (h : b.Current v) (hv : ∀ w, v ≠ .nextHeight w) :
    b.rCert.round = v.rCert.round := by
  cases v <;> simp only [Current] at h <;> grind

theorem Inv.setTypeConflict (H : b.Inv) (hcur : b.Current v) : (b.setTypeConflict v true).Inv := by
  refine ⟨fun r hr => ?_, fun r hr => ?_, ?_, ?_, ?_⟩
  · rw [setTypeConflict_rCert]
    rcases mem_roundCerts_setTypeConflict hr with hr | ⟨rfl, hv⟩
    · exact H.roundCerts r hr
    · exact ⟨hcur.height.symm, (hcur.round hv).symm⟩
  · rw [setTypeConflict_rCert]
    rcases mem_heightCerts_setTypeConflict hr with hr | rfl
    · exact H.heightCerts r hr
    · exact hcur.height.symm
  · cases v <;> exact H.preVote
  · cases v <;> exact H.preCommit
  · cases v <;> exact H.roundBClaims

theorem mem_roundCerts_setVote (h : r ∈ (b.setVote v).roundCerts) :
    r ∈ b.roundCerts ∨ r = v.rCert ∧ ∀ w, v ≠ .nextHeight w := by
  cases v <;>
    simp only [setVote, roundCerts, Vote.rCert, mem_append,
      Option.toList_some, map_cons, map_nil, mem_singleton] at h ⊢ <;>
    grind

theorem mem_heightCerts_setVote (h : r ∈ (b.setVote v).heightCerts) : r ∈ b.heightCerts ∨
    r = v.rCert := by
  cases v <;>
    simp only [setVote, heightCerts, Vote.rCert, mem_append,
      Option.toList_some, map_cons, map_nil, mem_singleton] at h ⊢ <;>
    grind

theorem mem_roundBClaims_setVote {x : BClaims} (h : x ∈ (b.setVote v).roundBClaims) :
    x ∈ b.roundBClaims ∨ x ∈ v.bClaims? := by
  cases v <;>
    simp only [setVote, roundBClaims, Vote.bClaims?, mem_append,
      Option.toList_some, map_cons, map_nil, mem_singleton, Option.mem_def] at h ⊢ <;>
    grind

theorem Inv.setVote {c : Crypto} (H : b.Inv) (hcur : b.Current v) (hadm : b.admits v)
    (hagr : b.agreesWithStored c v) : (b.setVote v).Inv := by
  obtain ⟨-, hblock, -⟩ := agreesWithStored_iff.mp hagr
  refine ⟨fun r hr => ?_, fun r hr => ?_, ?_, ?_, fun x hx y hy => ?_⟩
  · rw [setVote_rCert]
    rcases mem_roundCerts_setVote hr with hr | ⟨rfl, hv⟩
    · exact H.roundCerts r hr
    · exact ⟨hcur.height.symm, (hcur.round hv).symm⟩
  · rw [setVote_rCert]
    rcases mem_heightCerts_setVote hr with hr | rfl
    · exact H.heightCerts r hr
    · exact hcur.height.symm
  · have h := H.preVote
    cases v <;> simp_all [admits, setVote]
  · have h := H.preCommit
    cases v <;> simp_all [admits, setVote]
  · rcases mem_roundBClaims_setVote hx with hx | hx <;>
      rcases mem_roundBClaims_setVote hy with hy | hy
    · exact H.roundBClaims x hx y hy
    · exact ((hblock y hy).1 x hx).symm
    · exact (hblock x hx).1 y hy
    · exact Option.mem_unique hx hy

/-- A round state without votes of the round. -/
def emptied (b : RoundState) (rCert : RCert)
    (nextHeight conflictingNextHeight : Option NextHeight) :
    RoundState :=
  { vAddr := b.vAddr, groupKey := b.groupKey, groupShare := b.groupShare, groupIdx := b.groupIdx,
    rCert, nextHeight, conflictingNextHeight }

/-- `setReset` empties the state before it stores the object; it keeps the `NextHeight` votes within
a height unless the object leads to the dead block round. -/
theorem setReset_eq (b : RoundState) (any : RoundObj) :
    ∃ nh cnh, b.setReset any = (b.emptied any.toRCert nh cnh).setType any ∧
      (nh = none ∧ cnh = none ∧
          (b.rCert.height < any.toRCert.height ∨ any.toRCert.round = nextHeightResetRound any) ∨
        nh = b.nextHeight ∧ cnh = b.conflictingNextHeight ∧
          ¬b.rCert.height < any.toRCert.height ∧ any.toRCert.round ≠ nextHeightResetRound any) := by
  by_cases h : b.rCert.height < any.toRCert.height ∨ any.toRCert.round = nextHeightResetRound any
  · refine ⟨none, none, ?_, .inl ⟨rfl, rfl, h⟩⟩
    have : (any.toRCert.round == nextHeightResetRound any ||
        relateH b.rCert any.toRCert == .lt) = true := by simpa [or_comm] using h
    simp only [setReset, this, if_true]
    rfl
  · refine ⟨_, _, ?_, .inr ⟨rfl, rfl, not_or.mp h⟩⟩
    have : (any.toRCert.round == nextHeightResetRound any ||
        relateH b.rCert any.toRCert == .lt) = false := by simpa [and_comm] using h
    simp only [setReset, this]
    rfl

/-- `setReset` leaves no vote of an earlier round, and a `NextHeight` only at an unchanged
height. -/
theorem Inv.setReset (H : b.Inv) {any : RoundObj} (hle : b.rCert.height ≤ any.toRCert.height) :
    (b.setReset any).Inv := by
  obtain ⟨nh, cnh, heq, hnh⟩ := setReset_eq b any
  have hheight : ∀ r ∈ (b.emptied any.toRCert nh cnh).heightCerts,
    r.height = any.toRCert.height := by
    rcases hnh with ⟨rfl, rfl, -⟩ | ⟨rfl, rfl, hlt, -⟩
    · simp [RoundState.heightCerts, emptied]
    · intro r hr
      rw [H.heightCerts r hr]
      exact UInt32.le_antisymm hle (UInt32.not_lt.mp hlt)
  rw [heq]
  cases any with
  | rCert rc =>
    refine ⟨?_, hheight, ?_, ?_, ?_⟩ <;>
      simp [setType, emptied, RoundState.roundCerts, RoundState.roundBClaims]
  | vote v =>
    refine ⟨fun r hr => ?_, fun r hr => ?_, ?_, ?_, fun x hx y hy => ?_⟩
    · rcases mem_roundCerts_setVote hr with hr | ⟨rfl, -⟩
      · simp [emptied, RoundState.roundCerts] at hr
      · simp [setType, emptied, RoundObj.toRCert]
    · rcases mem_heightCerts_setVote hr with hr | rfl
      · simpa [setType, emptied] using hheight r hr
      · simp [setType, emptied, RoundObj.toRCert]
    · cases v <;> simp [setType, RoundState.setVote, emptied]
    · cases v <;> simp [setType, RoundState.setVote, emptied]
    · rcases mem_roundBClaims_setVote hx with hx | hx
      · simp [emptied, RoundState.roundBClaims] at hx
      rcases mem_roundBClaims_setVote hy with hy | hy
      · simp [emptied, RoundState.roundBClaims] at hy
      exact Option.mem_unique hx hy

end Updates

/-! ## Runs of setter calls -/

variable {b : RoundState}

theorem Ahead.hr_lt {v : Vote} (h : b.Ahead v) : b.rCert.hr < v.rCert.hr := by
  cases v with
  | nextHeight v => exact RCert.hr_lt_iff.mpr (.inl h)
  | _ => exact h

theorem Behind.hr_lt {v : Vote} (h : b.Behind v) : v.rCert.hr < b.rCert.hr := by
  cases v with
  | nextHeight v => exact RCert.hr_lt_iff.mpr (.inl h)
  | _ => exact h

theorem Ahead.height_le {v : Vote} (h : b.Ahead v) : b.rCert.height ≤ v.rCert.height := by
  rcases RCert.hr_lt_iff.mp h.hr_lt with h | ⟨h, -⟩
  · exact UInt32.le_of_lt h
  · exact UInt32.le_of_eq h

/-- The calls that change a round state. -/
inductive Op where
  | set (v : Vote)
  | trackExternalConflicts (v : Proposal)
  | setRCert (rc : RCert)

namespace Op

/-- The round state after a call, whatever it returned. -/
def apply (c : Crypto) (b : RoundState) : Op → RoundState
  | set v => Prog.after (RoundState.set c v) b
  | trackExternalConflicts v => Prog.after (RoundState.trackExternalConflicts c v) b
  | setRCert rc => Prog.after (RoundState.setRCert rc) b

/-- `SetRCert` is not called with a certificate of a lower height. -/
def Allowed (b : RoundState) : Op → Prop
  | setRCert rc => b.rCert.height ≤ rc.height
  | _ => True

instance Allowed.decidable (b : RoundState) : ∀ op, Decidable (Allowed b op)
  | setRCert rc => inferInstanceAs (Decidable (b.rCert.height ≤ rc.height))
  | set _ => inferInstanceAs (Decidable True)
  | trackExternalConflicts _ => inferInstanceAs (Decidable True)

/-- The call does not take the round certificate back, unless it is `SetRCert`. -/
def Forward (c : Crypto) (b : RoundState) (op : Op) : Prop :=
  (∃ rc, op = setRCert rc) ∨ b.rCert.hr ≤ (op.apply c b).rCert.hr

end Op

/-- What a setter of a vote leaves behind. -/
theorem after_set_cases (c : Crypto) (b : RoundState) (v : Vote) {P : RoundState → Prop}
    (same : P b) (moved : b.Ahead v → P (b.setReset (.vote v)))
    (dropped : b.Current v → P (b.resetNHForDBR v))
    (conflict : b.Current v → P ((b.resetNHForDBR v).setTypeConflict v true))
    (stored : b.Current v → (b.resetNHForDBR v).admits v →
      (b.resetNHForDBR v).agreesWithStored c v → ¬(b.resetNHForDBR v).holds v →
      P ((b.resetNHForDBR v).setVote v)) :
    P (Prog.after (set c v) b) := by
  have hset := set_result (c := c) b v
  unfold Prog.after
  cases hr : set c v b with
  | ok ok b' =>
    cases hr ▸ hset with
    | moved _ h => exact moved h
    | conflict h => exact conflict h
    | stored _ h1 h2 h3 h4 => exact stored h1 h2 h3 h4
  | error e b' =>
    cases hr ▸ hset with
    | forbidden | behind => exact same
    | refused h | duplicate h => exact dropped h
    | conflictDBR h => exact conflict h

theorem after_set_vAddr (c : Crypto) (v : Vote) (b : RoundState) :
    (Prog.after (set c v) b).vAddr = b.vAddr := by
  have hreset : (b.resetNHForDBR v).vAddr = b.vAddr := by
    unfold resetNHForDBR
    split <;> rfl
  have hset (b : RoundState) : (b.setVote v).vAddr = b.vAddr := by cases v <;> rfl
  have hconflict (b : RoundState) : (b.setTypeConflict v true).vAddr = b.vAddr := by cases v <;> rfl
  refine after_set_cases (P := fun b' => b'.vAddr = b.vAddr) c b v rfl (fun _ => ?_)
    (fun _ => hreset)
    (fun _ => ?_) fun _ _ _ _ => ?_
  · obtain ⟨_, _, heq, -⟩ := setReset_eq b (.vote v)
    rw [heq]
    exact hset _
  · rw [hconflict, hreset]
  · rw [hset, hreset]

theorem current_resetNHForDBR {v w : Vote} : (b.resetNHForDBR w).Current v ↔ b.Current v := by
  cases v <;> simp [Current]

theorem Inv.apply {c : Crypto} (H : b.Inv) {op : Op} (h : op.Allowed b) : (op.apply c b).Inv := by
  cases op with
  | set v =>
    exact after_set_cases c b v H (fun h => H.setReset h.height_le) (fun _ => H.resetNHForDBR)
      (fun h => H.resetNHForDBR.setTypeConflict (current_resetNHForDBR.mpr h))
      (fun h h1 h2 _ => H.resetNHForDBR.setVote (current_resetNHForDBR.mpr h) h1 h2)
  | trackExternalConflicts v =>
    simp only [Op.apply, Prog.after, trackExternalConflicts_apply]
    split
    · exact ⟨H.roundCerts, H.heightCerts, H.preVote, H.preCommit, H.roundBClaims⟩
    · exact H
  | setRCert rc =>
    exact H.setReset (show b.rCert.height ≤ (RoundObj.rCert rc).toRCert.height from h)

theorem forward_apply (c : Crypto) (b : RoundState) (op : Op) : op.Forward c b := by
  cases op with
  | set v =>
    refine .inr (after_set_cases (P := fun b' => b.rCert.hr ≤ b'.rCert.hr) c b v ?_ ?_ ?_ ?_ ?_)
    · exact Nat.le_refl _
    · intro h
      simpa [RoundObj.toRCert] using Nat.le_of_lt h.hr_lt
    · simp
    · simp
    · simp
  | trackExternalConflicts v =>
    refine .inr ?_
    simp only [Op.apply, Prog.after, trackExternalConflicts_apply]
    split <;> exact Nat.le_refl _
  | setRCert rc => exact .inl ⟨rc, rfl⟩

/-- Starting from a round state with nothing but a certificate, every sequence of calls keeps the
invariant, and none but `SetRCert` takes the certificate back. -/
theorem inv_of_calls (c : Crypto) (vAddr groupKey groupShare : Bytes) (groupIdx : UInt8)
    (rCert : RCert) (ops : List Op)
    (h : Run.Along (fun b op => op.Allowed b) (Op.apply c)
      { vAddr, groupKey, groupShare, groupIdx, rCert } ops) :
    (Run.exec (Op.apply c) { vAddr, groupKey, groupShare, groupIdx, rCert } ops).Inv ∧
    Run.Along (fun b op => op.Forward c b) (Op.apply c)
      { vAddr, groupKey, groupShare, groupIdx, rCert } ops := by
  have h0 : ({ vAddr, groupKey, groupShare, groupIdx, rCert } : RoundState).Inv := by
    refine ⟨?_, ?_, ?_, ?_, ?_⟩ <;>
      simp [roundCerts, heightCerts, roundBClaims]
  exact ⟨Run.invariant Inv (fun b op hb => hb.apply) h0 h,
    Run.along_of_invariant Inv (fun b op hb => hb.apply) (fun b op _ _ => forward_apply c b op) h0
    h⟩

/-- A run with a vote, a conflicting vote, an external conflict and a new certificate. -/
theorem inv_of_calls_sample :
    let rc (round : UInt32) : RCert := ⟨⟨1, 2, round, []⟩, []⟩
    let p (round : UInt32) (txRoot : Bytes) : Proposal :=
      ⟨⟨⟨1, 2, 0, [], txRoot, [], []⟩, rc round⟩, [], []⟩
    let ops : List Op := [.set (.preVote ⟨p 1 [7], []⟩), .set (.preCommit ⟨p 1 [8], [], []⟩),
      .trackExternalConflicts (p 1 [8]), .setRCert (rc 2),
      .set (.nextHeight ⟨⟨p 1 [7], []⟩, [], []⟩)]
    let b₀ : RoundState :=
      { vAddr := [], groupKey := [], groupShare := [], groupIdx := 0, rCert := rc 1 }
    (Run.exec (Op.apply Crypto.ideal) b₀ ops).Inv ∧
    Run.Along (fun b op => op.Forward Crypto.ideal b) (Op.apply Crypto.ideal) b₀ ops :=
  inv_of_calls Crypto.ideal [] [] [] 0 _ _
    (by decide +kernel)

end MadNet.RoundState
