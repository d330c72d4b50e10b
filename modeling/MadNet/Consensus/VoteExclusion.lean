import MadNet.Consensus.RoundStateInvariant

/-!
# Precommits and nil prevotes of one round

A validator that precommits has prevoted for the block, so its precommit and its nil prevote exclude
each other. `checkSameTypeConflict` refuses the precommit after the nil prevote; for the nil prevote
it looks at the prevote only.
-/

namespace MadNet.RoundState

open Prog RoundState

/-- The state does not hold a precommit and a nil prevote of one height and round. -/
def PreCommitExcludesNil (b : RoundState) : Prop :=
  ∀ pc ∈ b.preCommit, ∀ pvn ∈ b.preVoteNil,
    ¬(pc.rCert.height = pvn.rCert.height ∧ pc.rCert.round = pvn.rCert.round)

/-- The call stores a nil prevote beside a precommit: the nil prevote is of the round of the state
and on its previous block, the prevote that the precommit implies was not delivered, and no conflict
of the validator is known. -/
def Op.NilAfterPreCommit (b : RoundState) : Op → Prop
  | .set (.preVoteNil v) =>
    b.rCert.height = v.rCert.height ∧ b.rCert.round = v.rCert.round ∧
      b.rCert.prevBlock = v.rCert.prevBlock ∧ ¬isDeadBlockRound v.rCert ∧
      b.preCommit.isSome ∧ b.preVote.isNone ∧ ¬b.marked
  | _ => False

/-- What the calls keep, whatever certificate `SetRCert` is given. -/
structure OfRound (b : RoundState) : Prop where
  preCommit : ∀ v ∈ b.preCommit, b.rCert.height = v.rCert.height ∧ b.rCert.round = v.rCert.round
  preVoteNil : ∀ v ∈ b.preVoteNil, b.rCert.height = v.rCert.height ∧ b.rCert.round = v.rCert.round
  prevBlock : ∀ r ∈ b.nilCerts, b.rCert.prevBlock = r.prevBlock
  preCommitNil : ¬(b.preCommit.isSome ∧ b.preCommitNil.isSome)

section Updates

variable {b : RoundState} {v : Vote}

theorem OfRound.congr {b' : RoundState} (H : b.OfRound) (hrc : b'.rCert = b.rCert)
    (hpc : b'.preCommit = b.preCommit) (hpvn : b'.preVoteNil = b.preVoteNil)
    (hpcn : b'.preCommitNil = b.preCommitNil) (hnr : b'.nextRound = b.nextRound) : b'.OfRound := by
  refine ⟨?_, ?_, ?_, ?_⟩
  · rw [hpc, hrc]
    exact H.preCommit
  · rw [hpvn, hrc]
    exact H.preVoteNil
  · rw [nilCerts, hpvn, hpcn, hnr, hrc]
    exact H.prevBlock
  · rw [hpc, hpcn]
    exact H.preCommitNil

theorem OfRound.resetNHForDBR (H : b.OfRound) : (b.resetNHForDBR v).OfRound := by
  obtain ⟨nh, cnh, heq, -, -⟩ := resetNHForDBR_eq b v
  rw [heq]
  exact H.congr rfl rfl rfl rfl rfl

theorem OfRound.setTypeConflict (H : b.OfRound) : (b.setTypeConflict v true).OfRound := by
  cases v <;> exact H.congr rfl rfl rfl rfl rfl

theorem OfRound.setVote {c : Crypto} (H : b.OfRound) (hcur : b.Current v) (hadm : b.admits v)
    (hagr : b.agreesWithStored c v) : (b.setVote v).OfRound := by
  have hprev := (agreesWithStored_iff.mp hagr).1
  obtain ⟨hpc, hpvn, hnil, hpcn⟩ := H
  simp only [nilCerts, List.mem_append, List.mem_map, Option.mem_toList, or_imp,
    forall_and, forall_exists_index, and_imp, forall_apply_eq_imp_iff₂] at hnil
  obtain ⟨⟨hnil₁, hnil₂⟩, hnil₃⟩ := hnil
  refine ⟨?_, ?_, ?_, ?_⟩ <;> cases v <;>
    simp_all [setVote, Current, admits, nilCerts, Vote.rCert, or_imp, forall_and]

theorem ofRound_emptied (rc : RCert) (nh cnh : Option NextHeight) :
    (b.emptied rc nh cnh).OfRound := by
  refine ⟨?_, ?_, ?_, ?_⟩ <;> simp [emptied, nilCerts]

theorem ofRound_setReset {any : RoundObj} : (b.setReset any).OfRound := by
  obtain ⟨nh, cnh, heq, -⟩ := setReset_eq b any
  have H := ofRound_emptied (b := b) any.toRCert nh cnh
  rw [heq]
  cases any with
  | rCert rc => exact H.congr rfl rfl rfl rfl rfl
  | vote v =>
    refine ⟨?_, ?_, ?_, ?_⟩ <;> cases v <;>
      simp [setType, setVote, emptied, nilCerts, RoundObj.toRCert, Vote.rCert]

end Updates

theorem OfRound.apply {b : RoundState} (c : Crypto) (H : b.OfRound) (op : Op) :
    (op.apply c b).OfRound := by
  cases op with
  | set v =>
    exact after_set_cases c b v H (fun _ => ofRound_setReset) (fun _ => H.resetNHForDBR)
      (fun _ => H.resetNHForDBR.setTypeConflict)
      (fun h h1 h2 _ => H.resetNHForDBR.setVote (current_resetNHForDBR.mpr h) h1 h2)
  | trackExternalConflicts v =>
    simp only [Op.apply, after, trackExternalConflicts_apply]
    split
    · exact H.congr rfl rfl rfl rfl rfl
    · exact H
  | setRCert rc => exact (ofRound_setReset : (b.setReset (.rCert rc)).OfRound)

/-! ## One call -/

section Step

variable {b : RoundState} {v : Vote}

theorem PreCommitExcludesNil.congr {b' : RoundState} (h : b.PreCommitExcludesNil)
    (hpc : b'.preCommit = b.preCommit) (hpvn : b'.preVoteNil = b.preVoteNil) :
    b'.PreCommitExcludesNil := by
  unfold PreCommitExcludesNil
  rw [hpc, hpvn]
  exact h

theorem PreCommitExcludesNil.resetNHForDBR (h : b.PreCommitExcludesNil) :
    (b.resetNHForDBR v).PreCommitExcludesNil := by
  obtain ⟨nh, cnh, heq, -, -⟩ := resetNHForDBR_eq b v
  rw [heq]
  exact h.congr rfl rfl

theorem PreCommitExcludesNil.setTypeConflict (h : b.PreCommitExcludesNil) :
    (b.setTypeConflict v true).PreCommitExcludesNil := by
  cases v <;> exact h.congr rfl rfl

/-- A state that moves on to a vote holds that vote only. -/
theorem preCommitExcludesNil_setReset {any : RoundObj} : (b.setReset any).PreCommitExcludesNil := by
  obtain ⟨nh, cnh, heq, -⟩ := setReset_eq b any
  rw [heq]
  cases any with
  | rCert rc => simp [PreCommitExcludesNil, setType, emptied]
  | vote v => cases v <;> simp [PreCommitExcludesNil, setType, setVote, emptied]

/-- Other votes than the nil prevote. -/
theorem PreCommitExcludesNil.setVote (h : b.PreCommitExcludesNil) (hv : ∀ w, v ≠ .preVoteNil w)
    (hadm : b.admits v) : (b.setVote v).PreCommitExcludesNil := by
  cases v with
  | preVoteNil w => exact absurd rfl (hv w)
  | preCommit w =>
    have hpvn : b.preVoteNil = none := by
      simp only [admits, Bool.and_eq_true, Option.isNone_iff_eq_none] at hadm
      exact hadm.2.1.1
    intro pc _ pvn hpvn'
    exact absurd hpvn' (by simp [setVote, hpvn])
  | _ => exact h.congr rfl rfl

variable {w : PreVoteNil}

theorem agreesWithStored_preVoteNil {c : Crypto} (H : b.OfRound)
    (h : b.rCert.prevBlock = w.rCert.prevBlock) : b.agreesWithStored c (.preVoteNil w) := by
  refine agreesWithStored_iff.mpr ⟨h, fun x hx => (nomatch hx), fun r hr => ?_⟩
  exact h.symm.trans (H.prevBlock r hr)

theorem preCommitExcludesNil_set (c : Crypto) (h : b.PreCommitExcludesNil)
    (hv : ∀ w, v ≠ .preVoteNil w) : (after (set c v) b).PreCommitExcludesNil :=
  after_set_cases c b v h (fun _ => preCommitExcludesNil_setReset) (fun _ => h.resetNHForDBR)
    (fun _ => h.resetNHForDBR.setTypeConflict)
    (fun _ hadm _ _ => h.resetNHForDBR.setVote hv hadm)

/-- In a round before the dead block round nothing is dropped for a vote. -/
theorem resetNHForDBR_of_not (hdbr : ¬isDeadBlockRound v.rCert) : b.resetNHForDBR v = b :=
  if_neg hdbr

/-- The nil prevote that is stored beside a precommit. -/
theorem after_setPreVoteNil_of_nilAfterPreCommit (c : Crypto) (H : b.OfRound)
    (h : b.PreCommitExcludesNil) (hbad : Op.NilAfterPreCommit b (.set (.preVoteNil w))) :
    after (set c (.preVoteNil w)) b = b.setVote (.preVoteNil w) := by
  obtain ⟨hheight, hround, hprev, hdbr, hpc, hpv, hmarked⟩ := hbad
  have hreset := resetNHForDBR_of_not (b := b) (v := .preVoteNil w) hdbr
  have hadm : b.admits (.preVoteNil w) := by
    simp only [admits, Bool.and_eq_true, Bool.not_eq_true']
    exact ⟨by simpa using hmarked, hpv⟩
  have hagr := agreesWithStored_preVoteNil (c := c) H hprev
  have hhr : b.rCert.hr = (Vote.preVoteNil w).rCert.hr := RCert.hr_eq_iff.mpr ⟨hheight, hround⟩
  have hhold : ¬b.holds (.preVoteNil w) := by
    intro hpvn
    obtain ⟨pc, hpc⟩ := Option.isSome_iff_exists.mp hpc
    obtain ⟨pvn, hpvn⟩ := Option.isSome_iff_exists.mp hpvn
    obtain ⟨hpch, hpcr⟩ := H.preCommit pc hpc
    obtain ⟨hpvnh, hpvnr⟩ := H.preVoteNil pvn hpvn
    exact h pc hpc pvn hpvn ⟨hpch.symm.trans hpvnh, hpcr.symm.trans hpvnr⟩
  have hset := set_result (c := c) b (.preVoteNil w)
  unfold after
  cases hr : set c (.preVoteNil w) b with
  | ok ok b' =>
    cases hr ▸ hset with
    | moved _ ha => exact absurd ha.hr_lt (by omega)
    | conflict _ _ _ hnot => exact absurd (hreset.symm ▸ hagr) hnot
    | stored => exact congrArg (fun b : RoundState => b.setVote _) hreset
  | error e b' =>
    cases hr ▸ hset with
    | forbidden hf => exact absurd (by simpa [dbrForbidden, Vote.rCert] using hf) hdbr
    | behind hb => exact absurd hb.hr_lt (by omega)
    | refused _ hnot => exact absurd (hreset.symm ▸ hadm) hnot
    | conflictDBR _ _ _ hnot => exact absurd (hreset.symm ▸ hagr) hnot
    | duplicate _ _ _ hh => exact absurd (hreset ▸ hh) hhold

/-- A nil prevote that is stored otherwise. -/
theorem preCommitExcludesNil_setPreVoteNil (c : Crypto)
    (h : b.PreCommitExcludesNil) (hgood : ¬Op.NilAfterPreCommit b (.set (.preVoteNil w))) :
    (after (set c (.preVoteNil w)) b).PreCommitExcludesNil := by
  have hset := set_result (c := c) b (.preVoteNil w)
  unfold after
  cases hr : set c (.preVoteNil w) b with
  | ok ok b' =>
    cases hr ▸ hset with
    | moved => exact preCommitExcludesNil_setReset
    | conflict => exact h.resetNHForDBR.setTypeConflict
    | stored hf hcur hadm hagr _ =>
      have hdbr : ¬isDeadBlockRound w.rCert := by simpa [dbrForbidden, Vote.rCert] using hf
      rw [resetNHForDBR_of_not (v := .preVoteNil w) hdbr] at hadm hagr ⊢
      have hprev := (agreesWithStored_iff.mp hagr).1
      simp only [admits, Bool.and_eq_true, Bool.not_eq_true'] at hadm
      have hpc : b.preCommit = none := by
        by_contra hpc
        exact hgood ⟨hcur.1, hcur.2, hprev, hdbr, Option.isSome_iff_ne_none.mpr hpc,
          hadm.2, by simp [hadm.1]⟩
      intro pc hpc'
      exact absurd hpc' (by simp [setVote, hpc])
  | error e b' =>
    cases hr ▸ hset with
    | forbidden | behind => exact h
    | refused | duplicate => exact h.resetNHForDBR
    | conflictDBR => exact h.resetNHForDBR.setTypeConflict

end Step

/-- The one call after which both are held. -/
theorem preCommitExcludesNil_apply_iff (c : Crypto) {b : RoundState} (op : Op) (H : b.OfRound)
    (h : b.PreCommitExcludesNil) :
    (op.apply c b).PreCommitExcludesNil ↔ ¬op.NilAfterPreCommit b := by
  cases op with
  | trackExternalConflicts v =>
    refine ⟨fun _ => id, fun _ => ?_⟩
    simp only [Op.apply, after, trackExternalConflicts_apply]
    split
    · exact h.congr rfl rfl
    · exact h
  | setRCert rc =>
    refine ⟨fun _ => id, fun _ => ?_⟩
    exact (preCommitExcludesNil_setReset : (b.setReset (.rCert rc)).PreCommitExcludesNil)
  | set v =>
    cases v with
    | preVoteNil w =>
      refine ⟨fun hafter hbad => ?_, preCommitExcludesNil_setPreVoteNil c h⟩
      change (after (set c (.preVoteNil w)) b).PreCommitExcludesNil at hafter
      rw [after_setPreVoteNil_of_nilAfterPreCommit c H h hbad] at hafter
      obtain ⟨pc, hpc⟩ := Option.isSome_iff_exists.mp hbad.2.2.2.2.1
      obtain ⟨hheight, hround⟩ := H.preCommit pc hpc
      exact hafter pc hpc w rfl ⟨hheight.symm.trans hbad.1, hround.symm.trans hbad.2.1⟩
    | _ => exact ⟨fun _ => id, fun _ => preCommitExcludesNil_set c h fun _ hv => by cases hv⟩

/-! ## Every sequence of calls -/

/-- From a round state with nothing but a certificate, a precommit and a nil prevote of one round
are never held together exactly when no nil prevote arrives after a precommit whose prevote did not.
-/
theorem preCommit_excludes_preVoteNil_iff (c : Crypto) (vAddr groupKey groupShare : Bytes)
    (groupIdx : UInt8) (rCert : RCert) (ops : List Op) :
    (∀ ops', ops' <+: ops → PreCommitExcludesNil
        (Run.exec (Op.apply c) { vAddr, groupKey, groupShare, groupIdx, rCert } ops')) ↔
      Run.Along (fun b op => ¬op.NilAfterPreCommit b) (Op.apply c)
        { vAddr, groupKey, groupShare, groupIdx, rCert } ops := by
  refine Run.forall_exec_iff_along PreCommitExcludesNil OfRound (fun b op H => H.apply c op)
    (fun b op H h => preCommitExcludesNil_apply_iff c op H h) ?_ ?_
  · simp [PreCommitExcludesNil]
  · refine ⟨?_, ?_, ?_, ?_⟩ <;> simp [nilCerts]

/-- The precommit of a validator arrives before its prevote, and then its nil prevote. -/
theorem nil_after_preCommit :
    let rc : RCert := ⟨⟨1, 2, 1, []⟩, []⟩
    let p : Proposal := ⟨⟨⟨1, 2, 0, [], [7], [], []⟩, rc⟩, [], []⟩
    let b₀ : RoundState :=
      { vAddr := [], groupKey := [], groupShare := [], groupIdx := 0, rCert := rc }
    let b := Run.exec (Op.apply Crypto.ideal) b₀
      [.set (.preCommit ⟨p, [], []⟩), .set (.preVoteNil ⟨rc, []⟩)]
    b.preCommit = some ⟨p, [], []⟩ ∧ b.preVoteNil = some ⟨rc, []⟩ ∧
      Run.exec (Op.apply Crypto.ideal) b₀ [.set (.preVoteNil ⟨rc, []⟩),
        .set (.preCommit ⟨p, [], []⟩)] = { b₀ with preVoteNil := some ⟨rc, []⟩ } := by
  decide +kernel

end MadNet.RoundState
