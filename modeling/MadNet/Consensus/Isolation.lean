import MadNet.Consensus.RoundStates
import MadNet.Consensus.RoundStateInvariant

/-!
# Storing a precommit when other validators equivocate

`SetPreCommit` replays the proposal and the prevotes a precommit carries into the round states of
their signers before it stores the precommit. This file settles when the votes held for those other
validators reach the state of the voter.
-/

namespace MadNet

open Prog

namespace RoundState

variable {c : Crypto} {b : RoundState} {p : Proposal} {v : Vote}

/-- The round state is at the round of the proposal, and no vote or mark in it conflicts with a
vote for the proposal. -/
structure Clean (c : Crypto) (b : RoundState) (p : Proposal) : Prop where
  current : b.rCert.height = p.rCert.height ∧ b.rCert.round = p.rCert.round
  unmarked : ¬b.marked
  noConflicting : b.conflictingProposal = none ∧ b.conflictingPreVote = none ∧
    b.conflictingPreCommit = none
  noNil : b.preVoteNil = none ∧ b.preCommitNil = none
  agrees : (b.resetNHForDBR (.proposal p)).agreesWithStored c (.proposal p)

/-- The proposal itself, or a prevote or precommit for it. -/
inductive IsFor (p : Proposal) : Vote → Prop where
  | proposal : IsFor p (.proposal p)
  | preVote {sig} : IsFor p (.preVote ⟨p, sig⟩)
  | preCommit {sig pvs} : IsFor p (.preCommit ⟨p, sig, pvs⟩)

/-- Storing `v` in this round state fails with `ErrInvalid`, or marks the validator in the dead
block round: the validator is at the round of `v`, and it is marked, holds a vote of the opposite
kind, or is known to have conflicted. -/
def Refuses (c : Crypto) (b : RoundState) (v : Vote) : Prop :=
  b.Current v ∧ (¬(b.resetNHForDBR v).admits v ∨ conflictFails v ∧
    ¬(b.resetNHForDBR v).agreesWithStored c v)

/-- Storing `v` marks the validator. -/
def Conflicts (c : Crypto) (b : RoundState) (v : Vote) : Prop :=
  b.Current v ∧ ¬(b.resetNHForDBR v).agreesWithStored c v

theorem IsFor.rCert (h : IsFor p v) : v.rCert = p.rCert := by cases h <;> rfl

theorem IsFor.bClaims (h : IsFor p v) : v.bClaims? = some p.bClaims := by cases h <;> rfl

theorem IsFor.resetNHForDBR (h : IsFor p v) :
    b.resetNHForDBR v = b.resetNHForDBR (.proposal p) := by
  cases h <;> rfl

theorem IsFor.agreesWithStored (h : IsFor p v) :
    b.agreesWithStored c v = b.agreesWithStored c (.proposal p) := by
  cases h <;> rfl

theorem IsFor.dbrForbidden (h : IsFor p v) : dbrForbidden v = dbrForbidden (.proposal p) := by
  cases h <;> rfl

theorem IsFor.current (h : IsFor p v) :
    b.Current v ↔ b.rCert.height = p.rCert.height ∧ b.rCert.round = p.rCert.round := by
  cases h <;> exact .rfl

theorem resetNHForDBR_resetNHForDBR {w : Vote} (h : v.rCert = w.rCert) :
    (b.resetNHForDBR v).resetNHForDBR w = b.resetNHForDBR v := by
  simp only [RoundState.resetNHForDBR, h]
  split <;> simp [Option.filter_filter]

theorem resetNHForDBR_setVote {w : Vote} (h : IsFor p v) :
    (b.setVote v).resetNHForDBR w = (b.resetNHForDBR w).setVote v := by
  simp only [RoundState.resetNHForDBR]
  cases h <;> split <;> rfl

theorem Clean.admits (H : Clean c b p) (h : IsFor p v) : (b.resetNHForDBR v).admits v := by
  obtain ⟨nh, cnh, heq, -, -⟩ := resetNHForDBR_eq b v
  obtain ⟨h1, h2, h3⟩ := H.noConflicting
  obtain ⟨h4, h5⟩ := H.noNil
  have hm := H.unmarked
  rw [heq]
  cases h <;> simp_all [RoundState.admits, marked]

theorem Clean.reset (H : Clean c b p) (h : IsFor p v) : Clean c (b.resetNHForDBR v) p := by
  obtain ⟨nh, cnh, heq, -, -⟩ := resetNHForDBR_eq b v
  refine ⟨by simpa using H.current, ?_, ?_, ?_, ?_⟩
  · rw [heq]; exact H.unmarked
  · rw [heq]; exact H.noConflicting
  · rw [heq]; exact H.noNil
  · rw [resetNHForDBR_resetNHForDBR h.rCert, h.resetNHForDBR]
    exact H.agrees

theorem agreesWithStored_setVote (h : IsFor p v) (hagr : b.agreesWithStored c (.proposal p)) :
    (b.setVote v).agreesWithStored c (.proposal p) := by
  obtain ⟨h1, h2, h3⟩ := agreesWithStored_iff.mp hagr
  rw [agreesWithStored_iff]
  refine ⟨by simpa using h1, fun x hx => ⟨fun y hy => ?_, fun nh hnh => ?_⟩, fun r hr => ?_⟩
  · rcases mem_roundBClaims_setVote hy with hy | hy
    · exact (h2 x hx).1 y hy
    · rw [h.bClaims] at hy
      exact Option.mem_unique hx hy
  · refine (h2 x hx).2 nh ?_
    cases h <;> exact hnh
  · refine h3 r ?_
    cases h <;> exact hr

theorem Clean.setVote (H : Clean c b p) (h : IsFor p v) : Clean c (b.setVote v) p := by
  refine ⟨by simpa using H.current, ?_, ?_, ?_, ?_⟩
  · have := H.unmarked
    cases h <;> exact this
  · have := H.noConflicting
    cases h <;> exact this
  · have := H.noNil
    cases h <;> exact this
  · rw [resetNHForDBR_setVote h]
    exact agreesWithStored_setVote h H.agrees

/-- A vote for the proposal is stored in a clean round state, unless one of its kind is there
already; the state stays clean. -/
theorem Clean.set (H : Clean c b p) (h : IsFor p v) (hf : ¬dbrForbidden (.proposal p)) :
    ((b.holds v ∧ ∃ msg, RoundState.set c v b = .error (.stale msg) (b.resetNHForDBR v)) ∨
      (¬b.holds v ∧ RoundState.set c v b = .ok true ((b.resetNHForDBR v).setVote v))) := by
  have hcur : b.Current v := h.current.mpr H.current
  have hadm := H.admits h
  have hagr : (b.resetNHForDBR v).agreesWithStored c v := by
    rw [h.agreesWithStored, h.resetNHForDBR]; exact H.agrees
  have hholds : (b.resetNHForDBR v).holds v = b.holds v := by
    obtain ⟨nh, cnh, heq, -, -⟩ := resetNHForDBR_eq b v
    rw [heq]; cases h <;> rfl
  have hset := set_result (c := c) b v
  have hnot : ¬b.rCert.hr < v.rCert.hr ∧ ¬v.rCert.hr < b.rCert.hr := by
    have := RCert.hr_eq_iff.mpr H.current
    rw [h.rCert]; omega
  cases hr : RoundState.set c v b with
  | ok ok b' =>
    cases hr ▸ hset with
    | moved _ ha => exact absurd ha.hr_lt hnot.1
    | conflict _ _ _ hd => exact absurd hagr hd
    | stored _ _ _ _ hh => exact .inr ⟨by rwa [hholds] at hh, rfl⟩
  | error e b' =>
    cases hr ▸ hset with
    | forbidden hd => exact absurd (h.dbrForbidden ▸ hd) hf
    | behind hb =>
      refine absurd ?_ hnot.2
      cases h <;> exact hb
    | refused _ hd => exact absurd hadm hd
    | conflictDBR _ _ _ hd => exact absurd hagr hd
    | duplicate _ _ _ hh => exact .inl ⟨by rwa [hholds] at hh, _, rfl⟩

theorem Clean.not_conflicts (H : Clean c b p) (h : IsFor p v) : ¬b.Conflicts c v := by
  rintro ⟨-, hd⟩
  rw [h.agreesWithStored, h.resetNHForDBR] at hd
  exact hd H.agrees

theorem Clean.not_refuses (H : Clean c b p) (h : IsFor p v) : ¬b.Refuses c v := by
  rintro ⟨hc, hd | ⟨-, hd⟩⟩
  · exact hd (H.admits h)
  · exact H.not_conflicts h ⟨hc, hd⟩

/-- A setter that is not refused returns or reports a stale vote. -/
theorem set_of_not_refuses (hf : ¬dbrForbidden v) (h : ¬b.Refuses c v) :
    (∃ ok b', RoundState.set c v b = .ok ok b') ∨
      ∃ msg b', RoundState.set c v b = .error (.stale msg) b' := by
  have hset := set_result (c := c) b v
  cases hr : RoundState.set c v b with
  | ok ok b' => exact .inl ⟨ok, b', rfl⟩
  | error e b' =>
    cases hr ▸ hset with
    | forbidden hd => exact absurd hd hf
    | behind | duplicate => exact .inr ⟨_, _, rfl⟩
    | refused hc hd => exact absurd ⟨hc, .inl hd⟩ h
    | conflictDBR hc hk _ hd => exact absurd ⟨hc, .inr ⟨hk, hd⟩⟩ h

/-- A prevote that was not refused is not refused after its proposal has been stored. -/
theorem not_refuses_after_setProposal {sig : Bytes} (hf : ¬dbrForbidden (.proposal p))
    (hprop : ¬b.Refuses c (.proposal p)) (hconf : ¬b.Conflicts c (.proposal p))
    (h : ¬b.Refuses c (.preVote ⟨p, sig⟩)) :
    ¬(after (RoundState.set c (.proposal p)) b).Refuses c (.preVote ⟨p, sig⟩) := by
  have hfor : IsFor p (.preVote ⟨p, sig⟩) := .preVote
  have hrc : (Vote.proposal p).rCert = (Vote.preVote ⟨p, sig⟩).rCert := rfl
  have hset := set_result (c := c) b (.proposal p)
  unfold after
  cases hr : RoundState.set c (.proposal p) b with
  | error e b' =>
    cases hr ▸ hset with
    | forbidden hd => exact absurd hd hf
    | behind => exact h
    | refused hc hd => exact absurd ⟨hc, .inl hd⟩ hprop
    | conflictDBR hc _ _ hd => exact absurd ⟨hc, hd⟩ hconf
    | duplicate =>
      rintro ⟨hc, hd⟩
      rw [resetNHForDBR_resetNHForDBR hrc] at hd
      exact h ⟨current_resetNHForDBR.mp hc, hfor.resetNHForDBR ▸ hd⟩
  | ok ok b' =>
    cases hr ▸ hset with
    | conflict hc _ _ hd => exact absurd ⟨hc, hd⟩ hconf
    | stored _ hc hadm hagr _ =>
      rintro ⟨-, hd⟩
      rw [resetNHForDBR_setVote .proposal, resetNHForDBR_resetNHForDBR hrc] at hd
      rcases hd with hd | ⟨-, hd⟩
      · exact h ⟨hfor.current.mpr (IsFor.proposal.current.mp hc), .inl fun hadm' => hd hadm'⟩
      · exact hd (hfor.agreesWithStored ▸ agreesWithStored_setVote .proposal hagr)
    | moved _ ha =>
      obtain ⟨nh, cnh, heq, hnh⟩ := setReset_eq b (.vote (.proposal p))
      rw [heq]
      rintro ⟨-, hd | ⟨hk, hd⟩⟩
      · obtain ⟨nh', cnh', heq', -, -⟩ := resetNHForDBR_eq
          ((b.emptied p.rCert nh cnh).setType (.vote (.proposal p))) (.preVote ⟨p, sig⟩)
        rw [show (RoundObj.vote (.proposal p)).toRCert = p.rCert from rfl, heq'] at hd
        simp [RoundState.admits, marked, setType, RoundState.setVote, emptied] at hd
      · have hround : p.rCert.round = Constants.deadBlockRound := by
          simpa [conflictFails, Vote.rCert] using hk
        obtain ⟨rfl, rfl⟩ : nh = none ∧ cnh = none := by
          rcases hnh with ⟨rfl, rfl, -⟩ | ⟨-, -, -, hne⟩
          · exact ⟨rfl, rfl⟩
          · exact absurd hround hne
        refine hd (agreesWithStored_iff.mpr ?_)
        simp [RoundState.resetNHForDBR, setType, RoundState.setVote, emptied, roundBClaims,
          nilCerts, Vote.rCert, Vote.bClaims?, RoundObj.toRCert]

end RoundState

namespace RoundStates

open RoundState

variable {c : Crypto} {r : RoundStates} {p : Proposal} {voter : Bytes} {pre : Option PreCommit}

/-- The state of the voter is clean, and its precommit is `pre`. -/
def VoterClean (c : Crypto) (voter : Bytes) (p : Proposal) (pre : Option PreCommit)
    (r : RoundStates) : Prop :=
  ∃ a, r.getRoundState voter = some a ∧ a.Clean c p ∧ a.preCommit = pre

/-- Storing the proposal or a prevote for it leaves the state of the voter clean. -/
theorem VoterClean.set {vAddr : Bytes} {b : RoundState} {v : Vote}
    (H : VoterClean c voter p pre r) (hfor : IsFor p v) (hv : ∀ w, v ≠ .preCommit w)
    (hf : ¬dbrForbidden (.proposal p)) (hb : r.getRoundState vAddr = some b) :
    VoterClean c voter p pre (r.setRoundState vAddr (after (RoundState.set c v) b)) := by
  obtain ⟨a, ha, hclean, hpre⟩ := H
  by_cases hvoter : voter = vAddr
  · subst hvoter
    obtain rfl : b = a := Option.some_inj.mp (hb.symm.trans ha)
    have hpc : (b.resetNHForDBR v).preCommit = b.preCommit := by
      obtain ⟨nh, cnh, heq, -, -⟩ := resetNHForDBR_eq b v
      rw [heq]
    rcases hclean.set hfor hf with ⟨-, msg, heq⟩ | ⟨-, heq⟩
    · refine ⟨_, getRoundState_setRoundState_self .., ?_, ?_⟩ <;> rw [after, heq]
      · exact hclean.reset hfor
      · exact hpc.trans hpre
    · refine ⟨_, getRoundState_setRoundState_self .., ?_, ?_⟩ <;> rw [after, heq]
      · exact (hclean.reset hfor).setVote hfor
      · cases hfor with
        | preCommit => exact absurd rfl (hv _)
        | _ => exact hpc.trans hpre
  · exact ⟨a, by rwa [getRoundState_setRoundState_ne r hvoter], hclean, hpre⟩

/-- The prevotes of a precommit are replayed to the end if no signer's state refuses its own. -/
theorem setImplPreVotes_wp (hf : ¬dbrForbidden (.proposal p)) {pvl : List (Validated PreVote)}
    (hp : ∀ pv ∈ pvl, pv.obj.proposal = p) (hnodup : (pvl.map (·.voter)).Nodup)
    (hvoter : VoterClean c voter p pre r)
    (htakes : ∀ pv ∈ pvl, ∃ b, r.getRoundState pv.voter = some b ∧ ¬b.Refuses c (.preVote pv.obj)) :
    wp (setImplPreVotes c voter pvl) (fun ok r' => ok = true ∧ VoterClean c voter p pre r')
      (fun _ _ => False) r := by
  induction pvl generalizing r with
  | nil => exact ⟨rfl, hvoter⟩
  | cons pv pvl ih =>
    obtain ⟨hnot, hnodup⟩ := List.nodup_cons.mp hnodup
    obtain ⟨b, hb, hrefuse⟩ := htakes pv (by simp)
    have hfor : IsFor p (.preVote pv.obj) := hp pv (by simp) ▸ .preVote
    have hnext := hvoter.set hfor (by simp) hf hb
    -- the signers still to come are other validators, so their states are as before
    have hrest : ∀ pv' ∈ pvl, ∃ b',
        (r.setRoundState pv.voter (after (RoundState.set c (.preVote pv.obj)) b)).getRoundState
          pv'.voter = some b' ∧ ¬b'.Refuses c (.preVote pv'.obj) := by
      intro pv' hmem
      have hne : pv'.voter ≠ pv.voter := fun h => hnot (List.mem_map.mpr ⟨pv', hmem, h⟩)
      rw [getRoundState_setRoundState_ne r hne]
      exact htakes pv' (by simp [hmem])
    have hgo := ih (fun pv' h => hp pv' (by simp [h])) hnodup hnext hrest
    have hf' : ¬dbrForbidden (.preVote pv.obj) := hfor.dbrForbidden ▸ hf
    simp only [setImplPreVotes, wp_bind, wp_get, hb, Option.isNone_some, Bool.false_eq_true,
      if_false, wp_attempt, wp_onRoundState r hb]
    rw [show RoundState.setPreVote c pv.obj = RoundState.set c (.preVote pv.obj) from rfl]
    rcases set_of_not_refuses hf' hrefuse with ⟨ok, b', heq⟩ | ⟨msg, b', heq⟩
    · simp only [after, heq] at hgo
      rw [wp_of_ok heq]
      exact hgo
    · simp only [after, heq] at hgo
      rw [wp_of_error heq]
      exact hgo

/-- The proposal a precommit carries is stored or stale if the proposer's state does not refuse it.
-/
theorem setProposal_wp {prop : Validated Proposal} {b : RoundState} {Q : Unit → RoundStates → Prop}
    {R : Err → RoundStates → Prop} (hf : ¬dbrForbidden (.proposal prop.obj))
    (hb : r.getRoundState prop.proposer = some b) (hrefuse : ¬b.Refuses c (.proposal prop.obj))
    (hQ : Q () (r.setRoundState prop.proposer (after (RoundState.set c (.proposal prop.obj)) b))) :
    wp (ignoreStale (setProposal c prop)) Q R r := by
  simp only [ignoreStale, setProposal, wp_bind, wp_attempt, wp_onRoundState r hb]
  rw [show RoundState.setProposal c prop.obj = RoundState.set c (.proposal prop.obj) from rfl]
  rcases set_of_not_refuses hf hrefuse with ⟨ok, b', heq⟩ | ⟨msg, b', heq⟩
  · rw [wp_of_ok heq]
    simpa only [wp_pure, after, heq] using hQ
  · rw [wp_of_error heq]
    simpa [Err.isStale, after, heq] using hQ

theorem makeImplPreVotes_nodup {pc : Validated PreCommit} (h : pc.signers.Nodup) :
    (pc.makeImplPreVotes.map (·.voter)).Nodup := by
  have hsub (l l' : List Bytes) : ((l.zip l').map Prod.snd).Sublist l' := by
    induction l generalizing l' with
    | nil => simp
    | cons x l ih =>
      cases l' with
      | nil => simp
      | cons y l' => simpa using ih l'
  simpa [Validated.makeImplPreVotes, Function.comp_def] using h.sublist (hsub pc.obj.preVotes _)

theorem mem_makeImplPreVotes {pc : Validated PreCommit} {pv : Validated PreVote}
    (h : pv ∈ pc.makeImplPreVotes) : pv.obj.proposal = pc.obj.proposal ∧ pv.voter ∈ pc.signers := by
  obtain ⟨⟨sig, voter⟩, hmem, rfl⟩ := List.mem_map.mp h
  exact ⟨rfl, (List.of_mem_zip hmem).2⟩

/-- The voter is unmarked and holds the precommit, or keeps the one it held before. -/
def Records (pc : Validated PreCommit) (pre : Option PreCommit) (r : RoundStates) : Prop :=
  ∃ a, r.getRoundState pc.voter = some a ∧ a.implicitPVN = false ∧ a.implicitPCN = false ∧
    a.preCommit = some (pre.getD pc.obj)

/-- A precommit is recorded for its voter, and the voter stays unmarked, if the voter's own state
is clean and no state of the proposer or of a signer of a listed prevote refuses what is replayed
into it. -/
theorem setPreCommit_recorded (c : Crypto) (r : RoundStates) (pc : Validated PreCommit)
    (a : RoundState) (hnodup : pc.signers.Nodup) (hdbr : ¬dbrForbidden (.preCommit pc.obj))
    (ha : r.getRoundState pc.voter = some a) (hclean : a.Clean c pc.obj.proposal)
    (hprop : ∃ b, r.getRoundState pc.proposer = some b ∧ ¬b.Refuses c (.proposal pc.obj.proposal) ∧
      (pc.proposer ∈ pc.signers → ¬b.Conflicts c (.proposal pc.obj.proposal)))
    (htakes : ∀ s ∈ pc.signers, ∃ b, r.getRoundState s = some b ∧
      ∀ sig, ¬b.Refuses c (.preVote ⟨pc.obj.proposal, sig⟩)) :
    Records pc a.preCommit (after (setPreCommit c pc) r) := by
  obtain ⟨b, hb, hrefuse, hconf⟩ := hprop
  have hfor : IsFor pc.obj.proposal (.preCommit pc.obj) := .preCommit
  have hf : ¬dbrForbidden (.proposal pc.obj.proposal) := hfor.dbrForbidden ▸ hdbr
  have hvoter : VoterClean c pc.voter pc.obj.proposal a.preCommit r := ⟨a, ha, hclean, rfl⟩
  apply after_of_wp
  simp only [setPreCommit, wp_bind]
  refine setProposal_wp hf hb hrefuse ?_
  have hvoter₁ := hvoter.set .proposal (by simp) hf hb
  -- the proposer may have signed one of the prevotes too
  have htakes₁ : ∀ pv ∈ pc.makeImplPreVotes, ∃ b',
      (r.setRoundState pc.proposer
        (after (RoundState.set c (.proposal pc.obj.proposal)) b)).getRoundState pv.voter = some b' ∧
      ¬b'.Refuses c (.preVote pv.obj) := by
    intro pv hpv
    obtain ⟨hprop, hsigner⟩ := mem_makeImplPreVotes hpv
    obtain ⟨b', hb', htake⟩ := htakes pv.voter hsigner
    have hobj : pv.obj = ⟨pc.obj.proposal, pv.obj.signature⟩ := by rw [← hprop]
    rw [hobj]
    by_cases heq : pv.voter = pc.proposer
    · rw [heq] at hb' hsigner ⊢
      obtain rfl : b' = b := Option.some_inj.mp (hb'.symm.trans hb)
      exact ⟨_, getRoundState_setRoundState_self ..,
        not_refuses_after_setProposal hf hrefuse (hconf hsigner) (htake _)⟩
    · exact ⟨b', by rwa [getRoundState_setRoundState_ne r heq], htake _⟩
  simp only [wp_bind]
  refine wp_mono (setImplPreVotes_wp hf (fun pv h => (mem_makeImplPreVotes h).1)
    (makeImplPreVotes_nodup hnodup) hvoter₁ htakes₁) ?_ (fun _ _ => False.elim)
  rintro _ r₂ ⟨rfl, a₂, ha₂, hclean₂, hpre₂⟩
  have hflags : ∀ {x : RoundState}, x.Clean c pc.obj.proposal →
      x.implicitPVN = false ∧ x.implicitPCN = false := by
    intro x hx
    have := hx.unmarked
    simp only [marked, Bool.or_eq_true, not_or, Bool.not_eq_true] at this
    exact this.1
  have hslot : (a₂.resetNHForDBR (.preCommit pc.obj)).preCommit = a.preCommit := by
    obtain ⟨nh, cnh, heq, -, -⟩ := resetNHForDBR_eq a₂ (.preCommit pc.obj)
    rw [heq]; exact hpre₂
  simp only [if_true, wp_bind, wp_onRoundState r₂ ha₂]
  rw [show RoundState.setPreCommit c pc.obj = RoundState.set c (.preCommit pc.obj) from rfl]
  have hclean₃ := hclean₂.reset hfor
  rcases hclean₂.set hfor hf with ⟨hheld, msg, heq⟩ | ⟨hnew, heq⟩
  · rw [wp_of_error heq]
    refine ⟨_, getRoundState_setRoundState_self .., (hflags hclean₃).1, (hflags hclean₃).2, ?_⟩
    rw [hslot]
    simp only [holds, hpre₂] at hheld
    obtain ⟨old, hold⟩ := Option.isSome_iff_exists.mp hheld
    simp [hold]
  · rw [wp_of_ok heq]
    have hclean₄ := hclean₃.setVote hfor
    refine ⟨_, getRoundState_setRoundState_self .., (hflags hclean₄).1, (hflags hclean₄).2, ?_⟩
    simp only [holds, hpre₂, Option.not_isSome_iff_eq_none] at hnew
    simp [hnew, RoundState.setVote]

/-! ## Concrete states

Four validators at height 2, round 1; the third one proposes. -/

section Sample

def sampleRCert : RCert := ⟨⟨1, 2, 1, [7]⟩, []⟩

def sampleHeader : BlockHeader := ⟨⟨1, 1, 0, [], [], [], []⟩, [], []⟩

def sampleProposal : Proposal := ⟨⟨⟨1, 2, 0, [7], [], [], []⟩, sampleRCert⟩, [3], []⟩

/-- The precommit of the first validator, with the prevotes of the first three. -/
def samplePreCommit : Validated PreCommit where
  obj := ⟨sampleProposal, [1], [[1], [2], [3]]⟩
  proposer := [3]
  voter := [1]
  signers := [[1], [2], [3]]

def sampleStates : RoundStates :=
  RoundStates.fresh ⟨[1], [20], sampleHeader, sampleHeader, sampleHeader, sampleHeader⟩ .four
    sampleRCert

/-- The second validator has also sent a nil prevote. -/
def equivocatedStates : RoundStates :=
  after (setPreVoteNil Crypto.ideal { obj := ⟨sampleRCert, [2]⟩, voter := [2] }) sampleStates

def sampleState (i : UInt8) : RoundState :=
  { vAddr := [i], groupKey := [20], groupShare := [10 + i], groupIdx := i - 1,
    rCert := sampleRCert }

theorem sampleState_clean (i : UInt8) : (sampleState i).Clean Crypto.ideal sampleProposal :=
  ⟨⟨rfl, rfl⟩, by simp [marked, sampleState], ⟨rfl, rfl, rfl⟩, ⟨rfl, rfl⟩, by
    simp [agreesWithStored_iff, sampleState, resetNHForDBR, roundBClaims, nilCerts, sampleProposal,
      Vote.rCert]⟩

/-- The nil prevote of a signer makes the precommit of another validator be dropped, and marks that
validator, whose own state is clean. -/
theorem setPreCommit_dropped :
    samplePreCommit.obj.validateSignatures Crypto.ideal = .ok samplePreCommit ∧
    samplePreCommit.signers.Nodup ∧ ¬dbrForbidden (.preCommit samplePreCommit.obj) ∧
    equivocatedStates.getRoundState samplePreCommit.voter = some (sampleState 1) ∧
    (sampleState 1).Clean Crypto.ideal samplePreCommit.obj.proposal ∧
    ∃ a, (after (setPreCommit Crypto.ideal samplePreCommit) equivocatedStates).getRoundState
      samplePreCommit.voter = some a ∧ a.preCommit = none ∧ a.implicitPCN = true := by
  refine ⟨rfl, by decide, by decide, by decide +kernel, sampleState_clean 1, ?_⟩
  exact ⟨{ sampleState 1 with preVote := some ⟨sampleProposal, [1]⟩, implicitPCN := true },
    by decide +kernel, rfl, rfl⟩

/-- Without the nil prevote the precommit is recorded. -/
theorem setPreCommit_recorded_sample : Records samplePreCommit none
      (after (setPreCommit Crypto.ideal samplePreCommit) sampleStates) := by
  have hstate : ∀ i ∈ ([1, 2, 3] : List UInt8),
      sampleStates.getRoundState [i] = some (sampleState i) := by decide +kernel
  refine setPreCommit_recorded Crypto.ideal sampleStates samplePreCommit (sampleState 1)
    (by decide) (by decide) (hstate 1 (by simp)) (sampleState_clean 1)
    ⟨sampleState 3, hstate 3 (by simp), (sampleState_clean 3).not_refuses .proposal,
      fun _ => (sampleState_clean 3).not_conflicts .proposal⟩ ?_
  intro s hs
  obtain ⟨i, hi, rfl⟩ : ∃ i ∈ ([1, 2, 3] : List UInt8), s = [i] := by
    simpa [samplePreCommit] using hs
  exact ⟨sampleState i, hstate i hi, fun _ => (sampleState_clean i).not_refuses .preVote⟩

end Sample

end RoundStates

end MadNet
