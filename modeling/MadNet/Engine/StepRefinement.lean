import MadNet.Engine.Refinement

/-!
# The step handlers and the dispatcher do what `Outcome` says
-/

namespace MadNet

open Prog

namespace Engine

variable {ce : Engine} {env : Env} {s s0 : Txn}

/-- `tolerate` leaves the caller with a state that is only prepared, or the step fails. -/
theorem wp_tolerate {x : EngineM Unit} {Q : Bool → Txn → Prop}
    (h : wp x (fun _ => Q true) (Tolerable ce s0) s) (hQ : ∀ s', Prep ce s0 s' → Q false s') :
    wp (tolerate x) Q (fun e _ => Rejected ce s0 e) s := by
  simp only [tolerate, wp_bind, wp_attempt]
  refine wp_mono h (fun _ _ h => h) fun e s' h => ?_
  simp only [wp_ite, wp_pure, wp_throw]
  exact ⟨fun he => hQ s' (h.2 he), fun _ => h.1⟩

/-- Trying to update the valid value only prepares. -/
theorem wp_tolerate_updateValidValue {p : Proposal} {Q : Bool → Txn → Prop} (hP : Prep ce s0 s)
    (hQ : ∀ ok s', Prep ce s0 s' → Q ok s') :
    wp (tolerate (updateValidValue env p)) Q (fun e _ => Rejected ce s0 e) s :=
  wp_tolerate (wp_updateValidValue (mild_tolerable hP) (hQ _ _ (.setValid hP))) (hQ _)

section Steps

variable (h₀ : s0.HasOwn)

include h₀

theorem doPendingProposalStep_outcome (hvotes : s0.Unvoted) (hp : ¬s0.own.pCurrent s0.own.rCert) :
    Ends ce env s0 (doPendingProposalStep ce env) s0 := by
  refine wp_validators .start fun _ => ?_
  simp only [wp_bind, wp_get, wp_ite, wp_pure]
  refine ⟨fun _ => .idle .start,
    fun hdbr => ⟨fun hlock => ?_, fun hlock => ⟨fun _ => ?_, fun _ => ?_⟩⟩⟩
  · cases hvalue : s0.rs.lockedValue with
    | none => exact .idle .start
    | some value =>
      exact wp_castProposalFromValue .start h₀ fun p hpc =>
        .proposalFromValue hvotes hp hdbr (fun _ => hvalue) hpc
  · cases hvalue : s0.rs.validValue with
    | none => exact .idle .start
    | some value =>
      exact wp_castProposalFromValue .start h₀ fun p hpc =>
        .proposalFromValue hvotes hp hdbr (fun h => absurd h hlock) hpc
  · exact wp_castNewProposalValue .start h₀ fun p => .newProposal hvotes hp hdbr hlock

theorem preVoteEmptyBlock_outcome (hvotes : s0.Unvoted)
    (hdbr : s0.own.rCert.round = Constants.deadBlockRound) :
    Ends ce env s0 (preVoteEmptyBlock ce) s0 := by
  have hP : Prep ce s0 (s0.setValues {}) := .clear .start hdbr
  simp only [Ends, preVoteEmptyBlock, wp_bind, wp_get, clearValues, modifyRs, wp_modify]
  refine wp_ext mild_rejected fun txRoot htx => ?_
  simp only [wp_bind, wp_get]
  refine wp_getHeaderTrieRoot mild_rejected fun headerRoot hroot => ?_
  rw [wp_bind]
  refine wp_signProposal mild_rejected fun signature => ?_
  refine wp_castPreVote hP h₀ fun pv hpv => .preVoteEmptyBlock hvotes hdbr ?_ ?_ ?_
  · rw [PreVote.rCert, hpv]
    rfl
  · rw [PreVote.bClaims, hpv]
    exact ⟨rfl, rfl, rfl, rfl, rfl, hroot, htx⟩
  · rw [hpv]

theorem preVoteIfValid_outcome {p : Proposal}
    (hb : ∀ pv : PreVote, pv.proposal = p → Builds ce s0 (.preVote pv))
    (hnil : ∀ pvn : PreVoteNil, pvn.rCert = s0.own.rCert → Builds ce s0 (.preVoteNil pvn)) :
    Ends ce env s0 (preVoteIfValid ce env p) s0 := by
  simp only [Ends, preVoteIfValid, wp_bind, wp_get]
  split
  · exact wp_castPreVoteNil .start h₀ hnil
  simp only [wp_bind, wp_attempt]
  refine wp_isValid (fun e he => ?_) fun ok => ?_
  · simp only [wp_ite, wp_throw]
    exact ⟨fun _ => wp_castPreVoteNil .start h₀ hnil, fun _ h => absurd h he⟩
  · cases ok with
    | true => exact wp_castPreVote .start h₀ hb
    | false => exact wp_castPreVoteNil .start h₀ hnil

theorem doPendingPreVoteStep_outcome (hvotes : s0.Unvoted) :
    Ends ce env s0 (doPendingPreVoteStep ce env) s0 := by
  have hnil (pvn : PreVoteNil) (h : pvn.rCert = s0.own.rCert) : Builds ce s0 (.preVoteNil pvn) :=
    .preVoteNil hvotes h
  refine wp_validators .start fun _ => ?_
  simp only [wp_bind, wp_get, wp_ite]
  refine ⟨fun hdbr => preVoteEmptyBlock_outcome h₀ hvotes hdbr, fun hdbr => ?_⟩
  cases hcur : s0.rs.getCurrentProposal with
  | none => exact wp_castPreVoteNil .start h₀ hnil
  | some p =>
    simp only [wp_ite]
    refine ⟨fun hlock => ?_, fun hlock => ⟨fun _ => ?_, fun _ => ?_⟩⟩
    · cases hvalue : s0.rs.lockedValue with
      | none => exact .idle .start
      | some lock =>
        refine wp_castPreVoteWithLock .start h₀ (fun pv hpv heq => ?_) hnil
        refine .preVote hvotes hdbr hcur (fun _ l hl => ?_) hpv
        obtain rfl := Option.some_inj.mp (hvalue.symm.trans hl)
        exact heq
    · cases hvalue : s0.rs.validValue with
      | none => exact .idle .start
      | some lock =>
        exact wp_castPreVoteWithLock .start h₀
          (fun pv hpv _ => .preVote hvotes hdbr hcur (fun h => absurd h hlock) hpv) hnil
    · exact preVoteIfValid_outcome h₀
        (fun pv hpv => .preVote hvotes hdbr hcur (fun h => absurd h hlock) hpv) hnil

theorem doPreVoteStep_outcome (hvotes : s0.Uncommitted) (hpv : s0.own.pvCurrent s0.own.rCert) :
    Ends ce env s0 (doPreVoteStep ce) s0 := by
  refine wp_validators .start fun _ => ?_
  simp only [wp_bind, wp_get, wp_ite, wp_pure]
  refine ⟨fun hcount => ?_, fun _ => .idle .start⟩
  exact wp_castPreCommit .start h₀ fun pc pv => .preCommit hvotes hpv hcount

theorem doPreVoteNilStep_outcome (hvotes : s0.Uncommitted) :
    Ends ce env s0 (doPreVoteNilStep ce env) s0 := by
  have hrest {s : Txn} (hP : Prep ce s0 s) :
      wp (if s0.rs.getCurrentPreVotes.2.length ≥ s0.rs.getCurrentThreshold then castPreCommitNil ce
        else return) (fun _ => Outcome ce env s0) (fun e _ => Rejected ce s0 e) s := by
    simp only [wp_ite, wp_pure]
    exact ⟨fun _ => wp_castPreCommitNil hP h₀ fun pcn => .preCommitNil hvotes, fun _ => .idle hP⟩
  refine wp_validators .start fun _ => ?_
  simp only [wp_bind, wp_get, wp_ite, wp_pure]
  refine ⟨fun _ => ?_, fun _ => by simpa only [wp_ite, wp_pure] using hrest .start⟩
  exact wp_first mild_rejected fun pv _ =>
    wp_updateValidValue mild_rejected (hrest (.setValid .start))

theorem pendingPreCommitNil_outcome {votes : Nat} (hP : Prep ce s0 s) (hvotes : s0.Uncommitted) :
    Ends ce env s0 (pendingPreCommitNil ce s0.rs votes) s := by
  simp only [Ends, pendingPreCommitNil, wp_ite, wp_pure]
  exact ⟨fun _ => wp_castPreCommitNil hP h₀ fun pcn => .preCommitNil hvotes, fun _ => .idle hP⟩

theorem doPendingPreCommit_outcome (hvotes : s0.Uncommitted) :
    Ends ce env s0 (doPendingPreCommit ce env) s0 := by
  refine wp_validators .start fun _ => ?_
  simp only [wp_bind, wp_get, wp_ite]
  refine ⟨fun hcount => ⟨fun hpv => ?_, fun _ => ?_⟩,
    fun _ => pendingPreCommitNil_outcome h₀ .start hvotes⟩
  · exact wp_castPreCommit .start h₀ fun pc pv => .preCommit hvotes hpv hcount
  · refine wp_first mild_rejected fun pv _ => (wp_bind _ _).mpr ?_
    exact wp_tolerate_updateValidValue .start fun _ _ hP => pendingPreCommitNil_outcome h₀ hP hvotes

/-- The node may turn precommits into a `NextHeight`. -/
def MayDecide (s : Txn) : Prop :=
  (s.LeavingForDBR ∨ ¬s.own.nhCurrent s.own.rCert) ∧
    (s.own.nrCurrent s.own.rCert ∨ s.own.pcCurrent s.own.rCert ∨ s.own.pcnCurrent s.own.rCert)

theorem nextHeightFromPreCommits_outcome (hctx : MayDecide s0)
    (hcount : s0.rs.getCurrentPreCommits.1.length ≥ s0.rs.getCurrentThreshold) :
    wp (do updateValidValue env (← first s0.rs.getCurrentPreCommits.1).proposal
           castNextHeightFromPreCommits ce s0.rs.getCurrentPreCommits.1)
      (fun _ => Outcome ce env s0) (fun e _ => Rejected ce s0 e) s0 := by
  rw [wp_bind]
  refine wp_first mild_rejected fun _ _ => (wp_bind _ _).mpr (wp_updateValidValue mild_rejected ?_)
  refine wp_mono (wp_castNextHeightFromPreCommits (.setValid .start) h₀ ?_) (fun _ _ h => h)
    (fun _ _ h => h.1)
  exact fun nh pc => .nextHeightFromPreCommits hctx.1 hctx.2 hcount

theorem doPreCommitStep_outcome (hctx : MayDecide s0) :
    Ends ce env s0 (doPreCommitStep ce env) s0 := by
  refine wp_validators .start fun _ => ?_
  rw [wp_bind, wp_get]
  exact (wp_ite _ _).mpr ⟨nextHeightFromPreCommits_outcome h₀ hctx, fun _ => .idle .start⟩

theorem wp_castNextRound_of_undecided (hP : Prep ce s0 s) (hvotes : s0.Undecided) :
    Ends ce env s0 (castNextRound ce) s :=
  wp_castNextRound hP h₀ fun _ => .nextRound hvotes

theorem doPreCommitNilStep_outcome (hvotes : s0.Undecided) (hctx : MayDecide s0) :
    Ends ce env s0 (doPreCommitNilStep ce env) s0 := by
  refine wp_validators .start fun _ => ?_
  rw [wp_bind, wp_get]
  refine (wp_ite _ _).mpr ⟨nextHeightFromPreCommits_outcome h₀ hctx, fun _ => ?_⟩
  simp only [wp_ite, wp_pure]
  exact ⟨fun _ => wp_castNextRound_of_undecided h₀ .start hvotes, fun _ => .idle .start⟩

theorem tryNextHeight_outcome (hctx : MayDecide s0) :
    wp (tryNextHeight ce env s0.rs s0.rs.getCurrentPreCommits.1)
      (fun ok s => if ok then Outcome ce env s0 s else Prep ce s0 s)
      (fun e _ => Rejected ce s0 e) s0 := by
  simp only [tryNextHeight, wp_ite, wp_bind, wp_pure]
  refine ⟨fun hcount => wp_first mild_rejected fun _ _ => ?_, fun _ => .start⟩
  rw [wp_bind]
  refine wp_tolerate_updateValidValue .start fun ok s hP => ?_
  simp only [wp_ite, wp_pure]
  refine ⟨fun _ => wp_tolerate ?_ fun _ hP => hP, fun _ => hP⟩
  exact wp_castNextHeightFromPreCommits hP h₀ fun nh pc =>
    .nextHeightFromPreCommits hctx.1 hctx.2 hcount

theorem doPendingNext_outcome (hvotes : s0.Undecided) (hctx : MayDecide s0) :
    Ends ce env s0 (doPendingNext ce env) s0 := by
  refine wp_validators .start fun _ => ?_
  rw [wp_bind, wp_get]
  refine (wp_bind _ _).mpr (wp_mono (tryNextHeight_outcome h₀ hctx) (fun ok s h => ?_)
    fun _ _ h => h)
  cases ok with
  | true => exact h
  | false =>
    simp only [Bool.false_eq_true, if_false, wp_ite, wp_pure] at h ⊢
    exact ⟨fun _ => wp_castNextRound_of_undecided h₀ h hvotes, fun _ => .idle h⟩

theorem doNextRoundStep_outcome (hctx : MayDecide s0) (hnr : s0.own.nrCurrent s0.own.rCert) :
    Ends ce env s0 (doNextRoundStep ce env) s0 := by
  refine wp_validators .start fun _ => ?_
  rw [wp_bind, wp_get]
  refine (wp_bind _ _).mpr (wp_mono (tryNextHeight_outcome h₀ hctx) (fun ok s h => ?_)
    fun _ _ h => h)
  cases ok with
  | true => exact h
  | false =>
    simp only [Bool.false_eq_true, if_false, wp_bind, wp_get, wp_ite, wp_pure] at h ⊢
    refine ⟨fun _ => wp_castNextRoundRCert h h₀ ?_ hnr, fun _ => .idle h⟩
    refine h.kept.currentVotes h₀ ?_ ?_
    all_goals
      intro b v
      unfold RoundState.resetNHForDBR
      split <;> simp [RoundState.nrCurrent]

theorem doRoundJump_outcome {v : RoundState} (hv : v ∈ futureRound s0.rs) :
    Ends ce env s0 (doRoundJump env v.rCert) s0 := by
  have hjump {s : Txn} (hP : Prep ce s0 s) : Ends ce env s0 (setMostRecentRCert v.rCert) s := by
    rw [Ends, wp_setMostRecentRCert (hP.kept.hasOwn h₀)]
    exact .roundJump hP hv
  simp only [Ends, doRoundJump, wp_bind, wp_get, wp_ite, wp_pure]
  refine ⟨fun _ => wp_first mild_rejected fun _ _ => ?_, fun _ => hjump .start⟩
  exact wp_tolerate_updateValidValue .start fun _ _ hP => hjump hP

end Steps

section Commits

variable (h₀ : s0.Ready)

include h₀

theorem doNextHeightStep_outcome : Ends ce env s0 (doNextHeightStep ce env) s0 := by
  refine wp_validators .start fun _ => ?_
  simp only [wp_bind, wp_get, wp_ite, wp_pure]
  refine ⟨fun _ => ?_, fun _ => .idle .start⟩
  exact wp_tolerate (wp_castNewCommittedBlockHeader .start h₀ rfl) fun _ hP => .idle hP

theorem doCheckValidValue_outcome : Ends ce env s0 (doCheckValidValue ce env) s0 := by
  have htry (p : Proposal) : Ends ce env s0 (do let _ ← tolerate (updateValidValue env p)) s0 := by
    rw [Ends, wp_bind]
    exact wp_tolerate_updateValidValue .start fun _ _ hP => .idle hP
  simp only [Ends, doCheckValidValue, wp_bind, wp_get, wp_ite, wp_pure]
  refine ⟨fun _ => wp_first mild_rejected fun _ _ => ?_,
    fun _ => ⟨fun _ => ?_, fun _ => ⟨fun _ => ?_,
    fun _ => .idle .start⟩⟩⟩
  · rw [wp_bind]
    refine wp_tolerate_updateValidValue .start fun ok s hP => ?_
    simp only [wp_ite, wp_bind, wp_pure]
    refine ⟨fun _ => ?_, fun _ => .idle hP⟩
    exact wp_tolerate (wp_castNewCommittedBlockHeader hP h₀ rfl) fun _ hP => .idle hP
  · exact wp_first mild_rejected fun _ _ => htry _
  · exact wp_first mild_rejected fun _ _ => htry _

/-- The certificate of a validator at the next height, which is of its first round. -/
structure NextHeightCert (s : Txn) (rcert : RCert) : Prop where
  holder : ∃ v ∈ futureHeight s.rs, v.rCert = rcert
  height : rcert.height = s.own.rCert.height + 1
  round : rcert.round = 1

theorem Txn.Ready.own_wellFormed : s0.own.rCert.rClaims.WellFormed :=
  (h₀.states _ _ h₀.hasOwn.getRoundState).rCert

variable {rcert : RCert}

theorem NextHeightCert.next_ne (h : NextHeightCert s0 rcert) : s0.own.rCert.height + 1 ≠ 0 := by
  obtain ⟨v, hv, hvrc⟩ := h.holder
  obtain ⟨hv, -⟩ := List.mem_filter.mp hv
  obtain ⟨val, -, hget⟩ := List.mem_filterMap.mp hv
  have hpos : 0 < v.rCert.height := (h₀.states _ _ hget).rCert.height
  rw [hvrc, h.height] at hpos
  intro h0
  rw [h0] at hpos
  exact absurd hpos (by decide)

theorem heightJumpEmptyBlock_outcome (hcert : NextHeightCert s0 rcert) :
    Ends ce env s0 (heightJumpEmptyBlock ce env rcert) s0 := by
  simp only [Ends, heightJumpEmptyBlock, wp_bind, wp_get]
  refine wp_ext mild_rejected fun txRoot _ => ?_
  simp only [wp_bind, wp_get]
  refine wp_getHeaderTrieRoot mild_rejected fun headerRoot _ => ?_
  simp only [wp_ite, wp_pure, wp_bind]
  refine ⟨fun _ => .idle .start, fun hhash => wp_isValid mild_rejected fun ok => ?_⟩
  cases ok with
  | false => exact .idle .start
  | true =>
    simp only [if_true]
    split
    · exact .idle .start
    next m hm =>
      have hpos : 0 < s0.own.rCert.height := (Txn.Ready.own_wellFormed h₀).height
      rw [wp_bind]
      refine wp_mono (wp_setMostRecentBlockHeader .start h₀ ?_ fun hroot => ?_) (fun _ _ h => h)
        fun _ _ h => h.1
      · intro h0
        rw [show s0.own.rCert.height = 0 from h0] at hpos
        exact absurd hpos (by decide)
      · obtain ⟨v, hv, rfl⟩ := hcert.holder
        exact .commit .start ⟨rfl, hcert.next_ne h₀, ⟨m, hm⟩,
          .inr ⟨v, hv, rfl, (not_not.mp hhash).symm, hcert.height, hcert.round⟩, hroot⟩

theorem wp_castNewCommittedBlockFromProposalAndRCert {vv : Proposal}
    (hcert : NextHeightCert s0 rcert) (hvv : s0.rs.validValue = some vv)
    (hcur : s0.rs.validValueCurrent) (hhash : ce.crypto.blockHash vv.bClaims = rcert.prevBlock) :
    wp (castNewCommittedBlockFromProposalAndRCert ce env vv rcert)
      (fun _ s => ∃ bh, s = s0.commit ce bh ∧ Commits ce env s0 bh) (Tolerable ce s0) s0 := by
  have hwf := h₀.validValue vv hvv
  have hheight : vv.bClaims.height = s0.own.rCert.height := by
    have hcur : s0.rs.rCert.height = vv.rCert.height := by
      simpa [RoundStates.validValueCurrent, hvv] using hcur
    exact hwf.height.symm.trans hcur.symm
  rw [castNewCommittedBlockFromProposalAndRCert, wp_bind]
  refine wp_validate (mild_tolerable .start) (harmless_blockHeader _ _) fun hvalid => ?_
  refine wp_setMostRecentBlockHeader .start h₀ hwf.bClaims_height_ne fun hroot => ⟨_, rfl, ?_⟩
  obtain ⟨v, hv, rfl⟩ := hcert.holder
  exact ⟨hheight, hcert.next_ne h₀, hvalid, .inr ⟨v, hv, rfl, hhash.symm, hcert.height,
    hcert.round⟩, hroot⟩

theorem doHeightJumpStep_outcome {v : RoundState} (hv : v ∈ futureHeight s0.rs) :
    Ends ce env s0 (doHeightJumpStep ce env v.rCert) s0 := by
  simp only [Ends, doHeightJumpStep, wp_bind, wp_get, wp_ite, wp_pure]
  refine ⟨fun _ => .idle .start, fun hnext => ?_⟩
  have hcert : NextHeightCert s0 v.rCert :=
    ⟨⟨v, hv, rfl⟩, not_not.mp fun h => hnext (.inl h), not_not.mp fun h => hnext (.inr h)⟩
  cases hvv : s0.rs.validValue with
  | none => exact heightJumpEmptyBlock_outcome h₀ hcert
  | some vv =>
    simp only [wp_ite, wp_bind]
    refine ⟨fun hcur => ?_, fun _ => heightJumpEmptyBlock_outcome h₀ hcert⟩
    refine wp_tolerate (wp_mono (wp_castNewCommittedBlockFromProposalAndRCert h₀ hcert hvv hcur.1
      hcur.2) ?_ fun _ _ h => h) fun _ hP => .idle hP
    rintro _ _ ⟨bh, rfl, hbh⟩
    exact .commitAndClear .start hbh

end Commits

/-! ## The dispatcher -/

variable {rc : RCert}

/-- A fold that takes over a certificate of the list or keeps the one it has. -/
theorem mem_of_foldl {f : Option RCert → RoundState → Option RCert}
    (hf : ∀ m v, f m v = m ∨ f m v = some v.rCert) {l : List RoundState} {m : Option RCert}
    (h : l.foldl f m = some rc) : m = some rc ∨ ∃ v ∈ l, v.rCert = rc := by
  induction l generalizing m with
  | nil => exact .inl h
  | cons v l ih =>
    rcases ih h with hm | ⟨v', hv', hrc⟩
    · rcases hf m v with heq | heq
      · exact .inl (heq ▸ hm)
      · exact .inr ⟨v, by simp, Option.some_inj.mp (heq ▸ hm)⟩
    · exact .inr ⟨v', by simp [hv'], hrc⟩

theorem mem_of_maxHR {fh : List RoundState} (h : maxHR fh = some rc) : ∃ v ∈ fh, v.rCert = rc := by
  refine (mem_of_foldl (fun m v => ?_) h).resolve_left (by simp)
  split <;> simp

theorem mem_of_maxRCert {chFr : List RoundState} (h : maxRCert chFr = some rc) :
    ∃ v ∈ chFr, v.rCert = rc := by
  refine (mem_of_foldl (fun m v => ?_) h).resolve_left (by simp)
  cases m with
  | none => simp
  | some rc =>
    dsimp only
    split <;> simp

theorem mem_of_deadBlockRoundRCert {chFr : List RoundState}
    (h : deadBlockRoundRCert chFr = some rc) : ∃ v ∈ chFr, v.rCert = rc := by
  obtain ⟨v, hv, hrc⟩ := Option.map_eq_some_iff.mp h
  exact ⟨v, List.mem_of_find?_eq_some hv, hrc⟩

/-- If no validator has a current `NextHeight`, the node itself has none. -/
theorem not_nhCurrent_of_nil (h₀ : s0.HasOwn) (hv : s0.rs.isCurrentValidator)
    (hnil : s0.rs.getCurrentNext.1 = []) : ¬s0.own.nhCurrent s0.own.rCert := by
  intro hcur
  obtain ⟨nh, hnh, -⟩ := RoundState.nhCurrent_iff.mp hcur
  obtain ⟨val, hval, hvAddr⟩ := List.mem_map.mp (Store.isVAddrValidator_iff.mp hv)
  have hmem : nh ∈ s0.rs.getCurrentNext.1 := by
    refine RoundStates.mem_currentVotes.mpr ⟨val, hval, s0.own, ?_, hcur, hnh⟩
    rw [hvAddr, h₀.getRoundState]
  rw [hnil] at hmem
  cases hmem

theorem dispatch_outcome (h₀ : s0.HasOwn) (hnh : ¬s0.own.nhCurrent s0.own.rCert) :
    Ends ce env s0 (dispatch ce env) s0 := by
  simp only [Ends, dispatch, wp_bind, wp_get, wp_ite, wp_pure]
  refine ⟨fun hnr => doNextRoundStep_outcome h₀ ⟨.inr hnh, .inl hnr⟩ hnr, fun hnr => ?_⟩
  have hundecided : s0.Undecided := ⟨hnh, hnr⟩
  refine ⟨fun hpc => ?_, fun hpc => ⟨fun hpcn => ?_, fun hpcn => ?_⟩⟩
  · have hctx : MayDecide s0 := ⟨.inr hnh, .inr (.inl hpc)⟩
    exact ⟨fun _ => doPendingNext_outcome h₀ hundecided hctx,
      fun _ => doPreCommitStep_outcome h₀ hctx⟩
  · have hctx : MayDecide s0 := ⟨.inr hnh, .inr (.inr hpcn)⟩
    exact ⟨fun _ => doPendingNext_outcome h₀ hundecided hctx,
      fun _ => doPreCommitNilStep_outcome h₀ hundecided hctx⟩
  have huncommitted : s0.Uncommitted := ⟨hundecided, hpc, hpcn⟩
  refine ⟨fun hpv => ⟨fun _ => doPendingPreCommit_outcome h₀ huncommitted,
      fun _ => doPreVoteStep_outcome h₀ huncommitted hpv⟩, fun hpv => ⟨fun _ =>
        ⟨fun _ => doPendingPreCommit_outcome h₀ huncommitted,
          fun _ => doPreVoteNilStep_outcome h₀ huncommitted⟩, fun hpvn => ?_⟩⟩
  have hunvoted : s0.Unvoted := ⟨huncommitted, hpv, hpvn⟩
  exact ⟨fun _ => doPendingPreVoteStep_outcome h₀ hunvoted, fun _ =>
    ⟨fun h => doPendingProposalStep_outcome h₀ hunvoted h.2, fun _ => .idle .start⟩⟩

theorem validatorStep_outcome (h₀ : s0.Ready) (hv : s0.rs.isCurrentValidator) :
    Ends ce env s0 (validatorStep ce env) s0 := by
  simp only [Ends, validatorStep, wp_bind, wp_get, wp_ite]
  refine ⟨fun h => doNextRoundStep_outcome h₀.hasOwn ⟨.inl h, .inl h.1⟩ h.1, fun hleave => ?_⟩
  cases hnhl : s0.rs.getCurrentNext.1 with
  | cons nh nhl =>
    simp only [wp_ite]
    refine ⟨fun _ => doNextHeightStep_outcome h₀, fun hnh => ?_⟩
    refine wp_castNextHeightFromNextHeight .start h₀.hasOwn fun nh' => ?_
    exact .nextHeightFromNextHeight hleave hnh (by rw [hnhl]; rfl)
  | nil =>
    cases hmax : maxRCert (futureRound s0.rs) with
    | some rc =>
      obtain ⟨v, hmem, rfl⟩ := mem_of_maxRCert hmax
      exact doRoundJump_outcome h₀.hasOwn hmem
    | none => exact dispatch_outcome h₀.hasOwn (not_nhCurrent_of_nil h₀.hasOwn hv hnhl)

/-- A step of the engine prepares and takes at most one action; if the own round state rejects a
vote, it is one the step has built. -/
theorem updateLocalStateInternal_outcome (h₀ : s0.Ready) :
    Ends ce env s0 (updateLocalStateInternal ce env) s0 := by
  simp only [Ends, updateLocalStateInternal, wp_bind, wp_get]
  cases hmax : maxHR (futureHeight s0.rs) with
  | some rc =>
    obtain ⟨v, hv, rfl⟩ := mem_of_maxHR hmax
    exact doHeightJumpStep_outcome h₀ hv
  | none =>
    cases hdbr : deadBlockRoundRCert (futureRound s0.rs) with
    | some rc =>
      obtain ⟨v, hv, rfl⟩ := mem_of_deadBlockRoundRCert hdbr
      exact (wp_bind _ _).mpr (doRoundJump_outcome h₀.hasOwn hv)
    | none =>
      simp only [wp_ite, wp_bind]
      exact ⟨fun hv => validatorStep_outcome h₀ hv, fun _ => doCheckValidValue_outcome h₀⟩

end Engine

end MadNet
