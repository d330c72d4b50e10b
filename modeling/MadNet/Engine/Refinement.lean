import MadNet.Engine.Acts

/-!
# The engine does what `Outcome` says

Each part of a step is run with the weakest-precondition rules from the loaded states to its end.
-/

namespace MadNet

open Prog RoundState

/-! ## Errors of the code around the state machine -/

namespace Engine

variable {ce : Engine} {env : Env} {s s₀ : Txn} {α β : Type} {Q : α → Txn → Prop}
  {R : Err → Txn → Prop}

/-- The errors of `x` do not stand for a rejected vote. -/
def Harmless (x : Except Err α) : Prop := ∀ e, x = .error e → ¬e.isRejection

theorem Harmless.bind {x : Except Err α} {f : α → Except Err β} (hx : Harmless x)
    (hf : ∀ a, Harmless (f a)) : Harmless (x >>= f) := by
  intro e he
  cases x with
  | error e' =>
    obtain rfl : e' = e := Except.error.inj he
    exact hx e' rfl
  | ok a => exact hf a e he

theorem Harmless.map {x : Except Err α} (hx : Harmless x) (f : α → β) : Harmless (f <$> x) :=
  hx.bind fun _ _ he => nomatch he

theorem harmless_ok (a : α) : Harmless (.ok a) := fun _ he => nomatch he

theorem harmless_invalid (msg : String) : Harmless (.error (.invalid msg) : Except Err α) := by
  rintro _ ⟨⟩
  simp [Err.isRejection]

theorem toErr_not_isRejection (e : ExtErr) : ¬e.toErr.isRejection := by
  cases e <;> simp [ExtErr.toErr, Err.isRejection]

theorem harmless_ext (x : Except ExtErr α) : Harmless (Crypto.ext x) := by
  intro e he
  cases x with
  | ok a => cases he
  | error e' =>
    obtain rfl : e'.toErr = e := Except.error.inj he
    exact toErr_not_isRejection e'

theorem Harmless.mapM {f : α → Except Err β} (hf : ∀ a, Harmless (f a)) (l : List α) :
    Harmless (l.mapM f) := by
  induction l with
  | nil => exact harmless_ok _
  | cons a l ih =>
    rw [List.mapM_cons]
    exact (hf a).bind fun b => ih.bind fun bs => harmless_ok _

section Validate

variable (c : Crypto)

theorem harmless_rCert (b : RCert) : Harmless (b.validateSignature c) := by
  unfold RCert.validateSignature
  simp only [bind, Except.bind, pure, Except.pure, throw, throwThe, MonadExceptOf.throw]
  intro e he
  split_ifs at he <;> first
    | exact harmless_invalid _ e he
    | exact harmless_ok _ e he
    | exact harmless_ext _ e he

theorem harmless_proposal (b : Proposal) : Harmless (b.validateSignatures c) := by
  unfold Proposal.validateSignatures
  refine (harmless_ext _).bind fun _ => ?_
  dsimp only
  split
  · exact harmless_invalid _
  refine (harmless_rCert c _).bind fun _ => ?_
  split
  · exact harmless_invalid _
  exact (harmless_ext _).map _

theorem harmless_preVote (b : PreVote) : Harmless (b.validateSignatures c) :=
  (harmless_proposal c _).bind fun _ => (harmless_ext _).map _

theorem harmless_preVoteNil (b : PreVoteNil) : Harmless (b.validateSignatures c) :=
  (harmless_rCert c _).bind fun _ => (harmless_ext _).map _

theorem harmless_preCommit (b : PreCommit) : Harmless (b.validateSignatures c) :=
  (harmless_proposal c _).bind fun _ => (harmless_ext _).bind fun _ =>
    (Harmless.mapM (fun _ => harmless_ext _) _).map _

theorem harmless_preCommitNil (b : PreCommitNil) : Harmless (b.validateSignatures c) :=
  (harmless_rCert c _).bind fun _ => (harmless_ext _).map _

theorem harmless_marshalBinary (b : RClaims) : Harmless b.marshalBinary := by
  unfold RClaims.marshalBinary
  simp only [bind, Except.bind, pure, Except.pure, throw, throwThe, MonadExceptOf.throw]
  intro e he
  split_ifs at he <;> exact harmless_invalid _ e he

theorem harmless_nextRound (b : NextRound) : Harmless (b.validateSignatures c) :=
  ((harmless_rCert c _).bind fun _ => (harmless_marshalBinary _).bind fun _ =>
    (harmless_ext _).map _).bind fun _ => (harmless_ext _).map _

theorem harmless_nextHeight (b : NextHeight) : Harmless (b.validateSignatures c) :=
  ((harmless_proposal c _).bind fun _ => (harmless_ext _).map _).bind fun _ =>
    (harmless_ext _).bind fun _ => (Harmless.mapM (fun _ => harmless_ext _) _).map _

theorem harmless_blockHeader (b : BlockHeader) : Harmless (b.validateSignatures c) := by
  unfold BlockHeader.validateSignatures
  refine (harmless_ext _).bind fun _ => ?_
  dsimp only
  split
  · exact harmless_invalid _
  split
  · exact (harmless_ext _).map _
  · exact harmless_ok _

end Validate

/-! ## Parts of a step that leave the state as it is -/

/-- `R` takes every error that does not stand for a rejected vote. -/
def Mild (R : Err → Txn → Prop) (s : Txn) : Prop := ∀ e, ¬e.isRejection → R e s

section Readers

variable (hR : Mild R s)

include hR

theorem wp_ext {x : Except ExtErr α} (hQ : ∀ a, x = .ok a → Q a s) : wp (ext x) Q R s := by
  cases x with
  | ok a => exact hQ a rfl
  | error e => exact hR _ (toErr_not_isRejection e)

theorem wp_validate {x : Except Err β} {Q : Unit → Txn → Prop} (hx : Harmless x)
    (hQ : (∃ b, x = .ok b) → Q () s) : wp (validate x) Q R s := by
  simp only [validate, wp_bind, wp_ofExcept, wp_pure]
  exact ⟨fun b hb => hQ ⟨b, hb⟩, fun e he => hR e (hx e he)⟩

theorem wp_first {l : List α} (hQ : ∀ v, l.head? = some v → Q v s) : wp (first l) Q R s := by
  cases l with
  | nil => exact hR _ (by simp [Err.isRejection])
  | cons v l => exact hQ v rfl

theorem wp_getHeaderTrieRoot {height : UInt32} {Q : Bytes → Txn → Prop}
    (hQ : ∀ root, s.db.headerTrieRoots height = some root → Q root s) :
    wp (getHeaderTrieRoot height) Q R s := by
  simp only [getHeaderTrieRoot, wp_bind, wp_get]
  split
  next h => exact hR _ (by simp [Err.isRejection])
  next root h => exact hQ root h

theorem wp_getValidValue {Q : List Bytes × Bytes × Option Bytes × Bytes → Txn → Prop}
    (hQ : ∀ v, Q v s) : wp (getValidValue ce env) Q R s := by
  simp only [getValidValue, wp_bind, wp_get]
  refine wp_ext hR fun a _ => ?_
  simp only [wp_bind]
  refine wp_ext hR fun _ _ => ?_
  simp only [wp_bind]
  refine wp_ext hR fun _ _ => ?_
  simp only [wp_bind]
  exact wp_ext hR fun _ _ => hQ _

theorem wp_isValid {chainID : UInt32} {stateHash headerRoot : Bytes} {txs : List Bytes}
    {Q : Bool → Txn → Prop} (hQ : ∀ b, Q b s) :
    wp (isValid env chainID stateHash headerRoot txs) Q R s := by
  simp only [isValid, wp_bind, wp_get]
  refine wp_getHeaderTrieRoot hR fun root _ => ?_
  simp only [wp_ite, wp_pure]
  refine ⟨fun _ => hQ _, fun _ => ?_⟩
  split
  · exact hQ _
  · exact hR _ (toErr_not_isRejection _)
  · exact hR _ (by simp [Err.isRejection])
  · simp only [wp_bind]
    exact wp_ext hR fun _ _ => hQ _

theorem wp_applyState {chainID : UInt32} {txHashes : List Bytes} {Q : Unit → Txn → Prop}
    (hQ : Q () s) : wp (applyState env chainID txHashes) Q R s := by
  simp only [applyState, wp_bind, wp_get]
  refine wp_ext hR fun a _ => ?_
  simp only [wp_ite, wp_throw, wp_bind]
  refine ⟨fun _ => hR _ (by simp [Err.isRejection]), fun _ => ?_⟩
  exact wp_ext hR fun _ _ => wp_ext hR fun _ _ => hQ

theorem wp_signProposal {pClaims : PClaims} {txHshLst : List Bytes} {Q : Proposal → Txn → Prop}
    (hQ : ∀ signature, Q { pClaims, signature, txHshLst } s) :
    wp (signProposal ce pClaims txHshLst) Q R s := by
  simp only [signProposal, wp_ite, wp_throw, wp_bind]
  exact ⟨fun _ => hR _ (by simp [Err.isRejection]), fun _ => wp_ext hR fun _ _ => hQ _⟩

theorem wp_signNextHeight {proposal : Proposal} {preCommits : List Bytes}
    {Q : NextHeight → Txn → Prop}
    (hQ : ∀ sigShare signature, Q ⟨⟨proposal, sigShare⟩, signature, preCommits⟩ s) :
    wp (signNextHeight ce proposal preCommits) Q R s := by
  simp only [signNextHeight, wp_bind]
  refine wp_ext hR fun _ _ => ?_
  rw [wp_bind]
  exact wp_ext hR fun _ _ => hQ _ _

theorem wp_signNextRound {rCert : RCert} {Q : NextRound → Txn → Prop}
    (hQ : ∀ nr : NextRound, nr.rCert = rCert →
      nr.nrClaims.rClaims = { rCert.rClaims with round := rCert.round + 1 } →
      nr.nrClaims.rClaims.marshalBinary = .ok () → Q nr s) :
    wp (signNextRound ce rCert) Q R s := by
  simp only [signNextRound, wp_bind, wp_ofExcept]
  refine ⟨fun _ hm => ?_, fun e he => hR e (harmless_marshalBinary _ e he)⟩
  refine wp_ext hR fun _ _ => ?_
  rw [wp_bind]
  exact wp_ext hR fun _ _ => hQ _ rfl rfl hm

/-- The valid value is set, or nothing happens. -/
theorem wp_updateValidValue {p : Proposal} {Q : Unit → Txn → Prop}
    (hQ : Q () (s.setValues { s.rs.ownValidatingState with validValue := some p })) :
    wp (updateValidValue env p) Q R s := by
  simp only [updateValidValue, wp_bind, wp_get]
  split
  case h_1 | h_2 =>
    simp only [wp_pure, wp_bind]
    refine wp_isValid hR fun b => ?_
    cases b with
    | true => exact hQ
    | false => exact hR _ (by simp [Err.isRejection])
  · exact hR _ (toErr_not_isRejection _)

end Readers

/-! ## Setters -/

theorem wp_whenValidator {x : EngineM Unit} {Q : Unit → Txn → Prop} : wp (whenValidator x) Q R s ↔
      (s.rs.isCurrentValidator → wp x Q R s) ∧ (¬s.rs.isCurrentValidator → Q () s) := by
  simp only [whenValidator, wp_bind, wp_get, wp_ite, wp_pure]

theorem wp_setBroadcast {b : Broadcast} {Q : Unit → Txn → Prop} :
    wp (setBroadcast b) Q R s ↔ Q () (s.say b) := .rfl

theorem wp_onOwnRoundState (h : s.HasOwn) {x : EStateM Err RoundState α} :
    wp (onOwnRoundState x) Q R s ↔
      wp x (fun a b => Q a (s.setOwn b)) (fun e b => R e (s.setOwn b)) s.own := by
  obtain ⟨b, hb⟩ := Option.isSome_iff_exists.mp h
  have hown : s.own = b := by rw [Txn.own, RoundStates.ownRoundState, hb, Option.getD_some]
  simp only [onOwnRoundState, wp_bind, wp_get, wp_zoom]
  rw [RoundStates.wp_onRoundState _ hb, hown]
  rfl

theorem wp_setMostRecentRCert (h : s.HasOwn) {rc : RCert} {Q : Unit → Txn → Prop} :
    wp (setMostRecentRCert rc) Q R s ↔ Q () (s.setOwn (s.own.setReset (.rCert rc))) :=
  wp_onOwnRoundState h

/-- The own round state takes a vote, or the step fails. -/
theorem wp_setMostRecentVote (h : s.HasOwn) {v : Vote} {Q : Unit → Txn → Prop}
    (hQ : ∀ own, set ce.crypto v s.own = .ok true own → Q () (s.setOwn own))
    (hconflict : ∀ own, set ce.crypto v s.own = .ok false own → R .corrupt (s.setOwn own))
    (herror : ∀ e own, set ce.crypto v s.own = .error e own → R e (s.setOwn own)) :
    wp (setMostRecentVote ce v) Q R s := by
  simp only [setMostRecentVote, wp_bind, wp_onOwnRoundState h]
  unfold wp
  cases hset : set ce.crypto v s.own with
  | error e own => exact herror e own hset
  | ok ok own =>
    cases ok with
    | true => exact hQ own hset
    | false => exact hconflict own hset

theorem set_error {v : Vote} {b own : RoundState} {e : Err} (h : set ce.crypto v b = .error e own) :
    (∃ msg, e = .invalid msg) ∨ ∃ msg, e = .stale msg := by
  cases h ▸ set_result (c := ce.crypto) b v with
  | forbidden | refused | conflictDBR => exact .inl ⟨_, rfl⟩
  | behind | duplicate => exact .inr ⟨_, rfl⟩

/-! ## Casts -/

theorem mild_rejected : Mild (fun e _ => Rejected ce s₀ e) s := fun _ he h => absurd h he

/-- After an error that a step goes on after, it has done no more than prepare. -/
def Tolerable (ce : Engine) (s₀ : Txn) (e : Err) (s : Txn) : Prop :=
  Rejected ce s₀ e ∧ (e.isTolerated → Prep ce s₀ s)

theorem mild_tolerable (h : Prep ce s₀ s) : Mild (Tolerable ce s₀) s :=
  fun _ he => ⟨fun h => absurd h he, fun _ => h⟩

/-- The computation ends with an outcome of the step, or with an error about a vote that the step
has built. -/
def Ends (ce : Engine) (env : Env) (s₀ : Txn) {α : Type} (x : EngineM α) (s : Txn) : Prop :=
  wp x (fun _ => Outcome ce env s₀) (fun e _ => Rejected ce s₀ e) s

section Casts

variable (hP : Prep ce s₀ s)

include hP

theorem wp_validators {x : EngineM Unit}
    (h : s₀.rs.isCurrentValidator → wp x (fun _ => Outcome ce env s₀) R s) :
    wp (whenValidator x) (fun _ => Outcome ce env s₀) R s := by
  rw [wp_whenValidator, hP.kept.isCurrentValidator]
  exact ⟨h, fun _ => .idle hP⟩

variable (h0 : s₀.HasOwn)

include h0

/-- Storing a vote that the step has built, before or after its broadcast. -/
theorem wp_setBuilt {s' : Txn} {b : Broadcast} {v : Vote} {Q : Unit → Txn → Prop}
    (hval : s₀.rs.isCurrentValidator) (hb : Builds ce s₀ b) (hv : b.vote? = some v)
    (hown : s.HasOwn → s'.HasOwn) (heq : s'.own = s.own)
    (hQ : ∀ own, Outcome ce env s₀ (((s.say b).setOwn own).lock v) → Q () (s'.setOwn own)) :
    wp (setMostRecentVote ce v) Q (fun e _ => Rejected ce s₀ e) s' := by
  refine wp_setMostRecentVote (hown (hP.kept.hasOwn h0)) ?_ ?_ ?_
  · rw [heq]
    exact fun own hset => hQ own (.cast hP hval hb hv hset)
  · intro own hset _
    exact ⟨s, b, v, hP, hb, hv, .inr ⟨own, heq ▸ hset⟩⟩
  · intro e own hset he
    rcases set_error hset with ⟨msg, rfl⟩ | ⟨msg, rfl⟩
    · simp [Err.isRejection] at he
    · exact ⟨s, b, v, hP, hb, hv, .inl ⟨msg, own, heq ▸ hset⟩⟩

theorem wp_castProposalFromValue {prop : Proposal}
    (hb : ∀ p, p.pClaims = { prop.pClaims with rCert := s₀.own.rCert } →
      Builds ce s₀ (.proposal p)) :
    Ends ce env s₀ (castProposalFromValue ce prop) s := by
  have hK := hP.kept
  refine wp_validators hP fun hv => ?_
  simp only [wp_bind, wp_get]
  refine wp_signProposal mild_rejected fun signature => ?_
  have hb := hb ⟨{ prop.pClaims with rCert := s.rs.rCert }, signature, prop.txHshLst⟩
    (congrArg (PClaims.mk _) hK.rCert)
  simp only [wp_bind]
  refine wp_validate mild_rejected (harmless_proposal _ _) fun _ => ?_
  rw [wp_bind]
  exact wp_setBuilt hP h0 hv hb rfl id rfl fun _ => id

theorem wp_castNewProposalValue
    (hb : ∀ p : Proposal, p.rCert.height = s₀.rs.ownState.syncToBH.bClaims.height + 1 →
      p.rCert.round = s₀.own.rCert.round → p.rCert.prevBlock = s₀.own.rCert.prevBlock →
      Builds ce s₀ (.proposal p)) :
    Ends ce env s₀ (castNewProposalValue ce env) s := by
  have hK := hP.kept
  refine wp_validators hP fun hv => ?_
  simp only [wp_bind]
  refine wp_getValidValue mild_rejected fun _ => ?_
  simp only [wp_bind, wp_get]
  refine wp_signProposal mild_rejected fun signature => ?_
  simp only [wp_bind]
  refine wp_validate mild_rejected (harmless_proposal _ _) fun _ => ?_
  rw [wp_bind]
  refine wp_updateValidValue mild_rejected ?_
  rw [wp_bind]
  have hrc : s.rs.rCert = s₀.own.rCert := hK.rCert
  refine wp_setBuilt (.setValid hP) h0 hv (hb _ ?_ ?_ ?_) rfl id rfl fun _ => id
  all_goals simp [hK.ownState, hrc]

theorem wp_castPreVote {p : Proposal}
    (hb : ∀ pv : PreVote, pv.proposal = p → Builds ce s₀ (.preVote pv)) :
    Ends ce env s₀ (castPreVote ce p) s := by
  refine wp_validators hP fun hv => ?_
  simp only [wp_bind]
  refine wp_ext mild_rejected fun signature _ => ?_
  simp only [wp_bind]
  refine wp_validate mild_rejected (harmless_preVote _ _) fun _ => ?_
  simp only [setMostRecentValidValue, modifyRs, wp_bind, wp_modify]
  exact wp_setBuilt (.setValid hP) h0 hv (hb _ rfl) rfl id rfl fun _ => id

theorem wp_castPreVoteNil
    (hb : ∀ pvn : PreVoteNil, pvn.rCert = s₀.own.rCert → Builds ce s₀ (.preVoteNil pvn)) :
    Ends ce env s₀ (castPreVoteNil ce) s := by
  have hK := hP.kept
  refine wp_validators hP fun hv => ?_
  simp only [wp_bind, wp_get]
  refine wp_ext mild_rejected fun signature _ => ?_
  simp only [wp_bind]
  refine wp_validate mild_rejected (harmless_preVoteNil _ _) fun _ => ?_
  have hb := hb ⟨s.rs.rCert, signature⟩ hK.rCert
  rw [wp_bind]
  exact wp_setBuilt hP h0 hv hb rfl id rfl fun _ => id

theorem wp_castPreVoteWithLock {lock p : Proposal}
    (hb : ∀ pv : PreVote, pv.proposal = p → lock.bClaims = p.bClaims → Builds ce s₀ (.preVote pv))
    (hnil : ∀ pvn : PreVoteNil, pvn.rCert = s₀.own.rCert → Builds ce s₀ (.preVoteNil pvn)) :
    Ends ce env s₀ (castPreVoteWithLock ce lock p) s := by
  refine wp_validators hP fun hv => ?_
  simp only [wp_ite]
  refine ⟨fun heq => ?_, fun _ => wp_castPreVoteNil hP h0 hnil⟩
  exact wp_castPreVote hP h0 fun pv hpv => hb pv hpv (bClaimsEqual_iff.mp heq)

theorem wp_castPreCommit {preVotes : List PreVote}
    (hb : ∀ (pc : PreCommit) (pv : PreVote), preVotes.head? = some pv → pc.proposal = pv.proposal →
      pc.preVotes = preVotes.map (·.signature) → Builds ce s₀ (.preCommit pc)) :
    Ends ce env s₀ (castPreCommit ce preVotes) s := by
  refine wp_validators hP fun hv => ?_
  simp only [wp_bind]
  refine wp_first mild_rejected fun pv hpv => ?_
  simp only [wp_bind]
  refine wp_ext mild_rejected fun signature _ => ?_
  simp only [wp_bind]
  refine wp_validate mild_rejected (harmless_preCommit _ _) fun _ => ?_
  have hb := hb ⟨pv.proposal, signature, preVotes.map (·.signature)⟩ pv hpv rfl rfl
  simp only [setBroadcast, setMostRecentPreCommit, wp_bind, wp_modify]
  exact wp_setBuilt hP h0 hv hb rfl id rfl fun _ => id

theorem wp_castPreCommitNil
    (hb : ∀ pcn : PreCommitNil, pcn.rCert = s₀.own.rCert → Builds ce s₀ (.preCommitNil pcn)) :
    Ends ce env s₀ (castPreCommitNil ce) s := by
  have hK := hP.kept
  refine wp_validators hP fun hv => ?_
  simp only [wp_bind, wp_get]
  refine wp_ext mild_rejected fun signature _ => ?_
  simp only [wp_bind]
  refine wp_validate mild_rejected (harmless_preCommitNil _ _) fun _ => ?_
  have hb := hb ⟨s.rs.rCert, signature⟩ hK.rCert
  rw [wp_bind]
  exact wp_setBuilt hP h0 hv hb rfl id rfl fun _ => id

theorem wp_castNextRound
    (hb : ∀ nr : NextRound, nr.rCert = s₀.own.rCert →
      nr.nrClaims.rClaims = { s₀.own.rCert.rClaims with round := s₀.own.rCert.round + 1 } →
      nr.nrClaims.rClaims.marshalBinary = .ok () → Builds ce s₀ (.nextRound nr)) :
    Ends ce env s₀ (castNextRound ce) s := by
  have hK := hP.kept
  have hrc : s.rs.rCert = s₀.own.rCert := hK.rCert
  refine wp_validators hP fun hv => ?_
  simp only [wp_bind, wp_get]
  refine wp_signNextRound mild_rejected fun nr h1 h2 h3 => ?_
  rw [hrc] at h1 h2
  simp only [wp_bind]
  refine wp_validate mild_rejected (harmless_nextRound _ _) fun _ => ?_
  rw [wp_bind]
  exact wp_setBuilt hP h0 hv (hb nr h1 h2 h3) rfl id rfl fun _ => id

theorem wp_castNextRoundRCert {nrl : List NextRound} (hnrl : nrl = s₀.rs.getCurrentNext.2)
    (hnr : s₀.own.nrCurrent s₀.own.rCert) :
    Ends ce env s₀ (castNextRoundRCert ce env nrl) s := by
  have hK := hP.kept
  refine wp_validators hP fun hv => ?_
  simp only [wp_bind, wp_get]
  refine wp_ext mild_rejected fun sigGroup hagg => ?_
  simp only [wp_bind]
  refine wp_first mild_rejected fun nr hhead => ?_
  rw [hnrl] at hhead
  simp only [wp_bind]
  refine wp_validate mild_rejected (harmless_rCert _ _) fun hvalid => ?_
  rw [wp_bind, wp_setBroadcast, wp_setMostRecentRCert (hK.hasOwn h0).say]
  exact .nextRoundRCert hP ⟨hnr, ⟨_, _, hagg⟩, ⟨nr, List.mem_of_mem_head? hhead, rfl⟩, hvalid⟩

theorem wp_castNextHeightFromNextHeight {peer : NextHeight}
    (hb : ∀ nh : NextHeight, nh.proposal = peer.proposal → nh.preCommits = peer.preCommits →
      Builds ce s₀ (.nextHeightFromNextHeight nh)) :
    Ends ce env s₀ (castNextHeightFromNextHeight ce peer) s := by
  refine wp_validators hP fun hv => ?_
  simp only [wp_bind]
  refine wp_signNextHeight mild_rejected fun sigShare signature => ?_
  simp only [wp_bind]
  refine wp_validate mild_rejected (harmless_nextHeight _ _) fun _ => ?_
  have hb := hb ⟨⟨peer.proposal, sigShare⟩, signature, peer.preCommits⟩ rfl rfl
  simp only [setBroadcast, setMostRecentNextHeight, wp_bind, wp_modify]
  exact wp_setBuilt hP h0 hv hb rfl id rfl fun _ => id

/-- When the own round state refuses the `NextHeight`, it has been broadcast already. -/
theorem wp_castNextHeightFromPreCommits {preCommits : List PreCommit}
    (hb : ∀ (nh : NextHeight) (pc : PreCommit), preCommits.head? = some pc →
      nh.proposal = pc.proposal → nh.preCommits = preCommits.map (·.signature) →
      Builds ce s₀ (.nextHeightFromPreCommits nh)) :
    wp (castNextHeightFromPreCommits ce preCommits) (fun _ => Outcome ce env s₀) (Tolerable ce s₀)
      s := by
  have hK := hP.kept
  have hmild := mild_tolerable hP
  refine wp_validators hP fun hv => ?_
  simp only [wp_bind]
  refine wp_first hmild fun pc hpc => ?_
  rw [wp_bind]
  refine wp_signNextHeight hmild fun sigShare signature => ?_
  simp only [wp_bind]
  refine wp_validate hmild (harmless_nextHeight _ _) fun _ => ?_
  have hb := hb ⟨⟨pc.proposal, sigShare⟩, signature, preCommits.map (·.signature)⟩ pc hpc rfl rfl
  rw [wp_bind, wp_setBroadcast, setMostRecentNextHeight, wp_bind]
  refine wp_setMostRecentVote (hK.hasOwn h0).say (fun own hset => .cast hP hv hb rfl hset) ?_ ?_
  · intro own hset
    exact ⟨fun _ => ⟨s, _, _, hP, hb, rfl, .inr ⟨own, hset⟩⟩, by simp [Err.isTolerated]⟩
  · intro e own hset
    rcases set_error hset with ⟨msg, rfl⟩ | ⟨msg, rfl⟩
    · exact ⟨by simp [Rejected, Err.isRejection], fun _ => .unrecorded hP hv hb hset⟩
    · exact ⟨fun _ => ⟨s, _, _, hP, hb, rfl, .inl ⟨msg, own, hset⟩⟩, by simp [Err.isTolerated]⟩

end Casts

/-! ## Commits -/

theorem wp_setCommittedBlockHeader {bh : BlockHeader} {Q : Unit → Txn → Prop}
    (hheight : bh.bClaims.height ≠ 0) (hR : R .keyNotFound s)
    (hQ : (bh.bClaims.height ≠ 1 → (s.db.headerTrieRoots (bh.bClaims.height - 1)).isSome) →
      Q () { s with db := s.db.addCommitted ce.crypto bh }) :
    wp (setCommittedBlockHeader ce bh) Q R s := by
  unfold Db.addCommitted at hQ
  simp only [setCommittedBlockHeader, hheight, if_false, wp_bind, wp_ite, wp_pure,
    wp_map, wp_modify]
  refine ⟨fun h => ?_, fun h => ?_⟩
  · simpa [h] using hQ
  · simp only [getHeaderTrieRoot, wp_bind, wp_get]
    split
    next => exact hR
    next root hroot => simpa [h, hroot] using hQ

section Commits

variable (hP : Prep ce s₀ s) (h0 : s₀.Ready)

include hP h0

/-- A block is committed, or nothing is done that the step would go on after. -/
theorem wp_setMostRecentBlockHeader {bh : BlockHeader} {Q : Unit → Txn → Prop}
    (hheight : bh.bClaims.height ≠ 0)
    (hQ : (bh.bClaims.height ≠ 1 → (s₀.db.headerTrieRoots (bh.bClaims.height - 1)).isSome) →
      Q () (s.commit ce bh)) :
    wp (setMostRecentBlockHeader ce env bh) Q (Tolerable ce s₀) s := by
  obtain ⟨bs, hdb, -⟩ := hP.kept.db
  have hroots : s.db.headerTrieRoots = s₀.db.headerTrieRoots := by rw [hdb]
  simp only [setMostRecentBlockHeader, wp_bind]
  refine wp_applyState (mild_tolerable hP) ?_
  simp only [wp_bind]
  rw [wp_setMostRecentRCert (hP.kept.hasOwn h0.hasOwn)]
  rw [wp_bind]
  refine wp_setCommittedBlockHeader hheight ?_ fun hroot => ?_
  · exact ⟨by simp [Rejected, Err.isRejection], by simp [Err.isTolerated]⟩
  · exact hQ (hroots ▸ hroot)

theorem wp_castNewCommittedBlockHeader {nhl : List NextHeight}
    (hnhl : nhl = s₀.rs.getCurrentNext.1) :
    wp (castNewCommittedBlockHeader ce env nhl) (fun _ => Outcome ce env s₀) (Tolerable ce s₀)
      s := by
  have hmild := mild_tolerable hP
  simp only [castNewCommittedBlockHeader, wp_bind, wp_get]
  refine wp_ext hmild fun sigGroup hagg => ?_
  rw [wp_bind]
  refine wp_first hmild fun nh hhead => ?_
  simp only [wp_bind]
  refine wp_validate hmild (harmless_rCert _ _) fun hrc => ?_
  rw [wp_bind]
  refine wp_validate hmild (harmless_blockHeader _ _) fun hbh => ?_
  rw [hnhl] at hhead
  obtain ⟨_, -, b, hget, hcur, hb⟩ := RoundStates.mem_currentVotes.mp (List.mem_of_mem_head? hhead)
  obtain ⟨nh', hb', hheight, -⟩ := nhCurrent_iff.mp hcur
  obtain rfl := Option.some_inj.mp (hb'.symm.trans hb)
  have hwf := (h0.states _ _ hget).nextHeight nh' hb
  have hown : nh'.bClaims.height = s₀.own.rCert.height := hwf.height.symm.trans hheight.symm
  obtain ⟨_, hrc⟩ := hrc
  refine wp_setMostRecentBlockHeader hP h0 hwf.bClaims_height_ne fun hroot => .commit hP ?_
  exact ⟨hown, hown ▸ RCert.height_ne_of_validateSignature hrc, hbh, .inl ⟨_, _, hagg⟩, hroot⟩

end Commits

end Engine

end MadNet
