import MadNet.Engine.Admin

/-!
# The `NextHeight` votes of one validator

A `NextHeight` made from precommits is handed to the gossip layer before it is stored, and a refusal
by the own round state is dropped. So it can be out without a record, and once a round jump has
cleared the marks the node may sign a `NextHeight` for another block. When the own round state can
record what the node casts, all `NextHeight` votes of a height below the dead block round are for
one block: the stored one survives every change of the round, and while it is stored no other is
cast.
-/

namespace MadNet

open Prog RoundState List Constants

def Broadcast.nextHeight? : Broadcast → Option NextHeight
  | nextHeightFromPreCommits v => some v
  | nextHeightFromNextHeight v => some v
  | _ => none

/-- All `NextHeight` votes of one height below the dead block round are for one block. -/
def NextHeightUnique (log : List Broadcast) : Prop :=
  ∀ nh ∈ log.filterMap Broadcast.nextHeight?, ∀ nh' ∈ log.filterMap Broadcast.nextHeight?,
    nh.rCert.height = nh'.rCert.height → nh.rCert.round < Constants.deadBlockRound →
    nh'.rCert.round < Constants.deadBlockRound → nh.bClaims = nh'.bClaims

instance (log : List Broadcast) : Decidable (NextHeightUnique log) :=
  inferInstanceAs (Decidable (∀ nh ∈ log.filterMap Broadcast.nextHeight?,
    ∀ nh' ∈ log.filterMap Broadcast.nextHeight?, _))

/-- The own round state takes a `NextHeight`, or there are not enough precommits to make one, or it
is the dead block round. -/
def RoundStates.canRecordNextHeight (rs : RoundStates) : Bool :=
  rs.rCert.round == Constants.deadBlockRound ||
  (!rs.ownRoundState.marked && rs.ownRoundState.conflictingNextHeight.isNone) ||
  decide (rs.getCurrentPreCommits.1.length < rs.getCurrentThreshold)

/-- A step does not start from states in which a `NextHeight` cannot be recorded. -/
def Event.CanRecord (db : Db) : Event → Prop
  | .store _ => True
  | .step _ => ∀ rs ∈ (Store.loadLocalState db).toOption, rs.canRecordNextHeight

instance (db : Db) : ∀ e, Decidable (Event.CanRecord db e)
  | .store _ => inferInstanceAs (Decidable True)
  | .step _ => inferInstanceAs (Decidable (∀ rs ∈ (Store.loadLocalState db).toOption, _))

variable {ce : Engine} {env : Env} {db db' : Db} {e : Event} {s0 : Txn}

/-- What was made from precommits is recorded. -/
theorem not_unrecorded {nh : NextHeight} (hcan : s0.rs.canRecordNextHeight)
    (hround : s0.own.rCert.round ≠ deadBlockRound)
    (hb : Builds ce s0 (.nextHeightFromPreCommits nh)) : ¬Unrecorded ce s0 nh := by
  rintro ⟨s, msg, own, hP, hset⟩
  have hnot : ¬isDeadBlockRound (Vote.nextHeight nh).rCert := by
    simpa [Vote.rCert, (RCert.hr_eq_iff.mp hb.nextHeight_hr).2] using hround
  have hown := hP.kept.own_below_dbr hround
  cases hset ▸ set_result (c := ce.crypto) s.own (.nextHeight nh) with
  | forbidden hf => simp [dbrForbidden, hnot] at hf
  | conflictDBR _ hf => simp [conflictFails] at hf
  | refused _ hadm =>
    rw [resetNHForDBR, if_neg hnot, hown] at hadm
    simp only [RoundStates.canRecordNextHeight, Bool.or_eq_true, beq_iff_eq,
      decide_eq_true_eq] at hcan
    rcases hcan with (hdbr | hmark) | hlt
    · exact hround hdbr
    · exact hadm hmark
    · cases hb with
      | nextHeightFromPreCommits _ _ hle _ _ _ => exact absurd hlt (Nat.not_lt.mpr hle)

/-- A `NextHeight` that an event adds to the log. -/
structure NewNextHeight (db db' : Db) (nh : NextHeight) : Prop where
  height : nh.rCert.height = db.own.rCert.height
  round : db.own.rCert.round ≠ Constants.deadBlockRound
  empty : db.own.nextHeight = none
  recorded : db'.own.nextHeight = some nh

theorem newNextHeight_of_cast {b : Broadcast} {nh : NextHeight} (h : db.Sound)
    (hcan : e.CanRecord db) (hb : b ∈ ce.casts db e) (hnh : b.nextHeight? = some nh)
    (hlow : nh.rCert.round ≠ deadBlockRound) : NewNextHeight db (ce.next db e) nh := by
  have hv : b.vote? = some (.nextHeight nh) := by
    cases b <;> first | cases hnh; rfl | cases hnh
  obtain ⟨env, rs, s, rfl, hst, -, hbuild, hrec⟩ := Engine.cast_cases h hb hv
  have hcan : rs.canRecordNextHeight := hcan rs (by rw [hst.loaded]; rfl)
  have hcur := hbuild.current hv (by rw [hst.own₀, hst.ownState₀]; exact h.height)
  have hround : (Txn.own { db, rs }).rCert.round ≠ deadBlockRound := by
    intro hdbr
    refine hlow ?_
    cases hbuild with
    | nextHeightFromPreCommits h1 h2 h3 h4 h5 h6 =>
      cases hnh
      have hbuilds : Builds ce _ _ := .nextHeightFromPreCommits h1 h2 h3 h4 h5 h6
      have hhr := hbuilds.nextHeight_hr
      exact (RCert.hr_eq_iff.mp hhr).2.trans hdbr
    | nextHeightFromNextHeight _ _ hhead hp _ =>
      -- in the dead block round only the `NextHeight` votes of that round are current
      cases hnh
      obtain ⟨_, -, _, -, -, -, hr⟩ :=
        RoundStates.mem_getCurrentNext_fst.mp (mem_of_mem_head? hhead)
      have hr := hr (.inl (isDeadBlockRound_iff.mpr hdbr))
      rw [NextHeight.rCert, ← hp] at hr
      exact hr.symm.trans hdbr
    | _ => cases hnh
  rcases hrec with ⟨nh', rfl, hun⟩ | ⟨s1, own, hP, hset, rfl⟩
  · exact absurd hun (not_unrecorded hcan hround hbuild)
  · have htook := took_of_set (current_of_rCert hP.kept.rCert hcur) hset
    have hreset : s1.own.resetNHForDBR (.nextHeight nh) = db.own := by
      rw [hP.kept.own_below_dbr hround, hst.own₀, resetNHForDBR, if_neg]
      simpa [Vote.rCert] using hlow
    obtain ⟨⟨pvn, pcn, hown⟩, -⟩ := hst.own h.keyed
    rw [hst.own₀] at hround hcur
    refine ⟨(Current.height hcur).symm, hround, ?_, ?_⟩
    · simpa [hreset, holds] using htook.empty
    · rw [hown, Txn.own_lock, Txn.own_setOwn, htook.eq]
      rfl

/-- The signed `NextHeight` votes below the dead block round are for one block, and the one of the
own height is stored. -/
structure Db.NextHeights (db : Db) : Prop where
  sound : db.Sound
  unique : ∀ x y, .nextHeight x ∈ signedIn db.broadcasts → .nextHeight y ∈ signedIn db.broadcasts →
    x.rCert.height = y.rCert.height → x.rCert.round ≠ Constants.deadBlockRound →
    y.rCert.round ≠ Constants.deadBlockRound → x.bClaims = y.bClaims
  held : db.own.rCert.round ≠ Constants.deadBlockRound → ∀ x,
    .nextHeight x ∈ signedIn db.broadcasts → x.rCert.height = db.own.rCert.height →
    x.rCert.round ≠ Constants.deadBlockRound → db.own.nextHeight.isSome

theorem Broadcast.nextHeight_of_signed {b : Broadcast} {x : PClaims}
    (h : .nextHeight x ∈ b.signed) : ∃ nh, b.nextHeight? = some nh ∧ nh.proposal.pClaims = x := by
  cases b with
  | nextHeightFromPreCommits nh | nextHeightFromNextHeight nh =>
    exact ⟨nh, rfl, (SigMsg.nextHeight.inj (mem_singleton.mp h)).symm⟩
  | preVote v =>
    rcases mem_cons.mp h with h | h
    · cases h
    · split at h <;> simp at h
  | _ => simp [Broadcast.signed, Broadcast.vote?, Vote.sigMsg] at h

namespace Db.NextHeights

theorem next (h : db.NextHeights) (hauth : e.Authentic db) (hcan : e.CanRecord db) :
    (ce.next db e).NextHeights := by
  have hsound : (ce.next db e).Sound := Engine.sound_next h.sound hauth
  -- a vote below the dead block round was signed before, or it is new and stored now
  have hcases (x : PClaims) (hx : .nextHeight x ∈ signedIn (ce.next db e).broadcasts)
      (hlow : x.rCert.round ≠ deadBlockRound) :
      .nextHeight x ∈ signedIn db.broadcasts ∨
        ∃ nh, nh.proposal.pClaims = x ∧ NewNextHeight db (ce.next db e) nh := by
    rcases Engine.mem_signedIn_next h.sound hx with hx | ⟨b, hb, hx⟩
    · exact .inl hx
    · obtain ⟨nh, hnh, rfl⟩ := Broadcast.nextHeight_of_signed hx
      exact .inr ⟨nh, rfl, newNextHeight_of_cast h.sound hcan hb hnh hlow⟩
  -- nothing was signed before at the height of a new vote
  have hnew {nh : NextHeight} (hnh : NewNextHeight db (ce.next db e) nh) (y : PClaims)
      (hy : .nextHeight y ∈ signedIn db.broadcasts) (hlow : y.rCert.round ≠ deadBlockRound) :
      nh.rCert.height ≠ y.rCert.height := by
    intro heq
    have := h.held hnh.round y hy (heq.symm.trans hnh.height) hlow
    rw [hnh.empty] at this
    cases this
  refine ⟨hsound, fun x y hx hy hheight hxlow hylow => ?_, fun hround x hx hheight hlow => ?_⟩
  · rcases hcases x hx hxlow with hx | ⟨nh, rfl, hnh⟩ <;>
      rcases hcases y hy hylow with hy | ⟨nh', rfl, hnh'⟩
    · exact h.unique x y hx hy hheight hxlow hylow
    · exact absurd hheight.symm (hnew hnh' x hx hxlow)
    · exact absurd hheight (hnew hnh y hy hylow)
    · rw [Option.some_inj.mp (hnh.recorded.symm.trans hnh'.recorded)]
  · rcases hcases x hx hlow with hx | ⟨nh, -, hnh⟩
    · have hnot : ¬db.own.rCert.height < x.rCert.height :=
        h.sound.votes.bound (.nextHeight ⟨⟨⟨x, [], []⟩, []⟩, [], []⟩) hx
      have hmove : (ce.next db e).own.rCert = _ ∨ _ := Engine.rCert_next h.sound hauth
      have hsame : (ce.next db e).own.rCert.height = db.own.rCert.height := by
        rcases hmove with hrc | ⟨hlt, -⟩
        · rw [hrc]
        · rcases RCert.hr_lt_iff.mp hlt with hlt | ⟨heq, -⟩
          · exact absurd (hheight ▸ hlt) hnot
          · exact heq.symm
      have hround0 : db.own.rCert.round ≠ deadBlockRound := by
        intro hdbr
        rcases hmove with hrc | ⟨hlt, hle⟩
        · exact hround (by rw [hrc, hdbr])
        · rcases RCert.hr_lt_iff.mp hlt with hlt | ⟨-, hlt⟩
          · exact absurd hsame.symm (UInt32.ne_of_lt hlt)
          · rw [hdbr] at hlt
            exact absurd (hle hsame) (UInt32.not_le.mpr hlt)
      obtain ⟨nh, hnh⟩ := Option.isSome_iff_exists.mp
        (h.held hround0 x hx (hheight.trans hsame) hlow)
      exact Option.isSome_of_mem (Engine.nextHeight_next h.sound hauth hround0 hnh hsame hround)
    · rw [hnh.recorded]
      rfl

theorem of_fresh (h : db.Fresh) : db.NextHeights := by
  refine ⟨h.sound, ?_, ?_⟩ <;> simp [h.broadcasts, signedIn]

theorem nextHeightUnique (h : db.NextHeights) : NextHeightUnique db.broadcasts := by
  have hsigned {nh : NextHeight} (hnh : nh ∈ db.broadcasts.filterMap Broadcast.nextHeight?) :
      .nextHeight nh.proposal.pClaims ∈ signedIn db.broadcasts := by
    obtain ⟨b, hb, hnh⟩ := mem_filterMap.mp hnh
    refine mem_flatMap.mpr ⟨b, hb, ?_⟩
    cases b with
    | nextHeightFromPreCommits | nextHeightFromNextHeight =>
      exact Option.some_inj.mp hnh ▸ mem_singleton.mpr rfl
    | _ => cases hnh
  intro nh hnh nh' hnh' hheight hlow hlow'
  exact h.unique _ _ (hsigned hnh) (hsigned hnh') hheight (UInt32.ne_of_lt hlow)
    (UInt32.ne_of_lt hlow')

end Db.NextHeights

/-- In every run in which no step starts from states where a `NextHeight` cannot be recorded, all
`NextHeight` votes that the node casts at one height below the dead block round are for one block.
-/
theorem Engine.nextHeight_unique (ce : Engine) (db₀ : Db) (es : List Event) (hfresh : db₀.Fresh)
    (hauth : Run.Along (fun db e => e.Authentic db) ce.next db₀ es)
    (hcan : Run.Along (fun db e => e.CanRecord db) ce.next db₀ es) :
    NextHeightUnique (Run.exec ce.next db₀ es).broadcasts := by
  have halong := Run.along_and.mpr ⟨hauth, hcan⟩
  have hrun := Run.invariant Db.NextHeights (fun _ _ h he => h.next he.1 he.2)
    (.of_fresh hfresh) halong
  exact hrun.nextHeightUnique

open Four in
/-- A validator precommits with its peers and casts a `NextHeight` for the block. -/
theorem Engine.nextHeight_unique_sample :
    NextHeightUnique (Run.exec (engine 1).next (genesis 1)
      [arrives (.proposal (proposal [] 1)), .step envPto, arrives (.preVote (preVote [] 1 2)),
        arrives (.preVote (preVote [] 1 3)), .step Four.env,
        arrives (.preCommit (preCommit [] 1 2 [])),
        arrives (.preCommit (preCommit [] 1 3 [])), .step Four.env]).broadcasts :=
  nextHeight_unique (engine 1) (genesis 1) _ (fresh_genesis (by decide +kernel)) (by decide +kernel)
    (by decide +kernel)

open Four in
/-- Validator 2 votes nil on a certificate for another previous block, so that its prevote in the
own precommit is refused when that precommit comes back, and the own state is marked. The
`NextHeight` made then is not recorded. After the jump to round 2 the node copies one for another
block. -/
theorem Engine.nextHeight_two_blocks :
    let badCert := { rCert 1 with rClaims := { (rCert 1).rClaims with prevBlock := [] } }
    let es :=
      [arrives (.proposal (proposal [] 1)), .step envPto, arrives (.preVote (preVote [] 1 2)),
      arrives (.preVote (preVote [] 1 3)), .step Four.env,
      arrives (.preCommit (preCommit [] 1 3 [])),
      arrives (.preCommitNil ⟨rCert 1, [2]⟩), .step envPcto, arrives (.preCommitNil ⟨badCert, [2]⟩),
      arrives (.preCommit (preCommit [] 1 1 [[1], [2], [3]])),
      arrives (.preCommit (preCommit [] 1 4 [])), .step Four.env,
      arrives (.preVoteNil ⟨rCert 2, [2]⟩), .step Four.env,
      arrives (.nextHeight ⟨⟨proposal [7] 4, [12]⟩, [2], []⟩), .step Four.env]
    (genesis 1).Fresh ∧ Run.Along (fun db e => e.Authentic db) (engine 1).next (genesis 1) es ∧
      Run.Along (Event.Accepted .ideal) (engine 1).next (genesis 1) es ∧
      ¬NextHeightUnique (Run.exec (engine 1).next (genesis 1) es).broadcasts :=
  ⟨fresh_genesis (by decide +kernel), by decide +kernel, by decide +kernel, by decide +kernel⟩

end MadNet
