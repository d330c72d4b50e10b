import MadNet.Engine.Admin

/-!
# The votes of one validator in one round

The own round state records what the node signs in its round, and the node does not come back to a
round that it has left. So the invariant of a round state speaks of everything the node has ever
signed. What it makes from the votes of others rests on their number, not on their blocks.
-/

namespace MadNet

variable {ce : Engine} {db : Db} {e : Event} {v : Vote}

/-- The node has signed the vote, which is neither a proposal nor a `NextHeight`. -/
structure Db.Voted (db : Db) (v : Vote) : Prop where
  signed : v.sigMsg ∈ signedIn db.broadcasts
  proposal : v.kind ≠ .proposal
  nextHeight : v.kind ≠ .nextHeight

/-- The round state has all votes that were signed in the round of `rc`. -/
def RoundState.Records (b : RoundState) (db : Db) (rc : RCert) : Prop :=
  ∀ v, db.Voted v → v.rCert.hr = rc.hr → ∃ w, b.slot v.kind = some w ∧ w.sigMsg = v.sigMsg

namespace Engine

open RoundState

/-- A vote is cast in the round in which the step leaves the node. -/
theorem hr_of_cast {b : Broadcast} (h : db.Sound) (hb : b ∈ ce.casts db e) (hv : b.vote? = some v)
    (hk : v.kind ≠ .nextHeight) : v.rCert.hr = (ce.next db e).own.rCert.hr := by
  obtain ⟨env, rs, s, -, hst, -, hbuild, ⟨nh, rfl, -⟩ | ⟨s1, own, hP, hset, rfl⟩⟩ :=
    cast_cases h hb hv
  · cases hv
    exact absurd rfl hk
  · have hcur := current_of_rCert hP.kept.rCert
      (hbuild.current hv (by rw [hst.own₀, hst.ownState₀]; exact h.height))
    obtain ⟨⟨pvn, pcn, hown⟩, -⟩ := hst.own h.keyed
    rw [hown, Txn.own_lock, Txn.own_setOwn, (took_of_set hcur hset).eq]
    change v.rCert.hr = ((s1.own.resetNHForDBR v).setVote v).rCert.hr
    rw [setVote_rCert, resetNHForDBR_rCert, RCert.hr_eq_iff]
    exact ⟨hcur.height.symm, (hcur.round fun w hw => hk (by rw [hw]; rfl)).symm⟩

theorem voted_next (h : db.Sound) (hv : (ce.next db e).Voted v) :
    db.Voted v ∨ v.rCert.hr = (ce.next db e).own.rCert.hr := by
  rcases mem_signedIn_next h hv.signed with hold | ⟨b, hb, hvb⟩
  · exact .inl ⟨hold, hv.proposal, hv.nextHeight⟩
  · cases hvote : b.vote? with
    | none => cases b <;> simp_all [Broadcast.vote?, Broadcast.signed]
    | some w =>
      rcases (Broadcast.mem_signed hvote).2 v hvb with hsig | ⟨-, hk, -⟩
      · rw [Vote.rCert_of_sigMsg hsig]
        exact .inr (hr_of_cast h hb hvote (Vote.kind_of_sigMsg hsig ▸ hv.nextHeight))
      · exact absurd hk hv.proposal

/-- In every run, all votes that the node has signed in a round are in one round state with the
invariant: they are one of each kind, no vote is beside its nil counterpart, and they are for one
block. -/
theorem votes_of_round (ce : Engine) (db₀ : Db) (es : List Event) (hfresh : db₀.Fresh)
    (hauth : Run.Along (fun db e => e.Authentic db) ce.next db₀ es) (rc : RCert) :
    ∃ b : RoundState, b.Inv ∧ b.Records (Run.exec ce.next db₀ es) rc := by
  have hrun := Run.invariant (fun db => db.Sound ∧ ∃ b : RoundState, b.Inv ∧ b.Records db rc)
    (fun db e h he => ?_) ⟨hfresh.sound, db₀.own, hfresh.sound.votes.inv, fun v hv => ?_⟩ hauth
  · exact hrun.2
  · have hsound : (ce.next db e).Sound := sound_next h.1 he
    refine ⟨hsound, ?_⟩
    by_cases hcur : rc.hr = (ce.next db e).own.rCert.hr
    · refine ⟨_, hsound.votes.inv, fun v hv hhr => ?_⟩
      exact hsound.votes.recorded v hv.signed hv.proposal hv.nextHeight (hhr.trans hcur)
    · obtain ⟨b, hb, hrec⟩ := h.2
      refine ⟨b, hb, fun v hv hhr => ?_⟩
      rcases voted_next h.1 hv with hold | hnew
      · exact hrec v hold hhr
      · exact absurd (hhr.symm.trans hnew) hcur
  · have := hv.signed
    simp [hfresh.broadcasts, signedIn] at this

open Four in
/-- A validator prevotes and precommits in round 1. -/
def sampleRun : List Event :=
  [arrives (.proposal (proposal [] 1)), .step envPto, arrives (.preVote (preVote [] 1 2)),
    arrives (.preVote (preVote [] 1 3)), .step Four.env]

open Four in
theorem votes_of_round_sample : ∃ b : RoundState, b.Inv ∧
    b.Records (Run.exec (engine 1).next (genesis 1) sampleRun) (rCert 1) :=
  votes_of_round (engine 1) (genesis 1) _ (fresh_genesis (by decide +kernel)) (by decide +kernel) _

/-- In every run, no event takes the node back to an earlier round, and what the node signs is of
the round in which the event leaves it. -/
theorem votes_forward (ce : Engine) (db₀ : Db) (es : List Event) (hfresh : db₀.Fresh)
    (hauth : Run.Along (fun db e => e.Authentic db) ce.next db₀ es) :
    Run.Along (fun db e => db.own.rCert.hr ≤ (ce.next db e).own.rCert.hr ∧
      ∀ v, (ce.next db e).Voted v → db.Voted v ∨ v.rCert.hr = (ce.next db e).own.rCert.hr)
      ce.next db₀ es := by
  refine Run.along_of_invariant Db.Sound (fun db e h he => sound_next h he)
    (fun db e h he => ⟨?_, ?_⟩)
    hfresh.sound hauth
  · rcases rCert_next h he with hsame | ⟨hlater, -⟩
    · exact Nat.le_of_eq (by rw [hsame])
    · exact Nat.le_of_lt hlater
  · exact fun v hv => voted_next h hv

open Four in
theorem votes_forward_sample :
    Run.Along (fun db e => db.own.rCert.hr ≤ ((engine 1).next db e).own.rCert.hr ∧
    ∀ v, ((engine 1).next db e).Voted v → db.Voted v ∨
      v.rCert.hr = ((engine 1).next db e).own.rCert.hr)
      (engine 1).next (genesis 1) sampleRun :=
  votes_forward (engine 1) (genesis 1) _ (fresh_genesis (by decide +kernel)) (by decide +kernel)

end Engine

/-! ## The votes that a cast counts -/

namespace RoundStates

/-- As many members of the set as make a quorum have a stored vote of the own round for the block.
-/
def Quorum (r : RoundStates) (current : RoundState → RCert → Bool)
    (block : RoundState → Option BClaims) (x : BClaims) : Prop :=
  calcThreshold r.validatorSet.validators.length + 1 ≤ r.validatorSet.validators.countP fun val =>
    (r.getRoundState val.vAddr).any fun b => current b r.rCert && block b == some x

instance (r : RoundStates) (current : RoundState → RCert → Bool)
    (block : RoundState → Option BClaims) (x : BClaims) : Decidable (r.Quorum current block x) :=
  inferInstanceAs (Decidable (_ ≤ _))

theorem quorum_of_currentVotes {r : RoundStates} {db : Db} {rc : RCert} {α : Type}
    {current : RoundState → RCert → Bool} {get : RoundState → Option α} {block : α → BClaims}
    {x : BClaims} (h : Store.Loaded db rc r) (hval : r.isCurrentValidator)
    (hlen : r.getCurrentThreshold ≤ (r.currentVotes current get).length)
    (hone : ∀ v ∈ r.currentVotes current get, block v = x) :
    r.Quorum current (fun b => (get b).map block) x := by
  rw [h.threshold, if_pos hval, currentVotes, List.length_filterMap_eq_countP] at hlen
  refine hlen.trans (Nat.le_of_eq (List.countP_congr fun val hmem => ?_))
  cases hb : r.getRoundState val.vAddr with
  | none => simp
  | some b =>
    cases hget : get b with
    | none => simp [hget]
    | some v =>
      by_cases hcur : current b r.rCert
      · simp [hget, hcur, hone v (mem_currentVotes.mpr ⟨val, hmem, b, hb, hcur, hget⟩)]
      · simp [hcur]

end RoundStates

namespace Engine

open RoundState

/-- In every run, a precommit or a `NextHeight` that a step makes from votes has a quorum of them
for its block, if all the votes it counts are for this block. -/
theorem quorum_of_cast (ce : Engine) (db₀ : Db) (es : List Event) (env : Env) (rs : RoundStates)
    (hfresh : db₀.Fresh) (hauth : Run.Along (fun db e => e.Authentic db) ce.next db₀ es)
    (hload : Store.loadLocalState (Run.exec ce.next db₀ es) = .ok rs) :
    (∀ pc, .preCommit pc ∈ ce.casts (Run.exec ce.next db₀ es) (.step env) →
      (∀ v ∈ rs.getCurrentPreVotes.1, v.bClaims = pc.bClaims) →
      rs.Quorum pvCurrent (·.preVote.map (·.bClaims)) pc.bClaims) ∧
    ∀ nh, .nextHeightFromPreCommits nh ∈ ce.casts (Run.exec ce.next db₀ es) (.step env) →
      (∀ v ∈ rs.getCurrentPreCommits.1, v.bClaims = nh.proposal.bClaims) →
      rs.Quorum pcCurrent (·.preCommit.map (·.bClaims)) nh.proposal.bClaims := by
  have hsound := Run.invariant Db.Sound (fun _ _ h he => sound_next h he) hfresh.sound hauth
  obtain ⟨_, -, -, hloaded⟩ := Store.loadLocalState_ok hload
  have hbuilds {b : Broadcast} {v : Vote} (hb : b ∈ ce.casts (Run.exec ce.next db₀ es) (.step env))
      (hv : b.vote? = some v) : rs.isCurrentValidator ∧
        Builds ce { db := Run.exec ce.next db₀ es, rs } b := by
    obtain ⟨_, rs', _, -, hst, hval, hbuilds, -⟩ := cast_cases hsound hb hv
    cases hload.symm.trans hst.loaded
    exact ⟨hval, hbuilds⟩
  constructor
  · intro pc hpc hone
    obtain ⟨hval, hpc⟩ := hbuilds hpc rfl
    cases hpc with
    | preCommit _ _ hlen => exact RoundStates.quorum_of_currentVotes hloaded hval hlen hone
  · intro nh hnh hone
    obtain ⟨hval, hnh⟩ := hbuilds hnh rfl
    cases hnh with
    | nextHeightFromPreCommits _ _ hlen =>
      exact RoundStates.quorum_of_currentVotes hloaded hval hlen hone

open Four in
/-- The last step of `sampleRun`. -/
theorem quorum_sample :
    let db := Run.exec (engine 1).next (genesis 1) sampleRun.dropLast
    .preCommit (preCommit [] 1 1 [[1], [2], [3]]) ∈ (engine 1).casts db (.step Four.env) ∧
      ∃ rs, Store.loadLocalState db = .ok rs ∧
        rs.Quorum pvCurrent (·.preVote.map (·.bClaims)) (block []) := by
  intro db
  have hcast : .preCommit (preCommit [] 1 1 [[1], [2], [3]]) ∈
      (engine 1).casts db (.step Four.env) := by
    decide +kernel
  have hone : (Store.loadLocalState db).toOption.any fun rs =>
      ∀ v ∈ rs.getCurrentPreVotes.1, v.bClaims = block [] := by
    decide +kernel
  cases hrs : Store.loadLocalState db with
  | error e =>
    rw [hrs] at hone
    cases hone
  | ok rs =>
    rw [hrs] at hone
    have hquorum := (quorum_of_cast (engine 1) (genesis 1) sampleRun.dropLast Four.env rs
      (fresh_genesis (by decide +kernel)) (by decide +kernel) hrs).1
    exact ⟨hcast, rs, rfl, hquorum _ hcast (of_decide_eq_true hone)⟩

open Four in
/-- The proposer has signed two blocks, and validator 2 has prevoted for the second. Its prevote is
counted for the first. -/
theorem preCommit_without_quorum :
    let es := [arrives (.proposal (proposal [] 1)), .step envPto,
      arrives (.preVote (preVote [] 1 3)), arrives (.preVote (preVote [7] 1 2))]
    let db := Run.exec (engine 1).next (genesis 1) es
    (genesis 1).Fresh ∧ Run.Along (fun db e => e.Authentic db) (engine 1).next (genesis 1) es ∧
      Run.Along (Event.Accepted .ideal) (engine 1).next (genesis 1) es ∧
      .preCommit (preCommit [] 1 1 [[1], [2], [3]]) ∈ (engine 1).casts db (.step Four.env) ∧
      (Store.loadLocalState db).toOption.any fun rs =>
        ¬rs.Quorum pvCurrent (·.preVote.map (·.bClaims)) (block []) :=
  ⟨fresh_genesis (by decide +kernel), by decide +kernel, by decide +kernel, by decide +kernel,
    by decide +kernel⟩

end Engine

end MadNet
