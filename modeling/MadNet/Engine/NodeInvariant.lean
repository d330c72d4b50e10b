import MadNet.Engine.OwnVotes

/-!
# The invariant of a node

In every state that a node reaches, its own round state agrees with what the node has signed, and is
at the height after its last block. The only assumption on the stored messages is that none of them
carries a signature of the node that the node has not made.
-/

namespace MadNet

open Prog RoundState List Constants RCert Txn Option

structure Db.Sound (db : Db) : Prop where
  keyed : Store.Keyed db.roundStates
  present : (db.roundStates.lookup db.ownState.vAddr).isSome
  votes : OwnVotes db.own (signedIn db.broadcasts)
  height : db.own.rCert.height = db.ownState.syncToBH.bClaims.height + 1

/-- A stored message carries no vote in the name of the node that the node has not signed. -/
def Event.Authentic (db : Db) : Event → Prop
  | .store m => ∀ x ∈ m.carried, x.1 = db.ownState.vAddr → x.2.sigMsg ∈ signedIn db.broadcasts
  | .step _ => True

instance (db : Db) : ∀ e, Decidable (Event.Authentic db e)
  | .store m => inferInstanceAs (Decidable (∀ x ∈ m.carried, x.1 = db.ownState.vAddr →
      x.2.sigMsg ∈ signedIn db.broadcasts))
  | .step _ => inferInstanceAs (Decidable True)

/-! ## Stored messages -/

namespace RoundState

variable {c : Crypto} {b : RoundState} {v : Vote}

theorem after_set_rCert (h : ¬b.Ahead v) : (after (RoundState.set c v) b).rCert = b.rCert := by
  refine after_set_cases (P := fun b' => b'.rCert = b.rCert) c b v rfl (fun ha => absurd ha h)
    (fun _ => ?_) (fun _ => ?_) fun _ _ _ _ => ?_
  all_goals simp

end RoundState

namespace Db.Sound

variable {c : Crypto} {db db' : Db} {m : Msg}

theorem lookup_own (h : db.Sound) : db.roundStates.lookup db.ownState.vAddr = some db.own := by
  obtain ⟨b, hb⟩ := isSome_iff_exists.mp h.present
  rw [Db.own, hb, getD_some]

/-- What the own votes in a message and the marks of conflicts keep holds of the own state after the
message has been stored. -/
theorem own_of_stored (h : db.Sound) (hst : Handlers.Stored c db m db')
    (hauth : (Event.store m).Authentic db) {Q : RoundState → Prop} (hQ : Q db.own)
    (hset : ∀ v, v.sigMsg ∈ signedIn db.broadcasts → ∀ b, OwnVotes b (signedIn db.broadcasts) →
      b.rCert = db.own.rCert → Q b → Q (after (RoundState.set c v) b))
    (hflags : ∀ b pvn pcn, Q b → Q { b with implicitPVN := pvn, implicitPCN := pcn }) :
    (OwnVotes db'.own (signedIn db.broadcasts) ∧ db'.own.rCert = db.own.rCert ∧ Q db'.own) ∧
      (db'.roundStates.lookup db'.ownState.vAddr).isSome := by
  have hvAddr : db'.ownState.vAddr = db.ownState.vAddr := by
    rcases hst.ownState with h | ⟨bh, -, h, -⟩ <;> rw [h]
  have hall := hst.all (fun a b => a = db.ownState.vAddr →
    OwnVotes b (signedIn db.broadcasts) ∧ b.rCert = db.own.rCert ∧ Q b)
    ⟨fun b hnone _ _ ha => ?_, fun a v hv b hb ha => ?_, fun a b pvn pcn hb ha => ?_⟩ ?_
  · have hsome := hst.known _ h.present
    obtain ⟨b, hb⟩ := isSome_iff_exists.mp hsome
    rw [Db.own, hvAddr, hb]
    exact ⟨hall _ b hb rfl, rfl⟩
  · rw [ha, h.lookup_own] at hnone
    cases hnone
  · obtain ⟨hvotes, hrc, hQb⟩ := hb ha
    have hsigned := hauth (a, v) hv ha
    refine ⟨hvotes.set_signed hsigned, ?_, hset v hsigned b hvotes hrc hQb⟩
    rw [after_set_rCert (hvotes.bound v hsigned), hrc]
  · obtain ⟨hvotes, hrc, hQb⟩ := hb ha
    exact ⟨hvotes.flags pvn pcn, hrc, hflags b pvn pcn hQb⟩
  · rintro a b hb rfl
    obtain rfl := some_inj.mp (h.lookup_own.symm.trans hb)
    exact ⟨h.votes, rfl, hQ⟩

theorem stored (h : db.Sound) (hst : Handlers.Stored c db m db')
    (hauth : (Event.store m).Authentic db) : db'.Sound := by
  obtain ⟨⟨hvotes, hrc, -⟩, hpresent⟩ := h.own_of_stored hst hauth (Q := fun _ => True) trivial
    (fun _ _ _ _ _ _ => trivial) fun _ _ _ _ => trivial
  have hlog : db'.broadcasts = db.broadcasts := by rw [hst.rest]
  have hsync : db'.ownState.syncToBH = db.ownState.syncToBH := by
    rcases hst.ownState with h | ⟨bh, -, h, -⟩ <;> rw [h]
  exact ⟨hst.all _ (Store.closed_vAddr m) h.keyed,
    hpresent, by rwa [hlog], by rw [hrc, hsync, h.height]⟩

end Db.Sound

/-! ## Steps -/

variable {ce : Engine} {env : Env} {s0 s : Txn}

variable {b : Broadcast} {v : Vote}

theorem Builds.current (hb : Builds ce s b) (hv : b.vote? = some v)
    (hS : s.own.rCert.height = s.rs.ownState.syncToBH.bClaims.height + 1) : s.own.Current v := by
  have hrc {rc : RCert} (h : rc = s.own.rCert) :
      s.own.rCert.height = rc.height ∧ s.own.rCert.round = rc.round := h ▸ ⟨rfl, rfl⟩
  cases hb with
  | proposalFromValue _ _ _ _ hp =>
    cases hv
    exact hrc (congrArg PClaims.rCert hp)
  | newProposal _ _ _ _ hheight hround _ =>
    cases hv
    exact ⟨hS.trans hheight.symm, hround.symm⟩
  | preVote _ _ hp _ hpv =>
    cases hv
    obtain ⟨_, _, -, -, -, hhr⟩ := RoundStates.getCurrentProposal_eq_some.mp hp
    subst hpv
    exact hr_eq_iff.mp hhr
  | preVoteEmptyBlock _ _ hpv _ _ =>
    cases hv
    exact hrc hpv
  | preVoteNil _ hpvn =>
    cases hv
    exact hrc hpvn
  | preCommit _ _ _ hhead hpc _ =>
    cases hv
    obtain ⟨_, -, _, -, -, hhr⟩ := RoundStates.mem_getCurrentPreVotes.mp (mem_of_mem_head? hhead)
    rw [PreVote.rCert, ← hpc] at hhr
    exact hr_eq_iff.mp hhr
  | preCommitNil _ hpcn =>
    cases hv
    exact hrc hpcn
  | nextRound _ hnr _ _ =>
    cases hv
    exact hrc hnr
  | nextHeightFromPreCommits h1 h2 h3 h4 h5 h6 =>
    cases hv
    have hbuilds : Builds ce _ _ := .nextHeightFromPreCommits h1 h2 h3 h4 h5 h6
    have hhr := hbuilds.nextHeight_hr
    exact (hr_eq_iff.mp hhr).1.symm
  | nextHeightFromNextHeight _ _ hhead hp _ =>
    cases hv
    obtain ⟨_, -, _, -, -, hheight, -⟩ :=
      RoundStates.mem_getCurrentNext_fst.mp (mem_of_mem_head? hhead)
    rwa [NextHeight.rCert, ← hp] at hheight

/-- A vote of the own round that the own round state has taken. -/
structure RoundState.Took (c : Crypto) (b : RoundState) (v : Vote) (b' : RoundState) : Prop where
  eq : b' = (b.resetNHForDBR v).setVote v
  admits : (b.resetNHForDBR v).admits v
  agrees : (b.resetNHForDBR v).agreesWithStored c v
  empty : ¬(b.resetNHForDBR v).holds v

theorem RoundState.took_of_set {c : Crypto} {b b' : RoundState} (hcur : b.Current v)
    (h : RoundState.set c v b = .ok true b') : RoundState.Took c b v b' := by
  cases h ▸ RoundState.set_result (c := c) b v with
  | moved _ ha => exact absurd ha hcur.not_ahead
  | stored _ _ h1 h2 h3 => exact ⟨rfl, h1, h2, h3⟩

theorem RoundState.current_of_rCert {b b' : RoundState} (h : b'.rCert = b.rCert)
    (hcur : b.Current v) : b'.Current v := by
  cases v <;> simpa only [Current, h] using hcur

theorem signedIn_cons (b : Broadcast) (log : List Broadcast) :
    signedIn (b :: log) = b.signed ++ signedIn log := rfl

/-- What is signed for a broadcast is its vote, or the proposal in a prevote of the dead block
round. -/
theorem Broadcast.mem_signed (hv : b.vote? = some v) :
    v.sigMsg ∈ b.signed ∧ ∀ w : Vote, w.sigMsg ∈ b.signed → w.sigMsg = v.sigMsg ∨
      v.kind = .preVote ∧ w.kind = .proposal ∧ w.rCert = v.rCert := by
  cases b with
  | preVote pv =>
    cases hv
    refine ⟨mem_cons_self, fun w hw => ?_⟩
    rcases mem_cons.mp hw with hw | hw
    · exact .inl hw
    · split at hw
      · have hw : w.sigMsg = (Vote.proposal pv.proposal).sigMsg := mem_singleton.mp hw
        have hrc := Vote.rCert_of_sigMsg hw
        exact .inr ⟨rfl, Vote.kind_of_sigMsg hw, hrc⟩
      · cases hw
  | _ => simp_all [Broadcast.signed, Broadcast.vote?]

theorem Prep.ownVotes (hP : Prep ce s0 s) (h : OwnVotes s0.own (signedIn s0.db.broadcasts)) :
    OwnVotes s.own (signedIn s.db.broadcasts) := by
  induction hP with
  | start => exact h
  | setValid _ ih | clear _ _ ih => exact ih
  | @unrecorded s nh msg own hP _ hb hset ih =>
    have hhr : nh.rCert.hr = s.own.rCert.hr := hP.kept.rCert ▸ hb.nextHeight_hr
    have hsign := ih.sign_nextHeight hhr
    rw [own_setOwn]
    cases hset ▸ RoundState.set_result (c := ce.crypto) s.own (.nextHeight nh) with
    | forbidden => exact hsign
    | refused => exact hsign.resetNHForDBR _
    | conflictDBR _ hf => simp [conflictFails] at hf

/-- The certificate that a step makes is that of the next round. -/
theorem Certifies.next {rc : RCert} (h : Certifies ce env s rc) (hready : s.Ready) :
    rc.height = s.own.rCert.height ∧ rc.round = s.own.rCert.round + 1 ∧
      s.own.rCert.round < rc.round ∧ rc.round ≤ deadBlockRound := by
  obtain ⟨nr, hnr, hrc⟩ := h.rClaims
  obtain ⟨_, -, b, hget, hb, hhr⟩ := RoundStates.mem_getCurrentNext_snd.mp hnr
  have hwf := (hready.states _ _ hget).nextRound nr hb
  obtain ⟨hheight, hround⟩ := hr_eq_iff.mp hhr
  have hrcround : rc.round = s.own.rCert.round + 1 := by
    rw [RCert.round, hrc, ← hwf.round]
    exact congrArg (· + 1) hround.symm
  have hle : rc.round ≤ deadBlockRound := by
    rw [RCert.round, hrc]
    exact hwf.rClaims.round_le
  refine ⟨?_, hrcround, ?_, hle⟩
  · rw [height, hrc, ← hwf.height]
    exact hheight.symm
  · have hown : s.own.rCert.round ≤ deadBlockRound :=
      (hready.states _ _ hready.hasOwn.getRoundState).rCert.round_le
    rw [hrcround]
    rw [UInt32.le_iff_toNat_le] at hown
    rw [UInt32.lt_iff_toNat_lt, UInt32.toNat_add]
    have : deadBlockRound.toNat = 5 := rfl
    have : (1 : UInt32).toNat = 1 := rfl
    omega

theorem Engine.mem_futureRound {v : RoundState} (h : v ∈ futureRound s.rs) (hready : s.Ready) :
    v.rCert.height = s.own.rCert.height ∧ s.own.rCert.hr < v.rCert.hr ∧
      v.rCert.round ≤ deadBlockRound := by
  obtain ⟨hv, hrel⟩ := mem_filter.mp h
  obtain ⟨val, -, hget⟩ := mem_filterMap.mp hv
  simp only [Bool.and_eq_true, beq_iff_eq, relateH_eq_eq, relateHR_eq_lt] at hrel
  exact ⟨hrel.1.symm, hrel.2, (hready.states _ _ hget).rCert.round_le⟩

theorem Commits.hr_lt {bh : BlockHeader} (h : Commits ce env s bh) :
    s.own.rCert.hr < (bh.getRCert ce.crypto).hr := by
  refine hr_lt_iff.mpr (.inl ?_)
  show _ < bh.bClaims.height + 1
  rw [h.height, UInt32.lt_iff_toNat_lt, UInt32.toNat_add]
  have hne : (s.own.rCert.height + 1).toNat ≠ 0 := fun h0 => h.next (UInt32.toNat_inj.mp h0)
  rw [UInt32.toNat_add] at hne
  have : (1 : UInt32).toNat = 1 := rfl
  have := s.own.rCert.height.toNat_lt
  omega

theorem RCert.hr_lt_of_round {a b : RCert} (hheight : b.height = a.height)
    (hround : a.round < b.round) :
    a.hr < b.hr := hr_lt_iff.mpr (.inr ⟨hheight.symm, hround⟩)

theorem Engine.advance_syncToBH (bh : BlockHeader) (os : OwnState) :
    (advance bh os).syncToBH = bh := by
  unfold advance
  dsimp only
  split <;> split <;> rfl

/-- An outcome keeps the agreement of the own votes with the signatures. -/
theorem Outcome.ownVotes (h : Outcome ce env s0 s) (hready : s0.Ready)
    (hS : s0.own.rCert.height = s0.rs.ownState.syncToBH.bClaims.height + 1)
    (hvotes : OwnVotes s0.own (signedIn s0.db.broadcasts)) :
    OwnVotes s.own (signedIn s.db.broadcasts) ∧
      s.own.rCert.height = s.rs.ownState.syncToBH.bClaims.height + 1 := by
  have hprep {s : Txn} (hP : Prep ce s0 s) :
      s.own.rCert.height = s.rs.ownState.syncToBH.bClaims.height + 1 := by
    rw [hP.kept.rCert, hP.kept.ownState, hS]
  have hcommit {s : Txn} {bh : BlockHeader} (hP : Prep ce s0 s) (hbh : Commits ce env s0 bh) :
      OwnVotes (s.commit ce bh).own (signedIn (s.commit ce bh).db.broadcasts) ∧
        (s.commit ce bh).own.rCert.height = (s.commit ce bh).rs.ownState.syncToBH.bClaims.height +
        1 := by
    have hlt := hbh.hr_lt
    rw [← hP.kept.rCert] at hlt
    rw [own_commit]
    refine ⟨(hP.ownVotes hvotes).setRCert hlt (by decide : (1 : UInt32) ≤ 5), ?_⟩
    rw [setReset_rCert]
    show _ = (Engine.advance bh s.rs.ownState).syncToBH.bClaims.height + 1
    rw [Engine.advance_syncToBH]
    rfl
  cases h with
  | idle hP => exact ⟨hP.ownVotes hvotes, hprep hP⟩
  | @cast s b v own hP _ hb hv hset =>
    have hcur := current_of_rCert hP.kept.rCert (hb.current hv hS)
    have htook := took_of_set hcur hset
    obtain ⟨hmem, hall⟩ := Broadcast.mem_signed hv
    have hlog : (((s.say b).setOwn own).lock v).db.broadcasts = b :: s.db.broadcasts := by
      cases v <;> rfl
    have hos : (((s.say b).setOwn own).lock v).rs.ownState = s.rs.ownState := by cases v <;> rfl
    rw [own_lock, own_setOwn, hlog, hos, signedIn_cons, htook.eq, setVote_rCert,
      resetNHForDBR_rCert]
    refine ⟨?_, hprep hP⟩
    refine ((hP.ownVotes hvotes).resetNHForDBR v).setVote (current_resetNHForDBR.mpr hcur)
      htook.admits
      htook.agrees htook.empty (subset_append_right _ _) (mem_append_left _ hmem) ?_
    intro w hw
    rcases mem_append.mp hw with hw | hw
    · exact .inr (hall w hw)
    · exact .inl hw
  | @roundJump s v hP hv =>
    obtain ⟨hheight, hlt, hround⟩ := Engine.mem_futureRound hv hready
    rw [← hP.kept.rCert] at hlt hheight
    rw [own_setOwn]
    refine ⟨(hP.ownVotes hvotes).setRCert hlt hround, ?_⟩
    rw [setReset_rCert]
    exact hheight.trans (hprep hP)
  | @nextRoundRCert s rc hP hrc =>
    obtain ⟨hheight, -, hround, hle⟩ := hrc.next hready
    have hlt := hr_lt_of_round hheight hround
    rw [← hP.kept.rCert] at hlt hheight
    rw [own_setOwn]
    refine ⟨(hP.ownVotes hvotes).setRCert hlt hle, ?_⟩
    rw [setReset_rCert]
    exact hheight.trans (hprep hP)
  | commit hP hbh | commitAndClear hP hbh => exact hcommit hP hbh

/-- A step leaves the round only for a later one. -/
theorem Outcome.rCert (h : Outcome ce env s0 s) (hready : s0.Ready)
    (hS : s0.own.rCert.height = s0.rs.ownState.syncToBH.bClaims.height + 1) :
    s.own.rCert = s0.own.rCert ∨ s0.own.rCert.hr < s.own.rCert.hr ∧
      (s.own.rCert.height = s0.own.rCert.height → s.own.rCert.round ≤ deadBlockRound) := by
  have hcommit {s : Txn} {bh : BlockHeader} (hbh : Commits ce env s0 bh) :
      s0.own.rCert.hr < (s.commit ce bh).own.rCert.hr ∧ ((s.commit ce bh).own.rCert.height =
        s0.own.rCert.height → (s.commit ce bh).own.rCert.round ≤ deadBlockRound) := by
    rw [own_commit, setReset_rCert]
    exact ⟨hbh.hr_lt, fun _ => (by decide : (1 : UInt32) ≤ 5)⟩
  cases h with
  | idle hP => exact .inl hP.kept.rCert
  | @cast s b v own hP _ hb hv hset =>
    have htook := took_of_set (current_of_rCert hP.kept.rCert (hb.current hv hS)) hset
    rw [own_lock, own_setOwn, htook.eq, setVote_rCert, resetNHForDBR_rCert]
    exact .inl hP.kept.rCert
  | roundJump hP hv =>
    obtain ⟨-, hlt, hround⟩ := Engine.mem_futureRound hv hready
    rw [own_setOwn, setReset_rCert]
    exact .inr ⟨hlt, fun _ => hround⟩
  | nextRoundRCert hP hrc =>
    obtain ⟨hheight, -, hround, hle⟩ := hrc.next hready
    rw [own_setOwn, setReset_rCert]
    exact .inr ⟨hr_lt_of_round hheight hround, fun _ => hle⟩
  | commit hP hbh | commitAndClear hP hbh => exact .inr (hcommit hbh)

theorem Commits.height_ne {bh : BlockHeader} (h : Commits ce env s bh) :
    (bh.getRCert ce.crypto).height ≠ s.own.rCert.height := by
  intro heq
  rcases hr_lt_iff.mp h.hr_lt with hlt | ⟨-, hround⟩
  · exact absurd heq.symm (UInt32.ne_of_lt hlt)
  · have hround : s.own.rCert.round < 1 := hround
    have hheight : bh.bClaims.height + 1 = s.own.rCert.height := heq
    rw [h.height] at hheight
    simp at hheight

theorem RoundState.OwnVotes.nhCurrent {own : RoundState} {signed : List SigMsg}
    (h : OwnVotes own signed)
    (hround : own.rCert.round ≠ deadBlockRound) (hnh : own.nextHeight.isSome) :
    own.nhCurrent own.rCert := by
  obtain ⟨nh, hnh⟩ := isSome_iff_exists.mp hnh
  refine nhCurrent_iff.mpr ⟨nh, hnh, (h.inv.heightCerts _ ?_).symm, fun hdbr => ?_⟩
  · simp [heightCerts, hnh]
  · simp [hround] at hdbr

/-- Before the dead block round a step of one height does not drop the own `NextHeight`. -/
theorem Outcome.nextHeight_kept {nh : NextHeight} (h : Outcome ce env s0 s)
    (hS : s0.own.rCert.height = s0.rs.ownState.syncToBH.bClaims.height + 1)
    (hvotes : OwnVotes s0.own (signedIn s0.db.broadcasts))
    (hround0 : s0.own.rCert.round ≠ deadBlockRound)
    (hnh : nh ∈ s0.own.nextHeight) (hheight : s.own.rCert.height = s0.own.rCert.height)
    (hround : s.own.rCert.round ≠ deadBlockRound) : nh ∈ s.own.nextHeight := by
  have hreset {s1 : Txn} {rc : RCert} (hP : Prep ce s0 s1) (hh : rc.height = s0.own.rCert.height)
      (hr : rc.round ≠ deadBlockRound) :
      nh ∈ (s1.own.setReset (.rCert rc)).nextHeight := by
    rw [hP.kept.own_below_dbr hround0]
    obtain ⟨nh', cnh, heq, ⟨-, -, hlt | hr'⟩ | ⟨rfl, -, -⟩⟩ := setReset_eq s0.own (.rCert rc)
    · exact absurd hh (UInt32.ne_of_lt hlt).symm
    · exact absurd hr' hr
    · rw [heq]
      exact hnh
  have hcommit {s : Txn} {bh : BlockHeader} (hbh : Commits ce env s0 bh) :
      (s.commit ce bh).own.rCert.height ≠ s0.own.rCert.height := by
    rw [own_commit, setReset_rCert]
    exact hbh.height_ne
  cases h with
  | idle hP => rwa [hP.kept.own_below_dbr hround0]
  | @cast s1 b v own hP _ hb hv hset =>
    have hcur := hb.current hv hS
    have htook := took_of_set (current_of_rCert hP.kept.rCert hcur) hset
    have hdbr : ¬isDeadBlockRound v.rCert := by
      cases v with
      | nextHeight w =>
        cases hb with
        | nextHeightFromPreCommits h1 h2 h3 h4 h5 h6 =>
          obtain rfl := Vote.nextHeight.inj (some_inj.mp hv)
          have hbuilds : Builds ce _ _ := .nextHeightFromPreCommits h1 h2 h3 h4 h5 h6
          have hhr := hbuilds.nextHeight_hr
          have := (hr_eq_iff.mp hhr).2
          simpa [Vote.rCert, this] using hround0
        | nextHeightFromNextHeight _ hnot _ _ _ =>
          exact absurd (hvotes.nhCurrent hround0 (by simp [mem_def.mp hnh])) hnot
        | _ => cases hv
      | _ => exact hcur.not_dbr (by simp [Vote.kind]) hround0
    have heq : s1.own.resetNHForDBR v = s0.own := by
      rw [hP.kept.own_below_dbr hround0, resetNHForDBR, if_neg hdbr]
    have hempty := htook.empty
    rw [own_lock, own_setOwn, htook.eq, heq, ← slot_nextHeight, slot_setVote, if_neg,
      slot_nextHeight]
    · exact hnh
    · intro hk
      refine hempty ?_
      rw [heq, holds_eq_slot, hk, slot_nextHeight.mpr hnh]
      rfl
  | roundJump hP hv | nextRoundRCert hP hrc =>
    rw [own_setOwn, setReset_rCert] at hheight hround
    rw [own_setOwn]
    exact hreset hP hheight hround
  | commit hP hbh | commitAndClear hP hbh => exact absurd hheight (hcommit hbh)

/-- The log of a step grows by votes the step has built. A vote is recorded, and then the step ends
with it, or it is a `NextHeight` from precommits that the own round state has refused. -/
theorem Outcome.cast_of_mem {new : List Broadcast}
    (h : Outcome ce env s0 s) (hlog : s.db.broadcasts = new ++ s0.db.broadcasts) (hb : b ∈ new)
    (hv : b.vote? = some v) : s0.rs.isCurrentValidator ∧ Builds ce s0 b ∧
      ((∃ nh, b = .nextHeightFromPreCommits nh ∧ Unrecorded ce s0 nh) ∨ ∃ s1 own, Prep ce s0 s1 ∧
        RoundState.set ce.crypto v s1.own = .ok true own ∧
        s = ((s1.say b).setOwn own).lock v) := by
  have hprep {s1 : Txn} (hP : Prep ce s0 s1) {bs : List Broadcast}
      (hbs : s1.db.broadcasts = bs ++ s0.db.broadcasts) (hb : b ∈ bs) :
      s0.rs.isCurrentValidator ∧ Builds ce s0 b ∧
        ∃ nh, b = .nextHeightFromPreCommits nh ∧ Unrecorded ce s0 nh := by
    obtain ⟨bs', hdb, hall⟩ := hP.kept.db
    rw [hdb] at hbs
    obtain rfl := append_cancel_right hbs
    exact hall b hb
  have hcons {s1 : Txn} {b' : Broadcast} (hP : Prep ce s0 s1)
      (hs : s.db.broadcasts = b' :: s1.db.broadcasts) :
      b = b' ∨ s0.rs.isCurrentValidator ∧ Builds ce s0 b ∧
        ∃ nh, b = .nextHeightFromPreCommits nh ∧ Unrecorded ce s0 nh := by
    obtain ⟨bs', hdb, -⟩ := hP.kept.db
    have hnew : new = b' :: bs' := by
      refine append_cancel_right (?_ : new ++ s0.db.broadcasts = _)
      rw [← hlog, hs, hdb, cons_append]
    rw [hnew] at hb
    rcases mem_cons.mp hb with hb | hb
    · exact .inl hb
    · exact .inr (hprep hP (by rw [hdb]) hb)
  cases h with
  | idle hP | roundJump hP _ =>
    obtain ⟨h1, h2, h3⟩ := hprep hP hlog hb
    exact ⟨h1, h2, .inl h3⟩
  | @cast s1 b' v' own hP hval hbuild hv' hset =>
    rcases hcons hP (by cases v' <;> rfl) with rfl | ⟨h1, h2, h3⟩
    · obtain rfl := some_inj.mp (hv'.symm.trans hv)
      exact ⟨hval, hbuild, .inr ⟨s1, own, hP, hset, rfl⟩⟩
    · exact ⟨h1, h2, .inl h3⟩
  | nextRoundRCert hP _ | commit hP _ | commitAndClear hP _ =>
    rcases hcons hP rfl with rfl | ⟨h1, h2, h3⟩
    · cases hv
    · exact ⟨h1, h2, .inl h3⟩

theorem Outcome.log (h : Outcome ce env s0 s) :
    ∃ new, s.db.broadcasts = new ++ s0.db.broadcasts := by
  have hprep {s1 : Txn} (hP : Prep ce s0 s1) : ∃ bs, s1.db.broadcasts = bs ++ s0.db.broadcasts := by
    obtain ⟨bs, hdb, -⟩ := hP.kept.db
    exact ⟨bs, by rw [hdb]⟩
  have hcons {s1 : Txn} {b : Broadcast} (hP : Prep ce s0 s1)
      (hs : s.db.broadcasts = b :: s1.db.broadcasts) :
      ∃ new, s.db.broadcasts = new ++ s0.db.broadcasts := by
    obtain ⟨bs, hbs⟩ := hprep hP
    exact ⟨b :: bs, by rw [hs, hbs, cons_append]⟩
  cases h with
  | idle hP => exact hprep hP
  | @cast s1 b v own hP _ _ _ _ => exact hcons hP (b := b) (by cases v <;> rfl)
  | roundJump hP _ => exact (hprep hP :)
  | nextRoundRCert hP _ | commit hP _ | commitAndClear hP _ => exact hcons hP rfl

/-- What an event adds to the log. -/
def Engine.casts (ce : Engine) (db : Db) (e : Event) : List Broadcast :=
  (ce.next db e).broadcasts.take ((ce.next db e).broadcasts.length - db.broadcasts.length)

namespace Engine

variable {db db' : Db} {e : Event}

theorem Stepped.sound {rs : RoundStates} (hst : Stepped ce env db db' rs s) (h : db.Sound) :
    db'.Sound := by
  obtain ⟨hvotes, hheight⟩ := hst.outcome.ownVotes hst.ready
    (by rw [hst.own₀, hst.ownState₀]; exact h.height) (by rw [hst.own₀]; exact h.votes)
  obtain ⟨⟨pvn, pcn, hown⟩, hpresent⟩ := hst.own h.keyed
  refine ⟨?_, hpresent, ?_, ?_⟩
  · exact hst.all h.keyed (P := fun a b => b.vAddr = a) h.keyed (fun _ _ _ _ => rfl)
      (fun _ _ _ _ h => h) (hst.own_vAddr h.keyed)
  · rw [hown, hst.written]
    exact hvotes.flags pvn pcn
  · rw [hown, hst.written]
    exact hheight

variable (ce e) in
/-- An event that is not refused stores a message or is a step. -/
theorem next_cases (h : db.Sound) : ce.next db e = db ∨
    (∃ m, e = .store m ∧ Handlers.Stored ce.crypto db m (ce.next db e)) ∨
    ∃ env rs s, e = .step env ∧ Stepped ce env db (ce.next db e) rs s := by
  cases e with
  | store m =>
    cases hstore : Handlers.store ce.crypto db m with
    | error => simp [next, hstore]
    | ok db' =>
      simp only [next, hstore]
      exact .inr (.inl ⟨m, rfl, Handlers.store_ok hstore h.keyed⟩)
  | step env =>
    cases hrun : ce.runStep env db with
    | error => simp [next, hrun]
    | ok db' =>
      simp only [next, hrun]
      rcases runStep_ok hrun with heq | ⟨rs, s, hst⟩
      · exact .inl heq
      · exact .inr (.inr ⟨env, rs, s, rfl, hst⟩)

theorem broadcasts_next (h : db.Sound) :
    (ce.next db e).broadcasts = ce.casts db e ++ db.broadcasts := by
  obtain ⟨new, hnew⟩ : ∃ new, (ce.next db e).broadcasts = new ++ db.broadcasts := by
    rcases next_cases ce e h with heq | ⟨m, -, hst⟩ | ⟨env, rs, s, -, hst⟩
    · exact ⟨[], by rw [heq]; rfl⟩
    · exact ⟨[], by rw [hst.rest]; rfl⟩
    · rw [hst.written]
      exact hst.outcome.log
  rw [casts, hnew, length_append, Nat.add_sub_cancel, take_left]

/-- A vote that an event adds to the log is built by a step. It is recorded, and then the step ends
with it, or it is a `NextHeight` from precommits that the own round state has refused. -/
theorem cast_cases {b : Broadcast} {v : Vote} (h : db.Sound) (hb : b ∈ ce.casts db e)
    (hv : b.vote? = some v) : ∃ env rs s, e = .step env ∧ Stepped ce env db (ce.next db e) rs s ∧
      rs.isCurrentValidator ∧ Builds ce { db, rs } b ∧
      ((∃ nh, b = .nextHeightFromPreCommits nh ∧ Unrecorded ce { db, rs } nh) ∨
        ∃ s1 own, Prep ce { db, rs } s1 ∧
        RoundState.set ce.crypto v s1.own = .ok true own ∧
        s = ((s1.say b).setOwn own).lock v) := by
  have hlog : (ce.next db e).broadcasts = ce.casts db e ++ _ := broadcasts_next h
  rcases next_cases ce e h with heq | ⟨m, -, hst⟩ | ⟨env, rs, s, he, hst⟩
  · rw [heq] at hlog
    simp [ne_nil_of_mem hb] at hlog
  · rw [hst.rest] at hlog
    simp [ne_nil_of_mem hb] at hlog
  · rw [hst.written] at hlog
    exact ⟨env, rs, s, he, hst, hst.outcome.cast_of_mem hlog hb hv⟩

theorem mem_signedIn_next {m : SigMsg} (h : db.Sound)
    (hm : m ∈ signedIn (ce.next db e).broadcasts) :
    m ∈ signedIn db.broadcasts ∨ ∃ b ∈ ce.casts db e, m ∈ b.signed := by
  rw [broadcasts_next h, signedIn, flatMap_append, mem_append, mem_flatMap] at hm
  exact hm.symm

theorem sound_next (h : db.Sound) (hauth : e.Authentic db) : (ce.next db e).Sound := by
  rcases next_cases ce e h with heq | ⟨m, rfl, hst⟩ | ⟨env, rs, s, -, hst⟩
  · rwa [heq]
  · exact h.stored hst hauth
  · exact hst.sound h

/-- A node leaves its round only for a later one. -/
theorem rCert_next (h : db.Sound) (hauth : e.Authentic db) :
    (ce.next db e).own.rCert = db.own.rCert ∨ db.own.rCert.hr < (ce.next db e).own.rCert.hr ∧
      ((ce.next db e).own.rCert.height = db.own.rCert.height →
        (ce.next db e).own.rCert.round ≤ deadBlockRound) := by
  rcases next_cases ce e h with heq | ⟨m, rfl, hst⟩ | ⟨env, rs, s, -, hst⟩
  · exact .inl (by rw [heq])
  · exact .inl (h.own_of_stored hst hauth (Q := fun _ => True) trivial
      (fun _ _ _ _ _ _ => trivial) fun _ _ _ _ => trivial).1.2.1
  · obtain ⟨⟨pvn, pcn, hown⟩, -⟩ := hst.own h.keyed
    have hrc := hst.outcome.rCert hst.ready (by rw [hst.own₀, hst.ownState₀]; exact h.height)
    rw [hst.own₀] at hrc
    rw [hown]
    exact hrc

/-- Before the dead block round an event of one height does not drop the own `NextHeight`. -/
theorem nextHeight_next {nh : NextHeight} (h : db.Sound) (hauth : e.Authentic db)
    (hround : db.own.rCert.round ≠ deadBlockRound) (hnh : nh ∈ db.own.nextHeight)
    (hheight' : (ce.next db e).own.rCert.height = db.own.rCert.height)
    (hround' : (ce.next db e).own.rCert.round ≠ deadBlockRound) :
    nh ∈ (ce.next db e).own.nextHeight := by
  rcases next_cases ce e h with heq | ⟨m, rfl, hst⟩ | ⟨env, rs, s, -, hst⟩
  · rwa [heq]
  · refine (h.own_of_stored hst hauth (Q := fun b => nh ∈ b.nextHeight) hnh
      (fun v hv b hvotes hrc hb => ?_) fun _ _ _ hb => hb).1.2.2
    exact hvotes.nextHeight_kept hv (by rwa [hrc]) hb
  · obtain ⟨⟨pvn, pcn, hown⟩, -⟩ := hst.own h.keyed
    rw [hown] at hheight' hround' ⊢
    rw [← hst.own₀] at hround hnh hheight'
    exact hst.outcome.nextHeight_kept (by rw [hst.own₀, hst.ownState₀]; exact h.height)
      (by rw [hst.own₀]; exact h.votes) hround hnh hheight' hround'

end Engine

/-- A node that has not voted yet: all round states are empty, and its own is at the height after
its last block. -/
structure Db.Fresh (db : Db) : Prop where
  keyed : Store.Keyed db.roundStates
  present : (db.roundStates.lookup db.ownState.vAddr).isSome
  empty : ∀ a b, db.roundStates.lookup a = some b → b = b.emptied b.rCert none none
  height : db.own.rCert.height = db.ownState.syncToBH.bClaims.height + 1
  values : db.ownValidatingState = {}
  broadcasts : db.broadcasts = []

theorem Db.Fresh.own {db : Db} (h : db.Fresh) : db.own = db.own.emptied db.own.rCert none none := by
  obtain ⟨b, hb⟩ := isSome_iff_exists.mp h.present
  rw [Db.own, hb, getD_some]
  exact h.empty _ b hb

theorem Db.Fresh.sound {db : Db} (h : db.Fresh) : db.Sound := by
  refine ⟨h.keyed, h.present, ?_, h.height⟩
  rw [h.own, h.broadcasts]
  refine ⟨⟨?_, ?_, ?_, ?_, ?_⟩, ?_, ?_, ?_, ?_⟩
  · simp [roundCerts, emptied]
  · simp [heightCerts, emptied]
  · simp [emptied]
  · simp [emptied]
  · simp [roundBClaims, emptied]
  · simp [signedIn]
  · simp [signedIn]
  · intro k w hw
    cases k <;> simp [slot, emptied] at hw
  · simp [signedIn]

end MadNet
