import MadNet.Engine.Node

/-!
# The own round state and what the node has signed

The node keeps its votes in its own round state, and everything it has signed is in the log of its
broadcasts. As nobody else signs with its key, the two agree: what the own round state holds was
signed, and a vote that was signed in the current round is held. This file states the agreement and
shows that every change of the own round state keeps it.
-/

namespace MadNet

open Prog Constants

/-- What is signed in a vote. -/
def Vote.sigMsg : Vote → SigMsg
  | proposal v => .proposal v.pClaims
  | preVote v => .preVote v.proposal.pClaims
  | preVoteNil v => .preVoteNil v.rCert
  | preCommit v => .preCommit v.proposal.pClaims
  | preCommitNil v => .preCommitNil v.rCert
  | nextRound v => .nextRound v.nrClaims
  | nextHeight v => .nextHeight v.proposal.pClaims

/-- What the node has signed for a broadcast; in the dead block round it makes the proposal itself
and broadcasts it with the prevote. -/
def Broadcast.signed : Broadcast → List SigMsg
  | preVote v => .preVote v.proposal.pClaims ::
      if isDeadBlockRound v.rCert then [.proposal v.proposal.pClaims] else []
  | b => (b.vote?.map Vote.sigMsg).toList

/-- What the node has signed. -/
def signedIn (log : List Broadcast) : List SigMsg := log.flatMap Broadcast.signed

theorem Vote.kind_of_sigMsg {v w : Vote} (h : v.sigMsg = w.sigMsg) : v.kind = w.kind := by
  cases v <;> cases w <;> simp_all [Vote.sigMsg, Vote.kind]

/-- The certificate in what is signed. -/
def SigMsg.rCert : SigMsg → RCert
  | proposal v => v.rCert
  | preVote v => v.rCert
  | preVoteNil v => v
  | preCommit v => v.rCert
  | preCommitNil v => v
  | nextRound v => v.rCert
  | nextHeight v => v.rCert

theorem Vote.rCert_sigMsg (v : Vote) : v.sigMsg.rCert = v.rCert := by cases v <;> rfl

theorem Vote.rCert_of_sigMsg {v w : Vote} (h : v.sigMsg = w.sigMsg) : v.rCert = w.rCert := by
  rw [← v.rCert_sigMsg, h, w.rCert_sigMsg]

namespace RoundState

variable {c : Crypto} {own : RoundState} {signed : List SigMsg} {v w : Vote}

/-- The own round state and the signatures the node has made belong together. -/
structure OwnVotes (own : RoundState) (signed : List SigMsg) : Prop where
  inv : own.Inv
  bound : ∀ w : Vote, w.sigMsg ∈ signed → ¬own.Ahead w
  recorded : ∀ w : Vote, w.sigMsg ∈ signed → w.kind ≠ .proposal → w.kind ≠ .nextHeight →
    w.rCert.hr = own.rCert.hr → ∃ w', own.slot w.kind = some w' ∧ w'.sigMsg = w.sigMsg
  made : ∀ k w, own.slot k = some w → w.sigMsg ∈ signed
  /-- A `NextHeight` of the dead block round that was copied before the node has entered that round
  is held. -/
  dbr : ∀ nh : NextHeight, .nextHeight nh.proposal.pClaims ∈ signed →
    nh.rCert.height = own.rCert.height → nh.rCert.round = Constants.deadBlockRound →
    own.rCert.round ≠ Constants.deadBlockRound →
    ∃ nh' ∈ own.nextHeight, nh'.rCert.round = Constants.deadBlockRound

/-! ## Slots under the primitive updates -/

variable {k : VoteKind}

theorem slot_resetNHForDBR (hk : k ≠ .nextHeight) : (own.resetNHForDBR v).slot k = own.slot k := by
  obtain ⟨nh, cnh, heq, -⟩ := resetNHForDBR_eq own v
  rw [heq]
  cases k <;> first | rfl | exact absurd rfl hk

theorem slot_of_resetNHForDBR (h : (own.resetNHForDBR v).slot k = some w) :
    own.slot k = some w := by
  obtain ⟨nh, cnh, heq, hnh, -⟩ := resetNHForDBR_eq own v
  rw [heq] at h
  cases k with
  | nextHeight =>
    obtain ⟨x, hx, rfl⟩ := Option.map_eq_some_iff.mp h
    exact Option.map_eq_some_iff.mpr ⟨x, hnh x hx, rfl⟩
  | _ => exact h

theorem slot_setTypeConflict {internal : Bool} :
    (own.setTypeConflict v internal).slot k = own.slot k := by
  cases v <;> cases internal <;> cases k <;> rfl

theorem slot_nextHeight {nh : NextHeight} :
    own.slot .nextHeight = some (.nextHeight nh) ↔ nh ∈ own.nextHeight := by
  simp [slot]

theorem Current.not_dbr (h : own.Current v) (hk : v.kind ≠ .nextHeight)
    (hround : own.rCert.round ≠ deadBlockRound) : ¬isDeadBlockRound v.rCert := by
  have := h.round (by rintro w rfl; exact hk rfl)
  simpa [← this] using hround

theorem ahead_iff : own.Ahead w ↔ if w.kind = .nextHeight then own.rCert.height < w.rCert.height
    else own.rCert.hr < w.rCert.hr := by
  cases w <;> simp [Ahead, Vote.kind, Vote.rCert]

theorem ahead_of_sigMsg (h : w.sigMsg = v.sigMsg) : own.Ahead w ↔ own.Ahead v := by
  rw [ahead_iff, ahead_iff, Vote.kind_of_sigMsg h, Vote.rCert_of_sigMsg h]

theorem Current.not_ahead (h : own.Current v) : ¬own.Ahead v := by
  intro ha
  have hh := h.height
  cases v with
  | nextHeight v =>
    have ha : own.rCert.height < v.rCert.height := ha
    rw [show own.rCert.height = v.rCert.height from hh] at ha
    exact absurd ha (UInt32.lt_irrefl _)
  | _ =>
    have hr := h.round (by simp)
    exact absurd (RCert.hr_eq_iff.mpr ⟨hh, hr⟩) (Nat.ne_of_lt ha.hr_lt)

/-! ## Changes of the own round state -/

namespace OwnVotes

variable (h : OwnVotes own signed)

include h

theorem flags (pvn pcn : Bool) :
    OwnVotes { own with implicitPVN := pvn, implicitPCN := pcn } signed where
  inv := ⟨h.inv.roundCerts, h.inv.heightCerts, h.inv.preVote, h.inv.preCommit, h.inv.roundBClaims⟩
  bound := h.bound
  recorded := h.recorded
  made k := by
    have := h.made k
    cases k <;> exact this
  dbr := h.dbr

/-- Dropping the `NextHeight` votes of earlier rounds in the dead block round. -/
theorem resetNHForDBR (v : Vote) : OwnVotes (own.resetNHForDBR v) signed where
  inv := h.inv.resetNHForDBR
  bound w hw ha := h.bound w hw (by cases w <;> simpa only [Ahead, resetNHForDBR_rCert] using ha)
  recorded w hw hp hnh hr := by
    rw [slot_resetNHForDBR hnh]
    exact h.recorded w hw hp hnh (by rwa [resetNHForDBR_rCert] at hr)
  made k w hw := h.made k w (slot_of_resetNHForDBR hw)
  dbr nh hnh hheight hround hown := by
    rw [resetNHForDBR_rCert] at hheight hown
    obtain ⟨nh', hnh', hdbr⟩ := h.dbr nh hnh hheight hround hown
    refine ⟨nh', ?_, hdbr⟩
    unfold RoundState.resetNHForDBR
    split
    · exact Option.mem_filter_iff.mpr ⟨hnh', by simpa using hdbr⟩
    · exact hnh'

theorem setTypeConflict (hcur : own.Current v) : OwnVotes (own.setTypeConflict v true) signed where
  inv := h.inv.setTypeConflict hcur
  bound w hw ha := h.bound w hw (by cases w <;> simpa only [Ahead, setTypeConflict_rCert] using ha)
  recorded w hw hp hnh hr := by
    rw [slot_setTypeConflict]
    exact h.recorded w hw hp hnh (by rwa [setTypeConflict_rCert] at hr)
  made k w hw := h.made k w (by rwa [slot_setTypeConflict] at hw)
  dbr nh hnh hheight hround hown := by
    rw [setTypeConflict_rCert] at hheight hown
    obtain ⟨nh', hnh', hdbr⟩ := h.dbr nh hnh hheight hround hown
    refine ⟨nh', ?_, hdbr⟩
    rwa [← slot_nextHeight, slot_setTypeConflict, slot_nextHeight]

/-- Storing a vote in an empty slot; it was signed before or it is signed now, and so may be the
proposal in it. -/
theorem setVote {signed' : List SigMsg} (hcur : own.Current v) (hadm : own.admits v)
    (hagr : own.agreesWithStored c v) (hhold : ¬own.holds v) (hsub : signed ⊆ signed')
    (hv : v.sigMsg ∈ signed')
    (hnew : ∀ w : Vote, w.sigMsg ∈ signed' → w.sigMsg ∈ signed ∨ w.sigMsg = v.sigMsg ∨
      v.kind = .preVote ∧ w.kind = .proposal ∧ w.rCert = v.rCert) :
    OwnVotes (own.setVote v) signed' := by
  have hempty : own.slot v.kind = none := by simpa [holds_eq_slot] using hhold
  refine ⟨h.inv.setVote hcur hadm hagr, fun w hw ha => ?_, fun w hw hp hnh hr => ?_,
    fun k w hw => ?_,
    fun nh hnh hheight hround hown => ?_⟩
  · have ha : own.Ahead w := by simpa only [ahead_iff, setVote_rCert] using ha
    rcases hnew w hw with hw | hw | ⟨hkv, hk, hrc⟩
    · exact h.bound w hw ha
    · exact hcur.not_ahead ((ahead_of_sigMsg hw).mp ha)
    · refine hcur.not_ahead ?_
      rw [ahead_iff] at ha ⊢
      simpa [hkv, hk, hrc] using ha
  · rw [setVote_rCert] at hr
    rcases hnew w hw with hw | hw | ⟨-, hk, -⟩
    · obtain ⟨w', hslot, hsig⟩ := h.recorded w hw hp hnh hr
      refine ⟨w', ?_, hsig⟩
      rw [slot_setVote, if_neg, hslot]
      intro hk
      rw [← hk, hempty] at hslot
      cases hslot
    · exact ⟨v, by rw [slot_setVote, if_pos (Vote.kind_of_sigMsg hw).symm], hw.symm⟩
    · exact absurd hk hp
  · rw [slot_setVote] at hw
    split at hw
    · exact Option.some_inj.mp hw ▸ hv
    · exact hsub (h.made k w hw)
  · rw [setVote_rCert] at hheight hown
    rcases hnew (.nextHeight nh) hnh with hnh | hnh | ⟨-, hk, -⟩
    · obtain ⟨nh', hnh', hdbr⟩ := h.dbr nh hnh hheight hround hown
      refine ⟨nh', ?_, hdbr⟩
      rw [← slot_nextHeight] at hnh' ⊢
      rw [slot_setVote, if_neg, hnh']
      intro hk
      rw [← hk, hempty] at hnh'
      cases hnh'
    · cases v with
      | nextHeight nh' =>
        refine ⟨nh', rfl, ?_⟩
        rw [← hround]
        exact congrArg RCert.round (Vote.rCert_of_sigMsg hnh).symm
      | _ => cases hnh
    · cases hk

/-- A stored message carries a vote that the node has signed before. -/
theorem set_signed (hv : v.sigMsg ∈ signed) : OwnVotes (after (RoundState.set c v) own) signed := by
  refine after_set_cases (P := fun b => OwnVotes b signed) c own v h (fun ha => ?_) (fun _ => ?_)
    (fun hcur => ?_) fun hcur hadm hagr hhold => ?_
  · exact absurd ha (h.bound v hv)
  · exact h.resetNHForDBR v
  · exact (h.resetNHForDBR v).setTypeConflict (current_resetNHForDBR.mpr hcur)
  · exact (h.resetNHForDBR v).setVote (current_resetNHForDBR.mpr hcur) hadm hagr hhold
      (List.Subset.refl _) hv fun _ hw => .inl hw

/-- Before the dead block round, a vote that was signed before does not drop the stored
`NextHeight`. -/
theorem nextHeight_kept (hv : v.sigMsg ∈ signed) (hround : own.rCert.round ≠ deadBlockRound)
    {nh : NextHeight} (hnh : nh ∈ own.nextHeight) :
    nh ∈ (after (RoundState.set c v) own).nextHeight := by
  have hreset (hcur : own.Current v) : nh ∈ (own.resetNHForDBR v).nextHeight := by
    unfold RoundState.resetNHForDBR
    split
    next hdbr =>
      refine Option.mem_filter_iff.mpr ⟨hnh, ?_⟩
      cases v with
      | nextHeight w =>
        obtain ⟨nh', hnh', hdbr'⟩ := h.dbr w hv (Current.height hcur).symm
          (by simpa [Vote.rCert] using hdbr) hround
        obtain rfl := Option.mem_unique hnh hnh'
        simpa using hdbr'
      | _ => exact absurd hdbr (hcur.not_dbr (by simp [Vote.kind]) hround)
    next => exact hnh
  refine after_set_cases (P := fun b => nh ∈ b.nextHeight) c own v hnh
    (fun ha => absurd ha (h.bound v hv)) hreset (fun hcur => ?_) fun hcur _ _ hempty => ?_
  · rw [← slot_nextHeight, slot_setTypeConflict, slot_nextHeight]
    exact hreset hcur
  · rw [← slot_nextHeight, slot_setVote, if_neg, slot_nextHeight]
    · exact hreset hcur
    · intro hk
      refine hempty ?_
      rw [holds_eq_slot, hk, slot_nextHeight.mpr (hreset hcur)]
      rfl

/-- The node enters a later round or height. -/
theorem setRCert {rc : RCert} (hlt : own.rCert.hr < rc.hr) (hround : rc.round ≤ deadBlockRound) :
    OwnVotes (own.setReset (.rCert rc)) signed := by
  obtain ⟨nh, cnh, heq, hnh⟩ := setReset_eq own (.rCert rc)
  have hheight : own.rCert.height ≤ rc.height := by
    rcases RCert.hr_lt_iff.mp hlt with h | ⟨h, -⟩
    · exact UInt32.le_of_lt h
    · exact UInt32.le_of_eq h
  have hslot {k w} (hk : k ≠ .nextHeight) : (own.setReset (.rCert rc)).slot k ≠ some w := by
    rw [heq]
    cases k <;> simp_all [slot, setType, emptied]
  refine ⟨h.inv.setReset hheight, fun w hw ha => ?_, fun w hw hp hk hr => ?_, fun k w hw => ?_,
    fun v hv hh hr hown => ?_⟩
  · refine h.bound w hw ?_
    rw [ahead_iff, setReset_rCert] at ha
    rw [ahead_iff]
    split
    next hk =>
      rw [if_pos hk] at ha
      exact UInt32.lt_of_le_of_lt hheight ha
    next hk =>
      rw [if_neg hk] at ha
      exact Nat.lt_trans hlt ha
  · rw [setReset_rCert] at hr
    refine absurd (ahead_iff.mpr ?_) (h.bound w hw)
    rw [if_neg hk, hr]
    exact hlt
  · by_cases hk : k = .nextHeight
    · subst hk
      rw [heq] at hw
      rcases hnh with ⟨rfl, -, -⟩ | ⟨rfl, -, -⟩
      · simp [slot, setType, emptied] at hw
      · exact h.made .nextHeight w hw
    · exact absurd hw (hslot hk)
  · rw [setReset_rCert] at hh hown
    have hh : v.rCert.height = rc.height := hh
    have hnot : ¬own.rCert.height < rc.height := by
      rw [← hh]
      exact h.bound (.nextHeight v) hv
    have heqh : own.rCert.height = rc.height := UInt32.le_antisymm hheight (UInt32.not_lt.mp hnot)
    have hltr : own.rCert.round < rc.round := (RCert.hr_lt_iff.mp hlt).resolve_left hnot |>.2
    have hown' : own.rCert.round ≠ deadBlockRound :=
      UInt32.ne_of_lt (UInt32.lt_of_lt_of_le hltr hround)
    obtain ⟨nh', hnh', hdbr⟩ := h.dbr v hv (hh.trans heqh.symm) hr hown'
    refine ⟨nh', ?_, hdbr⟩
    rw [heq]
    rcases hnh with ⟨-, -, hlt' | hr'⟩ | ⟨rfl, -, -⟩
    · exact absurd hlt' hnot
    · exact absurd hr' hown
    · exact hnh'

/-- The node signs a `NextHeight` of its round that it does not store. -/
theorem sign_nextHeight {nh : NextHeight} (hhr : nh.rCert.hr = own.rCert.hr) :
    OwnVotes own (.nextHeight nh.proposal.pClaims :: signed) := by
  obtain ⟨hheight, hround⟩ := RCert.hr_eq_iff.mp hhr
  have hcases {w : Vote} (hw : w.sigMsg ∈ SigMsg.nextHeight nh.proposal.pClaims :: signed) :
      w.sigMsg = (Vote.nextHeight nh).sigMsg ∨ w.sigMsg ∈ signed := List.mem_cons.mp hw
  refine ⟨h.inv, fun w hw ha => ?_, fun w hw hp hk hr => ?_, fun k w hw => ?_,
    fun v hv hh hr hown => ?_⟩
  · rcases hcases hw with hw | hw
    · exact Current.not_ahead (v := .nextHeight nh) hheight.symm ((ahead_of_sigMsg hw).mp ha)
    · exact h.bound w hw ha
  · rcases hcases hw with hw | hw
    · exact absurd (Vote.kind_of_sigMsg hw) hk
    · exact h.recorded w hw hp hk hr
  · exact List.mem_cons_of_mem _ (h.made k w hw)
  · rcases hcases (w := .nextHeight v) hv with hv | hv
    · refine absurd ?_ hown
      rw [← hround, ← hr]
      exact congrArg RCert.round (Vote.rCert_of_sigMsg hv).symm
    · exact h.dbr v hv hh hr hown

end OwnVotes

end RoundState

end MadNet
