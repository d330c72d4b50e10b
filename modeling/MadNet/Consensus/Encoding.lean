import MadNet.Consensus.RoundStates

/-!
# Decoding

A message from a peer and a value from the database are decoded by `UnmarshalCapn`, which refuses
values that are not well formed. The functions here are these checks, in the order the Go code makes
them; the byte lengths, which the capnproto validators check, are not modelled.
-/

namespace MadNet

/-- `if c { return ErrInvalid{}.New(msg) }`; decoding has no other errors. -/
def refuseIf (c : Prop) [Decidable c] (msg : String) : Except String Unit :=
  if c then .error msg else .ok ()

section Unmarshal

def RClaims.unmarshalCapn (b : RClaims) : Except String Unit := do
  refuseIf (b.height < 1) "RClaims.UnmarshalCapn; height is zero"
  refuseIf (b.round < 1) "RClaims.UnmarshalCapn; round is zero"
  refuseIf (b.chainID < 1) "RClaims.UnmarshalCapn; chainID is zero"
  refuseIf (b.round > Constants.deadBlockRound) "RClaims.UnmarshalCapn; round > DBR"

def RCert.unmarshalCapn (b : RCert) : Except String Unit := b.rClaims.unmarshalCapn

def BClaims.unmarshalCapn (b : BClaims) : Except String Unit := do
  refuseIf (b.height < 1) "BClaims.UnmarshalCapn; height is zero"
  refuseIf (b.chainID < 1) "BClaims.UnmarshalCapn; chainID is zero"

def PClaims.unmarshalCapn (b : PClaims) : Except String Unit := do
  b.rCert.unmarshalCapn
  b.bClaims.unmarshalCapn
  refuseIf (b.rCert.chainID ≠ b.bClaims.chainID) "PClaims.UnmarshalCapn; pclaims chainID != chainID"
  refuseIf (b.rCert.height ≠ b.bClaims.height) "PClaims.UnmarshalCapn; pclaims height != height"
  refuseIf (b.rCert.prevBlock ≠ b.bClaims.prevBlock)
    "PClaims.UnmarshalCapn; pclaims prevBlock != prevBlock"

def Proposal.unmarshalCapn (b : Proposal) : Except String Unit := do
  b.pClaims.unmarshalCapn
  refuseIf (isDeadBlockRound b.rCert && !b.txHshLst.isEmpty)
    "Proposal.UnmarshalCapn; nonempty TxHshLst in DeadBlockRound"

def NRClaims.unmarshalCapn (b : NRClaims) : Except String Unit := do
  b.rCert.unmarshalCapn
  b.rClaims.unmarshalCapn
  refuseIf (b.rCert.height ≠ b.rClaims.height) "NRClaims.UnmarshalCapn; nrclaims height mismatch"
  refuseIf (b.rCert.round + 1 ≠ b.rClaims.round) "NRClaims.UnmarshalCapn; nrclaims round not plus 1"
  refuseIf (b.rCert.chainID ≠ b.rClaims.chainID)
    "NRClaims.UnmarshalCapn; nrclaims chainID != chainID"
  refuseIf (b.rCert.prevBlock ≠ b.rClaims.prevBlock)
    "NRClaims.UnmarshalCapn; nrclaims prevBlock != prevBlock"

def PreVote.unmarshalCapn (b : PreVote) : Except String Unit := b.proposal.unmarshalCapn

def PreVoteNil.unmarshalCapn (b : PreVoteNil) : Except String Unit := b.rCert.unmarshalCapn

def PreCommit.unmarshalCapn (b : PreCommit) : Except String Unit := b.proposal.unmarshalCapn

def PreCommitNil.unmarshalCapn (b : PreCommitNil) : Except String Unit := b.rCert.unmarshalCapn

def NextRound.unmarshalCapn (b : NextRound) : Except String Unit := b.nrClaims.unmarshalCapn

def NextHeight.unmarshalCapn (b : NextHeight) : Except String Unit := b.proposal.unmarshalCapn

def BlockHeader.unmarshalCapn (b : BlockHeader) : Except String Unit := do
  b.bClaims.unmarshalCapn
  refuseIf (b.txHshLst.length ≠ b.bClaims.txCount.toNat)
    "BlockHeader.UnmarshalCapn; incorrect txHshLst length"

def Vote.unmarshalCapn : Vote → Except String Unit
  | proposal v => v.unmarshalCapn
  | preVote v => v.unmarshalCapn
  | preVoteNil v => v.unmarshalCapn
  | preCommit v => v.unmarshalCapn
  | preCommitNil v => v.unmarshalCapn
  | nextRound v => v.unmarshalCapn
  | nextHeight v => v.unmarshalCapn

/-- Decode the votes a round state may lack. -/
def Vote.unmarshalCapn? (make : α → Vote) (b : Option α) : Except String Unit :=
  match b with
  | none => return
  | some v => (make v).unmarshalCapn

def RoundState.unmarshalCapn (b : RoundState) : Except String Unit := do
  b.rCert.unmarshalCapn
  b.conflictingRCert.forM RCert.unmarshalCapn
  Vote.unmarshalCapn? .proposal b.proposal
  Vote.unmarshalCapn? .proposal b.conflictingProposal
  Vote.unmarshalCapn? .preVote b.preVote
  Vote.unmarshalCapn? .preVote b.conflictingPreVote
  Vote.unmarshalCapn? .preVoteNil b.preVoteNil
  Vote.unmarshalCapn? .preCommit b.preCommit
  Vote.unmarshalCapn? .preCommit b.conflictingPreCommit
  Vote.unmarshalCapn? .preCommitNil b.preCommitNil
  Vote.unmarshalCapn? .nextRound b.nextRound
  Vote.unmarshalCapn? .nextHeight b.nextHeight
  Vote.unmarshalCapn? .nextHeight b.conflictingNextHeight

def OwnState.unmarshalCapn (b : OwnState) : Except String Unit := do
  b.syncToBH.unmarshalCapn
  b.maxBHSeen.unmarshalCapn
  b.canonicalSnapShot.unmarshalCapn
  b.pendingSnapShot.unmarshalCapn

def OwnValidatingState.unmarshalCapn (b : OwnValidatingState) : Except String Unit := do
  Vote.unmarshalCapn? .proposal b.lockedValue
  Vote.unmarshalCapn? .proposal b.validValue

end Unmarshal

/-- Decode `b`, whose checks are `x`. -/
def decode (x : Except String Unit) (b : α) : Except Err α :=
  match x with
  | .error msg => .error (.invalid msg)
  | .ok _ => .ok b

/-! ## What decoding guarantees -/

variable {x : Except String Unit}

@[simp] theorem decode_eq_ok {b b' : α} : decode x b = .ok b' ↔ x = .ok () ∧ b = b' := by
  cases x <;> simp [decode]

theorem decode_ne_keyNotFound {b : α} : decode x b ≠ .error .keyNotFound := by
  cases x <;> simp [decode]

structure RClaims.WellFormed (b : RClaims) : Prop where
  height : 0 < b.height
  round : 0 < b.round
  chainID : 0 < b.chainID
  round_le : b.round ≤ Constants.deadBlockRound

structure Proposal.WellFormed (b : Proposal) : Prop where
  rClaims : b.rCert.rClaims.WellFormed
  chainID : b.rCert.chainID = b.bClaims.chainID
  height : b.rCert.height = b.bClaims.height
  prevBlock : b.rCert.prevBlock = b.bClaims.prevBlock
  txHshLst : isDeadBlockRound b.rCert → b.txHshLst = []

structure NRClaims.WellFormed (b : NRClaims) : Prop where
  rCert : b.rCert.rClaims.WellFormed
  rClaims : b.rClaims.WellFormed
  height : b.rCert.height = b.rClaims.height
  round : b.rCert.round + 1 = b.rClaims.round
  chainID : b.rCert.chainID = b.rClaims.chainID
  prevBlock : b.rCert.prevBlock = b.rClaims.prevBlock

@[simp] theorem refuseIf_ok {c : Prop} [Decidable c] {msg : String} :
    refuseIf c msg = .ok () ↔ ¬c := by
  unfold refuseIf
  split <;> simp_all

theorem bind_ok_iff {f : Unit → Except String Unit} : x >>= f = .ok () ↔ x = .ok () ∧
    f () = .ok () := by
  rw [Prog.bind_eq_ok]
  exact ⟨fun ⟨_, h⟩ => h, fun h => ⟨_, h⟩⟩

theorem RClaims.unmarshalCapn_ok {b : RClaims} : b.unmarshalCapn = .ok () ↔ b.WellFormed := by
  simp only [unmarshalCapn, bind_ok_iff, refuseIf_ok, gt_iff_lt, UInt32.not_lt]
  exact ⟨fun ⟨h1, h2, h3, h4⟩ => ⟨h1, h2, h3, h4⟩, fun ⟨h1, h2, h3, h4⟩ => ⟨h1, h2, h3, h4⟩⟩

theorem Proposal.wellFormed_of_unmarshalCapn {b : Proposal} (h : b.unmarshalCapn = .ok ()) :
    b.WellFormed := by
  simp only [unmarshalCapn, PClaims.unmarshalCapn, RCert.unmarshalCapn, bind_ok_iff, refuseIf_ok,
    RClaims.unmarshalCapn_ok, Decidable.not_not] at h
  obtain ⟨⟨h1, -, h2, h3, h4⟩, h5⟩ := h
  refine ⟨h1, h2, h3, h4, fun hdbr => ?_⟩
  simpa [hdbr] using h5

theorem Proposal.WellFormed.bClaims_height_ne {p : Proposal} (h : p.WellFormed) :
    p.bClaims.height ≠ 0 := by
  intro h0
  have hpos : 0 < p.rCert.height := h.rClaims.height
  rw [h.height, h0] at hpos
  exact absurd hpos (by decide)

theorem NRClaims.wellFormed_of_unmarshalCapn {b : NRClaims} (h : b.unmarshalCapn = .ok ()) :
    b.WellFormed := by
  simp only [unmarshalCapn, RCert.unmarshalCapn, bind_ok_iff, refuseIf_ok,
    RClaims.unmarshalCapn_ok, Decidable.not_not] at h
  obtain ⟨h1, h2, h3, h4, h5, h6⟩ := h
  exact ⟨h1, h2, h3, h4, h5, h6⟩

/-- What decoding a vote has checked. -/
def Vote.WellFormed : Vote → Prop
  | proposal v => v.WellFormed
  | preVote v => v.proposal.WellFormed
  | preVoteNil v => v.rCert.rClaims.WellFormed
  | preCommit v => v.proposal.WellFormed
  | preCommitNil v => v.rCert.rClaims.WellFormed
  | nextRound v => v.nrClaims.WellFormed
  | nextHeight v => v.proposal.WellFormed

theorem Vote.wellFormed_of_unmarshalCapn {v : Vote} (h : v.unmarshalCapn = .ok ()) :
    v.WellFormed := by
  cases v with
  | proposal v | preVote v | preCommit v | nextHeight v =>
    exact Proposal.wellFormed_of_unmarshalCapn h
  | preVoteNil v | preCommitNil v => exact RClaims.unmarshalCapn_ok.mp h
  | nextRound v => exact NRClaims.wellFormed_of_unmarshalCapn h

theorem Vote.wellFormed_of_unmarshalCapn? {make : α → Vote} {b : Option α}
    (h : Vote.unmarshalCapn? make b = .ok ()) : ∀ v ∈ b, (make v).WellFormed := by
  rintro v rfl
  exact Vote.wellFormed_of_unmarshalCapn h

/-- What decoding a round state has checked. -/
structure RoundState.WellFormed (b : RoundState) : Prop where
  rCert : b.rCert.rClaims.WellFormed
  proposal : ∀ v ∈ b.proposal, v.WellFormed
  preVote : ∀ v ∈ b.preVote, v.proposal.WellFormed
  preCommit : ∀ v ∈ b.preCommit, v.proposal.WellFormed
  nextRound : ∀ v ∈ b.nextRound, v.nrClaims.WellFormed
  nextHeight : ∀ v ∈ b.nextHeight, v.proposal.WellFormed

theorem RoundState.wellFormed_of_unmarshalCapn {b : RoundState} (h : b.unmarshalCapn = .ok ()) :
    b.WellFormed := by
  simp only [unmarshalCapn, RCert.unmarshalCapn, bind_ok_iff, RClaims.unmarshalCapn_ok] at h
  obtain ⟨h1, -, h2, -, h3, -, -, h4, -, -, h5, h6, -⟩ := h
  exact ⟨h1, Vote.wellFormed_of_unmarshalCapn? h2, Vote.wellFormed_of_unmarshalCapn? h3,
    Vote.wellFormed_of_unmarshalCapn? h4, Vote.wellFormed_of_unmarshalCapn? h5,
    Vote.wellFormed_of_unmarshalCapn? h6⟩

end MadNet
