import MadNet.Lib.Bytes

/-!
# Consensus objects

The messages of the consensus protocol, as they travel on the wire. The Go structs carry, below
the line "Not Part of actual object", fields that only signature validation fills in; they are not
marshalled, so they are not part of these structures.

Byte strings are only compared with one another by the code modelled here.
-/

namespace MadNet

namespace Constants

/-- The last round of a height; validators vote for an empty block in it. -/
def deadBlockRound : UInt32 := 5

/-- The round whose `NextRound` messages lead into the dead block round. -/
def deadBlockRoundNR : UInt32 := deadBlockRound - 1

def epochLength : UInt32 := 1024

end Constants

/-- Errors of the consensus code, kept apart as far as callers distinguish them. -/
inductive Err where
  | invalid (msg : String)
  | stale (msg : String)
  | corrupt
  | missingTransactions
  /-- `errConflict` of `rs.go`, which never leaves that file. -/
  | conflict
  /-- `badger.ErrKeyNotFound`. -/
  | keyNotFound
  | other (msg : String)
  deriving DecidableEq

namespace Err

def isStale : Err → Bool
  | stale _ => true
  | _ => false

/-- The test `err == ErrMissingTransactions || errors.As(err, ErrInvalid)` by which the engine
decides to go on after an error. -/
def isTolerated : Err → Bool
  | invalid _ => true
  | missingTransactions => true
  | _ => false

end Err

/-! ## Claims and certificates -/

structure RClaims where
  chainID : UInt32
  height : UInt32
  round : UInt32
  prevBlock : Bytes
  deriving DecidableEq, Inhabited

structure RCert where
  rClaims : RClaims
  sigGroup : Bytes
  deriving DecidableEq, Inhabited

structure BClaims where
  chainID : UInt32
  height : UInt32
  txCount : UInt32
  prevBlock : Bytes
  txRoot : Bytes
  stateRoot : Bytes
  headerRoot : Bytes
  deriving DecidableEq, Inhabited

structure PClaims where
  bClaims : BClaims
  rCert : RCert
  deriving DecidableEq, Inhabited

structure Proposal where
  pClaims : PClaims
  signature : Bytes
  txHshLst : List Bytes
  deriving DecidableEq, Inhabited

structure PreVote where
  proposal : Proposal
  signature : Bytes
  deriving DecidableEq, Inhabited

structure PreVoteNil where
  rCert : RCert
  signature : Bytes
  deriving DecidableEq, Inhabited

structure PreCommit where
  proposal : Proposal
  signature : Bytes
  preVotes : List Bytes
  deriving DecidableEq, Inhabited

structure PreCommitNil where
  rCert : RCert
  signature : Bytes
  deriving DecidableEq, Inhabited

structure NRClaims where
  rCert : RCert
  rClaims : RClaims
  sigShare : Bytes
  deriving DecidableEq, Inhabited

structure NextRound where
  nrClaims : NRClaims
  signature : Bytes
  deriving DecidableEq, Inhabited

structure NHClaims where
  proposal : Proposal
  sigShare : Bytes
  deriving DecidableEq, Inhabited

structure NextHeight where
  nhClaims : NHClaims
  signature : Bytes
  preCommits : List Bytes
  deriving DecidableEq, Inhabited

structure BlockHeader where
  bClaims : BClaims
  sigGroup : Bytes
  txHshLst : List Bytes
  deriving DecidableEq, Inhabited

/-- The vote types a `RoundState` distinguishes in its type switches. -/
inductive Vote where
  | proposal (v : Proposal)
  | preVote (v : PreVote)
  | preVoteNil (v : PreVoteNil)
  | preCommit (v : PreCommit)
  | preCommitNil (v : PreCommitNil)
  | nextRound (v : NextRound)
  | nextHeight (v : NextHeight)
  deriving DecidableEq

/-! ## Extractors (`util.go`) -/

section Extract

abbrev RCert.chainID (v : RCert) : UInt32 := v.rClaims.chainID
abbrev RCert.height (v : RCert) : UInt32 := v.rClaims.height
abbrev RCert.round (v : RCert) : UInt32 := v.rClaims.round
abbrev RCert.prevBlock (v : RCert) : Bytes := v.rClaims.prevBlock

abbrev Proposal.rCert (v : Proposal) : RCert := v.pClaims.rCert
abbrev Proposal.bClaims (v : Proposal) : BClaims := v.pClaims.bClaims
abbrev PreVote.rCert (v : PreVote) : RCert := v.proposal.rCert
abbrev PreVote.bClaims (v : PreVote) : BClaims := v.proposal.bClaims
abbrev PreCommit.rCert (v : PreCommit) : RCert := v.proposal.rCert
abbrev PreCommit.bClaims (v : PreCommit) : BClaims := v.proposal.bClaims
abbrev NextRound.rCert (v : NextRound) : RCert := v.nrClaims.rCert
abbrev NextHeight.proposal (v : NextHeight) : Proposal := v.nhClaims.proposal
abbrev NextHeight.rCert (v : NextHeight) : RCert := v.proposal.rCert
abbrev NextHeight.bClaims (v : NextHeight) : BClaims := v.proposal.bClaims

end Extract

namespace Vote

/-- `ExtractRCert`. -/
def rCert : Vote → RCert
  | proposal v => v.rCert
  | preVote v => v.rCert
  | preVoteNil v => v.rCert
  | preCommit v => v.rCert
  | preCommitNil v => v.rCert
  | nextRound v => v.rCert
  | nextHeight v => v.rCert

/-- `ExtractBClaims`, for the types `checkConflict` lists with `hasBClaims = true`. -/
def bClaims? : Vote → Option BClaims
  | proposal v => some v.bClaims
  | preVote v => some v.bClaims
  | preVoteNil _ => none
  | preCommit v => some v.bClaims
  | preCommitNil _ => none
  | nextRound _ => none
  | nextHeight v => some v.bClaims

end Vote

/-- The 64 bit number whose big-endian bytes are the height followed by the round. -/
def RCert.hr (v : RCert) : Nat := 2 ^ 32 * v.height.toNat + v.round.toNat

/-- `RelateHR`; `-1`, `0` and `1` are `lt`, `eq` and `gt`. -/
def relateHR (a b : RCert) : Ordering := compareOfLessAndEq a.hr b.hr

def relateH (a b : RCert) : Ordering := compareOfLessAndEq a.height b.height

def prevBlockEqual (a b : RCert) : Bool := a.prevBlock == b.prevBlock

def isDeadBlockRound (a : RCert) : Bool := a.round == Constants.deadBlockRound

def getProposerIdx (numv : Nat) (height round : UInt32) : UInt8 :=
  UInt8.ofNat ((height + round - 1).toNat % numv)

/-! ### Order of heights and rounds -/

variable {a b : RCert}

theorem RCert.hr_eq_iff : a.hr = b.hr ↔ a.height = b.height ∧ a.round = b.round := by
  have ha := a.round.toNat_lt
  have hb := b.round.toNat_lt
  simp only [RCert.hr, ← UInt32.toNat_inj]
  omega

theorem RCert.hr_of_rClaims (h : a.rClaims = b.rClaims) : a.hr = b.hr := by
  rw [RCert.hr_eq_iff, RCert.height, RCert.round, h]
  exact ⟨rfl, rfl⟩

theorem RCert.hr_lt_iff : a.hr < b.hr ↔ a.height < b.height ∨ a.height = b.height ∧
    a.round < b.round := by
  have ha := a.round.toNat_lt
  have hb := b.round.toNat_lt
  simp only [RCert.hr, ← UInt32.toNat_inj, UInt32.lt_iff_toNat_lt]
  omega

@[simp] theorem relateHR_eq_lt : relateHR a b = .lt ↔ a.hr < b.hr := compareOfLessAndEq_eq_lt

@[simp] theorem relateHR_eq_eq : relateHR a b = .eq ↔ a.height = b.height ∧ a.round = b.round := by
  rw [← RCert.hr_eq_iff]
  exact compareOfLessAndEq_eq_eq Nat.le_refl Nat.not_le

@[simp] theorem relateHR_eq_gt : relateHR a b = .gt ↔ b.hr < a.hr :=
  compareOfLessAndEq_eq_gt_of_lt_iff_not_gt_and_ne fun _ _ => by omega

@[simp] theorem relateH_eq_lt : relateH a b = .lt ↔ a.height < b.height := compareOfLessAndEq_eq_lt

@[simp] theorem relateH_eq_eq : relateH a b = .eq ↔ a.height = b.height :=
  compareOfLessAndEq_eq_eq (fun _ => UInt32.le_refl _) UInt32.not_le

@[simp] theorem relateH_eq_gt : relateH a b = .gt ↔ b.height < a.height :=
  compareOfLessAndEq_eq_gt_of_lt_iff_not_gt_and_ne fun _ _ => by
    rw [UInt32.not_lt, UInt32.lt_iff_le_and_ne]

@[simp] theorem prevBlockEqual_iff : prevBlockEqual a b ↔ a.prevBlock = b.prevBlock := by
  simp [prevBlockEqual]

@[simp] theorem isDeadBlockRound_iff : isDeadBlockRound a ↔ a.round = Constants.deadBlockRound := by
  simp [isDeadBlockRound]

end MadNet
