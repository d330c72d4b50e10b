import MadNet.Consensus.Objs
import MadNet.Lib.Prog

/-!
# Signatures

Hashing and the two signature schemes are abstract: all the consensus code does with them is
computing a hash, signing a message and recovering the account or the public key a signature
belongs to. The hash of a block is assumed to be free of collisions.
-/

namespace MadNet

open List

/-- Errors of the code outside the consensus state machine (cryptography, application, database);
none of it makes `ErrStale` or `ErrCorrupt`. -/
inductive ExtErr where
  | invalid (msg : String)
  | missingTransactions
  | keyNotFound
  | other (msg : String)
  deriving DecidableEq

def ExtErr.toErr : ExtErr → Err
  | invalid msg => .invalid msg
  | missingTransactions => .missingTransactions
  | keyNotFound => .keyNotFound
  | other msg => .other msg

/-- What a secp256k1 signature is made on: a designator and the canonical encoding after it. -/
inductive SigMsg where
  | proposal (v : PClaims)
  | preVote (v : PClaims)
  | preVoteNil (v : RCert)
  | preCommit (v : PClaims)
  | preCommitNil (v : RCert)
  | nextRound (v : NRClaims)
  | nextHeight (v : PClaims)
  deriving DecidableEq

/-- What a share of a group signature, or the group signature, is made on. -/
inductive BnMsg where
  | blockHash (h : Bytes)
  | rClaims (v : RClaims)
  deriving DecidableEq

structure Crypto where
  blockHash : BClaims → Bytes
  blockHash_injective : Function.Injective blockHash
  makeTxRoot : List Bytes → Except ExtErr Bytes
  /-- The root of the header trie, of a given root if there is one, after the hash of the block of a
  height has been added. -/
  headerTrieUpdate : Option Bytes → UInt32 → Bytes → Bytes
  /-- `Secp256k1Validator.Validate` followed by `GetAccount`. -/
  secpValidate : SigMsg → Bytes → Except ExtErr Bytes
  /-- `BNGroupValidator.Validate`. -/
  bnValidate : BnMsg → Bytes → Except ExtErr Bytes

/-- A message with what signature validation has found out about it: the fields the Go structs
list as not part of the actual object. -/
structure Validated (α : Type) where
  obj : α
  proposer : Bytes := []
  voter : Bytes := []
  groupKey : Bytes := []
  groupShare : Bytes := []
  signers : List Bytes := []
  deriving DecidableEq

/-- `BClaimsEqual` on the extracted claims. -/
def bClaimsEqual (c : Crypto) (a b : BClaims) : Bool := c.blockHash a == c.blockHash b

@[simp] theorem bClaimsEqual_iff {c : Crypto} {a b : BClaims} : bClaimsEqual c a b ↔ a = b := by
  simp [bClaimsEqual, c.blockHash_injective.eq_iff]

namespace Crypto

variable (c : Crypto)

/-- Run code outside the consensus state machine; its error is passed on. -/
def ext (x : Except ExtErr α) : Except Err α := x.mapError ExtErr.toErr

/-- The account that made `sig` on `m`. -/
def signer (m : SigMsg) (sig : Bytes) : Except Err Bytes := ext (c.secpValidate m sig)

/-- The public key under which `sig` is valid on `m`. -/
def pubkey (m : BnMsg) (sig : Bytes) : Except Err Bytes := ext (c.bnValidate m sig)

/-! ### An ideal scheme

The assumptions on `Crypto` can be met: a block is hashed to a code of its claims, a signature is
the name of its signer. It serves to run the protocol on concrete inputs. -/

/-- A self-delimiting code of a number. -/
def encodeNat (n : Nat) : Bytes := List.replicate n 1 ++ [0]

/-- A self-delimiting code of a byte string. -/
def encodeBytes (l : Bytes) : Bytes := l.flatMap (fun x => [1, x]) ++ [0]

theorem encodeNat_append_inj {m n : Nat} {r s : Bytes} (h : encodeNat m ++ r = encodeNat n ++ s) :
    m = n ∧ r = s := by
  induction m generalizing n with
  | zero => cases n <;> simp_all [encodeNat, replicate_succ]
  | succ m ih =>
    cases n with
    | zero => simp [encodeNat, replicate_succ] at h
    | succ n =>
      simp only [encodeNat, replicate_succ, cons_append, cons.injEq] at h
      simpa using ih h.2

theorem encodeBytes_append_inj {l l' r s : Bytes} (h : encodeBytes l ++ r = encodeBytes l' ++ s) :
    l = l' ∧ r = s := by
  induction l generalizing l' with
  | nil => cases l' <;> simp_all [encodeBytes]
  | cons x l ih =>
    cases l' with
    | nil => simp [encodeBytes] at h
    | cons x' l' =>
      simp only [encodeBytes, flatMap_cons, cons_append, nil_append, cons.injEq] at h
      obtain ⟨rfl, rfl⟩ := ih h.2.2
      simp [h.2.1]

def encodeBClaims (b : BClaims) : Bytes :=
  encodeNat b.chainID.toNat ++ (encodeNat b.height.toNat ++ (encodeNat b.txCount.toNat ++
    (encodeBytes b.prevBlock ++ (encodeBytes b.txRoot ++ (encodeBytes b.stateRoot ++
      (encodeBytes b.headerRoot ++ []))))))

theorem encodeBClaims_injective : Function.Injective encodeBClaims := by
  intro a b h
  obtain ⟨h1, h⟩ := encodeNat_append_inj h
  obtain ⟨h2, h⟩ := encodeNat_append_inj h
  obtain ⟨h3, h⟩ := encodeNat_append_inj h
  obtain ⟨h4, h⟩ := encodeBytes_append_inj h
  obtain ⟨h5, h⟩ := encodeBytes_append_inj h
  obtain ⟨h6, h⟩ := encodeBytes_append_inj h
  obtain ⟨h7, -⟩ := encodeBytes_append_inj h
  cases a; cases b
  simp_all [UInt32.toNat_inj]

def ideal : Crypto where
  blockHash := encodeBClaims
  blockHash_injective := encodeBClaims_injective
  makeTxRoot txs := .ok txs.flatten
  headerTrieUpdate root _ hsh := root.getD [] ++ hsh
  secpValidate _ sig := .ok sig
  bnValidate _ sig := .ok sig

end Crypto

/-! ## Validation of signatures -/

section Validate

variable (c : Crypto)

/-- `RCert.ValidateSignature`; the result is the `GroupKey` field it sets. -/
def RCert.validateSignature (b : RCert) : Except Err Bytes := do
  if b.height = 0 then throw (.invalid "RCert.ValidateSignatures; height is zero")
  if b.chainID = 0 then throw (.invalid "RCert.ValidateSignatures; chainID is zero")
  if b.round = 0 then throw (.invalid "RCert.ValidateSignatures; round is zero")
  if b.round > Constants.deadBlockRound then
    throw (.invalid "RCert.ValidateSignatures; round > DeadBlockRound")
  if b.height = 1 ∧ b.round = 1 then
    return List.replicate 128 0
  if b.height = 1 ∧ b.round > 1 then
    throw (.invalid "RCert.ValidateSignatures; RCert should not exist!")
  if b.height = 2 ∧ b.round = 1 then
    -- there is no group signature to check
    return []
  if b.round > 1 then
    c.pubkey (.rClaims b.rClaims) b.sigGroup
  else
    c.pubkey (.blockHash b.prevBlock) b.sigGroup

def Proposal.validateSignatures (b : Proposal) : Except Err (Validated Proposal) := do
  let txRoot ← Crypto.ext (c.makeTxRoot b.txHshLst)
  if txRoot ≠ b.bClaims.txRoot then
    throw (.invalid "Proposal.ValidateSignatures; Proposal TxRoot mismatch")
  let groupKey ← b.rCert.validateSignature c
  if b.rCert.round > Constants.deadBlockRound then
    throw (.invalid "Proposal.ValidateSignatures; Proposal.RCert.Round > DBR")
  let proposer ← c.signer (.proposal b.pClaims) b.signature
  return { obj := b, proposer, groupKey }

def PreVote.validateSignatures (b : PreVote) : Except Err (Validated PreVote) := do
  let p ← b.proposal.validateSignatures c
  let voter ← c.signer (.preVote b.proposal.pClaims) b.signature
  return { obj := b, proposer := p.proposer, voter, groupKey := p.groupKey }

def PreVoteNil.validateSignatures (b : PreVoteNil) : Except Err (Validated PreVoteNil) := do
  let groupKey ← b.rCert.validateSignature c
  let voter ← c.signer (.preVoteNil b.rCert) b.signature
  return { obj := b, voter, groupKey }

def PreCommit.validateSignatures (b : PreCommit) : Except Err (Validated PreCommit) := do
  let p ← b.proposal.validateSignatures c
  let voter ← c.signer (.preCommit b.proposal.pClaims) b.signature
  let signers ← b.preVotes.mapM (c.signer (.preVote b.proposal.pClaims))
  return { obj := b, proposer := p.proposer, voter, groupKey := p.groupKey, signers }

def PreCommitNil.validateSignatures (b : PreCommitNil) : Except Err (Validated PreCommitNil) := do
  let groupKey ← b.rCert.validateSignature c
  let voter ← c.signer (.preCommitNil b.rCert) b.signature
  return { obj := b, voter, groupKey }

/-- `RClaims.MarshalBinary`, as far as it refuses to encode. -/
def RClaims.marshalBinary (b : RClaims) : Except Err Unit := do
  if b.chainID = 0 then throw (.invalid "RClaims.MarshalBinary; chainID is zero")
  if b.round = 0 then throw (.invalid "RClaims.MarshalBinary; round is zero")
  if b.round > Constants.deadBlockRound then
    throw (.invalid "RClaims.MarshalBinary; round > DBR")
  if b.height = 0 then throw (.invalid "RClaims.MarshalBinary; height is zero")

/-- `NRClaims.ValidateSignatures`; the result is the group key and the group share. -/
def NRClaims.validateSignatures (b : NRClaims) : Except Err (Bytes × Bytes) := do
  let groupKey ← b.rCert.validateSignature c
  b.rClaims.marshalBinary
  let groupShare ← c.pubkey (.rClaims b.rClaims) b.sigShare
  return (groupKey, groupShare)

def NextRound.validateSignatures (b : NextRound) : Except Err (Validated NextRound) := do
  let (groupKey, groupShare) ← b.nrClaims.validateSignatures c
  let voter ← c.signer (.nextRound b.nrClaims) b.signature
  return { obj := b, voter, groupKey, groupShare }

/-- `NHClaims.ValidateSignatures`; the result is the validated proposal and the group share. -/
def NHClaims.validateSignatures (b : NHClaims) : Except Err (Validated Proposal × Bytes) := do
  let p ← b.proposal.validateSignatures c
  let groupShare ← c.pubkey (.blockHash (c.blockHash b.proposal.bClaims)) b.sigShare
  return (p, groupShare)

def NextHeight.validateSignatures (b : NextHeight) : Except Err (Validated NextHeight) := do
  let (p, groupShare) ← b.nhClaims.validateSignatures c
  let voter ← c.signer (.nextHeight b.proposal.pClaims) b.signature
  let signers ← b.preCommits.mapM (c.signer (.preCommit b.proposal.pClaims))
  return { obj := b, proposer := p.proposer, voter, groupKey := p.groupKey, groupShare, signers }

def BlockHeader.validateSignatures (b : BlockHeader) : Except Err (Validated BlockHeader) := do
  let txRoot ← Crypto.ext (c.makeTxRoot b.txHshLst)
  if txRoot ≠ b.bClaims.txRoot then
    throw (.invalid "BlockHeader.ValidateSignatures; bclaims TxRoot mismatch")
  if b.bClaims.height > 1 then
    let groupKey ← c.pubkey (.blockHash (c.blockHash b.bClaims)) b.sigGroup
    return { obj := b, groupKey }
  else
    return { obj := b, groupKey := List.replicate 128 0 }

def BlockHeader.getRCert (b : BlockHeader) : RCert where
  rClaims := {
    chainID := b.bClaims.chainID
    height := b.bClaims.height + 1
    round := 1
    prevBlock := c.blockHash b.bClaims }
  sigGroup := b.sigGroup

theorem RCert.height_ne_of_validateSignature {c : Crypto} {rc : RCert} {groupKey : Bytes}
    (h : rc.validateSignature c = .ok groupKey) : rc.height ≠ 0 := by
  intro h0
  simp [RCert.validateSignature, h0, bind, Except.bind, throw, throwThe, MonadExceptOf.throw] at h

end Validate

end MadNet
