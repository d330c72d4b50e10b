import MadNet.Consensus.Handlers

/-!
# The engine: application calls and setters (`appman.go`, `localstate.go`)

A step of the engine runs in a database transaction on a loaded copy of the round states. What the
application, the transaction cache and the clock answer in a step is given by an `Env`. Objects are
copied by encoding and decoding them, which succeeds on everything that was loaded, so that copies
are not mentioned.
-/

namespace MadNet

/-- The keys of a node, and the cryptography all nodes share. -/
structure Engine where
  crypto : Crypto
  /-- `Secp256k1Signer.Sign`. -/
  secpSign : SigMsg → Except ExtErr Bytes
  /-- `BNGroupSigner.Sign`. -/
  bnSign : BnMsg → Except ExtErr Bytes

/-- The answers of the code outside the state machine in one step. -/
structure Env where
  /-- `BNGroupSigner.Aggregate` of signature shares, given the shares of the group key. -/
  aggregate : List Bytes → List Bytes → Except ExtErr Bytes
  /-- `DMan.GetTxs` for a height, a round and a list of hashes; the second list is missing. -/
  getTxs : UInt32 → UInt32 → List Bytes → Except ExtErr (List Bytes × List Bytes)
  addTxs : UInt32 → List Bytes → Except ExtErr Unit
  /-- `Application.IsValid` for a chain, a height, a state root and transactions. -/
  isValid : UInt32 → UInt32 → Bytes → List Bytes → Except ExtErr Bool
  /-- `Application.ApplyState`, whose result is not used. -/
  applyState : UInt32 → UInt32 → List Bytes → Except ExtErr Unit
  /-- `Application.GetValidProposal`: transactions and the state root after them. -/
  getValidProposal : UInt32 → UInt32 → Except ExtErr (List Bytes × Option Bytes)
  txHash : Bytes → Except ExtErr Bytes
  ptoExpired : Bool
  pvtoExpired : Bool
  pctoExpired : Bool
  dbrnrExpired : Bool

/-- The state of a step: the database inside the transaction, and the loaded round states. -/
structure Txn where
  db : Db
  rs : RoundStates

abbrev EngineM := EStateM Err Txn

namespace Engine

def zeroHash : Bytes := List.replicate 32 0

/-- Run code that is outside the state machine. -/
def ext (x : Except ExtErr α) : EngineM α := MonadExcept.ofExcept (Crypto.ext x)

/-- Run a method of the own round state. -/
def onOwnRoundState (x : EStateM Err RoundState α) : EngineM α := do
  let vAddr := (← get).rs.ownState.vAddr
  Prog.zoom (·.rs) (fun rs s => { s with rs })
    (RoundStates.onRoundState vAddr "own round state is nil" x)

/-- Change the loaded round states. -/
def modifyRs (f : RoundStates → RoundStates) : EngineM Unit :=
  modify fun s => { s with rs := f s.rs }

/-- `SetBroadcast…`. -/
def setBroadcast (b : Broadcast) : EngineM Unit :=
  modify fun s => { s with db := { s.db with broadcasts := b :: s.db.broadcasts } }

variable (ce : Engine) (env : Env)

/-! ## Application calls -/

def getHeaderTrieRoot (height : UInt32) : EngineM Bytes := do
  match (← get).db.headerTrieRoots height with
  | none => throw .keyNotFound
  | some root => return root

/-- `getValidValue`: the hashes of the transactions, their root, the state root if there is one,
and the header root. -/
def getValidValue : EngineM (List Bytes × Bytes × Option Bytes × Bytes) := do
  let bclaims := (← get).rs.ownState.syncToBH.bClaims
  let (txs, stateRoot) ← ext (env.getValidProposal bclaims.chainID (bclaims.height + 1))
  ext (env.addTxs (bclaims.height + 1) txs)
  let txHashes ← ext (txs.mapM env.txHash)
  let txRootHash ← ext (ce.crypto.makeTxRoot txHashes)
  let headerRoot := ((← get).db.headerTrieRoots bclaims.height).getD zeroHash
  return (txHashes, txRootHash, stateRoot, headerRoot)

def isValid (chainID : UInt32) (stateHash headerRoot : Bytes) (txs : List Bytes) :
    EngineM Bool := do
  let height := (← get).rs.ownState.syncToBH.bClaims.height
  let goodHeaderRoot ← getHeaderTrieRoot height
  if goodHeaderRoot ≠ headerRoot then
    return false
  else
    match env.isValid chainID (height + 1) stateHash txs with
    | .error (.invalid _) => return false
    | .error e => throw e.toErr
    | .ok false => throw (.invalid "is valid returned not ok")
    | .ok true =>
      ext (env.addTxs (height + 1) txs)
      return true

def applyState (chainID : UInt32) (txHashes : List Bytes) : EngineM Unit := do
  let rs := (← get).rs
  let height := rs.ownState.syncToBH.bClaims.height + 1
  let (txs, missing) ← ext (env.getTxs height rs.round txHashes)
  if !missing.isEmpty then
    throw .missingTransactions
  else
    ext (env.addTxs height txs)
    ext (env.applyState chainID height txs)

/-! ## Setters -/

def setMostRecentRCert (v : RCert) : EngineM Unit := onOwnRoundState (RoundState.setRCert v)

/-- The setters of votes: a vote that the own round state finds in conflict is `ErrCorrupt`. -/
def setMostRecentVote (v : Vote) : EngineM Unit := do
  if ← onOwnRoundState (RoundState.set ce.crypto v) then
    return
  else
    throw .corrupt

def setMostRecentLockedValue (v : Proposal) : EngineM Unit :=
  modifyRs ({ · with ownValidatingState := { validValue := some v, lockedValue := some v } })

def setMostRecentValidValue (v : Proposal) : EngineM Unit :=
  modifyRs fun rs =>
    { rs with ownValidatingState := { rs.ownValidatingState with validValue := some v } }

/-- `ValidValue = nil; LockedValue = nil`. -/
def clearValues : EngineM Unit := modifyRs ({ · with ownValidatingState := {} })

def setMostRecentProposal (v : Proposal) : EngineM Unit := setMostRecentVote ce (.proposal v)

def setMostRecentPreVote (v : PreVote) : EngineM Unit := setMostRecentVote ce (.preVote v)

def setMostRecentPreVoteNil (v : PreVoteNil) : EngineM Unit := setMostRecentVote ce (.preVoteNil v)

def setMostRecentPreCommit (v : PreCommit) : EngineM Unit := do
  setMostRecentVote ce (.preCommit v)
  setMostRecentLockedValue v.proposal

def setMostRecentPreCommitNil (v : PreCommitNil) : EngineM Unit :=
  setMostRecentVote ce (.preCommitNil v)

def setMostRecentNextRound (v : NextRound) : EngineM Unit := setMostRecentVote ce (.nextRound v)

def setMostRecentNextHeight (v : NextHeight) : EngineM Unit := do
  setMostRecentVote ce (.nextHeight v)
  setMostRecentLockedValue v.proposal

/-- `SetCommittedBlockHeader`; the trie of a height is built on that of the height before. -/
def setCommittedBlockHeader (v : BlockHeader) : EngineM Unit := do
  let height := v.bClaims.height
  let root ← if height = 1 then pure none else some <$> getHeaderTrieRoot (height - 1)
  if height = 0 then
    throw (.invalid "height zero in hdr trie")
  else
    let newRoot := ce.crypto.headerTrieUpdate root height (ce.crypto.blockHash v.bClaims)
    modify fun s => { s with db := { s.db with
      headerTrieRoots := Function.update s.db.headerTrieRoots height (some newRoot)
      committedBlockHeaders := Function.update s.db.committedBlockHeaders height (some v)
      snapshotBlockHeaders :=
        if height = 1 ∨ height % Constants.epochLength = 0 then
          Function.update s.db.snapshotBlockHeaders height (some v)
        else s.db.snapshotBlockHeaders } }

/-- What `setMostRecentBlockHeader` writes to the own state. -/
def advance (v : BlockHeader) (os : OwnState) : OwnState :=
  let os := { os with syncToBH := v }
  let os :=
    if os.maxBHSeen.bClaims.height < os.syncToBH.bClaims.height then
      { os with maxBHSeen := os.syncToBH }
    else os
  if v.bClaims.height % Constants.epochLength = 0 then
    { os with canonicalSnapShot := os.pendingSnapShot, pendingSnapShot := v }
  else os

def setMostRecentBlockHeader (v : BlockHeader) : EngineM Unit := do
  applyState env v.bClaims.chainID v.txHshLst
  setMostRecentRCert (v.getRCert ce.crypto)
  setCommittedBlockHeader ce v
  modifyRs fun rs => { rs with ownState := advance v rs.ownState }
  setBroadcast (.blockHeader v)

end Engine

end MadNet
