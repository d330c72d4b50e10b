import MadNet.Application.State

/-!
# Deposits, UTXOs and blocks (`deposit.go`, `utxohandler.go`, `utxotrie.go`, `txhandler.go`,
`application.go`)

A block is checked by `App.isValid` and applied by `App.applyState`. Both begin with the same
checks; then the former computes the root that the trie would get, and the latter writes the
indexes, the trie and the roots, stores the mined transactions and takes them out of the pool.
-/

namespace MadNet.App

variable {ι : Type} [DecidableEq ι] (S : Scheme ι)

/-! ## Deposits -/

namespace DepositHandler

/-- A deposit as it is stored and loaded again. -/
def newDeposit (chainID : Nat) (utxoID : ι) (value : Nat) (owner : Owner) : Except Err (TXOut ι) :=
  if hc : chainID = 0 then .error (.invalid "vspreimage capn obj is not valid; invalid ChainID")
  else if hv : value = 0 then .error (.invalid "vspreimage capn obj is not valid; no value")
  else
    .ok (.valueStore {
      preImage := {
        chainID := chainID, value := value, txOutIdx := maxUint32, owner := owner, fee := 0
        chainID_ne := hc, value_ne := hv }
      txHash := utxoID
      utxoID := none })

def add (st : State ι) (chainID : Nat) (utxoID : ι) (value : Nat) (owner : Owner) :
    Except Err (State ι) := do
  check (value < 2 ^ 256) "Error in Uint256.FromBigInt: data slice too long"
  let spent ← st.trieContains S utxoID
  check (spent = false) "depositHandler.Add; a deposit is already spent"
  check (utxoID ∉ st.deposits) "depositHandler.Add; stale"
  return { st with deposits := st.deposits.insert utxoID (newDeposit chainID utxoID value owner) }

/-- What `Get` returns. -/
structure Lookup (ι : Type) where
  found : List (TXOut ι)
  missing : List ι
  spent : List (TXOut ι)

def get (st : State ι) : List ι → Except Err (Lookup ι)
  | [] => .ok { found := [], missing := [], spent := [] }
  | utxoID :: utxoIDs =>
    match st.deposits.lookup utxoID with
    | none => do
      let l ← get st utxoIDs
      return { l with missing := utxoID :: l.missing }
    | some loaded => do
      let utxo ← loaded
      let spent ← st.trieContains S utxoID
      let l ← get st utxoIDs
      if spent then return ⟨l.found, l.missing, utxo :: l.spent⟩
      else return ⟨utxo :: l.found, l.missing, l.spent⟩

def isValid (st : State ι) (txs : List (Tx ι)) : Except Err (List (TXOut ι)) := do
  let l ← get S st (TxVec.consumedUTXOIDOnlyDeposits S txs)
  check (l.missing = []) "depositHandler.IsValid; a deposit is missing"
  check (l.spent = []) "depositHandler.IsValid; a deposit is already spent"
  return l.found

end DepositHandler

/-! ## UTXOs -/

namespace UTXOHandler

/-- `Get`: the UTXOs that are stored. -/
def getFound (st : State ι) (utxoIDs : List ι) : List (TXOut ι) := utxoIDs.filterMap st.utxos

/-- `Get`: the UTXO IDs that are missing. -/
def getMissing (st : State ι) (utxoIDs : List ι) : List ι :=
  utxoIDs.filter fun utxoID => (st.utxos utxoID).isNone

/-- The deposits that a transaction consumes. -/
def depositRefs (deposits : List (TXOut ι)) (utxoIDs : List ι) : Except Err (List (TXOut ι)) :=
  utxoIDs.mapM fun utxoID =>
    match TxVec.voutMap S deposits utxoID with
    | some deposit => .ok deposit
    | none => .error (.invalid "utxoHandler.IsValid; missing consumed utxo (deposit)")

/-- The body of the loop of `IsValid` over the transactions. -/
def isValidTx (st : State ι) (currentHeight : Nat) (deposits : List (TXOut ι)) (tx : Tx ι) :
    Except Err Unit := do
  let utxos := getFound st (tx.consumedNoDeposits S)
  check (getMissing st (tx.consumedNoDeposits S) = []) "utxoHandler.IsValid; missing consumed utxo"
  let refs ← depositRefs S deposits (tx.consumedDeposits S)
  tx.validateEqualVinVout currentHeight ((refs ++ utxos).map some)
  check (∀ key ∈ tx.vout.filterMap TXOut.dataIndex, (st.dataIndex.lookup key).isSome →
      key ∈ utxos.filterMap TXOut.dataIndex)
    "utxoHandler.IsValid; duplicate datastore index"

/-- The body of the loops of `IsValid` over UTXO IDs. -/
def checkTrie (st : State ι) (present : Bool) (msg : String) (utxoID : ι) : Except Err Unit := do
  let ok ← st.trieContains S utxoID
  check (ok = present) msg

@[simp] theorem checkTrie_eq_ok {st : State ι} {present : Bool} {msg : String} {utxoID : ι} :
    checkTrie S st present msg utxoID = .ok () ↔ st.trieContains S utxoID = .ok present := by
  simp [checkTrie, Prog.bind_eq_ok]

def isValid (st : State ι) (txs : List (Tx ι)) (currentHeight : Nat)
    (deposits : List (TXOut ι)) : Except Err (List (TXOut ι)) := do
  let _ ← TxVec.validateDataStoreIndexes S [] txs
  txs.forM (isValidTx S st currentHeight deposits)
  (TxVec.consumedUTXOIDOnlyDeposits S txs).forM
    (checkTrie S st false "utxoHandler.IsValid; double spend of deposit found in trie")
  let generated ← TxVec.generatedUTXOID S txs
  generated.forM (checkTrie S st false "utxoHandler.IsValid; utxoID already in trie")
  let consumed := TxVec.consumedUTXOIDNoDeposits S txs
  consumed.forM (checkTrie S st true "utxoHandler.IsValid; consumed utxoID not in trie")
  check (getMissing st consumed = []) "utxoHandler.IsValid; missing transactions"
  return getFound st consumed

def addOne (st : State ι) (utxo : TXOut ι) : Except Err (State ι) := do
  let utxoID := utxo.utxoID S
  checkTrie S st false "utxoHandler.addOne; utxoID conflict" utxoID
  match utxo with
  | .dataStore ds => do
    let expEpoch ← ds.preImage.epochOfExpiration
    let dataIndex ← st.dataIndex.add utxoID (ds.preImage.owner, ds.preImage.index)
    return { st with
      expIndex := st.expIndex.add expEpoch utxoID (S.objSize utxo)
      dataIndex := dataIndex
      utxos := Function.update st.utxos utxoID (some utxo.stored) }
  | .valueStore vs =>
    return { st with
      valueIndex := st.valueIndex.add utxoID vs.preImage.owner vs.preImage.value
      utxos := Function.update st.utxos utxoID (some utxo.stored) }
  | .atomicSwap _ =>
    .error (.panic "utxoHandler.addOne; not implemented for AtomicSwap objects")

def dropFromIndexes (st : State ι) (utxoID : ι) : Except Err (State ι) :=
  match st.utxos utxoID with
  | none => .error (.invalid "utxoHandler.dropFromIndexes; missing utxo for utxoID")
  | some (.dataStore _) => do
    let expIndex ← st.expIndex.drop utxoID
    let dataIndex ← st.dataIndex.drop utxoID
    return { st with expIndex := expIndex, dataIndex := dataIndex }
  | some (.valueStore _) => do
    let valueIndex ← st.valueIndex.drop utxoID
    return { st with valueIndex := valueIndex }
  | some (.atomicSwap _) =>
    .error (.panic "utxoHandler.dropFromIndexes; not implemented for AtomicSwap objects")

/-- `UTXOTrie.add`: the keys and values of the update. -/
def trieKVs (txs : List (Tx ι)) : Except Err (List (ι × Option ι)) := do
  let utxoIDs ← TxVec.generatedUTXOID S txs
  let preHashes ← TxVec.generatedPreHash S txs
  return (utxoIDs.zip preHashes).map (fun (k, v) => (k, some v)) ++
    ((TxVec.consumedUTXOIDOnlyDeposits S txs).zip (TxVec.consumedPreHashOnlyDeposits S txs)).map
      (fun (k, v) => (k, some v)) ++
    (TxVec.consumedUTXOIDNoDeposits S txs).map (·, none)

/-- The trie after the transactions, and its root; without a transaction the root is the stored one.
-/
def nextTrie (st : State ι) (txs : List (Tx ι)) : Except Err (Root ι × Trie.SMT (Trie.Digest ι)) :=
  if txs = [] then .ok (st.getCurrentStateRoot S, st.getCurrentTrie S)
  else do
    let kvs ← trieKVs S txs
    let trie ← updateTrie S (st.getCurrentTrie S) kvs
    return (trie.root, trie)

def getStateRootForProposal (st : State ι) (txs : List (Tx ι)) : Except Err (Root ι) := do
  let (stateRoot, _) ← nextTrie S st txs
  return stateRoot

def updateRoots (st : State ι) (height : Nat) (stateRoot : Root ι) : Except Err (State ι) :=
  let st := { st with currentRoot := some stateRoot }
  if height = 1 then
    .ok { st with pendingRoot := some stateRoot, canonicalRoot := some stateRoot }
  else if height % epochLength = 0 then
    match st.pendingRoot with
    | none => .error .keyNotFound
    | some root => .ok { st with canonicalRoot := some root, pendingRoot := some stateRoot }
  else .ok st

/-- `UTXOTrie.ApplyState`; the nodes are committed at the end of `updateRoots`. -/
def trieApplyState (st : State ι) (txs : List (Tx ι)) (height : Nat) :
    Except Err (Root ι × State ι) := do
  let (stateRoot, trie) ← nextTrie S st txs
  let st ← updateRoots st height stateRoot
  return (stateRoot, { st with nodes := trie.commit.store.db })

def applyState (st : State ι) (txs : List (Tx ι)) (height : Nat) :
    Except Err (Root ι × State ι) := do
  let st ← (TxVec.consumedUTXOIDNoDeposits S txs).foldlM dropFromIndexes st
  let st ← (TxVec.generatedUTXOs txs).foldlM (addOne S) st
  trieApplyState S st txs height

end UTXOHandler

/-! ## Blocks -/

def txHandlerIsValid (st : State ι) (txs : List (Tx ι)) (currentHeight : Nat) :
    Except Err (List (TXOut ι)) := do
  let deposits ← DepositHandler.isValid S st txs
  let consumed ← UTXOHandler.isValid S st txs currentHeight deposits
  return deposits ++ consumed

/-- The checks that `IsValid` and `ApplyState` share, and the transactions after them. -/
def validateBlock (storage : Storage) (st : State ι) (chainID height : Nat) (txs : List (Tx ι)) :
    Except Err (List (Tx ι)) := do
  TxVec.preValidateApplyState txs chainID
  let vout ← txHandlerIsValid S st txs height
  -- the UTXO IDs of the outputs have been asked for
  TxVec.validate S (txs.map (·.cacheUTXOIDs S)) height vout storage

/-- `Application.IsValid`; for a block with transactions `nil` counts as 32 zero bytes. -/
def isValid (storage : Storage) (st : State ι) (chainID height : Nat) (stateHash : Root ι)
    (txs : List (Tx ι)) : Except Err Bool :=
  if txs = [] then do
    let stateRoot ← UTXOHandler.getStateRootForProposal S st txs
    return decide (stateHash = stateRoot)
  else do
    let txs ← validateBlock S storage st chainID height txs
    match UTXOHandler.getStateRootForProposal S st txs with
    | .error (.invalid _) => .ok false
    | .error e => .error e
    | .ok stateRoot => .ok (decide (some (stateHash.getD (.value S.zero)) = stateRoot))

/-- The body of the loop of `MinedTxHandler.Add`: the hash of the transaction. -/
def minedTxAddOne (height : Nat) (tx : Tx ι) : Except Err ι := do
  let (txHash, tx) ← tx.getTxHash S
  tx.validateIssuedAtForMining height
  return txHash

/-- `MinedTxHandler.Add`, and the hashes of the transactions. -/
def minedTxAdd (height : Nat) (txs : List (Tx ι)) : Except Err (List ι) :=
  txs.mapM (minedTxAddOne S height)

def applyState (storage : Storage) (st : State ι) (chainID height : Nat) (txs : List (Tx ι)) :
    Except Err (Root ι × State ι) :=
  if txs = [] then UTXOHandler.applyState S st txs height
  else do
    let txs ← validateBlock S storage st chainID height txs
    let (rootHash, st) ← UTXOHandler.applyState S st txs height
    let txHashes ← minedTxAdd S height txs
    return (rootHash, { st with pool := st.pool.deleteMined height txHashes })

end MadNet.App
