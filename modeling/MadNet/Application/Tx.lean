import MadNet.Application.Objs

/-!
# Transactions (`application/objs/tx.go`, `txvec.go`, `vin.go`, `vout.go`)

A transaction keeps its hash once `TxHash` has computed it. `TxHash` numbers the outputs first, so
the functions that call it return the transaction as it is afterwards. A Go map that is used as a
set is the list of its keys. A referenced output that was not found is `none`.
-/

namespace MadNet.App

/-- Add keys to a set; a key that is there already is an error. -/
def addUnique {α : Type} [DecidableEq α] (msg : String) : List α → List α → Except Err (List α)
  | set, [] => .ok set
  | set, x :: xs => if x ∈ set then .error (.invalid msg) else addUnique msg (x :: set) xs

/-- Add up values of 256 bits. -/
def sumValues {α : Type} (f : α → Except Err Nat) : Nat → List α → Except Err Nat
  | sum, [] => .ok sum
  | sum, x :: xs => do
    let value ← f x
    let sum ← Uint256.add sum value
    sumValues f sum xs

structure Tx (ι : Type) where
  vin : List (TXIn ι)
  vout : List (TXOut ι)
  fee : Nat
  /-- The hash, once it has been computed; not part of the encoding. -/
  txHash : Option ι
  deriving DecidableEq

variable {ι : Type} [DecidableEq ι] (S : Scheme ι)

/-! ## Vectors of inputs and outputs -/

namespace Vout

omit [DecidableEq ι] in
def remainingValueOf (currentHeight : Nat) : Option (TXOut ι) → Except Err Nat
  | some out => out.remainingValue currentHeight
  | none => .error (.invalid "txout.remainingValue; type not defined")

def valuePlusFee (vout : List (TXOut ι)) : Except Err Nat := sumValues TXOut.valuePlusFee 0 vout

def remainingValue (refUTXOs : List (Option (TXOut ι))) (currentHeight : Nat) : Except Err Nat :=
  sumValues (remainingValueOf currentHeight) 0 refUTXOs

def setTxOutIdx (vout : List (TXOut ι)) : List (TXOut ι) :=
  vout.mapIdx fun idx out => out.setTxOutIdx idx

def validateTxOutIdx (vout : List (TXOut ι)) : Except Err Unit := do
  let idxMap ← addUnique "vout.validateTxOutIdx; duplicate txOutIdx" [] (vout.map TXOut.txOutIdx)
  check (∀ i < idxMap.length, i ∈ idxMap) "vout.validateTxOutIdx; missing tx out index"

def validateFees (vout : List (TXOut ι)) (storage : Storage) : Except Err Unit :=
  vout.forM (·.validateFee storage)

def validatePreSignature (vout : List (TXOut ι)) : Except Err Unit :=
  vout.forM (·.validatePreSignature S)

def validateSignatureOf (currentHeight : Nat) : Option (TXOut ι) × TXIn ι → Except Err Unit
  | (some out, txIn) => out.validateSignature S currentHeight txIn
  | (none, _) => .error (.invalid "txout.validateSignature; type not defined")

def validateSignature (refUTXOs : List (Option (TXOut ι))) (currentHeight : Nat)
    (txIn : List (TXIn ι)) : Except Err Unit := do
  check (txIn.length = refUTXOs.length) "vout.validateSignature; mismatched vector lengths"
  (refUTXOs.zip txIn).forM (validateSignatureOf S currentHeight)

def isCleanupVout : List (TXOut ι) → Bool
  | [.valueStore vs] => vs.preImage.fee = 0
  | _ => false

end Vout

namespace Vin

omit [DecidableEq ι] in
def isExpiredDataStore (currentHeight : Nat) : Option (TXOut ι) → Bool
  | some out =>
    out.hasDataStore &&
      match out.isExpired currentHeight with
      | .ok expired => expired
      | .error _ => false
  | none => false

def isCleanupVin (vin : List (TXIn ι)) (currentHeight : Nat) (refUTXOs : List (Option (TXOut ι))) :
    Bool :=
  !vin.isEmpty && vin.length == refUTXOs.length && refUTXOs.all (isExpiredDataStore currentHeight)

end Vin

/-! ## Hashes -/

/-- A key and a value of an update; `none` is the `DefaultLeaf`, which deletes the key. -/
def trieEntry (kv : ι × Option ι) : Trie.Key × Trie.Digest ι :=
  (S.key kv.1, kv.2.elim .defaultLeaf .value)

/-- `utils.SortKVs`. -/
def sortKVs {D : Type} (kvs : List (Trie.Key × D)) : List (Trie.Key × D) :=
  kvs.insertionSort fun a b => a.1 ≤ b.1

/-- `SMT.Update` with sorted keys. -/
def updateTrie (trie : Trie.SMT (Trie.Digest ι)) (kvs : List (ι × Option ι)) :
    Except Err (Trie.SMT (Trie.Digest ι)) :=
  let kvs := sortKVs (kvs.map (trieEntry S))
  match Trie.SMT.update Trie.Digest.hasher (kvs.map Prod.fst) (kvs.map Prod.snd) trie with
  | .ok _ trie => .ok trie
  | .error e _ => .error (.ofTrie e)

/-- The root of a new trie in memory that these keys and values have been written to. -/
def memoryRoot (kvs : List (ι × ι)) : Except Err ι :=
  if kvs = [] then .ok S.hashNothing
  else do
    let trie ← updateTrie S .empty (kvs.map fun kv => (kv.1, some kv.2))
    -- a trie with a key has a root
    return trie.root.elim S.zero S.hashNode

namespace Tx

variable (tx : Tx ι)

/-- The keys and values that `TxHash` writes. -/
def hashPairs : List (ι × ι) :=
  tx.vin.map (fun txIn => (txIn.utxoID S, txIn.preHash S)) ++
    tx.vout.mapIdx fun idx out => (makeUTXOID S (out.preHash S) idx, out.preHash S)

def setTxOutIdx : Tx ι := { tx with vout := Vout.setTxOutIdx tx.vout }

/-- What `TxHash` computes if there is no hash yet. -/
def computeTxHash : Except Err ι := memoryRoot S (tx.setTxOutIdx.hashPairs S)

/-- `TxHash`: the hash, and the transaction afterwards. -/
def getTxHash : Except Err (ι × Tx ι) :=
  match tx.txHash with
  | some txHash => .ok (txHash, tx)
  | none => do
    let txHash ← tx.computeTxHash S
    return (txHash, { tx.setTxOutIdx with txHash := some txHash })

/-- `ValidateTxHash`: there is nothing to check if the hash has been computed before. -/
def validateTxHash : Except Err (Tx ι) :=
  match tx.txHash with
  | some _ => .ok tx
  | none => do
    let (txHash, tx) ← tx.getTxHash S
    check (∀ txIn ∈ tx.vin, txIn.txHash = txHash) "validateTxHash: wrong txHash (vin)"
    check (∀ out ∈ tx.vout, out.txHash = txHash) "validateTxHash: wrong txHash (vout)"
    return tx

def setTxHash : Except Err (Tx ι) := do
  let (txHash, tx) ← tx.getTxHash S
  return { tx with
    vin := tx.vin.map (·.setTxHash txHash)
    vout := tx.vout.map (·.setTxHash txHash) }

/-- The transaction after the UTXO IDs of its outputs have been asked for. -/
def cacheUTXOIDs : Tx ι := { tx with vout := tx.vout.map (·.cacheUTXOID S) }

/-- The transaction after it has been stored and loaded. -/
def stored : Tx ι := { tx with vout := tx.vout.map TXOut.stored, txHash := none }

/-! ## Ids -/

def consumedUTXOID : Except Err (List ι) := do
  check (tx.vin ≠ []) "tx.consumedUTXOID: tx.vin not initialized"
  return tx.vin.map (·.utxoID S)

def generatedUTXOID : Except Err (List ι) := do
  check (tx.vout ≠ []) "tx.generatedUTXOID: tx.vout not initialized"
  return tx.vout.map (·.utxoID S)

def generatedPreHash : Except Err (List ι) := do
  check (tx.vout ≠ []) "tx.generatedPreHash: tx.vout not initialized"
  return tx.vout.map (·.preHash S)

/-- `ConsumedUTXOIDOnlyDeposits` of one transaction. -/
def consumedDeposits : List ι := (tx.vin.filter (·.isDeposit)).map (·.utxoID S)

/-- `ConsumedUTXOIDNoDeposits` of one transaction. -/
def consumedNoDeposits : List ι := (tx.vin.filter (!·.isDeposit)).map (·.utxoID S)

/-- `ConsumedPreHashOnlyDeposits` of one transaction. -/
def consumedDepositPreHashes : List ι := (tx.vin.filter (·.isDeposit)).map (·.preHash S)

/-! ## Checks -/

def validateUnique (opset : List ι) : Except Err (List ι) := do
  let opset ← addUnique "tx.validateUnique: duplicate input" opset (tx.vin.map (·.utxoID S))
  addUnique "tx.validateUnique: duplicate output" opset (tx.vout.map (·.utxoID S))

def validateDataStoreIndexes (opset : List ι) : Except Err (List ι) :=
  addUnique "tx.validateDataStoreIndexes: duplicate output index for datastore" opset
    ((tx.vout.filterMap TXOut.dataIndex).map fun (owner, index) => S.hashIndex owner index)

def cannotBeMinedUntil : Except Err Nat := do
  check (tx.vout ≠ []) "tx.cannotBeMinedUntil: tx.vout not initialized"
  return (tx.vout.map TXOut.cannotBeMinedBeforeHeight).foldl max 1

/-- The height at which the inputs are valued: "we must look at the height we will mine it in the
future". -/
def valuationHeight (currentHeight : Nat) : Except Err Nat := do
  let minBH ← tx.cannotBeMinedUntil
  return if currentHeight < minBH then minBH else currentHeight

def validateEqualVinVout (currentHeight : Nat) (refUTXOs : List (Option (TXOut ι))) :
    Except Err Unit := do
  check (tx.vin ≠ []) "tx.validateEqualVinVout: tx.vin not initialized"
  check (tx.vout ≠ []) "tx.validateEqualVinVout: tx.vout not initialized"
  let currentHeight ← tx.valuationHeight currentHeight
  let valueIn ← Vout.remainingValue refUTXOs currentHeight
  let valueOut ← Vout.valuePlusFee tx.vout
  let valueOutPlusFee ← Uint256.add valueOut tx.fee
  check (valueOutPlusFee = valueIn)
    "tx.validateEqualVinVout: input value does not match output value: IN:%v  vs  OUT+FEE:%v"

def isCleanupTx (currentHeight : Nat) (refUTXOs : List (Option (TXOut ι))) : Bool :=
  Vin.isCleanupVin tx.vin currentHeight refUTXOs && Vout.isCleanupVout tx.vout &&
    decide (tx.fee = 0) && (tx.validateEqualVinVout currentHeight refUTXOs).isOk

def validateFees (currentHeight : Nat) (refUTXOs : List (Option (TXOut ι))) (storage : Storage) :
    Except Err Unit := do
  check (tx.vin ≠ []) "tx.validateFees: tx.vin not initialized"
  check (tx.vout ≠ []) "tx.validateFees: tx.vout not initialized"
  if tx.isCleanupTx currentHeight refUTXOs then .ok ()
  else do
    Vout.validateFees tx.vout storage
    check (storage.minTxFee ≤ tx.fee) "tx.validateFees; tx.fee below minTxFee"

def validateChainID (chainID : Nat) : Except Err Unit := do
  check (tx.vin ≠ []) "tx.validateChainID: tx.vin not initialized"
  check (tx.vout ≠ []) "tx.validateChainID: tx.vout not initialized"
  check (chainID ≠ 0) "tx.validateChainID: chainID invalid; cannot be 0"
  check (∀ inp ∈ tx.vin, inp.chainID = chainID)
    "tx.validateChainID: invalid chainID; bad chain ID (vin)"
  check (∀ outp ∈ tx.vout, outp.chainID = chainID)
    "tx.validateChainID: invalid chainID; bad chain ID (vout)"

/-- The heights before which the outputs must be mined, without those that do not matter. -/
def mustBeMinedBefore : List Nat :=
  ((tx.vout.map TXOut.mustBeMinedBeforeHeight).filter (· ≠ maxUint32)).dedup

def validateIssuedAtForMining (currentHeight : Nat) : Except Err Unit := do
  check (tx.vout ≠ []) "tx.validateIssuedAtForMining: tx.vout not initialized"
  match tx.mustBeMinedBefore with
  | [] => .ok ()
  | [mbh] =>
    check (epoch mbh = epoch currentHeight) "tx.validateIssuedAtForMining: mining out of epoch"
  | _ => .error (.invalid "tx.validateIssuedAtForMining: conflicting IssuedAt")

/-- `Validate`: the set, and the transaction afterwards. -/
def validate (set : List ι) (currentHeight : Nat) (consumedUTXOs : List (Option (TXOut ι)))
    (storage : Storage) : Except Err (List ι × Tx ι) := do
  check (tx.vin ≠ []) "tx.validate: tx.vin not initialized"
  check (tx.vout ≠ []) "tx.validate: tx.vout not initialized"
  Vout.validateTxOutIdx tx.vout
  let set ← tx.validateDataStoreIndexes S set
  let set ← tx.validateUnique S set
  let tx := tx.cacheUTXOIDs S
  tx.validateEqualVinVout currentHeight consumedUTXOs
  tx.validateFees currentHeight consumedUTXOs storage
  let tx ← tx.validateTxHash S
  return (set, tx)

/-- `PreValidatePending`, and the transaction afterwards. -/
def preValidatePending (chainID : Nat) : Except Err (Tx ι) := do
  check (tx.vin ≠ []) "tx.preValidatePending: tx.vin not initialized"
  check (tx.vout ≠ []) "tx.preValidatePending: tx.vout not initialized"
  tx.validateChainID chainID
  let _ ← tx.validateUnique S []
  let tx ← (tx.cacheUTXOIDs S).validateTxHash S
  check (tx.vout ≠ []) "tx.validatePreSignature: tx.vout not initialized"
  Vout.validatePreSignature S tx.vout
  return tx

def validateSignature (currentHeight : Nat) (refUTXOs : List (Option (TXOut ι))) :
    Except Err Unit := do
  check (tx.vin ≠ []) "tx.validateSignature: tx.vin not initialized"
  Vout.validateSignature S refUTXOs currentHeight tx.vin

def postValidatePending (currentHeight : Nat) (consumedUTXOs : List (Option (TXOut ι)))
    (storage : Storage) : Except Err Unit := do
  check (tx.vin ≠ []) "tx.postValidatePending: tx.vin not initialized"
  check (tx.vout ≠ []) "tx.postValidatePending: tx.vout not initialized"
  tx.validateEqualVinVout currentHeight consumedUTXOs
  tx.validateFees currentHeight consumedUTXOs storage
  tx.validateSignature S currentHeight consumedUTXOs

end Tx

/-! ## Vectors of transactions -/

namespace TxVec

variable (txs : List (Tx ι))

def consumedUTXOIDOnlyDeposits : List ι := txs.flatMap (·.consumedDeposits S)

def consumedUTXOIDNoDeposits : List ι := txs.flatMap (·.consumedNoDeposits S)

def consumedPreHashOnlyDeposits : List ι := txs.flatMap (·.consumedDepositPreHashes S)

def generatedUTXOs : List (TXOut ι) := txs.flatMap (·.vout)

def generatedUTXOID : Except Err (List ι) := do
  let ids ← txs.mapM (·.generatedUTXOID S)
  return ids.flatten

def generatedPreHash : Except Err (List ι) := do
  let hashes ← txs.mapM (·.generatedPreHash S)
  return hashes.flatten

def validateDataStoreIndexes : List ι → List (Tx ι) → Except Err (List ι)
  | exclSet, [] => .ok exclSet
  | exclSet, tx :: txs => do
    let exclSet ← tx.validateDataStoreIndexes S exclSet
    validateDataStoreIndexes exclSet txs

def preValidateApplyState (chainID : Nat) : Except Err Unit := txs.forM (·.validateChainID chainID)

/-- `voutMap`: of two outputs with the same UTXO ID the last one counts. -/
def voutMap (consumedUTXOs : List (TXOut ι)) (utxoID : ι) : Option (TXOut ι) :=
  consumedUTXOs.reverse.find? (·.utxoID S = utxoID)

/-- The loop of `Validate`: the transactions afterwards. -/
def validateFrom (currentHeight : Nat) (consumedUTXOs : List (TXOut ι)) (storage : Storage) :
    List ι → List (Tx ι) → Except Err (List (Tx ι))
  | _, [] => .ok []
  | set, tx :: txs => do
    let utxoIDs ← tx.consumedUTXOID S
    let (set, tx) ← tx.validate S set currentHeight (utxoIDs.map (voutMap S consumedUTXOs)) storage
    let txs ← validateFrom currentHeight consumedUTXOs storage set txs
    return tx :: txs

def validate (currentHeight : Nat) (consumedUTXOs : List (TXOut ι)) (storage : Storage) :
    Except Err (List (Tx ι)) :=
  validateFrom S currentHeight consumedUTXOs storage [] txs

/-- `TxHash`: the hashes, and the transactions afterwards. -/
def txHash : Except Err (List (ι × Tx ι)) := txs.mapM (·.getTxHash S)

def preValidatePending (chainID : Nat) : Except Err (List (Tx ι)) :=
  txs.mapM (·.preValidatePending S chainID)

def postValidatePending (currentHeight : Nat) (consumedUTXOs : List (TXOut ι))
    (storage : Storage) : Except Err Unit :=
  txs.forM (·.postValidatePending S currentHeight (consumedUTXOs.map some) storage)

end TxVec

end MadNet.App
