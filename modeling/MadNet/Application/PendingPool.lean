import MadNet.Application.PendingIndex
import MadNet.Lib.Run

/-!
# The pending pool (`pendingtx/pendingtxhandler.go`)

Every method runs in one transaction of the database: when it fails, it changes nothing. The UTXO
handler and the deposit handler are interfaces to the pool; `checkIsValid`, which asks them, is the
outcome that a call to `Add` is given.
-/

namespace MadNet.App

/-- A transaction as the pool stores it, with what the pool computes from it. -/
structure PoolTx (ι τ : Type) where
  tx : τ
  txHash : ι
  /-- `EpochOfExpirationForMining`. -/
  expEpoch : Nat
  /-- `ConsumedUTXOID`, which fails if there is no input. -/
  utxoIDs : List ι
  consumes : utxoIDs ≠ []
  /-- `TxHash` fails if two inputs have the same UTXO ID. -/
  nodup : utxoIDs.Nodup

/-- `pendingtx.Handler`. -/
structure Pool (ι τ : Type) where
  indexer : PendingTxIndexer ι
  txs : List (PoolTx ι τ)
  /-- The cooldown keys that have not run out. -/
  cooldown : List ι

namespace Pool

variable {ι τ : Type} [DecidableEq ι]

def empty : Pool ι τ := { indexer := .empty, txs := [], cooldown := [] }

variable (p : Pool ι τ)

def hashes : List ι := p.txs.map PoolTx.txHash

/-- The number of pending transactions that consume `utxoID`. -/
def consumers (utxoID : ι) : Nat := p.txs.countP (utxoID ∈ ·.utxoIDs)

def getOneInternal (epoch : Nat) (txHash : ι) : Except Err (PoolTx ι τ) :=
  match p.indexer.expiration.getEpoch txHash with
  | .error _ => .error .missingTransactions
  | .ok expEpoch =>
    if expEpoch < epoch then .error (.invalid "ptHandler.getOneInternal; expired")
    else
      match p.txs.find? (·.txHash = txHash) with
      | some tx => .ok tx
      | none => .error .missingTransactions

def containsOneInternal (epoch : Nat) (txHash : ι) : Except Err Bool :=
  match p.getOneInternal epoch txHash with
  | .ok _ => .ok true
  | .error .missingTransactions => .ok false
  | .error e => .error e

def deleteTx (txHash : ι) : Pool ι τ := { p with txs := p.txs.filter (·.txHash ≠ txHash) }

def deleteOneInternal (txHash : ι) (minedDelete : Bool) : Pool ι τ :=
  if minedDelete then
    let (indexer, txHashes) := p.indexer.deleteMined txHash
    (txHashes.foldl deleteTx { p with indexer := indexer }).deleteTx txHash
  else ({ p with indexer := p.indexer.deleteOne txHash }).deleteTx txHash

def setTx (tx : PoolTx ι τ) : Pool ι τ := { p with txs := tx :: (p.deleteTx tx.txHash).txs }

def addOneInternal (le : ι → ι → Bool) (now : Nat) (tx : PoolTx ι τ) : Except Err (Pool ι τ) := do
  let contains ← p.containsOneInternal tx.expEpoch tx.txHash
  if contains then .ok p
  else do
    let (indexer, evicted) ← p.indexer.add le now tx.expEpoch tx.txHash tx.utxoIDs
    return (evicted.foldl (deleteOneInternal · · false) { p with indexer := indexer }).setTx tx

/-- `poolTx` computes what the pool needs of a transaction. -/
def addLoop (le : ι → ι → Bool) (poolTx : τ → Except Err (PoolTx ι τ)) :
    Pool ι τ → List (Nat × τ) → Except Err (Pool ι τ)
  | p, [] => .ok p
  | p, (now, tx) :: txs => do
    let tx ← poolTx tx
    if tx.txHash ∈ p.cooldown then .error (.invalid "ptHandler.Add; already mined")
    else
      let p ← p.addOneInternal le now tx
      addLoop le poolTx p txs

/-- `Add`, where `checked` is what `checkIsValid` returns. Each transaction comes with the time of
its insertion. -/
def add (le : ι → ι → Bool) (poolTx : τ → Except Err (PoolTx ι τ)) (checked : Except Err Unit)
    (txs : List (Nat × τ)) : Except Err (Pool ι τ) := do
  checked
  addLoop le poolTx p txs

def delete (txHashes : List ι) : Pool ι τ := txHashes.foldl (deleteOneInternal · · false) p

def setCooldown (txHash : ι) : Pool ι τ := { p with cooldown := setKey txHash p.cooldown }

/-- The first loops of `DeleteMined`. -/
def deleteMinedTxs (txHashes : List ι) : Pool ι τ :=
  txHashes.foldl (deleteOneInternal · · true) (txHashes.foldl setCooldown p)

/-- The rest of `DeleteMined`. -/
def deleteExpired (currentHeight : Nat) : Pool ι τ :=
  let (indexer, dropHashes) := p.indexer.dropBefore (epoch currentHeight)
  dropHashes.foldl (fun p txHash => (p.setCooldown txHash).deleteOneInternal txHash true)
    { p with indexer := indexer }

def deleteMined (currentHeight : Nat) (txHashes : List ι) : Pool ι τ :=
  (p.deleteMinedTxs txHashes).deleteExpired currentHeight

/-! ## Calls -/

/-- The calls that change the pool, and the end of a cooldown. -/
inductive Call (ι τ : Type) where
  | add (checked : Except Err Unit) (txs : List (Nat × τ))
  | delete (txHashes : List ι)
  | deleteMined (currentHeight : Nat) (txHashes : List ι)
  | cooldownOver (txHash : ι)

def step (le : ι → ι → Bool) (poolTx : τ → Except Err (PoolTx ι τ)) (p : Pool ι τ) :
    Call ι τ → Pool ι τ
  | .add checked txs => (p.add le poolTx checked txs).toOption.getD p
  | .delete txHashes => p.delete txHashes
  | .deleteMined currentHeight txHashes => p.deleteMined currentHeight txHashes
  | .cooldownOver txHash => { p with cooldown := p.cooldown.filter (· ≠ txHash) }

/-! ## Consistency -/

/-- What the indexes of a pool have to say about its transactions. -/
structure Consistent : Prop where
  counter : ∀ utxoID, (p.indexer.reflink.refCounter utxoID).getD 0 = p.consumers utxoID
  counter_le : ∀ utxoID, (p.indexer.reflink.refCounter utxoID).getD 0 ≤ RefLinker.threshold
  order : ∀ txHash, (∃ time, (time, txHash) ∈ p.indexer.order.idx) ↔ txHash ∈ p.hashes
  order_rev : ∀ time txHash, (time, txHash) ∈ p.indexer.order.idx ↔
    p.indexer.order.rev txHash = some time
  expiration : ∀ txHash, (∃ epoch, (epoch, txHash) ∈ p.indexer.expiration.keys) ↔ txHash ∈ p.hashes
  links : ∀ txHash, (∃ utxoID, (txHash, utxoID) ∈ p.indexer.reflink.refs) ↔ txHash ∈ p.hashes
  links_rev : ∀ txHash utxoID,
    (utxoID, txHash) ∈ p.indexer.reflink.revRefs ↔ (txHash, utxoID) ∈ p.indexer.reflink.refs

/-- The reference keys of the expiry index are those of its keys. -/
def ExpirationRefs : Prop :=
  ∀ epoch txHash, p.indexer.expiration.ref txHash = some epoch ↔
    (epoch, txHash) ∈ p.indexer.expiration.keys

/-- A mined transaction shares no input with another pending transaction. -/
def Exclusive (p : Pool ι τ) : Call ι τ → Prop
  | .deleteMined _ txHashes =>
    ∀ tx ∈ p.txs, tx.txHash ∈ txHashes → ∀ tx' ∈ p.txs, tx'.txHash ≠ tx.txHash →
      tx.utxoIDs.Disjoint tx'.utxoIDs
  | _ => True

/-- The call removes no pending transaction. -/
def Keeps (poolTx : τ → Except Err (PoolTx ι τ)) (p : Pool ι τ) : Call ι τ → Prop
  | .add _ txs =>
    ∀ utxoID, p.consumers utxoID +
      (txs.filterMap fun tx => (poolTx tx.2).toOption).countP (utxoID ∈ ·.utxoIDs) ≤
      RefLinker.threshold
  | .delete txHashes => ∀ txHash ∈ txHashes, txHash ∉ p.hashes
  | .deleteMined currentHeight txHashes =>
    (∀ txHash ∈ txHashes, txHash ∉ p.hashes) ∧ ∀ tx ∈ p.txs, epoch currentHeight ≤ tx.expEpoch
  | .cooldownOver _ => True

end Pool

end MadNet.App
