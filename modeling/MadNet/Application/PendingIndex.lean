import MadNet.Application.Values

/-!
# The indexes of the pending pool (`application/indexer`, `pendingtx/pendingindex`)

A family of keys of the database is a list without duplicates, a family of keys with values a
function. `ErrKeyNotFound`, which every caller of these indexes ignores, leaves them unchanged.
Iterations whose result does not depend on the order of the keys run in the order of the list.
-/

namespace MadNet.App

variable {ι : Type} [DecidableEq ι]

/-- Write a key. -/
def setKey {α : Type} [DecidableEq α] (k : α) (keys : List α) : List α :=
  if k ∈ keys then keys else k :: keys

@[simp] theorem mem_setKey {α : Type} [DecidableEq α] {k x : α} {keys : List α} :
    x ∈ setKey k keys ↔ x = k ∨ x ∈ keys := by
  unfold setKey
  split
  next h =>
    refine ⟨.inr, ?_⟩
    rintro (rfl | hx)
    · exact h
    · exact hx
  next h => exact List.mem_cons

/-! ## `RefCounter` -/

namespace RefCounter

def increment (c : ι → Option Nat) (utxoID : ι) : (ι → Option Nat) × Nat :=
  match c utxoID with
  | none => (Function.update c utxoID (some 1), 1)
  | some v => (Function.update c utxoID (some (v + 1)), v + 1)

def decrement (c : ι → Option Nat) (utxoID : ι) : ι → Option Nat :=
  match c utxoID with
  | none => c
  | some v => Function.update c utxoID (if 0 < v - 1 then some (v - 1) else none)

end RefCounter

/-! ## `RefLinker` -/

/-- Which pending transaction consumes which UTXO, in both directions. -/
structure RefLinker (ι : Type) where
  /-- `<txHash>|<utxoID>`. -/
  refs : List (ι × ι)
  /-- `<utxoID>|<txHash>`. -/
  revRefs : List (ι × ι)
  refCounter : ι → Option Nat

namespace RefLinker

def threshold : Nat := 3

def empty : RefLinker ι := { refs := [], revRefs := [], refCounter := fun _ => none }

variable (rl : RefLinker ι)

/-- Delete the two keys of a link. -/
def deleteKeys (txHash utxoID : ι) : RefLinker ι :=
  { rl with
    refs := rl.refs.filter (· ≠ (txHash, utxoID))
    revRefs := rl.revRefs.filter (· ≠ (utxoID, txHash)) }

/-- The body of the loop of `Delete`. -/
def deleteLink (link : ι × ι) : RefLinker ι :=
  { rl.deleteKeys link.1 link.2 with refCounter := RefCounter.decrement rl.refCounter link.2 }

def delete (txHash : ι) : RefLinker ι := (rl.refs.filter (·.1 = txHash)).foldl deleteLink rl

/-- The first key of a UTXO is evicted. `le` is the order of the keys. -/
def evictOne (le : ι → ι → Bool) (utxoID : ι) : Except Err (RefLinker ι × ι) :=
  match (((rl.revRefs.filter (·.1 = utxoID)).map Prod.snd).mergeSort le).head? with
  | some evictedHash => .ok (rl.delete evictedHash, evictedHash)
  | none => .error (.panic "runtime error: invalid memory address or nil pointer dereference")

/-- Write the two keys of a link. -/
def setKeys (txHash utxoID : ι) : RefLinker ι :=
  { rl with
    refs := setKey (txHash, utxoID) rl.refs
    revRefs := setKey (utxoID, txHash) rl.revRefs }

/-- The body of the loop of `Add`. -/
def addLink (le : ι → ι → Bool) (txHash utxoID : ι) : Except Err (RefLinker ι × List ι) :=
  let (refCounter, count) := RefCounter.increment rl.refCounter utxoID
  let rl := { rl with refCounter := refCounter }
  if threshold < count then do
    let (rl, txHashEvicted) ← rl.evictOne le utxoID
    return (rl.setKeys txHash utxoID, [txHashEvicted])
  else .ok (rl.setKeys txHash utxoID, [])

def add (le : ι → ι → Bool) (txHash : ι) : RefLinker ι → List ι → Except Err (RefLinker ι × List ι)
  | rl, [] => .ok (rl, [])
  | rl, utxoID :: utxoIDs => do
    let (rl, evicted) ← rl.addLink le txHash utxoID
    let (rl, evictions) ← add le txHash rl utxoIDs
    return (rl, evicted ++ evictions)

/-- `fn2` of `DeleteMined`: the counter goes down once, whatever the number of links. -/
def deleteMinedUTXO (utxoID : ι) : RefLinker ι :=
  ((rl.revRefs.filter (·.1 = utxoID)).map Prod.snd).foldl
    (fun rl txHash => rl.deleteKeys txHash utxoID)
    { rl with refCounter := RefCounter.decrement rl.refCounter utxoID }

/-- The consumers that the loop of `DeleteMined` meets from `rl` on. -/
def consumersOf (txHashes : List ι) (utxoID : ι) : List ι :=
  ((rl.revRefs.filter (·.1 = utxoID)).map Prod.snd).foldl
    (fun txHashes txHash => if txHash ∈ txHashes then txHashes else txHashes ++ [txHash]) txHashes

def deleteMined (txHash : ι) : RefLinker ι × List ι :=
  ((rl.refs.filter (·.1 = txHash)).map Prod.snd).foldl
    (fun (rl, txHashes) utxoID => (rl.deleteMinedUTXO utxoID, rl.consumersOf txHashes utxoID))
    (rl, [])

end RefLinker

/-! ## `InsertionOrderIndexer` -/

/-- The transactions by the time of their insertion. -/
structure InsertionOrderIndexer (ι : Type) where
  /-- `<time>|<txHash>`. -/
  idx : List (Nat × ι)
  /-- The time, by `<txHash>`. -/
  rev : ι → Option Nat

namespace InsertionOrderIndexer

def empty : InsertionOrderIndexer ι := { idx := [], rev := fun _ => none }

def add (o : InsertionOrderIndexer ι) (now : Nat) (txHash : ι) : InsertionOrderIndexer ι :=
  { idx := setKey (now, txHash) o.idx, rev := Function.update o.rev txHash (some now) }

def delete (o : InsertionOrderIndexer ι) (txHash : ι) : InsertionOrderIndexer ι :=
  match o.rev txHash with
  | none => o
  | some time =>
    { idx := o.idx.filter (· ≠ (time, txHash)), rev := Function.update o.rev txHash none }

end InsertionOrderIndexer

/-! ## `EpochConstrainedList` -/

/-- The transactions by the last epoch in which they can be mined. -/
structure EpochConstrainedList (ι : Type) where
  /-- `<epoch>|<txHash>`. -/
  keys : List (Nat × ι)
  /-- The epoch, by `<txHash>`. -/
  ref : ι → Option Nat

namespace EpochConstrainedList

def empty : EpochConstrainedList ι := { keys := [], ref := fun _ => none }

def append (l : EpochConstrainedList ι) (epoch : Nat) (txHash : ι) : EpochConstrainedList ι :=
  { keys := setKey (epoch, txHash) l.keys, ref := Function.update l.ref txHash (some epoch) }

/-- `Drop`: the reference key stays. -/
def drop (l : EpochConstrainedList ι) (txHash : ι) : EpochConstrainedList ι :=
  match l.ref txHash with
  | none => l
  | some epoch => { l with keys := l.keys.filter (· ≠ (epoch, txHash)) }

/-- `DropBefore`: the reference keys stay. -/
def dropBefore (l : EpochConstrainedList ι) (epoch : Nat) : EpochConstrainedList ι × List ι :=
  ({ l with keys := l.keys.filter fun k => ¬k.1 < epoch },
    (l.keys.filter fun k => k.1 < epoch).map Prod.snd)

def getEpoch (l : EpochConstrainedList ι) (txHash : ι) : Except Err Nat :=
  match l.ref txHash with
  | some epoch => .ok epoch
  | none => .error .keyNotFound

end EpochConstrainedList

/-! ## `PendingTxIndexer` -/

structure PendingTxIndexer (ι : Type) where
  order : InsertionOrderIndexer ι
  reflink : RefLinker ι
  expiration : EpochConstrainedList ι

namespace PendingTxIndexer

def empty : PendingTxIndexer ι := { order := .empty, reflink := .empty, expiration := .empty }

variable (pti : PendingTxIndexer ι)

def deleteOne (txHash : ι) : PendingTxIndexer ι :=
  { order := pti.order.delete txHash
    reflink := pti.reflink.delete txHash
    expiration := pti.expiration.drop txHash }

def add (le : ι → ι → Bool) (now epoch : Nat) (txHash : ι) (utxoIDs : List ι) :
    Except Err (PendingTxIndexer ι × List ι) := do
  let (reflink, evicted) ← pti.reflink.add le txHash utxoIDs
  let pti := evicted.foldl deleteOne
    { pti with order := pti.order.add now txHash, reflink := reflink }
  return ({ pti with expiration := pti.expiration.append epoch txHash }, evicted)

def deleteMined (txHash : ι) : PendingTxIndexer ι × List ι :=
  let (reflink, txHashes) := pti.reflink.deleteMined txHash
  let txHashes := txHashes ++ [txHash]
  (txHashes.foldl deleteOne { pti with reflink := reflink }, txHashes)

def dropBefore (epoch : Nat) : PendingTxIndexer ι × List ι :=
  let (expiration, txHashes) := pti.expiration.dropBefore epoch
  (txHashes.foldl deleteOne { pti with expiration := expiration }, txHashes)

end PendingTxIndexer

end MadNet.App
