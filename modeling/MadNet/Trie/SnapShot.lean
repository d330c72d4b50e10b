import MadNet.Lib.Run
import MadNet.Trie.Session

/-!
# Nodes of a trie from peers (`badgerTrie/sync.go`, `verifyBatch` and its like in `smt.go`)

A node that syncs asks its peers for the batch of a root, verifies it against the root, stores it,
and asks for the nodes on the lowest level of the batch. A peer chooses every slot of a batch: here
a slot is 32 bytes, which are taken for a hash, a key or a value as the code takes them, and a last
byte.
-/

namespace MadNet.Trie

open Radix Prog Option

variable {D : Type}

/-- 33 bytes of a batch. -/
structure Raw (D : Type) where
  bytes : D
  last : UInt8
  deriving DecidableEq

/-- The last byte tells a shortcut. -/
def Raw.flagged (r : Raw D) : Bool := r.last == 1

/-- What `parseBatch` makes of the bytes that it accepts. -/
inductive RawBatch (D : Type) where
  | shortcut (key value : Raw D)
  | regular (slots : Fin 30 → Option (Raw D))

inductive SyncErr where
  | invalid (msg : String)
  /-- An index or a slice is out of range. -/
  | panic
  deriving DecidableEq

namespace RawBatch

def slot : RawBatch D → Nat → Option (Raw D)
  | shortcut key _, 1 => some key
  | shortcut _ value, 2 => some value
  | shortcut _ _, _ => none
  | regular slots, i => if h : 0 < i ∧ i - 1 < 30 then slots ⟨i - 1, h.2⟩ else none

def isShortcut : RawBatch D → Bool
  | shortcut _ _ => true
  | regular _ => false

variable (b : RawBatch D)

/-- `batch[i]` where it is sliced or indexed, which panics if it is empty; `batch[0]` is one byte.
-/
def slice (i : Nat) : Except SyncErr (Raw D) :=
  match b.slot i with
  | some r => .ok r
  | none => .error .panic

/-- `batch[i][len(batch[i])-1]`. -/
def lastByte (i : Nat) : Except SyncErr UInt8 :=
  if i = 0 then .ok (if b.isShortcut then 1 else 0) else (b.slice i).map Raw.last

/-- One of the two children of a slot is in the batch and not empty. -/
def hasChildren (i : Nat) : Bool :=
  decide (2 * i + 2 < 32) && ((b.slot (2 * i + 1)).isSome || (b.slot (2 * i + 2)).isSome)

/-- The children of a slot are read as a key and a value. -/
def isLeafAt (i : Nat) : Bool :=
  if i = 0 then b.isShortcut else (b.slot i).any Raw.flagged

variable (toKey : D → Key)

/-- The batch as it is read when it is loaded: the children of a shortcut are a key and a value. -/
def decode : Batch D where
  isShortcut := b.isShortcut
  slot i := (b.slot i).map fun r =>
    if b.isLeafAt ((i - 1) / 2) then
      if i % 2 = 1 then .key (toKey r.bytes) else .value r.bytes
    else
      .node { hash := r.bytes, flag := some r.flagged }

variable (H : Hasher D)

/-! ## Verifying a batch -/

/-- The hash of a slot: from those of its children, if they have children, or else from their bytes.
-/
def hashSlots (height : Int) (idx : Nat) : Option D → Option D → Except SyncErr (Option D)
  | none, none => do
    let node ← b.slice idx
    if node.flagged ∧ idx < 15 then
      let l ← b.slice (2 * idx + 1)
      let r ← b.slice (2 * idx + 2)
      return some (H.leaf (toKey l.bytes) r.bytes (.ofInt height))
    else
      match b.slot (2 * idx + 1), b.slot (2 * idx + 2) with
      | some l, some r => return some (H.interior l.bytes r.bytes)
      | none, some r => return some (H.interior H.defaultLeaf r.bytes)
      | some l, none => return some (H.interior l.bytes H.defaultLeaf)
      | none, none => return none
  | some lres, some rres => .ok (some (H.interior lres rres))
  | some lres, none => .ok (some (H.interior lres H.defaultLeaf))
  | none, some rres => .ok (some (H.interior H.defaultLeaf rres))

/-- What the hash of a slot is compared with. -/
def expected (root : D) (idx : Nat) : Except SyncErr D :=
  if idx = 0 then .ok root else (b.slice idx).map Raw.bytes

/-- The part of `verifyBatch` for one child: it is verified if it has children. -/
def verifyChild (rec : Nat → Except SyncErr (Option D × Bool)) (i : Nat) :
    Except SyncErr (Option D × Bool) :=
  if b.hasChildren i then rec i else .ok (none, true)

variable [DecidableEq D]

/-- `verifyBatch` of a batch that is not a shortcut. -/
def verifyBatch (height : Int) (root : D) : Nat → Nat → Except SyncErr (Option D × Bool)
  | 0, _ => .ok (none, false)
  | subtreeHeight + 1, idx => do
    let (lres, leq) ← b.verifyChild (verifyBatch height root subtreeHeight) (2 * idx + 1)
    if !leq then return (none, false)
    else
      let (rres, req) ← b.verifyChild (verifyBatch height root subtreeHeight) (2 * idx + 2)
      if !req then return (none, false)
      else
        let res ← b.hashSlots toKey H (height + (subtreeHeight + 1)) idx lres rres
        let bytes ← b.expected root idx
        return (res, decide (res = some bytes))

def verifyBatchEasy (root : D) (layer : Nat) : Except SyncErr Bool :=
  match b with
  | shortcut key value =>
    .ok (H.leaf (toKey key.bytes) value.bytes (.ofInt (256 - 4 * layer)) = root)
  | regular _ => do
    let (_, equiv) ← b.verifyBatch toKey H (256 - 4 * (layer + 1)) root 4 0
    return equiv

/-! ## The nodes and the leaves of a batch -/

/-- The part of the functions below for one child. -/
def descend {α : Type} (rec : Nat → Except SyncErr (List α)) (i : Nat) : Except SyncErr (List α) :=
  if b.hasChildren i then rec i else .ok []

/-- `getInteriorNodesNext`. The hash that it returns as well is empty if the child has no children,
and not read otherwise. -/
def getInteriorNodesNext : Nat → Nat → Except SyncErr (List D)
  | 0, _ => .ok []
  | subtreeHeight + 1, idx => do
    let l ← b.descend (getInteriorNodesNext subtreeHeight) (2 * idx + 1)
    let r ← b.descend (getInteriorNodesNext subtreeHeight) (2 * idx + 2)
    if b.hasChildren (2 * idx + 1) || b.hasChildren (2 * idx + 2) then return l ++ r
    else
      let last ← b.lastByte idx
      if last = 1 ∧ idx < 15 then
        let _ ← b.slice (2 * idx + 1)
        let _ ← b.slice (2 * idx + 2)
        return []
      else
        return ((b.slot (2 * idx + 1)).toList ++ (b.slot (2 * idx + 2)).toList).map Raw.bytes

def getInteriorNodesEasy : Except SyncErr (List D) :=
  match b with
  | shortcut _ _ => .ok []
  | regular _ => b.getInteriorNodesNext 4 0

/-- `getFinalLeafNodes`; a slot that has children is at most three levels below the root. -/
def getFinalLeafNodes : Nat → Nat → Except SyncErr (List (Key × D))
  | 0, _ => .ok []
  | n + 1, idx => do
    let last ← b.lastByte idx
    if last = 1 ∧ idx < 15 then
      let l ← b.slice (2 * idx + 1)
      let r ← b.slice (2 * idx + 2)
      return [(toKey l.bytes, r.bytes)]
    else
      let l ← b.descend (getFinalLeafNodes n) (2 * idx + 1)
      let r ← b.descend (getFinalLeafNodes n) (2 * idx + 2)
      return l ++ r

end RawBatch

/-- `storeFastSyncRoot` or `storeFastSyncNonRoot`. -/
def storeSnapShotNode [DecidableEq D] (H : Hasher D) (toKey : D → Key) (db : D → Option (Record D))
    (batch : RawBatch D) (root : D) (layer : Nat) :
    Except SyncErr ((D → Option (Record D)) × List D × Nat × List (Key × D)) := do
  let ok ← batch.verifyBatchEasy toKey H root layer
  if !ok then
    .error (.invalid (if layer = 0
      then "Error in smt.StoreFastSyncRoot at s.verifyBatchEasy(batch, root, 0)"
      else "Error in smt.StoreFastSyncNonRoot at s.verifyBatchEasy(batch, root, layer): layer:" ++
        toString layer))
  else
    let db := Function.update db root (some (batch.decode toKey).serialize)
    let subBatch ← batch.getInteriorNodesEasy
    let lvs ← batch.getFinalLeafNodes toKey 4 0
    return (db, subBatch, layer + 1, lvs)

/-! ## What a verified batch holds -/

namespace RawBatch

section

variable {b : RawBatch D} {toKey : D → Key} {H : Hasher D} {i h n : Nat} {T l r : Tree Key D}

variable {raw : Raw D}

theorem slot_zero : b.slot 0 = none := by
  cases b <;> simp [slot]

theorem lastByte_of_leaf (hi : b.isLeafAt i = true) : b.lastByte i = .ok 1 := by
  unfold isLeafAt at hi
  unfold lastByte
  split at hi
  next hi0 => rw [if_pos hi0, if_pos hi]
  next hi0 =>
    rw [if_neg hi0, slice]
    cases hslot : b.slot i with
    | none =>
      rw [hslot] at hi
      cases hi
    | some r =>
      rw [hslot] at hi
      exact congrArg Except.ok (eq_of_beq hi)

theorem lastByte_of_not_leaf (hi : b.isLeafAt i = false) {x : UInt8} (hx : b.lastByte i = .ok x) :
    x ≠ 1 := by
  unfold isLeafAt at hi
  unfold lastByte at hx
  split at hi
  next hi0 =>
    rw [if_pos hi0, hi] at hx
    cases hx
    decide
  next hi0 =>
    rw [if_neg hi0, slice] at hx
    cases hslot : b.slot i with
    | none =>
      rw [hslot] at hx
      cases hx
    | some r =>
      rw [hslot] at hi hx
      cases hx
      exact ne_of_beq_false hi

/-- The digest of a slot, as its bytes say. -/
def slotDigest (H : Hasher D) : Option (Raw D) → D
  | none => H.defaultLeaf
  | some r => r.bytes

/-- The slots below a child are among those below its parent. -/
theorem span_child {n i c : Nat} (hc : c = 2 * i + 1 ∨ c = 2 * i + 2)
    (hlo : 8 ≤ (i + 1) * 2 ^ (n + 1))
    (hhi : (i + 2) * 2 ^ (n + 1) ≤ 16) : 8 ≤ (c + 1) * 2 ^ n ∧ (c + 2) * 2 ^ n ≤ 16 := by
  rw [Nat.pow_succ', ← Nat.mul_assoc] at hlo hhi
  exact ⟨hlo.trans (Nat.mul_le_mul_right _ (by omega)),
    (Nat.mul_le_mul_right _ (by omega)).trans hhi⟩

end

end RawBatch

end MadNet.Trie
