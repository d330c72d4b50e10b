import MadNet.Lib.Prog

/-!
# The sparse Merkle trie (`badgerTrie/smt.go`, `smt_tools.go`, `trie_cache.go`)

A trie over keys of 256 bits. A subtree with a single key is a shortcut: it is stored at its root.
Four levels of the tree form a batch of 31 slots, indexed as a binary heap, that is stored under the
hash of its root.

Hashes are of an abstract type; all that is known about them is what is hashed. The two goroutines
of `updateParallel` write to different slots of the batch and are run one after the other. Slices of
the wrong kind, which the code would misread or panic on, are the error `corrupt`; the invariant of
the trie excludes it.
-/

namespace MadNet.Trie

open Prog

/-- Keys, 32 bytes; `bytes.Compare` is the order of the numbers. -/
abbrev Key := BitVec 256

def bitIsSet (key : Key) (i : Nat) : Bool := key.getMsbD i

/-- The hash function, as it is used. -/
structure Hasher (D : Type) where
  /-- `s.hash(key, value, []byte{byte(height)})`. -/
  leaf : Key → D → UInt8 → D
  /-- `s.hash(left, right)`. -/
  interior : D → D → D
  defaultLeaf : D

inductive Err where
  /-- "keys and values are not of the same length". -/
  | differentLengths
  /-- "duplicate input key". -/
  | duplicateKey
  /-- "missing". -/
  | missing
  /-- "conflicting key/value in trie". -/
  | conflicting
  /-- "length of keys or values should not be zero". -/
  | noKeys
  /-- "the trie node %x is unavailable in the disk db, db may be corrupted". -/
  | unavailable
  /-- The stored batch is shorter than its bitmap says. -/
  | badBatch
  /-- A slot is not of the kind that the code takes it for. -/
  | corrupt
  deriving DecidableEq

/-- A hash with the byte after it that tells shortcuts; `SMT.Root` is without this byte. -/
structure Node (D : Type) where
  hash : D
  flag : Option Bool
  deriving DecidableEq

/-- A slot of a batch that is not empty: a node, or the key or the value of a shortcut. -/
inductive Slot (D : Type) where
  | node (n : Node D)
  | key (k : Key)
  | value (v : D)

/-- A batch: its first slot says whether it is a shortcut batch. -/
structure Batch (D : Type) where
  isShortcut : Bool
  slot : Nat → Option (Slot D)

/-- A batch in the database: the bits of the bitmap, and the slots that are not empty. -/
structure Record (D : Type) where
  isShortcut : Bool
  bitmap : List Bool
  slots : List (Slot D)

variable {D : Type}

namespace Batch

def empty : Batch D := { isShortcut := false, slot := fun _ => none }

def set (b : Batch D) (i : Nat) (s : Option (Slot D)) : Batch D :=
  { b with slot := Function.update b.slot i s }

/-- `serializeBatch`. -/
def serialize (b : Batch D) : Record D :=
  { isShortcut := b.isShortcut
    bitmap := (List.range 30).map fun i => (b.slot (i + 1)).isSome
    slots := (List.range 30).filterMap fun i => b.slot (i + 1) }

end Batch

/-- The slots from `i` on. -/
def parseSlots : List Bool → List (Slot D) → Nat → Nat → Option (Slot D)
  | [], _, _ => fun _ => none
  | true :: bits, slots, i => Function.update (parseSlots bits slots.tail (i + 1)) i slots.head?
  | false :: bits, slots, i => parseSlots bits slots (i + 1)

def parseBatch (r : Record D) : Except Err (Batch D) :=
  if r.isShortcut then
    match r.slots with
    | k :: v :: _ => .ok { isShortcut := true, slot := parseSlots [true, true] [k, v] 1 }
    | _ => .error .badBatch
  else if r.slots.length < r.bitmap.count true then .error .badBatch
  else .ok { isShortcut := false, slot := parseSlots r.bitmap r.slots 1 }

/-! ## What a slot is taken for -/

def Slot.isShortcut : Option (Slot D) → Bool
  | some (.node n) => n.flag == some true
  | _ => false

def Slot.asNode : Option (Slot D) → Except Err (Option (Node D))
  | none => .ok none
  | some (.node n) => .ok (some n)
  | some _ => .error .corrupt

def Slot.asShortcut : Option (Slot D) → Option (Slot D) → Except Err (Key × D)
  | some (.key k), some (.value v) => .ok (k, v)
  | _, _ => .error .corrupt

/-! ## Loading -/

/-- The nodes that have not been committed yet, and the database. -/
structure Store (D : Type) where
  updatedNodes : D → Option (Batch D)
  db : D → Option (Record D)

namespace Store

variable (s : Store D)

def empty : Store D := { updatedNodes := fun _ => none, db := fun _ => none }

def loadBatch (root : D) : Except Err (Batch D) :=
  match s.updatedNodes root with
  | some batch => .ok batch
  | none =>
    match s.db root with
    | some r => parseBatch r
    | none => .error .unavailable

/-- The batch and the index in it, the two children, and whether they are a shortcut. -/
def loadChildren (root : Option (Node D)) (height iBatch : Nat) (batch : Batch D) :
    Except Err (Batch D × Nat × Option (Slot D) × Option (Slot D) × Bool) :=
  if height % 4 = 0 then
    match root with
    | none => .ok (.empty, 0, none, none, false)
    | some n => do
      let batch ← s.loadBatch n.hash
      return (batch, 0, batch.slot 1, batch.slot 2, batch.isShortcut)
  else
    .ok (batch, iBatch, batch.slot (2 * iBatch + 1), batch.slot (2 * iBatch + 2),
      Slot.isShortcut (batch.slot iBatch))

end Store

/-! ## Reading -/

def Store.get (s : Store D) (key : Key) : Nat → Option (Node D) → Batch D → Nat →
    Except Err (Option D)
  | _, none, _, _ => .ok none
  | 0, some root, batch, iBatch => do
    let (_, _, lnode, rnode, isShortcut) ← s.loadChildren (some root) 0 iBatch batch
    if isShortcut then
      let (k, v) ← Slot.asShortcut lnode rnode
      return if k = key then some v else none
    else .error .corrupt
  | height + 1, some root, batch, iBatch => do
    let (batch, iBatch, lnode, rnode, isShortcut) ←
      s.loadChildren (some root) (height + 1) iBatch batch
    if isShortcut then
      let (k, v) ← Slot.asShortcut lnode rnode
      return if k = key then some v else none
    else if bitIsSet key (256 - (height + 1)) then
      Store.get s key height (← Slot.asNode rnode) batch (2 * iBatch + 2)
    else
      Store.get s key height (← Slot.asNode lnode) batch (2 * iBatch + 1)

/-! ## Keys -/

def splitKeys (kvs : List (Key × D)) (i : Nat) : List (Key × D) × List (Key × D) :=
  kvs.span fun kv => !bitIsSet kv.1 i

section Update

variable (H : Hasher D)

/-- The hash of two children, of which one may be empty. -/
def hashChildren : Option (Node D) → Option (Node D) → Except Err D
  | none, none => .error .corrupt
  | none, some r => .ok (H.interior H.defaultLeaf r.hash)
  | some l, none => .ok (H.interior l.hash H.defaultLeaf)
  | some l, some r => .ok (H.interior l.hash r.hash)

variable [DecidableEq D]

/-- The loop of `maybeAddShortcutToKV`; `before` are the keys that it has passed and `new` is what
it has put together so far. -/
def addShortcutLoop (shortcutKey : Key) (shortcutVal : D) :
    List (Key × D) → List (Key × D) → Bool → List (Key × D) → List (Key × D)
  | _, [], _, new => new
  | before, (key, value) :: rest, higher, new =>
    if shortcutKey = key ∧ value ≠ H.defaultLeaf then before ++ (key, value) :: rest
    else
      let new := if shortcutKey = key then new ++ before ++ rest else new
      if !higher && decide (key < shortcutKey) then
        addShortcutLoop shortcutKey shortcutVal (before ++ [(key, value)]) rest true new
      else if higher && decide (shortcutKey < key) then
        new ++ before ++ (shortcutKey, shortcutVal) :: (key, value) :: rest
      else
        addShortcutLoop shortcutKey shortcutVal (before ++ [(key, value)]) rest higher new

def maybeAddShortcutToKV (kvs : List (Key × D)) (shortcutKey : Key) (shortcutVal : D) :
    List (Key × D) :=
  if kvs.head?.any fun kv => shortcutKey < kv.1 then (shortcutKey, shortcutVal) :: kvs
  else if kvs.getLast?.any fun kv => kv.1 < shortcutKey then kvs ++ [(shortcutKey, shortcutVal)]
  else addShortcutLoop H shortcutKey shortcutVal [] kvs false []

/-! ## Writing -/

def storeNode (batch : Batch D) (h : Node D) (oldRoot : Option (Node D)) :
    EStateM Err (Store D) Unit :=
  if some h ≠ oldRoot then
    modify fun s => { s with updatedNodes := Function.update s.updatedNodes h.hash (some batch) }
  else pure ()

def leafHash (key : Key) (value : D) (oldRoot : Option (Node D)) (batch : Batch D)
    (iBatch height : Nat) : EStateM Err (Store D) (Batch D × Node D) := do
  let h : Node D := { hash := H.leaf key value (.ofNat height), flag := some true }
  let batch :=
    (batch.set (2 * iBatch + 2) (some (.value value))).set (2 * iBatch + 1) (some (.key key))
  if height % 4 = 0 then
    let batch := { batch with isShortcut := true }
    storeNode batch h oldRoot
    return (batch, h)
  else
    return (batch, h)

def interiorHash (left right oldRoot : Option (Node D)) (batch : Batch D) (iBatch height : Nat) :
    EStateM Err (Store D) (Batch D × Node D) := do
  let hash ← MonadExcept.ofExcept (hashChildren H left right)
  let h : Node D := { hash, flag := some false }
  let batch := (batch.set (2 * iBatch + 2) (right.map .node)).set (2 * iBatch + 1) (left.map .node)
  if height % 4 = 0 then
    let batch := { batch with isShortcut := false }
    storeNode batch h oldRoot
    return (batch, h)
  else
    return (batch, h)

/-- What an update sends to its parent, with the batch as it leaves it: the node that is left, and
whether a node was deleted so that a shortcut may have to move up. -/
abbrev Result (D : Type) := Batch D × Option (Node D) × Bool

def moveUpShortcut (shortcut : Node D) (root : Option (Node D)) (batch : Batch D)
    (iBatch iShortcut height : Nat) : EStateM Err (Store D) (Result D) := do
  let (_, _, shortcutKey, shortcutVal, _) ←
    MonadExcept.ofExcept ((← get).loadChildren (some shortcut) (height - 1) iShortcut batch)
  let (key, val) ← MonadExcept.ofExcept (Slot.asShortcut shortcutKey shortcutVal)
  let newShortcut : Node D := { hash := H.leaf key val (.ofNat height), flag := some true }
  let moved := (batch.set (2 * iBatch + 1) shortcutKey).set (2 * iBatch + 2) shortcutVal
  if iBatch = 0 then
    let batch := { (moved.set (2 * iShortcut + 1) none).set (2 * iShortcut + 2) none with
      isShortcut := true }
    storeNode batch newShortcut root
    return (batch, some newShortcut, true)
  else if (height - 1) % 4 = 0 then
    return (moved, some newShortcut, true)
  else
    return ((moved.set (2 * iShortcut + 1) none).set (2 * iShortcut + 2) none,
      some newShortcut, true)

def maybeMoveUpShortcut (left right root : Option (Node D)) (batch : Batch D)
    (iBatch height : Nat) : EStateM Err (Store D) (Option (Result D)) :=
  match left, right with
  | none, none =>
    let batch := if iBatch = 0 then batch
      else (batch.set (2 * iBatch + 1) none).set (2 * iBatch + 2) none
    pure (some (batch, none, true))
  | none, some r =>
    if r.flag = some true then
      some <$> moveUpShortcut H r root batch iBatch (2 * iBatch + 2) height
    else pure none
  | some l, none =>
    if l.flag = some true then
      some <$> moveUpShortcut H l root batch iBatch (2 * iBatch + 1) height
    else pure none
  | some _, some _ => pure none

/-- The end of `updateRight`, `updateLeft` and `updateParallel`. -/
def join (left right root : Option (Node D)) (batch : Batch D) (iBatch height : Nat)
    (deleted : Bool) : EStateM Err (Store D) (Result D) :=
  let interior := do
    let (batch, node) ← interiorHash H left right root batch iBatch height
    return (batch, some node, false)
  if deleted then do
    match ← maybeMoveUpShortcut H left right root batch iBatch height with
    | some result => return result
    | none => interior
  else
    interior

section Children

variable (rec : Option (Node D) → List (Key × D) → Batch D → Nat → EStateM Err (Store D) (Result D))
  (lnode rnode root : Option (Node D)) (kvs : List (Key × D)) (batch : Batch D)
  (iBatch height : Nat)

/-- `updateRight`, `updateLeft` or `updateParallel`; `rec` updates a child. -/
def updateChildren : EStateM Err (Store D) (Result D) := do
  match splitKeys kvs (256 - height) with
  | ([], _ :: _) =>
    let (batch, right, deleted) ← rec rnode kvs batch (2 * iBatch + 2)
    join H lnode right root batch iBatch height deleted
  | (_ :: _, []) =>
    let (batch, left, deleted) ← rec lnode kvs batch (2 * iBatch + 1)
    join H left rnode root batch iBatch height deleted
  | (lkvs, rkvs) =>
    let (batch, left, ldeleted) ← rec lnode lkvs batch (2 * iBatch + 1)
    let (batch, right, rdeleted) ← rec rnode rkvs batch (2 * iBatch + 2)
    join H left right root batch iBatch height (ldeleted || rdeleted)

/-- The part of `update` after a shortcut has been taken out of the node. -/
def updateNode : EStateM Err (Store D) (Result D) := do
  match lnode, rnode, kvs with
  | none, none, [(key, value)] =>
    if value = H.defaultLeaf then
      return (batch, none, true)
    else
      let (batch, node) ← leafHash H key value root batch iBatch height
      return (batch, some node, false)
  | _, _, _ => updateChildren H rec lnode rnode root kvs batch iBatch height

/-- The part of `update` after the node is loaded. -/
def updateLoaded (lslot rslot : Option (Slot D)) (isShortcut : Bool) :
    EStateM Err (Store D) (Result D) := do
  if isShortcut then
    let (key, val) ← MonadExcept.ofExcept (Slot.asShortcut lslot rslot)
    let kvs := maybeAddShortcutToKV H kvs key val
    let batch := (batch.set (2 * iBatch + 1) none).set (2 * iBatch + 2) none
    if kvs.isEmpty then
      return (batch, none, true)
    else
      updateNode H rec none none root kvs batch iBatch height
  else
    let lnode ← MonadExcept.ofExcept (Slot.asNode lslot)
    let rnode ← MonadExcept.ofExcept (Slot.asNode rslot)
    updateNode H rec lnode rnode root kvs batch iBatch height

end Children

/-- `update`. Where a batch ends the node is in a batch of its own, and the batch of the parent
stays as it is. -/
def update : Nat → Option (Node D) → List (Key × D) → Batch D → Nat →
    EStateM Err (Store D) (Result D)
  | 0, root, kvs, batch, _ => do
    match kvs with
    | [] => throw .noKeys
    | (key, value) :: _ =>
      if value = H.defaultLeaf then
        return (batch, none, true)
      else
        let (_, node) ← leafHash H key value root .empty 0 0
        return (batch, some node, false)
  | height + 1, root, kvs, parent, iParent => do
    if kvs.isEmpty then
      throw .noKeys
    else
      let (batch, iBatch, lnode, rnode, isShortcut) ←
        MonadExcept.ofExcept ((← get).loadChildren root (height + 1) iParent parent)
      let (batch, node, deleted) ← updateLoaded H (update height) root kvs batch iBatch (height + 1)
        lnode rnode isShortcut
      return (if (height + 1) % 4 = 0 then parent else batch, node, deleted)

end Update

/-! ## The trie -/

structure SMT (D : Type) where
  root : Option D
  store : Store D

namespace SMT

/-- The hash of the root, without the byte that tells shortcuts. -/
def rootNode (t : SMT D) : Option (Node D) := t.root.map fun hash => { hash, flag := none }

def get (t : SMT D) (key : Key) : Except Err (Option D) := t.store.get key 256 t.rootNode .empty 0

section

variable [DecidableEq D] (H : Hasher D)

/-- The check of a key and its value against the trie. -/
def checkKV (t : SMT D) (kv : Key × D) : Except Err Unit := do
  let v ← t.get kv.1
  if kv.2 = H.defaultLeaf then
    if v = none then .error .missing
  else if v ≠ none ∧ v ≠ some kv.2 then .error .conflicting

def update (keys : List Key) (values : List D) : EStateM Err (SMT D) (Option D) := do
  if keys.length ≠ values.length then
    throw .differentLengths
  else if ¬keys.Nodup then
    throw .duplicateKey
  else
    let kvs := keys.zip values
    MonadExcept.ofExcept (kvs.forM ((← MonadState.get).checkKV H))
    let t ← MonadState.get
    let (_, node, _) ← zoom SMT.store (fun store t => { t with store })
      (Trie.update H 256 t.rootNode kvs .empty 0)
    modify fun t => { t with root := node.map (·.hash) }
    return node.map (·.hash)

end

def commit (t : SMT D) : SMT D :=
  { t with store :=
    { updatedNodes := fun _ => none
      db := fun d => (t.store.updatedNodes d).map (·.serialize) <|> t.store.db d } }

/-- `NewSMT` on the database of a trie. -/
def newSMT (root : Option D) (db : D → Option (Record D)) : SMT D :=
  { root, store := { updatedNodes := fun _ => none, db } }

def empty : SMT D := newSMT none fun _ => none

end SMT

end MadNet.Trie
