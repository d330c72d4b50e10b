import MadNet.Dynamics.RawStorage
import MadNet.Lib.Links
import MadNet.Lib.Prog

/-!
# Storage of dynamic parameters (`dynamics/storage.go`, `node.go`, `linkedlist.go`, `db.go`)

The parameters of each epoch from which they differ are a node of a doubly linked list in the
database, the first one at epoch 1. A node that has no successor or predecessor points to itself.
The loops over the nodes take an epoch less in each round; they are bounded by the epoch of the last
node.
-/

namespace MadNet.Dynamics

structure Node where
  thisEpoch : UInt32
  prevEpoch : UInt32
  nextEpoch : UInt32
  rawStorage : RawStorage

namespace Node

variable (n : Node)

def isValid : Bool :=
  n.thisEpoch ≠ 0 && n.prevEpoch ≠ 0 && n.nextEpoch ≠ 0 &&
    decide (n.prevEpoch ≤ n.thisEpoch) && decide (n.thisEpoch ≤ n.nextEpoch)

/-- The node is ready to be added; its neighbours are not set yet. -/
def isPreValid : Bool := n.thisEpoch ≠ 0 && n.prevEpoch == 0 && n.nextEpoch == 0

def isHead : Bool := n.isValid && n.thisEpoch == n.nextEpoch

def isTail : Bool := n.isValid && n.thisEpoch == n.prevEpoch

/-- `SetEpochs` between two nodes: the previous node, the node and the next node after it. -/
def setEpochsBetween (prevNode nextNode : Node) : Except Err (Node × Node × Node) :=
  if n.isPreValid && prevNode.isValid && nextNode.isValid &&
      decide (prevNode.thisEpoch < n.thisEpoch) && decide (n.thisEpoch < nextNode.thisEpoch) then
    .ok ({ prevNode with nextEpoch := n.thisEpoch },
      { n with prevEpoch := prevNode.thisEpoch, nextEpoch := nextNode.thisEpoch },
      { nextNode with prevEpoch := n.thisEpoch })
  else .error .invalid

/-- `SetEpochs` after the last node, with no next node: the previous node and the node after it. -/
def setEpochsHead (prevNode : Node) : Except Err (Node × Node) :=
  if n.isPreValid && prevNode.isValid && decide (prevNode.thisEpoch < n.thisEpoch) &&
    prevNode.isHead then
    .ok ({ prevNode with nextEpoch := n.thisEpoch },
      { n with prevEpoch := prevNode.thisEpoch, nextEpoch := n.thisEpoch })
  else .error .invalid

end Node

/-- The database: `EpochLastUpdated` of the linked list, and the nodes. -/
structure Db where
  linkedList : Option UInt32
  nodes : UInt32 → Option Node

namespace Db

def empty : Db := { linkedList := none, nodes := fun _ => none }

variable (db : Db)

def getLinkedList : Except Err UInt32 :=
  match db.linkedList with
  | none => .error .keyNotPresent
  | some elu => if elu = 0 then .error .invalid else .ok elu

/-- `SetEpochLastUpdated` and `SetLinkedList`. -/
def setLinkedList (elu : UInt32) : Except Err Db :=
  if elu = 0 then .error .zeroEpoch else .ok { db with linkedList := some elu }

def getNode (epoch : UInt32) : Except Err Node :=
  if epoch = 0 then .error .zeroEpoch
  else
    match db.nodes epoch with
    | none => .error .keyNotPresent
    | some node => if node.isValid then .ok node else .error .invalidNode

def setNode (node : Node) : Except Err Db :=
  if node.isValid then .ok { db with nodes := Function.update db.nodes node.thisEpoch (some node) }
  else .error .invalidNode

/-! ## Adding a node -/

def addNodeHead (node headNode : Node) : Except Err Db := do
  if !node.isPreValid || !headNode.isValid || !headNode.isHead ||
      decide (node.thisEpoch ≤ headNode.thisEpoch) then
    .error .invalid
  else
    let (headNode, node) ← node.setEpochsHead headNode
    let db ← db.setNode headNode
    let db ← db.setNode node
    let _ ← db.getLinkedList
    db.setLinkedList node.thisEpoch

def addNodeSplit (node prevNode nextNode : Node) : Except Err Db := do
  if !node.isPreValid || !prevNode.isValid || !nextNode.isValid ||
      decide (node.thisEpoch ≤ prevNode.thisEpoch) ||
      decide (nextNode.thisEpoch ≤ node.thisEpoch) then
    .error .invalid
  else
    let (prevNode, node, nextNode) ← node.setEpochsBetween prevNode nextNode
    let db ← db.setNode prevNode
    let db ← db.setNode nextNode
    db.setNode node

/-- The loop of `addNode`. -/
def addNodeBefore (node : Node) : Nat → Node → Except Err Db
  | 0, _ => .error .unfinished
  | fuel + 1, currentNode => do
    let prevNode ← db.getNode currentNode.prevEpoch
    if prevNode.thisEpoch < node.thisEpoch ∧ node.thisEpoch < currentNode.thisEpoch then
      db.addNodeSplit node prevNode currentNode
    else if node.thisEpoch = prevNode.thisEpoch then
      .error .invalid
    else if prevNode.isTail then
      .error .invalid
    else
      addNodeBefore node fuel prevNode

def addNode (node : Node) : Except Err Db := do
  if !node.isPreValid then
    .error .invalid
  else
    let elu ← db.getLinkedList
    let currentNode ← db.getNode elu
    if currentNode.thisEpoch < node.thisEpoch then
      db.addNodeHead node currentNode
    else if node.thisEpoch = currentNode.thisEpoch then
      .error .invalid
    else if currentNode.isTail then
      .error .invalid
    else
      db.addNodeBefore node (elu.toNat + 1) currentNode

/-! ## Updates -/

/-- The loops that go back to the node in force at an epoch; `e` is returned before the first node.
-/
def findNode (e : Err) (epoch : UInt32) : Nat → Node → Except Err Node
  | 0, _ => .error .unfinished
  | fuel + 1, iterNode => do
    if iterNode.thisEpoch ≤ epoch then
      return iterNode
    else if iterNode.isTail then
      .error e
    else
      findNode e epoch fuel (← db.getNode iterNode.prevEpoch)

/-- The loop that goes forward from a node and updates it and all later ones. -/
def updateForward (update : Update) : Nat → Node → Db → Except Err Db
  | 0, _, _ => .error .unfinished
  | fuel + 1, iterNode, db => do
    let rawStorage ← iterNode.rawStorage.updateValue update
    let iterNode := { iterNode with rawStorage }
    let db ← db.setNode iterNode
    if iterNode.isHead then
      return db
    else
      updateForward update fuel (← db.getNode iterNode.nextEpoch) db

/-- `updateStorageValue`. The node from which the update goes forward is read before the new node is
added. -/
def updateStorageValue (update : Update) : Except Err Db := do
  let epoch := update.epoch
  let elu ← db.getLinkedList
  let fuel := elu.toNat + 1
  let iterNode ← db.findNode .invalidUpdateValue epoch fuel (← db.getNode elu)
  if epoch = iterNode.thisEpoch then
    updateForward update fuel iterNode db
  else if iterNode.isHead then
    let rawStorage ← iterNode.rawStorage.updateValue update
    let db ← db.addNode { thisEpoch := epoch, prevEpoch := 0, nextEpoch := 0, rawStorage }
    db.setLinkedList epoch
  else
    let firstNode ← db.getNode iterNode.nextEpoch
    let rawStorage ← iterNode.rawStorage.updateValue update
    let db ← db.addNode { thisEpoch := epoch, prevEpoch := 0, nextEpoch := 0, rawStorage }
    updateForward update fuel firstNode db

/-- `checkUpdate`; the update is tried on an empty `RawStorage`. -/
def checkUpdate (update : Update) : Except Err Unit := do
  if update.epoch = 0 then
    .error .invalidUpdateValue
  else
    let _ ← (default : RawStorage).updateValue update

/-- The list that the first update starts with. -/
def createLinkedList : Except Err Db := do
  let db ← db.setLinkedList 1
  db.setNode { thisEpoch := 1, prevEpoch := 1, nextEpoch := 1, rawStorage := .standardParameters }

def updateStorage (update : Update) : Except Err Db := do
  checkUpdate update
  match db.getLinkedList with
  | .ok _ => db.updateStorageValue update
  | .error .keyNotPresent => (← db.createLinkedList).updateStorageValue update
  | .error e => .error e

/-! ## Loading -/

def loadRawStorage (epoch : UInt32) : Except Err RawStorage := do
  if epoch = 0 then
    .error .zeroEpoch
  else
    let elu ← db.getLinkedList
    let node ← db.findNode .invalid epoch (elu.toNat + 1) (← db.getNode elu)
    return node.rawStorage

def loadStorage (epoch : UInt32) : Except Err RawStorage :=
  match db.loadRawStorage epoch with
  | .error .keyNotPresent => .ok .standardParameters
  | r => r

end Db

end MadNet.Dynamics
