import MadNet.Application.Tx
import MadNet.Application.PendingPool
import MadNet.Lib.Batch

/-!
# The state of the application

The trie of the UTXOs is the sparse Merkle trie of `MadNet.Trie`: of a UTXO that can be spent it has
the hash of the output, and of a deposit that has been spent the hash of the input. The database
holds the nodes of the trie, the UTXOs, which are never deleted, the three indexes over them, and
the deposits. The roots by height, the mined transactions and the index of deposits are written but
not read by what is modelled.
-/

namespace MadNet.App

variable {ι : Type} [DecidableEq ι]

/-! ## Indexes -/

/-- `<owner>|<value>|<utxoID>`. -/
abbrev ValueKey (ι : Type) := Owner × Nat × ι

structure ValueIndex (ι : Type) where
  lookup : ValueKey ι → Option ι
  ref : ι → Option (ValueKey ι)

namespace ValueIndex

def empty : ValueIndex ι := { lookup := fun _ => none, ref := fun _ => none }

def add (vi : ValueIndex ι) (utxoID : ι) (owner : Owner) (value : Nat) : ValueIndex ι :=
  { lookup := Function.update vi.lookup (owner, value, utxoID) (some utxoID)
    ref := Function.update vi.ref utxoID (some (owner, value, utxoID)) }

def drop (vi : ValueIndex ι) (utxoID : ι) : Except Err (ValueIndex ι) :=
  match vi.ref utxoID with
  | none => .error .keyNotFound
  | some key =>
    .ok {
      lookup := Function.update vi.lookup key none
      ref := Function.update vi.ref utxoID none }

end ValueIndex

/-- `<owner>|<index>`. -/
abbrev DataKey (ι : Type) := Owner × ι

structure DataIndex (ι : Type) where
  lookup : DataKey ι → Option ι
  ref : ι → Option (DataKey ι)

namespace DataIndex

def empty : DataIndex ι := { lookup := fun _ => none, ref := fun _ => none }

/-- `Add`, without overwriting. -/
def add (di : DataIndex ι) (utxoID : ι) (key : DataKey ι) : Except Err (DataIndex ι) :=
  match di.lookup key with
  | some _ => .error (.invalid "dataIndex.addInternalNoOverwrite; index conflict")
  | none =>
    .ok {
      lookup := Function.update di.lookup key (some utxoID)
      ref := Function.update di.ref utxoID (some key) }

def drop (di : DataIndex ι) (utxoID : ι) : Except Err (DataIndex ι) :=
  match di.ref utxoID with
  | none => .error .keyNotFound
  | some key =>
    .ok {
      lookup := Function.update di.lookup key none
      ref := Function.update di.ref utxoID none }

end DataIndex

/-- `<epoch>|<size>|<utxoID>`, where larger objects come first in the order of the keys. -/
abbrev ExpKey (ι : Type) := Nat × Nat × ι

structure ExpSizeIndex (ι : Type) where
  keys : List (ExpKey ι)
  ref : ι → Option (Nat × Nat)

namespace ExpSizeIndex

def empty : ExpSizeIndex ι := { keys := [], ref := fun _ => none }

def add (esi : ExpSizeIndex ι) (epoch : Nat) (utxoID : ι) (size : Nat) : ExpSizeIndex ι :=
  { keys := setKey (epoch, size, utxoID) esi.keys
    ref := Function.update esi.ref utxoID (some (epoch, size)) }

def drop (esi : ExpSizeIndex ι) (utxoID : ι) : Except Err (ExpSizeIndex ι) :=
  match esi.ref utxoID with
  | none => .error .keyNotFound
  | some (epoch, size) =>
    .ok {
      keys := esi.keys.filter (· ≠ (epoch, size, utxoID))
      ref := Function.update esi.ref utxoID none }

end ExpSizeIndex

/-! ## The state -/

/-- A state root; `none` is an empty slice, the root of a trie without keys. -/
abbrev Root (ι : Type) := Option (Trie.Digest ι)

structure State (ι : Type) where
  /-- The current root, once one is stored. -/
  currentRoot : Option (Root ι)
  pendingRoot : Option (Root ι)
  canonicalRoot : Option (Root ι)
  /-- The nodes of the UTXO trie. -/
  nodes : Trie.Digest ι → Option (Trie.Record (Trie.Digest ι))
  utxos : ι → Option (TXOut ι)
  valueIndex : ValueIndex ι
  dataIndex : DataIndex ι
  expIndex : ExpSizeIndex ι
  /-- The deposits as they are loaded, which fails if the value or the chain ID is 0. -/
  deposits : AList fun _ : ι => Except Err (TXOut ι)
  pool : Pool ι (Tx ι)

namespace State

def empty : State ι where
  currentRoot := none
  pendingRoot := none
  canonicalRoot := none
  nodes := fun _ => none
  utxos := fun _ => none
  valueIndex := .empty
  dataIndex := .empty
  expIndex := .empty
  deposits := ∅
  pool := .empty

variable (S : Scheme ι) (st : State ι)

/-- `GetCurrentStateRoot`: 32 zero bytes before a root is stored. -/
def getCurrentStateRoot : Root ι := st.currentRoot.getD (some (.value S.zero))

def getCurrentTrie : Trie.SMT (Trie.Digest ι) :=
  let root := st.getCurrentStateRoot S
  .newSMT (if root = some (.value S.zero) then none else root) st.nodes

/-- `TrieContains`; a UTXO ID counts as missing if a node on its path is. -/
def trieContains (utxoID : ι) : Except Err Bool :=
  match (st.getCurrentTrie S).get (S.key utxoID) with
  | .ok value => .ok value.isSome
  | .error .unavailable => .ok false
  | .error e => .error (.ofTrie e)

variable {S} {st} in
theorem trieContains_ne_invalid {utxoID : ι} (msg : String) :
    st.trieContains S utxoID ≠ .error (.invalid msg) := by
  unfold trieContains
  split
  · exact nofun
  · exact nofun
  next e _ _ => cases e <;> simp [Err.ofTrie]

end State

end MadNet.App
