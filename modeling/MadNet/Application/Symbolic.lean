import MadNet.Application.Objs

/-!
# Symbolic hashes

A hash of a tuple is the tuple itself, with a tag that names the hash function, and the checks can
be evaluated on concrete blocks. The key of a term in a trie is a number of 256 bits that is
multiplied out of its parts. A signature is the account of its key.
-/

namespace MadNet.App

inductive Term where
  | atom (n : Nat)
  | node (a b : Term)
  deriving DecidableEq

namespace Term

/-- The odd factor spreads small numbers over the keys. -/
def key : Term → Trie.Key
  | .atom n => .ofNat 256 (n * 0x9e3779b97f4a7c15f39cc0605cedc8341082276bf3a27251f86c6a11d0c18e95)
  | .node a b => (3 * key a + 5 * key b + 7) *
      0x9e3779b97f4a7c15f39cc0605cedc8341082276bf3a27251f86c6a11d0c18e95#256

def ofList (ts : List Term) : Term := ts.foldr node (atom 0)

def tag (n : Nat) (ts : List Term) : Term := node (atom n) (ofList ts)

def ofBytes (b : Bytes) : Term := ofList (b.map fun x => atom x.toNat)

def ofCurveSpec : CurveSpec → Term
  | .secp256k1 => atom 1
  | .bn256Eth => atom 2

def ofOwner (owner : Owner) : Term := node (ofCurveSpec owner.curveSpec) (ofBytes owner.account)

/-- The hash of a node of a trie. -/
def ofDigest : Trie.Digest Term → Term
  | .defaultLeaf => tag 8 []
  | .value t => t
  | .leaf k v h => tag 10 [atom k.toNat, ofDigest v, atom h.toNat]
  | .interior l r => tag 11 [ofDigest l, ofDigest r]

/-- The hash of an input. -/
def ofTXIn (pi : TXInPreImage Term) : Term :=
  tag 1 [atom pi.chainID, atom pi.consumedTxIdx, pi.consumedTxHash]

/-- The hash of an output. -/
def ofTXOut : OutPreImage Term → Term
  | .dataStore pi => tag 2 [atom pi.chainID, pi.index, atom pi.issuedAt, atom pi.deposit,
      ofBytes pi.rawData, atom pi.txOutIdx, ofOwner pi.owner, atom pi.fee]
  | .valueStore pi =>
    tag 3 [atom pi.chainID, atom pi.value, atom pi.txOutIdx, ofOwner pi.owner, atom pi.fee]
  | .atomicSwap pi => tag 4 [atom pi.chainID, atom pi.value, atom pi.txOutIdx, atom pi.issuedAt,
      atom pi.exp, pi.owner.hashLock, ofOwner pi.owner.alternateOwner,
      ofOwner pi.owner.primaryOwner, atom pi.fee]

end Term

open Term in
def symbolic : Scheme Term where
  key := key
  zero := atom 0
  hashNothing := tag 9 []
  hashIdx txHash idx := tag 5 [txHash, atom idx]
  preHashIn := ofTXIn
  preHashOut := ofTXOut
  hashIndex owner index := tag 6 [ofOwner owner, index]
  hashKey key := tag 7 [ofBytes key]
  hashNode := ofDigest
  recover _ _ sig := .ok sig
  objSize
    | .dataStore ds => ds.preImage.rawData.length
    | _ => 0

end MadNet.App
