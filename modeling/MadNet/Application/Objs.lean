import MadNet.Application.Values
import MadNet.Trie.Batches

/-!
# Inputs and outputs of transactions (`application/objs`)

Objects are as the decoders return them. What a decoder checks is a field of the structure, and the
errors for missing parts do not occur. Hashes and ids, 32 bytes each, are of an abstract type `ι`;
hash functions and signature schemes are the parameters of a `Scheme`.

A ValueStore and an AtomicSwap remember their UTXO ID once they have been asked for it.
-/

namespace MadNet.App

inductive CurveSpec where
  | secp256k1
  | bn256Eth
  deriving DecidableEq

def CurveSpec.ofByte (b : UInt8) : Option CurveSpec :=
  if b = 1 then some .secp256k1 else if b = 2 then some .bn256Eth else none

def CurveSpec.sigLen : CurveSpec → Nat
  | .secp256k1 => 65
  | .bn256Eth => 192

/-- `Owner`, and `ValueStoreOwner` and `DataStoreOwner` without their constant `SVA`. -/
structure Owner where
  curveSpec : CurveSpec
  account : Bytes
  deriving DecidableEq

/-- `ValueStoreSignature` and `DataStoreSignature`. -/
structure Signature where
  curveSpec : CurveSpec
  signature : Bytes
  deriving DecidableEq

/-! ## Inputs -/

structure TXInPreImage (ι : Type) where
  chainID : Nat
  consumedTxIdx : Nat
  consumedTxHash : ι
  chainID_ne : chainID ≠ 0
  deriving DecidableEq

structure TXInLinker (ι : Type) where
  preImage : TXInPreImage ι
  txHash : ι
  deriving DecidableEq

structure TXIn (ι : Type) where
  linker : TXInLinker ι
  signature : Bytes
  deriving DecidableEq

/-! ## Outputs -/

structure DSPreImage (ι : Type) where
  chainID : Nat
  index : ι
  issuedAt : Nat
  deposit : Nat
  rawData : Bytes
  txOutIdx : Nat
  owner : Owner
  fee : Nat
  valid : validateDeposit chainID issuedAt deposit rawData.length = .ok ()
  deriving DecidableEq

structure DataStore (ι : Type) where
  preImage : DSPreImage ι
  txHash : ι
  signature : Signature
  deriving DecidableEq

structure VSPreImage where
  chainID : Nat
  value : Nat
  txOutIdx : Nat
  owner : Owner
  fee : Nat
  chainID_ne : chainID ≠ 0
  value_ne : value ≠ 0
  deriving DecidableEq

structure ValueStore (ι : Type) where
  preImage : VSPreImage
  txHash : ι
  /-- The UTXO ID, once it has been computed. -/
  utxoID : Option ι
  deriving DecidableEq

structure AtomicSwapOwner (ι : Type) where
  hashLock : ι
  alternateOwner : Owner
  primaryOwner : Owner
  deriving DecidableEq

structure ASPreImage (ι : Type) where
  chainID : Nat
  value : Nat
  txOutIdx : Nat
  issuedAt : Nat
  exp : Nat
  owner : AtomicSwapOwner ι
  fee : Nat
  chainID_ne : chainID ≠ 0
  issuedAt_ne : issuedAt ≠ 0
  deriving DecidableEq

structure AtomicSwap (ι : Type) where
  preImage : ASPreImage ι
  txHash : ι
  /-- The UTXO ID, once it has been computed. -/
  utxoID : Option ι
  deriving DecidableEq

inductive TXOut (ι : Type) where
  | dataStore (ds : DataStore ι)
  | valueStore (vs : ValueStore ι)
  | atomicSwap (as : AtomicSwap ι)
  deriving DecidableEq

/-- What the hash of an output is taken of. -/
inductive OutPreImage (ι : Type) where
  | dataStore (pi : DSPreImage ι)
  | valueStore (pi : VSPreImage)
  | atomicSwap (pi : ASPreImage ι)
  deriving DecidableEq

/-- What is signed. -/
inductive Msg (ι : Type) where
  | txIn (linker : TXInLinker ι)
  | dataStore (preImage : DSPreImage ι) (txHash : ι)

/-- Hash functions, signature schemes and encodings. -/
structure Scheme (ι : Type) where
  /-- The 32 bytes as a key of a trie. -/
  key : ι → Trie.Key
  /-- 32 bytes of zeros. -/
  zero : ι
  /-- `crypto.Hasher()`. -/
  hashNothing : ι
  /-- The hash of a transaction hash and an output index. -/
  hashIdx : ι → Nat → ι
  preHashIn : TXInPreImage ι → ι
  preHashOut : OutPreImage ι → ι
  /-- The hash of an owner and a data index. -/
  hashIndex : Owner → ι → ι
  /-- The hash of the key of an AtomicSwap. -/
  hashKey : Bytes → ι
  /-- The 32 bytes of a hash of a trie, which holds 32 bytes as its values. -/
  hashNode : Trie.Digest ι → ι
  /-- The account of the key that `Validate` recovers from a signature. -/
  recover : CurveSpec → Msg ι → Bytes → Except Err Bytes
  /-- `utils.GetObjSize`. -/
  objSize : TXOut ι → Nat

variable {ι : Type} (S : Scheme ι)

def makeUTXOID (txHash : ι) (idx : Nat) : ι :=
  if idx = maxUint32 then txHash else S.hashIdx txHash idx

namespace TXIn

variable (txIn : TXIn ι)

def preHash : ι := S.preHashIn txIn.linker.preImage

def utxoID : ι :=
  makeUTXOID S txIn.linker.preImage.consumedTxHash txIn.linker.preImage.consumedTxIdx

def isDeposit : Bool := txIn.linker.preImage.consumedTxIdx = maxUint32

def txHash : ι := txIn.linker.txHash

def chainID : Nat := txIn.linker.preImage.chainID

def setTxHash (txHash : ι) : TXIn ι := { txIn with linker := { txIn.linker with txHash := txHash } }

end TXIn

/-! ## DataStores -/

namespace DSPreImage

variable (b : DSPreImage ι)

def remainingValue (currentHeight : Nat) : Except Err Nat :=
  rewardDepositEquation b.deposit b.rawData.length b.issuedAt
    (if epoch currentHeight < b.issuedAt then b.issuedAt else epoch currentHeight)

def epochOfExpiration : Except Err Nat := do
  let numEpochs ← numEpochsEquation b.rawData.length b.deposit
  return (b.issuedAt + numEpochs + 1) % 2 ^ 32

def isExpired (currentHeight : Nat) : Except Err Bool := do
  let eoe ← b.epochOfExpiration
  return decide (eoe ≤ epoch currentHeight)

end DSPreImage

/-- The fees of the dynamic storage. -/
structure Storage where
  atomicSwapFee : Nat
  dataStoreEpochFee : Nat
  valueStoreFee : Nat
  minTxFee : Nat

def DataStore.validateFee (ds : DataStore ι) (storage : Storage) : Except Err Unit := do
  let numEpochs ← numEpochsEquation ds.preImage.rawData.length ds.preImage.deposit
  let feeTrue ← Uint256.mul storage.dataStoreEpochFee (numEpochs + 2)
  check (ds.preImage.fee = feeTrue) "ds.validateFee: invalid fee"

def ValueStore.isDeposit (vs : ValueStore ι) : Bool := vs.preImage.txOutIdx = maxUint32

def ValueStore.validateFee (vs : ValueStore ι) (storage : Storage) : Except Err Unit :=
  if vs.isDeposit then
    check (vs.preImage.fee = 0) "vs.validateFee: invalid fee; deposits should have fee equal zero"
  else check (vs.preImage.fee = storage.valueStoreFee) "vs.validateFee: invalid fee"

def AtomicSwap.validateFee (as : AtomicSwap ι) (storage : Storage) : Except Err Unit :=
  check (as.preImage.fee = storage.atomicSwapFee) "as.validateFee; invalid fee"

def AtomicSwap.value (as : AtomicSwap ι) : Except Err Nat := do
  check (as.preImage.value ≠ 0) "as.value; aspi.value is zero"
  return as.preImage.value

def ASPreImage.isExpired (b : ASPreImage ι) (currentHeight : Nat) : Bool :=
  b.exp ≤ epoch currentHeight

/-! ## Signatures -/

/-- `extractSignature` and `extractZero`. -/
def extractSignature (curveSpec : CurveSpec) (b : Bytes) : Except Err Bytes := do
  check (curveSpec.sigLen ≤ b.length)
    (match curveSpec with
      | .secp256k1 => "extractSignature; Invalid Secp256k1 signature"
      | .bn256Eth => "extractSignature; Invalid BN256Eth signature")
  check (b.drop curveSpec.sigLen = []) "extractZero; bytes remaining at end"
  return b.take curveSpec.sigLen

/-- `UnmarshalBinary` of a signature with the signature verification algorithm `sva`. -/
def Signature.unmarshalBinary (name : String) (sva : UInt8) : Bytes → Except Err Signature
  | [] => .error (.invalid "extractSVA: extraction failed")
  | [_] => .error (.invalid "extractCurveSpec; extraction failed")
  | s :: c :: b =>
    match CurveSpec.ofByte c with
    | none => .error (.invalid "extractSignature; Invalid curveSpec")
    | some curveSpec => do
      let signature ← extractSignature curveSpec b
      check (s = sva) (name ++ ".validateSVA; invalid signature verification algorithm")
      return { curveSpec := curveSpec, signature := signature }

def unmarshalValueStoreSignature : Bytes → Except Err Signature := Signature.unmarshalBinary "vss" 1

def unmarshalDataStoreSignature : Bytes → Except Err Signature := Signature.unmarshalBinary "dss" 3

/-- The text about a signature of another account. -/
def invalidSig (name : String) : CurveSpec → String
  | .secp256k1 => name ++ ".validateSignature; invalid sig for secp256k1 account"
  | .bn256Eth => name ++ ".validateSignature; invalid sig for bn256 account"

/-- `ValueStoreOwner.ValidateSignature`. -/
def Owner.validateValueStoreSignature (owner : Owner) (msg : Msg ι) (sig : Signature) :
    Except Err Unit := do
  check (owner.curveSpec = sig.curveSpec) "vso.validateSignature; mismatched curve spec"
  let account ← S.recover sig.curveSpec msg sig.signature
  check (account = owner.account) (invalidSig "vso" sig.curveSpec)

/-- `DataStoreOwner.ValidateSignature`: an expired DataStore can be signed by anyone. -/
def Owner.validateDataStoreSignature (owner : Owner) (msg : Msg ι) (sig : Signature)
    (isExpired : Bool) : Except Err Unit := do
  check (isExpired ∨ sig.curveSpec = owner.curveSpec)
    "dso.validateSignature; unmatched curve spec"
  let account ← S.recover sig.curveSpec msg sig.signature
  check (isExpired ∨ account = owner.account) (invalidSig "dso" sig.curveSpec)

inductive SignerRole where
  | primary
  | alternate
  deriving DecidableEq

def SignerRole.ofByte (b : UInt8) : Option SignerRole :=
  if b = 1 then some .primary else if b = 2 then some .alternate else none

structure AtomicSwapSignature where
  signerRole : SignerRole
  hashKey : Bytes
  signature : Bytes

def AtomicSwapSignature.unmarshalBinary : Bytes → Except Err AtomicSwapSignature
  | [] => .error (.invalid "extractSVA: extraction failed")
  | s :: b => do
    check (s = 2) "assig.validateSVA; invalid signature verification algorithm"
    match b with
    | [] => .error (.invalid "extractCurveSpec; extraction failed")
    | c :: b => do
      check (CurveSpec.ofByte c = some .secp256k1) "assig.validateCurveSpec; invalid curveSpec"
      match b with
      | [] => .error (.invalid "extractSignerRole; extraction failed")
      | r :: b =>
        match SignerRole.ofByte r with
        | none => .error (.invalid "assig.validateSignerRole; invalid SignerRole")
        | some signerRole => do
          check (32 ≤ b.length) "extractHash: extraction failed"
          let signature ← extractSignature .secp256k1 (b.drop 32)
          return { signerRole := signerRole, hashKey := b.take 32, signature := signature }

/-- `AtomicSwapSubOwner.ValidateSignature`. -/
def Owner.validateAtomicSwapSignature (owner : Owner) (msg : Msg ι) (sig : AtomicSwapSignature) :
    Except Err Unit := do
  check (owner.curveSpec = .secp256k1) "asso.validateSignature; mismatched curve spec"
  let account ← S.recover .secp256k1 msg sig.signature
  check (account = owner.account) "asso.validateSignature; invalid sig for account"

def AtomicSwapOwner.validateSignature [DecidableEq ι] (owner : AtomicSwapOwner ι) (msg : Msg ι)
    (sig : AtomicSwapSignature) (isExpired : Bool) : Except Err Unit := do
  check (owner.hashLock = S.hashKey sig.hashKey) "aso.validateSignature; incorrect hash key"
  match sig.signerRole with
  | .primary => do
    check isExpired "aso.validateSignature; PrimaryOwner can not sign before expiration"
    owner.primaryOwner.validateAtomicSwapSignature S msg sig
  | .alternate => do
    check (¬isExpired) "aso.validateSignature; AlternateOwner can not sign after expiration"
    owner.alternateOwner.validateAtomicSwapSignature S msg sig

/-! ## `TXOut` -/

namespace TXOut

variable (out : TXOut ι)

def preHash : ι :=
  match out with
  | .dataStore ds => S.preHashOut (.dataStore ds.preImage)
  | .valueStore vs => S.preHashOut (.valueStore vs.preImage)
  | .atomicSwap as => S.preHashOut (.atomicSwap as.preImage)

def utxoID : ι :=
  match out with
  | .dataStore ds => makeUTXOID S ds.txHash ds.preImage.txOutIdx
  | .valueStore vs => vs.utxoID.getD (makeUTXOID S vs.txHash vs.preImage.txOutIdx)
  | .atomicSwap as => as.utxoID.getD (makeUTXOID S as.txHash as.preImage.txOutIdx)

/-- The output after its UTXO ID has been asked for. -/
def cacheUTXOID : TXOut ι :=
  match out with
  | .dataStore ds => .dataStore ds
  | .valueStore vs => .valueStore { vs with utxoID := some (out.utxoID S) }
  | .atomicSwap as => .atomicSwap { as with utxoID := some (out.utxoID S) }

/-- The output after it has been stored and loaded. -/
def stored : TXOut ι :=
  match out with
  | .dataStore ds => .dataStore ds
  | .valueStore vs => .valueStore { vs with utxoID := none }
  | .atomicSwap as => .atomicSwap { as with utxoID := none }

def chainID : Nat :=
  match out with
  | .dataStore ds => ds.preImage.chainID
  | .valueStore vs => vs.preImage.chainID
  | .atomicSwap as => as.preImage.chainID

def txOutIdx : Nat :=
  match out with
  | .dataStore ds => ds.preImage.txOutIdx
  | .valueStore vs => vs.preImage.txOutIdx
  | .atomicSwap as => as.preImage.txOutIdx

def setTxOutIdx (idx : Nat) : TXOut ι :=
  match out with
  | .dataStore ds => .dataStore { ds with preImage := { ds.preImage with txOutIdx := idx } }
  | .valueStore vs => .valueStore { vs with preImage := { vs.preImage with txOutIdx := idx } }
  | .atomicSwap as => .atomicSwap { as with preImage := { as.preImage with txOutIdx := idx } }

def txHash : ι :=
  match out with
  | .dataStore ds => ds.txHash
  | .valueStore vs => vs.txHash
  | .atomicSwap as => as.txHash

def setTxHash (txHash : ι) : TXOut ι :=
  match out with
  | .dataStore ds => .dataStore { ds with txHash := txHash }
  | .valueStore vs => .valueStore { vs with txHash := txHash }
  | .atomicSwap as => .atomicSwap { as with txHash := txHash }

def hasDataStore : Bool :=
  match out with
  | .dataStore _ => true
  | _ => false

def isExpired (currentHeight : Nat) : Except Err Bool :=
  match out with
  | .dataStore ds => ds.preImage.isExpired currentHeight
  | .valueStore _ => .ok false
  | .atomicSwap as => .ok (as.preImage.isExpired currentHeight)

def remainingValue (currentHeight : Nat) : Except Err Nat :=
  match out with
  | .dataStore ds => ds.preImage.remainingValue currentHeight
  | .valueStore vs => .ok vs.preImage.value
  | .atomicSwap as => as.value

def value : Except Err Nat :=
  match out with
  | .dataStore ds => .ok ds.preImage.deposit
  | .valueStore vs => .ok vs.preImage.value
  | .atomicSwap as => as.value

def fee : Nat :=
  match out with
  | .dataStore ds => ds.preImage.fee
  | .valueStore vs => vs.preImage.fee
  | .atomicSwap as => as.preImage.fee

def valuePlusFee : Except Err Nat := do
  let value ← out.value
  Uint256.add value out.fee

def validateFee (storage : Storage) : Except Err Unit :=
  match out with
  | .dataStore ds => ds.validateFee storage
  | .valueStore vs => vs.validateFee storage
  | .atomicSwap as => as.validateFee storage

def validatePreSignature : Except Err Unit :=
  match out with
  | .dataStore ds =>
    ds.preImage.owner.validateDataStoreSignature S (.dataStore ds.preImage ds.txHash)
      ds.signature false
  | _ => .ok ()

def validateSignature [DecidableEq ι] (currentHeight : Nat) (txIn : TXIn ι) : Except Err Unit :=
  match out with
  | .dataStore ds => do
    let sig ← unmarshalDataStoreSignature txIn.signature
    let isExpired ← ds.preImage.isExpired currentHeight
    ds.preImage.owner.validateDataStoreSignature S (.txIn txIn.linker) sig isExpired
  | .valueStore vs => do
    let sig ← unmarshalValueStoreSignature txIn.signature
    vs.preImage.owner.validateValueStoreSignature S (.txIn txIn.linker) sig
  | .atomicSwap as => do
    let sig ← AtomicSwapSignature.unmarshalBinary txIn.signature
    as.preImage.owner.validateSignature S (.txIn txIn.linker) sig
      (as.preImage.isExpired currentHeight)

/-- `MustBeMinedBeforeHeight`, with the subtraction of 1 modulo `2 ^ 32`. -/
def mustBeMinedBeforeHeight : Nat :=
  match out with
  | .dataStore ds => (ds.preImage.issuedAt * epochLength + maxUint32) % 2 ^ 32
  | .valueStore _ => maxUint32
  | .atomicSwap as => (as.preImage.issuedAt * epochLength + maxUint32) % 2 ^ 32

def cannotBeMinedBeforeHeight : Nat :=
  match out with
  | .dataStore ds => ((ds.preImage.issuedAt - 1) * epochLength + 1) % 2 ^ 32
  | .valueStore _ => 1
  | .atomicSwap as => ((as.preImage.issuedAt - 1) * epochLength + 1) % 2 ^ 32

def dataIndex : Option (Owner × ι) :=
  match out with
  | .dataStore ds => some (ds.preImage.owner, ds.preImage.index)
  | _ => none

end TXOut

end MadNet.App
