import MadNet.Lib.Bytes
import MadNet.Staking.Effects

/-!
# `libraries/parsers`

The contracts read the objects of the consensus from their encoding at fixed offsets. Only the size
of the data section of `BClaims` is looked up, since it is shorter when there are no transactions.
Offsets are numbers without a bound, so that the tests for an overflow always pass.
-/

namespace MadNet.Codec

open Bytes
open Staking (Revert require checked)

/-! ## `BaseParserLibrary.sol` -/

/-- What the functions that read a part of a fixed size have in common. -/
def extractPart (overflow outOfBounds : String) (len : Nat) (src : Bytes) (offset : Nat) :
    Except Revert Bytes := do
  require (offset < offset + len) overflow
  require (offset + len ≤ src.length) outOfBounds
  return slice src offset len

def extractUInt32 (src : Bytes) (offset : Nat) : Except Revert UInt32 := do
  return .ofNat (toNatLE (← extractPart "1000" "1001" 4 src offset))

def extractUInt16 (src : Bytes) (offset : Nat) : Except Revert Nat := do
  return toNatLE (← extractPart "1002" "1003" 2 src offset)

def extractUInt16FromBigEndian (src : Bytes) (offset : Nat) : Except Revert Nat := do
  return toNatBE (← extractPart "1004" "1005" 2 src offset)

def extractBool (src : Bytes) (offset : Nat) : Except Revert Bool := do
  return toNatBE (← extractPart "1006" "1007" 1 src offset) % 2 = 1

/-- The highest byte comes first, other than the comment on the function says. -/
def extractUInt256 (src : Bytes) (offset : Nat) : Except Revert Nat := do
  require (offset < offset + 31) "1008"
  require (offset + 31 < src.length) "1009"
  return toNatBE (slice src offset 32)

def extractBytes (src : Bytes) (offset howManyBytes : Nat) : Except Revert Bytes := do
  require (offset ≤ offset + howManyBytes) "1012"
  require (offset + howManyBytes ≤ src.length) "1013"
  return slice src offset howManyBytes

def extractBytes32 (src : Bytes) (offset : Nat) : Except Revert Bytes :=
  extractPart "1014" "1015" 32 src offset

/-! ## The objects -/

structure BClaims where
  chainID : UInt32
  height : UInt32
  txCount : UInt32
  prevBlock : Bytes
  txRoot : Bytes
  stateRoot : Bytes
  headerRoot : Bytes
  deriving DecidableEq

structure RClaims where
  chainID : UInt32
  height : UInt32
  round : UInt32
  prevBlock : Bytes
  deriving DecidableEq

structure TXInPreImage where
  chainID : UInt32
  consumedTxIdx : UInt32
  consumedTxHash : Bytes
  deriving DecidableEq

/-- `RCertParserLibrary.RCert`. -/
structure ParsedRCert where
  rClaims : RClaims
  sigGroupPublicKey : List Nat
  sigGroupSignature : List Nat
  deriving DecidableEq

/-- `PClaimsParserLibrary.PClaims`. -/
structure ParsedPClaims where
  bClaims : BClaims
  rCert : ParsedRCert
  deriving DecidableEq

/-- `MerkleProofParserLibrary.MerkleProof`. -/
structure ParsedMerkleProof where
  included : Bool
  keyHeight : Nat
  key : Bytes
  proofKey : Bytes
  proofValue : Bytes
  bitmap : Bytes
  auditPath : Bytes
  deriving DecidableEq

/-! ## `BClaimsParserLibrary.sol` -/

def bClaimsSize : Nat := 176
def capnprotoHeaderSize : Nat := 8

def getPointerOffsetAdjustment (src : Bytes) (dataOffset : Nat) : Except Revert Nat := do
  let dataSectionSize ← extractUInt16 src dataOffset
  require (0 < dataSectionSize && dataSectionSize ≤ 2) "1100"
  return if dataSectionSize = 1 then 8 else 0

/-- Without transactions, `txCount` is not in the encoding. -/
def extractTxCount (src : Bytes) (dataOffset pointerOffsetAdjustment : Nat) :
    Except Revert UInt32 :=
  if pointerOffsetAdjustment = 0 then extractUInt32 src (dataOffset + 8) else .ok 0

def extractInnerBClaims (src : Bytes) (dataOffset pointerOffsetAdjustment : Nat) :
    Except Revert BClaims := do
  require (dataOffset < dataOffset + bClaimsSize - pointerOffsetAdjustment) "1101"
  require (dataOffset + bClaimsSize - pointerOffsetAdjustment ≤ src.length) "1102"
  let txCount ← extractTxCount src dataOffset pointerOffsetAdjustment
  let chainID ← extractUInt32 src dataOffset
  require (0 < chainID) "1103"
  let height ← extractUInt32 src (dataOffset + 4)
  require (0 < height) "1104"
  let prevBlock ← extractBytes32 src (dataOffset + 48 - pointerOffsetAdjustment)
  let txRoot ← extractBytes32 src (dataOffset + 80 - pointerOffsetAdjustment)
  let stateRoot ← extractBytes32 src (dataOffset + 112 - pointerOffsetAdjustment)
  let headerRoot ← extractBytes32 src (dataOffset + 144 - pointerOffsetAdjustment)
  return { chainID, height, txCount, prevBlock, txRoot, stateRoot, headerRoot }

def extractBClaims (src : Bytes) : Except Revert BClaims := do
  extractInnerBClaims src capnprotoHeaderSize (← getPointerOffsetAdjustment src 4)

/-! ## `RClaimsParserLibrary.sol` -/

def rClaimsSize : Nat := 56

def extractInnerRClaims (src : Bytes) (dataOffset : Nat) : Except Revert RClaims := do
  require (dataOffset < dataOffset + rClaimsSize) "1500"
  require (dataOffset + rClaimsSize ≤ src.length) "1501"
  let chainID ← extractUInt32 src dataOffset
  require (0 < chainID) "1502"
  let height ← extractUInt32 src (dataOffset + 4)
  require (0 < height) "1503"
  let round ← extractUInt32 src (dataOffset + 8)
  require (0 < round) "1504"
  let prevBlock ← extractBytes32 src (dataOffset + 24)
  return { chainID, height, round, prevBlock }

def extractRClaims (src : Bytes) : Except Revert RClaims :=
  extractInnerRClaims src capnprotoHeaderSize

/-! ## `RCertParserLibrary.sol` -/

def rCertSize : Nat := 264
def sigGroupSize : Nat := 192

def extractSigGroup (src : Bytes) (dataOffset : Nat) : Except Revert (List Nat × List Nat) := do
  require (dataOffset < dataOffset + sigGroupSize) "1400"
  require (dataOffset + sigGroupSize ≤ src.length) "1401"
  let publicKey ← [0, 32, 64, 96].mapM fun offset => extractUInt256 src (dataOffset + offset)
  let signature ← [128, 160].mapM fun offset => extractUInt256 src (dataOffset + offset)
  return (publicKey, signature)

def extractInnerRCert (src : Bytes) (dataOffset : Nat) : Except Revert ParsedRCert := do
  require (dataOffset < dataOffset + rCertSize) "1400"
  require (dataOffset + rCertSize ≤ src.length) "1402"
  let rClaims ← extractInnerRClaims src (dataOffset + 16)
  let (sigGroupPublicKey, sigGroupSignature) ← extractSigGroup src (dataOffset + 72)
  return { rClaims, sigGroupPublicKey, sigGroupSignature }

def extractRCert (src : Bytes) : Except Revert ParsedRCert :=
  extractInnerRCert src capnprotoHeaderSize

/-! ## `PClaimsParserLibrary.sol` -/

def pClaimsSize : Nat := 456

/-- With the size of the encoding. -/
def extractInnerPClaims (src : Bytes) (dataOffset : Nat) : Except Revert (ParsedPClaims × Nat) := do
  require (dataOffset < dataOffset + pClaimsSize) "1300"
  let pointerOffsetAdjustment ← getPointerOffsetAdjustment src (dataOffset + 4)
  let pClaimsBinarySize := pClaimsSize - pointerOffsetAdjustment
  require (dataOffset + pClaimsBinarySize ≤ src.length) "1301"
  let bClaims ← extractInnerBClaims src (dataOffset + 16) pointerOffsetAdjustment
  let rCert ← extractInnerRCert src (dataOffset + 16 + bClaimsSize - pointerOffsetAdjustment)
  return ({ bClaims, rCert }, pClaimsBinarySize)

def extractPClaims (src : Bytes) : Except Revert ParsedPClaims := do
  return (← extractInnerPClaims src capnprotoHeaderSize).1

/-! ## `TXInPreImageParserLibrary.sol` -/

def txInPreImageSize : Nat := 48

def extractInnerTXInPreImage (src : Bytes) (dataOffset : Nat) : Except Revert TXInPreImage := do
  require (dataOffset < dataOffset + txInPreImageSize) "1600"
  require (dataOffset + txInPreImageSize ≤ src.length) "1601"
  let chainID ← extractUInt32 src dataOffset
  require (0 < chainID) "1602"
  let consumedTxIdx ← extractUInt32 src (dataOffset + 4)
  let consumedTxHash ← extractBytes32 src (dataOffset + 16)
  return { chainID, consumedTxIdx, consumedTxHash }

def extractTXInPreImage (src : Bytes) : Except Revert TXInPreImage :=
  extractInnerTXInPreImage src capnprotoHeaderSize

/-! ## `MerkleProofParserLibrary.sol` -/

def merkleProofSize : Nat := 103

/-- The length of the audit path is multiplied as a `uint16`. -/
def extractMerkleProof (src : Bytes) : Except Revert ParsedMerkleProof := do
  require (merkleProofSize ≤ src.length) "1200"
  let bitmapLength ← extractUInt16FromBigEndian src 99
  let auditPathLength ← extractUInt16FromBigEndian src 101
  let auditPathSize ← checked 16 (auditPathLength * 32)
  require (merkleProofSize + bitmapLength + auditPathSize ≤ src.length) "1201"
  let included ← extractBool src 0
  let keyHeight ← extractUInt16FromBigEndian src 1
  require (keyHeight ≤ 256) "1202"
  let key ← extractBytes32 src 3
  let proofKey ← extractBytes32 src 35
  let proofValue ← extractBytes32 src 67
  let bitmap ← extractBytes src 103 bitmapLength
  let auditPathOffset ← checked 16 (103 + bitmapLength)
  let auditPath ← extractBytes src auditPathOffset auditPathSize
  return { included, keyHeight, key, proofKey, proofValue, bitmap, auditPath }

end MadNet.Codec
