import MadNet.Codec.Parsers
import MadNet.Lib.Capnp

/-!
# The encoding of the consensus objects (`consensus/objs`, `application/objs/txinpi.go`)

`MarshalBinary` sets the fields of a Cap'n Proto struct and makes it canonical. Byte strings may
have any length here: it is only checked when they are decoded.
-/

namespace MadNet.Codec

open Bytes Capnp

structure RCert where
  rClaims : RClaims
  sigGroup : Bytes
  deriving DecidableEq

structure PClaims where
  bClaims : BClaims
  rCert : RCert
  deriving DecidableEq

def deadBlockRound : UInt32 := 5

/-! ## `MarshalCapn` -/

def BClaims.marshalCapn (b : BClaims) : Obj :=
  .struct [b.chainID.toNat + 2 ^ 32 * b.height.toNat, b.txCount.toNat]
    [.data b.prevBlock, .data b.txRoot, .data b.stateRoot, .data b.headerRoot]

def RClaims.marshalCapn (b : RClaims) : Obj :=
  .struct [b.chainID.toNat + 2 ^ 32 * b.height.toNat, b.round.toNat] [.data b.prevBlock]

def RCert.marshalCapn (b : RCert) : Obj := .struct [] [b.rClaims.marshalCapn, .data b.sigGroup]

def PClaims.marshalCapn (b : PClaims) : Obj :=
  .struct [] [b.bClaims.marshalCapn, b.rCert.marshalCapn]

def TXInPreImage.marshalCapn (b : TXInPreImage) : Obj :=
  .struct [b.chainID.toNat + 2 ^ 32 * b.consumedTxIdx.toNat] [.data b.consumedTxHash]

/-! ## `MarshalBinary` -/

def BClaims.marshalBinary (b : BClaims) : Except String Bytes :=
  if b.chainID = 0 then .error "BClaims.MarshalBinary; chainID is zero"
  else if b.height = 0 then .error "BClaims.MarshalBinary; height is zero"
  else .ok (canonicalize b.marshalCapn)

def RClaims.marshalBinary (b : RClaims) : Except String Bytes :=
  if b.chainID = 0 then .error "RClaims.MarshalBinary; chainID is zero"
  else if b.round = 0 then .error "RClaims.MarshalBinary; round is zero"
  else if deadBlockRound < b.round then .error "RClaims.MarshalBinary; round > DBR"
  else if b.height = 0 then .error "RClaims.MarshalBinary; height is zero"
  else .ok (canonicalize b.marshalCapn)

def RCert.marshalBinary (b : RCert) : Except String Bytes := .ok (canonicalize b.marshalCapn)

def PClaims.marshalBinary (b : PClaims) : Except String Bytes := .ok (canonicalize b.marshalCapn)

def TXInPreImage.marshalBinary (b : TXInPreImage) : Except String Bytes :=
  if b.chainID = 0 then .error "txinpi.marshalBinary; txinpi.chainID is zero"
  else if b.consumedTxHash.length ≠ 32 then
    .error "txinpi.marshalBinary; txinpi.consumedTxHash has incorrect length"
  else .ok (canonicalize b.marshalCapn)

/-! ## Where the fields are -/

theorem words_eq (v w : UInt32) :
    ofNatLE 8 (v.toNat + 2 ^ 32 * w.toNat) = ofNatLE 4 v.toNat ++ ofNatLE 4 w.toNat :=
  ofNatLE_add 4 4 v.toNat w.toNat v.toNat_lt

theorem word_eq (v : UInt32) : ofNatLE 8 v.toNat = ofNatLE 4 v.toNat ++ ofNatLE 4 0 := by
  have h := ofNatLE_add 4 4 v.toNat 0 v.toNat_lt
  rwa [Nat.mul_zero, Nat.add_zero] at h

theorem pad_hash {bytes : Bytes} (h : bytes.length = 32) : pad bytes = bytes :=
  pad_of_dvd (by rw [h])

end MadNet.Codec
