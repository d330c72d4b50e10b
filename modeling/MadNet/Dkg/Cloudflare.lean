import MadNet.Dkg.Bn256

/-!
# `crypto/bn256/cloudflare`: the cipher, the shares and the signatures

What `crypto/rand` returns is an argument. The public keys are those of all participants in the
order of their indices. A loop over the other participants runs over the list without the own
position, and writes the array that `ctr` counts.
-/

namespace MadNet.Dkg

open Bridge (Point GROUP_ORDER FIELD_MODULUS word)

def ErrMissingIndex : Err := "unable to find index for missing public key"
def ErrBelowThreshold : Err := "signatures below required threshold"
def ErrLIArrayMismatch : Err :=
  "lagrangeInterpolation: Mismatch between interpolation points and indices"
def ErrInvalidSignatureLength : Err := "marshalled Signature: incorrect byte length"
def ErrInsufficientData : Err := "cloudflare: Insufficient state to construct point"
def ErrDLEQInvalidProof : Err := "invalid DLEQ Proof"
def ErrMismatchedSlices : Err := "sig and indices slices have different lengths"
def ErrArrayMismatch : Err := "arrays have incompatible lengths"

variable {G₁ G₂ : Type} [AddCommGroup G₁] [AddCommGroup G₂]

namespace Curve

variable (C : Curve G₁ G₂)

/-! ## `cipher.go` -/

/-- The hash of the x coordinate of the shared secret and of the index of the recipient, which
`marshalUint64ForUint256` writes in 32 bytes. -/
def oneTimePad (sharedSecret : G₁) (participantIndex : Nat) : Nat :=
  C.hashFunc256 (word (C.marshal₁ sharedSecret).1 ++ word participantIndex)

def encrypt (secretValue privK : Nat) (pubK : G₁) (participantIndex : Nat) : Nat :=
  C.oneTimePad (privK • pubK) participantIndex ^^^ secretValue

def decrypt (encryptedValue privK : Nat) (pubK : G₁) (participantIndex : Nat) : Nat :=
  C.oneTimePad (privK • pubK) participantIndex ^^^ encryptedValue

/-- The challenge of a proof that `y₁` and `y₂` have the same discrete logarithm to `x₁` and `x₂`.
-/
def challenge (x₁ y₁ x₂ y₂ t₁ t₂ : G₁) : Nat :=
  C.hashFunc256 ((C.marshal₁ x₁).bytes ++ (C.marshal₁ y₁).bytes ++ (C.marshal₁ x₂).bytes ++
    (C.marshal₁ y₂).bytes ++ (C.marshal₁ t₁).bytes ++ (C.marshal₁ t₂).bytes)

def generateDLEQProofG1 (x₁ y₁ x₂ y₂ : G₁) (alpha w : Nat) : Point :=
  let c := C.challenge x₁ y₁ x₂ y₂ (w • x₁) (w • x₂)
  (c, ((w - alpha * c : Int) % GROUP_ORDER).toNat)

def verifyDLEQProofG1 (x₁ y₁ x₂ y₂ : G₁) (proof : Point) : Except Err Unit :=
  let t₁ := proof.2 • x₁ + proof.1 • y₁
  let t₂ := proof.2 • x₂ + proof.1 • y₂
  if C.challenge x₁ y₁ x₂ y₂ t₁ t₂ = proof.1 then .ok () else .error ErrDLEQInvalidProof

end Curve

/-! ## `dkg.go` -/

/-- One more term: the value so far and the last power of `j`. -/
def addTerm (j : Nat) (s : Nat × Nat) (coef : Nat) : Nat × Nat :=
  ((s.1 + coef * (s.2 * j) % GROUP_ORDER) % GROUP_ORDER, s.2 * j)

def privatePolyEval (privCoefs : List Nat) (j : Nat) : Nat :=
  ((privCoefs.drop 1).foldl (addTerm j) (privCoefs.headD 0 % GROUP_ORDER, 1)).1

section Positions

-- The functions that only compare public keys
variable {K : Type} [DecidableEq K]

/-- The first position of the public key. -/
def findPubKIndex (pubK : K) (pubKs : List K) : Except Err Nat :=
  match pubKs.findIdx? (· = pubK) with
  | some userIndex => .ok userIndex
  | none => .error ErrMissingIndex

/-- The elements of all participants but the one at `userIndex`, with their positions. -/
def others {α : Type} (xs : List α) (userIndex : Nat) : List (α × Nat) :=
  xs.zipIdx.eraseIdx userIndex

def generateSecretShares (pubK : K) (privCoefs : List Nat) (pubKs : List K) :
    Except Err (List Nat) := do
  let userIndex ← findPubKIndex pubK pubKs
  return (others pubKs userIndex).map fun (_, j) => privatePolyEval privCoefs (j + 1)

/-- The value for the participant at `userIndex` among those of the participant at `j`. -/
def commitmentFor (n userIndex : Nat) : List Nat × Nat → Except Err Nat
  | (commitments, j) =>
    if commitments.length ≠ n - 1 then .error ErrArrayMismatch
    else .ok (commitments.getD (if j > userIndex then userIndex else userIndex - 1) 0)

def condenseCommitments (pubK : K) (combinedCommitments : List (List Nat)) (pubKs : List K) :
    Except Err (List Nat) := do
  let userIndex ← findPubKIndex pubK pubKs
  if combinedCommitments.length ≠ pubKs.length then throw ErrArrayMismatch
  else (others combinedCommitments userIndex).mapM (commitmentFor pubKs.length userIndex)

end Positions

namespace Curve

variable (C : Curve G₁ G₂)

def generatePublicCoefs (privCoefs : List Nat) : List G₁ := privCoefs.map (· • C.curveGen)

variable [DecidableEq G₁]

def generateEncryptedShares (secretsArray : List Nat) (privK : Nat) (pubKs : List G₁) :
    Except Err (List Nat) := do
  let userIndex ← findPubKIndex (privK • C.curveGen) pubKs
  return (others pubKs userIndex).zipWith
    (fun (pubK, j) secretValue => C.encrypt secretValue privK pubK (j + 1)) secretsArray

def generateDecryptedShares (privK : Nat) (encryptedArray : List Nat) (pubKs : List G₁) :
    Except Err (List Nat) :=
  if encryptedArray.length ≠ pubKs.length - 1 then .error ErrArrayMismatch
  else do
    let userIndex ← findPubKIndex (privK • C.curveGen) pubKs
    return (others pubKs userIndex).zipWith
      (fun (pubK, _) encryptedValue => C.decrypt encryptedValue privK pubK (userIndex + 1))
      encryptedArray

end Curve

/-! ## `bls.go` -/

/-- `k / (k - j)` in the field of size `Order`. -/
def liRjPartialConst (k j : Nat) : Nat := k * ((k - j : Int) : ZMod GROUP_ORDER)⁻¹.val % GROUP_ORDER

/-- The constant of the index `j` among the `indices`. -/
def liRj (indices : List Nat) (j : Nat) : Nat :=
  indices.foldl (fun rj k => if j = k then rj else rj * liRjPartialConst k j % GROUP_ORDER) 1

/-- Only the first `threshold + 1` of the points are used. -/
def lagrangeInterpolationG1 (pointsG1 : List G₁) (indices : List Nat) (threshold : Nat) :
    Except Err G₁ :=
  if pointsG1.length ≠ indices.length then .error ErrLIArrayMismatch
  else
    let used := indices.take (threshold + 1)
    .ok ((used.zip pointsG1).foldl (fun val (j, point) => val + liRj used j • point) 0)

def aggregateSignatures (sigs : List G₁) (indices : List Nat) (threshold : Nat) : Except Err G₁ :=
  if sigs.length ≠ indices.length then .error ErrMismatchedSlices
  else if sigs.length ≤ threshold then .error ErrBelowThreshold
  else lagrangeInterpolationG1 sigs indices threshold

namespace Curve

variable (C : Curve G₁ G₂)

def sign (msg : List UInt8) (privK : Nat) : Except Err G₁ := do
  return privK • (← C.hashToG1 msg)

def verify (msg : List UInt8) (sig : G₁) (pubK : G₂) : Except Err Bool :=
  match C.hashToG1 msg with
  | .ok hash => .ok (C.pairingCheck (sig, -C.twistGen) (hash, pubK))
  | .error err => if err = ErrDangerousPoint then .ok false else .error err

/-! ### Signatures as bytes -/

/-- The number of big-endian bytes. -/
def beNat (m : List UInt8) : Nat := m.foldl (fun n b => 256 * n + b.toNat) 0

/-- The number in the `i`-th 32 bytes. -/
def coordinate (m : List UInt8) (i : Nat) : Nat := beNat ((m.drop (32 * i)).take 32)

/-- `G1.Unmarshal`, with the bytes that are left. -/
def unmarshalG1 (m : List UInt8) : Except Err (G₁ × List UInt8) :=
  if m.length < 64 then .error ErrInsufficientData
  else if FIELD_MODULUS ≤ coordinate m 0 ∨ FIELD_MODULUS ≤ coordinate m 1 then
    .error ErrInvalidCoordinate
  else if coordinate m 0 = 0 ∧ coordinate m 1 = 0 then .ok (0, m.drop 64)
  else match C.onCurve₁ (coordinate m 0, coordinate m 1) with
    | some a => .ok (a, m.drop 64)
    | none => .error ErrMalformedPoint

/-- `G2.Unmarshal`, with the bytes that are left. -/
def unmarshalG2 (m : List UInt8) : Except Err (G₂ × List UInt8) :=
  if m.length < 128 then .error ErrInsufficientData
  else if FIELD_MODULUS ≤ coordinate m 0 ∨ FIELD_MODULUS ≤ coordinate m 1 ∨
      FIELD_MODULUS ≤ coordinate m 2 ∨ FIELD_MODULUS ≤ coordinate m 3 then
    .error ErrInvalidCoordinate
  else if coordinate m 0 = 0 ∧ coordinate m 1 = 0 ∧ coordinate m 2 = 0 ∧ coordinate m 3 = 0 then
    .ok (0, m.drop 128)
  else match C.onCurve₂ (coordinate m 0, coordinate m 1, coordinate m 2, coordinate m 3) with
    | some b => .ok (b, m.drop 128)
    | none => .error ErrMalformedPoint

/-- The public key and the signature. -/
def unmarshalSignature (marshalledSig : List UInt8) : Except Err (G₂ × G₁) :=
  if marshalledSig.length ≠ 6 * 32 then .error ErrInvalidSignatureLength
  else do
    let (pubK, tmp) ← C.unmarshalG2 marshalledSig
    let (sig, _) ← C.unmarshalG1 tmp
    return (pubK, sig)

end Curve

/-- The base-1 indices of the public keys. -/
def makeIndicesArray {K : Type} [DecidableEq K] (pubKs orderedPubKs : List K) :
    Except Err (List Nat) :=
  pubKs.mapM fun pubK => do return (← findPubKIndex pubK orderedPubKs) + 1

def Curve.aggregateMarshalledSignatures [DecidableEq G₂] (C : Curve G₁ G₂)
    (marshalledSigs listOfPubKsMarsh : List (List UInt8)) (threshold : Nat) : Except Err G₁ :=
  if marshalledSigs.length ≤ threshold then .error ErrBelowThreshold
  else do
    let sigs ← marshalledSigs.mapM C.unmarshalSignature
    let orderedPubKs ← listOfPubKsMarsh.mapM fun m => do return (← C.unmarshalG2 m).1
    let indices ← makeIndicesArray (sigs.map (·.1)) orderedPubKs
    aggregateSignatures (sigs.map (·.2)) indices threshold

end MadNet.Dkg
