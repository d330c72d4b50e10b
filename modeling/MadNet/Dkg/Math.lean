import MadNet.Dkg.Cloudflare
import MadNet.Consensus.RoundStates

/-!
# `blockchain/dkg/math/dkg.go`

A participant that is nil, or whose public key is, is `none`; so is a group public key that has not
been submitted.
-/

namespace MadNet.Dkg

open Bridge (Point GROUP_ORDER)
open Monitor (Address G2Big)

def ErrInvalidThreshold : Err := "threshold < 2; not possible"

/-- The part of a `Participant` that these functions read. -/
structure Participant where
  /-- The base-1 index. -/
  index : Nat
  publicKey : Point
  deriving DecidableEq

def thresholdForUserCount (n : Nat) : Nat := calcThreshold n

/-- `fmt.Errorf("<text>%v", err)`. -/
def wrapErr {α : Type} (text : String) : Except Err α → Except Err α
  | .ok a => .ok a
  | .error err => .error (text ++ err)

variable {G₁ G₂ : Type} [AddCommGroup G₁] [AddCommGroup G₂]

namespace Curve

variable (C : Curve G₁ G₂)

/-! ## Shares -/

section Shares

variable [DecidableEq G₁]

/-- What `ConstructPrivatePolyCoefs` draws is the argument `privateCoefficients`. -/
def generateShares (transportPrivateKey : Nat) (privateCoefficients : List Nat)
    (participants : List (Option Participant)) :
    Except Err (List Nat × List Nat × List Point) := do
  let numParticipants := participants.length
  let threshold := thresholdForUserCount numParticipants
  if threshold < 2 then throw ErrInvalidThreshold
  else
    let commitments := (C.generatePublicCoefs privateCoefficients).map C.marshal₁
    let transportPublicKeyG1 := transportPrivateKey • C.curveGen
    let publicKeyG1s ← participants.reduceOption.mapM fun p => C.bigIntArrayToG1 p.publicKey
    if publicKeyG1s.length ≠ numParticipants then
      throw s!"only have {publicKeyG1s.length} of {numParticipants} public keys"
    else if privateCoefficients.length ≠ threshold + 1 then
      throw s!"only have {privateCoefficients.length} of {threshold + 1} private coefficients"
    else
      let secretsArray ← wrapErr "failed to generate secret shares: "
        (generateSecretShares transportPublicKeyG1 privateCoefficients publicKeyG1s)
      let encryptedShares ← wrapErr "failed to generate encrypted shares: "
        (C.generateEncryptedShares secretsArray transportPrivateKey publicKeyG1s)
      return (encryptedShares, privateCoefficients, commitments)

end Shares

/-! ## Keys -/

/-- `w` is what `GenerateDLEQProofG1` draws. -/
def generateKeyShare (secretValue w : Nat) : Except Err (Point × Point × G2Big) := do
  let h1Base ← C.hashToG1 h1BaseMessage
  let keyShareG1 := secretValue • h1Base
  let keyShareG2 := secretValue • C.twistGen
  if C.pairingCheck (keyShareG1, C.h2Neg) (h1Base, keyShareG2) then
    let g1Value := secretValue • C.curveGen
    let proof := C.generateDLEQProofG1 h1Base keyShareG1 C.curveGen g1Value secretValue w
    C.verifyDLEQProofG1 h1Base keyShareG1 C.curveGen g1Value proof
    return (C.marshal₁ keyShareG1, proof, C.marshal₂ keyShareG2)
  else throw "key shares not a valid pair"

/-- Add the key shares of one of the participants. -/
def addKeyShares (masterPublicKey : G₁ × G₂) (keyShares : Point × G2Big) :
    Except Err (G₁ × G₂) := do
  let keySharedG1 ← C.bigIntArrayToG1 keyShares.1
  let keySharedG2 ← C.bigIntArrayToG2 keyShares.2
  return (masterPublicKey.1 + keySharedG1, masterPublicKey.2 + keySharedG2)

def generateMasterPublicKey (keyShare1s : List Point) (keyShare2s : List G2Big) :
    Except Err G2Big :=
  if keyShare1s.length ≠ keyShare2s.length then .error "len(keyShare1s) != len(keyshare2s)"
  else do
    let h1Base ← C.hashToG1 h1BaseMessage
    let masterPublicKey ← (keyShare1s.zip keyShare2s).foldlM C.addKeyShares (0, 0)
    if C.pairingCheck (masterPublicKey.1, C.h2Neg) (h1Base, masterPublicKey.2) then
      return C.marshal₂ masterPublicKey.2
    else throw "invalid pairing for master public key"

def generateGroupKeys [DecidableEq G₁] (transportPrivateKey : Nat) (privateCoefficients : List Nat)
    (encryptedShares : List (List Nat)) (index : Nat) (participants : List Participant) :
    Except Err (Nat × G2Big) :=
  let n := participants.length
  let threshold := thresholdForUserCount n
  if index = 0 then .error "invalid index: require index > 0; index = 0"
  else if privateCoefficients.length ≠ threshold + 1 then
    .error ("invalid privateCoefficients array: require length == threshold+1; length == " ++
      s!"{privateCoefficients.length}")
  else if encryptedShares.length ≠ n then
    .error ("invalid encryptedShares array: require length == len(Participants); length == " ++
      s!"{encryptedShares.length}")
  else do
    let publicKeyG1s ← wrapErr "error converting public key to g1: "
      (participants.mapM fun p => C.bigIntArrayToG1 p.publicKey)
    let transportPublicKeyG1 := transportPrivateKey • C.curveGen
    let sharedEncrypted ← wrapErr "error condensing commitments: "
      (condenseCommitments transportPublicKeyG1 encryptedShares publicKeyG1s)
    let sharedSecrets ← wrapErr "error generating decrypted shares: "
      (C.generateDecryptedShares transportPrivateKey sharedEncrypted publicKeyG1s)
    let gskj :=
      sharedSecrets.foldl (· + ·) (privatePolyEval privateCoefficients index) % GROUP_ORDER
    return (gskj, C.marshal₂ (gskj • C.twistGen))

/-! ## The check of the group public keys -/

/-- The sum of the terms of one degree of all participants. -/
def addCommitments (polyDegreeIdx : Nat) (commitments : List (List Point)) : Except Err G₁ :=
  commitments.foldlM (fun tmp1 c => do
    let tmp2 ← wrapErr "error converting BigIntArray to G1: "
      (C.bigIntArrayToG1 (c.getD polyDegreeIdx (0, 0)))
    return tmp1 + tmp2) 0

/-- The sum of the polynomials of all participants at `j`. -/
def gpkjStar (j threshold : Nat) (commitments : List (List Point)) : Except Err G₁ :=
  (List.range (threshold + 1)).foldlM (fun tmp0 polyDegreeIdx => do
    let tmp1 ← C.addCommitments polyDegreeIdx commitments
    return tmp0 + (j ^ polyDegreeIdx % GROUP_ORDER) • tmp1) 0

/-- The honest, the dishonest and the missing ones of the participants. -/
structure Signers where
  good : List Participant
  bad : List Participant
  missing : List Participant
  deriving DecidableEq

def categorizeOne (threshold : Nat) (commitments : List (List Point)) (signers : Signers) :
    Participant × Option G2Big → Except Err Signers
  | (participant, publishedPublicKey) =>
    -- If the public key is all zeros, then no public key was submitted.
    match publishedPublicKey.filter (· ≠ (0, 0, 0, 0)) with
    | none => .ok { signers with missing := signers.missing ++ [participant] }
    | some publishedPublicKey => do
      let gpkj ← wrapErr "error converting BigIntArray to G2: "
        (C.bigIntArrayToG2 publishedPublicKey)
      let gpkjStar ← C.gpkjStar participant.index threshold commitments
      if C.pairingCheck (gpkjStar, C.h2Neg) (C.curveGen, gpkj) then
        return { signers with good := signers.good ++ [participant] }
      else return { signers with bad := signers.bad ++ [participant] }

def categorizeGroupSigners (publishedPublicKeys : List (Option G2Big))
    (participants : List Participant) (commitments : List (List Point)) : Except Err Signers :=
  let n := participants.length
  let threshold := thresholdForUserCount n
  if n ≠ publishedPublicKeys.length ∨ n ≠ commitments.length then
    .error (s!"mismatched public keys ({publishedPublicKeys.length}), participants ({n}), " ++
      s!"commitments ({commitments.length})")
  else
    match commitments.find? (·.length ≠ threshold + 1) with
    | some c => .error s!"invalid commitments: required ({threshold + 1}); actual ({c.length})"
    | none =>
      (participants.zip publishedPublicKeys).foldlM (C.categorizeOne threshold commitments)
        { good := [], bad := [], missing := [] }

end Curve

end MadNet.Dkg
