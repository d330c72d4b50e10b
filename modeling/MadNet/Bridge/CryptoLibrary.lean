import MadNet.Monitor.Events

/-!
# `libraries/math/CryptoLibrary.sol`

The precompiled contracts and `keccak256` are parameters; a precompile that fails is `none`. What
the library computes with them, and the bytes that `abi.encodePacked` makes of its arguments, are as
in the source.
-/

namespace MadNet.Bridge

open Monitor (G2Big)

/-- `uint256[2]`. -/
abbrev Point := Nat × Nat

/-- Why a call is reverted. -/
inductive Revert where
  /-- `require` with an error code. -/
  | code (c : String)
  /-- An arithmetic overflow or an index out of bounds. -/
  | panic
  /-- A call to one of the staking contracts was reverted. -/
  | staking
  deriving DecidableEq

/-- Solidity's `require`. -/
def require (p : Bool) (code : String) : Except Revert Unit :=
  if p then .ok () else .error (.code code)

@[simp] theorem require_eq_ok {p : Bool} {code : String} {u : Unit} :
    require p code = .ok u ↔ p = true := by
  cases p <;> simp [require]

/-- The last `k` bytes of `n`, the most significant first. -/
def bytesBE : Nat → Nat → List UInt8
  | 0, _ => []
  | k + 1, n => bytesBE k (n / 256) ++ [UInt8.ofNat n]

/-- `abi.encodePacked` of a `uint256` or a `bytes32`. -/
def word (n : Nat) : List UInt8 := bytesBE 32 n

/-- `abi.encodePacked` of a `uint64`. -/
def uint64 (n : Nat) : List UInt8 := bytesBE 8 n

def Point.bytes (p : Point) : List UInt8 := word p.1 ++ word p.2

/-- `uint256[4]`. -/
def bytesG2 (p : G2Big) : List UInt8 := word p.1 ++ word p.2.1 ++ word p.2.2.1 ++ word p.2.2.2

structure Precompiles where
  keccak256 : List UInt8 → Nat
  add : Point → Point → Option Point
  multiply : Point → Nat → Option Point
  /-- e(P₁, Q₁) · e(P₂, Q₂) = 1. -/
  pairing : Point → G2Big → Point → G2Big → Option Bool

def GROUP_ORDER : Nat :=
  21888242871839275222246405745257275088548364400416034343698204186575808495617
def FIELD_MODULUS : Nat :=
  21888242871839275222246405745257275088696311157297823662689037894645226208583

def G1 : Point := (1, 2)
def H1 : Point :=
  (2788159449993757418373833378244720686978228247930022635519861138679785693683,
    12344898367754966892037554998108864957174899548424978619954608743682688483244)
/-- `H2_XI`, `H2_X`, `H2_YI`, `H2_Y`. -/
def H2 : G2Big :=
  (11559732032986387107991004021392285783925812861821192530917403151452391805634,
    10857046999023057135944570762232829481370756359578518086990519993285655852781,
    17805874995975841540914202342111839520379459829704422454583296818431106115052,
    13392588948715843804641432497768002650278120570034223513918757245338268106653)

/-- Check if the point is on the curve y² = x³ + 3. -/
def bn128IsOnCurve (p : Point) : Bool :=
  p.2 * p.2 % FIELD_MODULUS = (p.1 * (p.1 * p.1 % FIELD_MODULUS) % FIELD_MODULUS + 3) %
    FIELD_MODULUS

namespace Precompiles

variable (L : Precompiles)

/-- The result of a precompile, or the error of its `require(success, ..)`. -/
def call {α : Type} (result : Option α) (text : String) : Except Revert α :=
  match result with
  | some a => .ok a
  | none => .error (.code text)

def bn128Add (p q : Point) : Except Revert Point := call (L.add p q) "700"

def bn128Multiply (p : Point) (k : Nat) : Except Revert Point :=
  call (L.multiply p k) "elliptic curve multiplication failed"

def bn128CheckPairing (p₁ : Point) (q₁ : G2Big) (p₂ : Point) (q₂ : G2Big) : Except Revert Bool :=
  call (L.pairing p₁ q₁ p₂ q₂) "elliptic curve pairing failed"

/-- The proof `(c, r)` that `y₁` and `y₂` have the same discrete logarithm to the bases `x₁` and
`x₂`. -/
def discreteLogEquality (x₁ y₁ x₂ y₂ : Point) (proof : Nat × Nat) : Except Revert Bool := do
  let t₁ ← L.bn128Add (← L.bn128Multiply x₁ proof.2) (← L.bn128Multiply y₁ proof.1)
  let t₂ ← L.bn128Add (← L.bn128Multiply x₂ proof.2) (← L.bn128Multiply y₂ proof.1)
  let challenge :=
    L.keccak256 (x₁.bytes ++ y₁.bytes ++ x₂.bytes ++ y₂.bytes ++ t₁.bytes ++ t₂.bytes)
  return challenge == proof.1

@[simp] theorem call_eq_ok {α : Type} {o : Option α} {text : String} {a : α} :
    call o text = .ok a ↔ o = some a := by
  cases o <;> simp [call]

end Precompiles

end MadNet.Bridge
