import MadNet.Crypto.Curve

/-!
# `hashToG1` of `CryptoLibrary.sol`

Two field elements are made from a message and mapped to the curve, and the points are added. What
comes out is refused if it is the neutral element, the generator or the inverse of this one.
-/

namespace MadNet.Crypto

open Bridge (FIELD_MODULUS Point Revert require bn128IsOnCurve Precompiles.call)
open FouqueTibouchi (rhs)
open WeierstrassCurve.Affine (Point.X_eq_iff)

namespace CryptoLibrary

variable (keccak256 : List UInt8 → Nat) (message : List UInt8)

def hashToBase (c0 c1 : UInt8) : Nat :=
  let s0 := keccak256 (c0 :: message)
  let s1 := keccak256 (c1 :: message)
  addmod (mulmod s0 TWO_256_MOD_P FIELD_MODULUS) s1 FIELD_MODULUS

def safeSigningPoint (input : Point) : Bool := !(decide (input.1 = 0) || decide (input.1 = 1))

def hashToG1 : Except Revert Point := do
  let t0 := hashToBase keccak256 message 0x00 0x01
  let t1 := hashToBase keccak256 message 0x02 0x03
  let h0 ← baseToG1 t0
  let h1 ← baseToG1 t1
  let h ← Precompiles.call (ecAdd h0 h1) "700"
  require (bn128IsOnCurve h) "704"
  require (safeSigningPoint h) "705"
  return h

end CryptoLibrary

/-! ## The point of a message -/

/-- The point of a field element. -/
noncomputable def basePoint (t : Fp) : curve.Point :=
  .some (baseX t) (baseY t) (nonsingular_iff.mpr (baseY_sq t))

/-- The sum of the two points of a message. -/
noncomputable def hashPoint (keccak256 : List UInt8 → Nat) (message : List UInt8) : curve.Point :=
  basePoint (CryptoLibrary.hashToBase keccak256 message 0x00 0x01 : Nat) +
    basePoint (CryptoLibrary.hashToBase keccak256 message 0x02 0x03 : Nat)

def generator : curve.Point := .some 1 2 (nonsingular_iff.mpr (by rw [rhs]; norm_num))

/-- The point is the neutral element, the generator or its inverse. -/
def Dangerous (P : curve.Point) : Prop := P = 0 ∨ P = generator ∨ P = -generator

/-- 3 is not a square, so that the curve has no point of which the first coordinate is 0. -/
theorem x_ne_zero {x y : Fp} (h : y ^ 2 = rhs 3 x) : x ≠ 0 := by
  rintro rfl
  have hsq : IsSquare ((3 : Nat) : Fp) := ⟨y, by rw [← pow_two, h, rhs]; norm_num⟩
  have hpow : (((3 : Nat) : Fp)) ^ (FIELD_MODULUS / 2) = 1 :=
    (ZMod.euler_criterion FIELD_MODULUS (ne_zero_of_lt (by decide) (by decide))).mp hsq
  have hpowMod : Lucas.powMod 3 FIELD_MODULUS 254 (FIELD_MODULUS / 2) ≠ 1 := by decide +kernel
  rw [Lucas.powMod_eq (by decide)] at hpowMod
  rw [← Nat.cast_pow, ← Nat.cast_one] at hpow
  exact hpowMod (natCast_eq_iff.mp hpow)

theorem x_eq_one_iff {x y : Fp} (h : curve.Nonsingular x y) :
    x = 1 ↔ (.some x y h : curve.Point) = generator ∨ (.some x y h : curve.Point) = -generator :=
  Point.X_eq_iff

theorem val_eq_iff {x : Fp} {n : Nat} (hn : n < FIELD_MODULUS) : x.val = n ↔ x = (n : Fp) := by
  constructor
  · rintro rfl
    exact (natCast_val x).symm
  · rintro rfl
    exact ZMod.val_natCast_of_lt hn

/-- `safeSigningPoint` refuses what is dangerous. -/
theorem safeSigningPoint_iff (P : curve.Point) :
    CryptoLibrary.safeSigningPoint (marshal P) = true ↔ ¬ Dangerous P := by
  cases P with
  | zero => exact ⟨fun h => absurd h (by decide), fun h => absurd (.inl rfl) h⟩
  | some x y h =>
    have h0 : x.val ≠ 0 := fun hx => x_ne_zero (nonsingular_iff.mp h) ((ZMod.val_eq_zero x).mp hx)
    have h1 : x.val = 1 ↔ x = 1 := by
      rw [val_eq_iff (by decide), Nat.cast_one]
    have hsafe : CryptoLibrary.safeSigningPoint (marshal (.some x y h)) = true ↔ x.val ≠ 1 := by
      rw [marshal_some, CryptoLibrary.safeSigningPoint, decide_eq_false h0, Bool.false_or,
        Bool.not_eq_true',
        decide_eq_false_iff_not]
    rw [hsafe, ne_eq, h1, x_eq_one_iff h, Dangerous]
    exact not_congr ⟨.inr, fun hd => hd.resolve_left nofun⟩

namespace CryptoLibrary

variable {keccak256 : List UInt8 → Nat} {message : List UInt8}

theorem baseToG1_eq {t : Nat} (ht : t < FIELD_MODULUS) :
    baseToG1 t = .ok (marshal (basePoint t)) := by
  obtain ⟨x, y, hbase, ⟨hxlt, hx⟩, hylt, hy⟩ := baseToG1_spec ht
  rw [hbase, basePoint, marshal_some, val_eq hxlt hx, val_eq hylt hy]

theorem hashToBase_lt (keccak256 : List UInt8 → Nat) (message : List UInt8) (c0 c1 : UInt8) :
    hashToBase keccak256 message c0 c1 < FIELD_MODULUS := addmod_lt _ _

/-- What is returned, and when. -/
theorem hashToG1_eq_ok {P : Point} : hashToG1 keccak256 message = .ok P ↔
      ¬ Dangerous (hashPoint keccak256 message) ∧ P = marshal (hashPoint keccak256 message) := by
  rw [hashToG1, baseToG1_eq (hashToBase_lt ..), baseToG1_eq (hashToBase_lt ..), Prog.ok_bind,
    Prog.ok_bind, ecAdd_marshal, ← hashPoint]
  generalize hashPoint keccak256 message = S
  rw [Precompiles.call, Prog.ok_bind]
  constructor
  · intro h
    obtain ⟨_, _, -, hsafe, h₂⟩ := Prog.bind₂_ok h
    exact ⟨(safeSigningPoint_iff S).mp (Bridge.require_eq_ok.mp hsafe), (Except.ok.inj h₂).symm⟩
  · rintro ⟨hsafe, rfl⟩
    have hne : S ≠ 0 := fun h0 => hsafe (.inl h0)
    exact Prog.bind_eq_ok.mpr ⟨(), Bridge.require_eq_ok.mpr ((onCurve_marshal S).mpr hne),
      Prog.bind_eq_ok.mpr ⟨(), Bridge.require_eq_ok.mpr ((safeSigningPoint_iff S).mpr hsafe), rfl⟩⟩

end CryptoLibrary

end MadNet.Crypto
