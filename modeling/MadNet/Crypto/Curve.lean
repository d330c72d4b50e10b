import MadNet.Crypto.BaseToG1

/-!
# The curve and its addition

The precompile for the addition of points computes with coordinates. It is the addition of the group
of the curve, whose neutral element has the coordinates (0, 0).
-/

namespace MadNet.Crypto

open Bridge (FIELD_MODULUS Point bn128IsOnCurve)
open FouqueTibouchi (rhs)
open CryptoLibrary (invert cast_invert)

/-! ## The precompile -/

/-- Coordinates not below the modulus are rejected. -/
def isPoint (P : Point) : Bool :=
  decide (P.1 < FIELD_MODULUS) && decide (P.2 < FIELD_MODULUS) &&
    (decide (P = (0, 0)) || bn128IsOnCurve P)

/-- The slope of the line through two points, or of the tangent at one. -/
def slope (P Q : Point) : Nat :=
  if P.1 = Q.1 then
    mulmod (mulmod 3 (mulmod P.1 P.1 FIELD_MODULUS) FIELD_MODULUS)
      (invert (mulmod 2 P.2 FIELD_MODULUS)) FIELD_MODULUS
  else
    mulmod (addmod P.2 (FIELD_MODULUS - Q.2) FIELD_MODULUS)
      (invert (addmod P.1 (FIELD_MODULUS - Q.1) FIELD_MODULUS))
      FIELD_MODULUS

def addPoints (P Q : Point) : Point :=
  if P = (0, 0) then Q
  else if Q = (0, 0) then P
  else if P.1 = Q.1 ∧ addmod P.2 Q.2 FIELD_MODULUS = 0 then (0, 0)
  else
    let l := slope P Q
    let x := addmod (mulmod l l FIELD_MODULUS) (FIELD_MODULUS - P.1 + (FIELD_MODULUS - Q.1))
      FIELD_MODULUS
    let y := addmod (mulmod l (addmod P.1 (FIELD_MODULUS - x) FIELD_MODULUS) FIELD_MODULUS)
      (FIELD_MODULUS - P.2)
      FIELD_MODULUS
    (x, y)

def ecAdd (P Q : Point) : Option Point :=
  if isPoint P && isPoint Q then some (addPoints P Q) else none

/-! ## The group -/

/-- y² = x³ + 3. -/
def curve : WeierstrassCurve.Affine Fp where
  a₁ := 0
  a₂ := 0
  a₃ := 0
  a₄ := 0
  a₆ := 3

variable {x y : Fp}

theorem equation_iff : curve.Equation x y ↔ y ^ 2 = rhs 3 x := by
  rw [WeierstrassCurve.Affine.equation_iff, rhs]
  simp only [curve, zero_mul, add_zero]

/-- The curve has no point of which the second coordinate is 0. -/
theorem y_ne_zero (h : y ^ 2 = rhs 3 x) : y ≠ 0 := by
  rintro rfl
  exact rhs_ne_zero x (by rw [← h, zero_pow (by decide)])

theorem nonsingular_iff : curve.Nonsingular x y ↔ y ^ 2 = rhs 3 x := by
  rw [WeierstrassCurve.Affine.nonsingular_iff, equation_iff]
  refine ⟨fun h => h.1, fun h => ⟨h, .inr fun heq => ?_⟩⟩
  have hy : 2 * y = 0 := by
    simp only [curve, zero_mul, sub_zero] at heq
    linear_combination heq
  exact (mul_ne_zero two_ne_zero (y_ne_zero h)) hy

/-- The coordinates of a point. -/
def marshal : curve.Point → Point
  | .zero => (0, 0)
  | .some x y _ => (x.val, y.val)

theorem marshal_some (h : curve.Nonsingular x y) : marshal (.some x y h) = (x.val, y.val) := rfl

theorem natCast_val (x : Fp) : ((x.val : Nat) : Fp) = x := ZMod.natCast_zmod_val x

theorem val_eq {n : Nat} (hn : n < FIELD_MODULUS) (h : (n : Fp) = x) : n = x.val := by
  rw [← h, ZMod.val_natCast_of_lt hn]

theorem cast_sub_val (x : Fp) : ((FIELD_MODULUS - x.val : Nat) : Fp) = -x := by
  rw [Nat.cast_sub (Nat.le_of_lt (ZMod.val_lt x)), ZMod.natCast_self, natCast_val, zero_sub]

theorem onCurve_marshal_some (h : curve.Nonsingular x y) :
    bn128IsOnCurve (x.val, y.val) = true := by
  rw [bn128IsOnCurve_iff, natCast_val, natCast_val]
  exact nonsingular_iff.mp h

theorem marshal_some_ne (h : curve.Nonsingular x y) : (x.val, y.val) ≠ (0, 0) := by
  intro heq
  have hy : y.val = 0 := (Prod.mk.inj heq).2
  exact y_ne_zero (nonsingular_iff.mp h) ((ZMod.val_eq_zero y).mp hy)

/-- Only the neutral element has coordinates that are not on the curve. -/
theorem onCurve_marshal (P : curve.Point) : bn128IsOnCurve (marshal P) = true ↔ P ≠ 0 := by
  cases P with
  | zero => exact ⟨fun h => absurd h (by decide), fun h => absurd rfl h⟩
  | some x y h => exact ⟨fun _ => nofun, fun _ => onCurve_marshal_some h⟩

theorem isPoint_marshal (P : curve.Point) : isPoint (marshal P) = true := by
  cases P with
  | zero => decide
  | some x y h =>
    rw [marshal_some, isPoint, decide_eq_true (ZMod.val_lt x), decide_eq_true (ZMod.val_lt y),
      onCurve_marshal_some h,
      Bool.or_true]
    rfl

section Add

variable {x₁ y1 x₂ y2 : Fp}

theorem cast_slope (hxy : ¬ (x₁ = x₂ ∧ y1 = curve.negY x₂ y2)) :
    ((slope (x₁.val, y1.val) (x₂.val, y2.val) : Nat) : Fp) = curve.slope x₁ x₂ y1 y2 := by
  rw [slope]
  split
  next hx =>
    have hx' : x₁ = x₂ := ZMod.val_injective _ hx
    rw [WeierstrassCurve.Affine.slope_of_Y_ne hx' fun hy => hxy ⟨hx', hy⟩]
    simp only [cast_mulmod, cast_invert, natCast_val, Nat.cast_ofNat, curve,
      WeierstrassCurve.Affine.negY]
    rw [div_eq_mul_inv]
    congr 1 <;> ring
  next hx =>
    have hx' : x₁ ≠ x₂ := fun h => hx (congrArg ZMod.val h)
    rw [WeierstrassCurve.Affine.slope_of_X_ne hx']
    simp only [cast_mulmod, cast_addmod, cast_invert, natCast_val, cast_sub_val]
    rw [div_eq_mul_inv, sub_eq_add_neg, sub_eq_add_neg]

theorem addPoints_some (h1 : curve.Nonsingular x₁ y1) (h2 : curve.Nonsingular x₂ y2) :
    addPoints (x₁.val, y1.val) (x₂.val, y2.val) = marshal (.some x₁ y1 h1 + .some x₂ y2 h2) := by
  have hopposite : (x₁.val = x₂.val ∧ addmod y1.val y2.val FIELD_MODULUS = 0) ↔
      (x₁ = x₂ ∧ y1 = curve.negY x₂ y2) := by
    have hx : x₁.val = x₂.val ↔ x₁ = x₂ := (ZMod.val_injective _).eq_iff
    have hy : addmod y1.val y2.val FIELD_MODULUS = 0 ↔ y1 = curve.negY x₂ y2 := by
      have hneg : curve.negY x₂ y2 = -y2 := by simp [curve]
      rw [hneg, eq_neg_iff_add_eq_zero]
      have hcast : ((addmod y1.val y2.val FIELD_MODULUS : Nat) : Fp) = y1 + y2 := by
        rw [cast_addmod, natCast_val, natCast_val]
      constructor
      · intro h
        rw [← hcast, h, Nat.cast_zero]
      · intro h
        exact natCast_inj (addmod_lt _ _) (by decide) (by rw [hcast, h, Nat.cast_zero])
    rw [hx, hy]
  rw [addPoints, if_neg (marshal_some_ne h1), if_neg (marshal_some_ne h2)]
  by_cases hxy : x₁ = x₂ ∧ y1 = curve.negY x₂ y2
  · rw [if_pos (hopposite.mpr hxy), WeierstrassCurve.Affine.Point.add_of_Y_eq hxy.1 hxy.2]
    rfl
  · rw [if_neg (fun h => hxy (hopposite.mp h)), WeierstrassCurve.Affine.Point.add_some hxy,
      marshal_some]
    have hl := cast_slope hxy
    generalize slope (x₁.val, y1.val) (x₂.val, y2.val) = l at hl
    have hx :
      ((addmod (mulmod l l FIELD_MODULUS) (FIELD_MODULUS - x₁.val + (FIELD_MODULUS - x₂.val))
        FIELD_MODULUS : Nat) : Fp) = curve.addX x₁ x₂ (curve.slope x₁ x₂ y1 y2) := by
      rw [cast_addmod, cast_mulmod, Nat.cast_add, cast_sub_val, cast_sub_val, hl]
      simp only [WeierstrassCurve.Affine.addX, curve]
      ring
    refine Prod.ext (val_eq (addmod_lt _ _) hx) (val_eq (addmod_lt _ _) ?_)
    dsimp only
    rw [val_eq (addmod_lt _ _) hx, cast_addmod, cast_mulmod, cast_addmod, natCast_val, cast_sub_val,
      cast_sub_val, hl]
    simp only [WeierstrassCurve.Affine.addY, WeierstrassCurve.Affine.negY,
      WeierstrassCurve.Affine.negAddY, curve]
    ring

end Add

/-- The precompile adds. -/
theorem ecAdd_marshal (P Q : curve.Point) :
    ecAdd (marshal P) (marshal Q) = some (marshal (P + Q)) := by
  rw [ecAdd, isPoint_marshal, isPoint_marshal, Bool.and_self, if_pos rfl]
  congr 1
  match P, Q with
  | .zero, Q =>
    rw [show (WeierstrassCurve.Affine.Point.zero + Q : curve.Point) = Q from zero_add Q]; rfl
  | .some x₁ y1 h1, .zero =>
    rw [show (.some x₁ y1 h1 + WeierstrassCurve.Affine.Point.zero : curve.Point) = .some x₁ y1
      h1 from add_zero _,
      marshal_some, addPoints, if_neg (marshal_some_ne h1)]
    rfl
  | .some x₁ y1 h1, .some x₂ y2 h2 => exact addPoints_some h1 h2

end MadNet.Crypto
