import MadNet.Crypto.BaseToG1
import MadNet.Crypto.Gfp

/-!
# `baseToG1` of `hash.go`

The same map as that of the contract, on `gfP`s and without branches on the candidates.
-/

namespace MadNet.Crypto

open Bridge (FIELD_MODULUS Point)
open FouqueTibouchi (rhs alpha x₁ x₂ x₃)

namespace Cloudflare

/-- An error is its text. -/
def ErrInvalidPoint : String := "hashToG1/HashToG2: hash point not on curve"

def g1HashConst1 : Nat :=
  words 0x71930c11d782e155 0xa6bb947cffbe3323 0xaa303344d4741444 0x2c3b3f0d26594943
def g1HashConst2 : Nat :=
  words 0x3e424383c39ad5b9 0x28ed3f00245fdc6a 0x4a2e7e8c1e5ebdfa 0x05b858f624573163
def g1HashConst3 : Nat :=
  words 0xafd49a8c34aeae4c 0xe0a8c73e1f684743 0xb4ea4db753538a2d 0x14cf9766d3bdd51d
def g1HashConst4 : Nat :=
  words 0x115482203dbf392d 0x926242126eaa626a 0xe16a48076063c052 0x07c5909386eddc93

def curveB : Nat := newGFp 3

/-- Points are kept in Jacobian form. -/
structure CurvePoint where
  x : Nat
  y : Nat
  z : Nat
  t : Nat
  deriving DecidableEq

namespace CurvePoint

variable (c : CurvePoint)

def makeAffine : CurvePoint :=
  if c.z = newGFp 1 then c
  else if c.z = newGFp 0 then { c with x := 0, y := newGFp 1, t := 0 }
  else
    let zInv := invert c.z
    let t := gfpMul c.y zInv
    let zInv2 := gfpMul zInv zInv
    ⟨gfpMul c.x zInv2, gfpMul t zInv2, newGFp 1, newGFp 1⟩

def isInfinity : Bool := c.z = 0

def isOnCurve : Bool :=
  let c := c.makeAffine
  if c.isInfinity then true
  else gfpMul c.y c.y = gfpAdd (gfpMul (gfpMul c.x c.x) c.x) curveB

/-- The coordinates that `G1.Marshal` writes. -/
def marshal : Point :=
  let c := c.makeAffine
  if c.isInfinity then (0, 0) else (montDecode c.x, montDecode c.y)

end CurvePoint

/-- `g(x) == x^3 + curveB`. -/
def g (x : Nat) : Nat := gfpAdd (gfpMul (gfpMul x x) x) curveB

/-- `x1`, `x2` and `x3`. -/
def candidates (t : Nat) : Nat × Nat × Nat :=
  let alphaPart1 := gfpMul t t
  let alphaPart2 := gfpAdd alphaPart1 g1HashConst4
  let alpha := invert (gfpMul alphaPart1 alphaPart2)
  let tFourth := gfpMul alphaPart1 alphaPart1
  let tmp := gfpMul (gfpMul alphaPart2 alphaPart2) alphaPart2
  let x1 := gfpAdd g1HashConst1 (gfpNeg (gfpMul (gfpMul g1HashConst2 tFourth) alpha))
  let x2 := gfpNeg (gfpAdd x1 (newGFp 1))
  let x3 := gfpAdd (gfpNeg (gfpMul (gfpMul g1HashConst3 tmp) alpha)) (newGFp 1)
  (x1, x2, x3)

def constantTimeEq (x y : Int) : Int := if x = y then 1 else 0

def baseToG1 (t : Nat) : Except String CurvePoint :=
  let (x1, x2, x3) := candidates t
  let residue1 := legendre (g x1)
  let residue2 := legendre (g x2)
  let index := ((residue1 - 1) * (residue2 - 3)).tdiv 4 + 1
  let potentialX1 := gfpMul (newGFp (constantTimeEq 1 index)) x1
  let potentialX2 := gfpMul (newGFp (constantTimeEq 2 index)) x2
  let potentialX3 := gfpMul (newGFp (constantTimeEq 3 index)) x3
  let x := gfpAdd (gfpAdd (gfpAdd 0 potentialX1) potentialX2) potentialX3
  let y := gfpMul (sqrt (g x)) (newGFp (sign0 t))
  let h : CurvePoint := ⟨x, y, newGFp 1, newGFp 1⟩
  if h.isOnCurve then .ok h else .error ErrInvalidPoint

/-! ## Values in the field -/

theorem newGFp_zero : IsGfp (newGFp 0) 0 := by
  have h := newGFp_natCast (n := 0) (by decide)
  rwa [Nat.cast_zero, Nat.cast_zero] at h

theorem newGFp_one : IsGfp (newGFp 1) 1 := by
  have h := newGFp_natCast (n := 1) (by decide)
  rwa [Nat.cast_one, Nat.cast_one] at h

theorem curveB_spec : IsGfp curveB 3 := by
  have h := newGFp_natCast (n := 3) (by decide)
  rwa [Nat.cast_ofNat, Nat.cast_ofNat] at h

theorem montEncode_const {k n : Nat} (h : k = montEncode n ∧ n < FIELD_MODULUS) : IsGfp k n :=
  h.1 ▸ montEncode_spec h.2

/-- The constants are those of the contract. -/
theorem g1HashConst1_spec : IsGfp g1HashConst1 HASH_CONST_1 := montEncode_const (by decide)

theorem g1HashConst2_spec : IsGfp g1HashConst2 HASH_CONST_2 := montEncode_const (by decide)

theorem g1HashConst3_spec : IsGfp g1HashConst3 HASH_CONST_3 := montEncode_const (by decide)

theorem g1HashConst4_spec : IsGfp g1HashConst4 HASH_CONST_4 := montEncode_const (by decide)

variable {x t : Fp} {a : Nat}

theorem g_spec (ha : IsGfp a x) : IsGfp (g a) (rhs 3 x) := by
  have h := gfpAdd_spec (gfpMul_spec (gfpMul_spec ha ha) ha) curveB_spec
  rwa [← pow_two, ← pow_succ] at h

theorem invert_spec (ha : IsGfp a x) : IsGfp (invert a) x⁻¹ := by
  have heq : pMinus2 = P_MINUS2 := by decide
  have h := exp_spec ha (show pMinus2 < 2 ^ 256 by decide)
  rwa [heq, CryptoLibrary.inv_eq_pow, ← heq] at h

theorem sqrt_spec (ha : IsGfp a x) : IsGfp (sqrt a) (x ^ P_PLUS1_OVER4) := by
  have heq : pPlus1Over4 = P_PLUS1_OVER4 := by decide
  rw [← heq]
  exact exp_spec ha (by decide)

theorem legendre_spec [DecidablePred (IsSquare : Fp → Prop)] (ha : IsGfp a x) (hx : x ≠ 0) :
    legendre a = if IsSquare x then 1 else -1 := by
  have heq : pMinus1Over2 = P_MINUS1_OVER2 := by decide
  obtain ⟨hlt, hcast⟩ := montDecode_spec (exp_spec ha (show pMinus1Over2 < 2 ^ 256 by decide))
  rw [heq] at hcast
  have h := CryptoLibrary.symbol_spec hlt hx (by rw [heq]; exact hcast)
  exact h

theorem sign0_spec (ha : IsGfp a x) : IsGfp (newGFp (sign0 a)) (sign x) := by
  have heq : pMinus1Over2 = P_MINUS1_OVER2 := by decide
  obtain ⟨hlt, hcast⟩ := montDecode_spec ha
  rw [sign0, sign, heq, ← hcast, ZMod.val_natCast_of_lt hlt]
  by_cases h : montDecode a ≤ P_MINUS1_OVER2
  · rw [if_pos h, if_neg (Nat.not_lt.mpr h)]
    exact newGFp_one
  · rw [if_neg h, if_pos (Nat.lt_of_not_le h)]
    exact newGFp_neg_one

theorem candidates_spec (ha : IsGfp a t) :
    IsGfp (candidates a).1 (x₁ 3 (HASH_CONST_2 : Fp) t) ∧ IsGfp (candidates a).2.1
      (x₂ 3 (HASH_CONST_2 : Fp) t) ∧
      IsGfp (candidates a).2.2 (x₃ 3 t) := by
  have hpart1 := gfpMul_spec ha ha
  have hpart2 := gfpAdd_spec hpart1 g1HashConst4_spec
  have halpha := invert_spec (gfpMul_spec hpart1 hpart2)
  have hx1 := gfpAdd_spec g1HashConst1_spec
    (gfpNeg_spec (gfpMul_spec (gfpMul_spec g1HashConst2_spec (gfpMul_spec hpart1 hpart1)) halpha))
  have hx2 := gfpNeg_spec (gfpAdd_spec hx1 newGFp_one)
  have hx3 := gfpAdd_spec (gfpNeg_spec
    (gfpMul_spec (gfpMul_spec g1HashConst3_spec (gfpMul_spec (gfpMul_spec hpart2 hpart2) hpart2))
    halpha)) newGFp_one
  have halpha' : (t * t * (t * t + (HASH_CONST_4 : Fp)))⁻¹ = alpha 3 t := by
    rw [alpha, cast_HASH_CONST_4, pow_two]
  have hx1' : (HASH_CONST_1 : Fp) + -((HASH_CONST_2 : Fp) * (t * t * (t * t)) *
      (t * t * (t * t + (HASH_CONST_4 : Fp)))⁻¹) = x₁ 3 (HASH_CONST_2 : Fp) t := by
    rw [halpha', cast_HASH_CONST_1, x₁]
    ring
  rw [hx1'] at hx1 hx2
  rw [candidates]
  dsimp only
  refine ⟨hx1, ?_, ?_⟩
  · have hx2' : -(x₁ 3 (HASH_CONST_2 : Fp) t + 1) = x₂ 3 (HASH_CONST_2 : Fp) t := by
      rw [x₂]
      ring
    rw [← hx2']
    exact hx2
  · have hx3' : -((HASH_CONST_3 : Fp) *
      ((t * t + (HASH_CONST_4 : Fp)) * (t * t + (HASH_CONST_4 : Fp)) *
        (t * t + (HASH_CONST_4 : Fp))) * (t * t * (t * t + (HASH_CONST_4 : Fp)))⁻¹) +
        1 = x₃ 3 t := by
      rw [halpha', cast_HASH_CONST_3, cast_HASH_CONST_4, x₃]
      ring
    rw [← hx3']
    exact hx3

/-- Only the coefficient of the right candidate is 1. -/
theorem select_spec {a1 a2 a3 : Nat} {c1 c2 c3 : Fp} {p q : Prop}
    [Decidable p] [Decidable q] (h1 : IsGfp a1 c1) (h2 : IsGfp a2 c2) (h3 : IsGfp a3 c3) :
    let index := (((if p then 1 else -1 : Int) - 1) * ((if q then 1 else -1) - 3)).tdiv 4 + 1
    IsGfp (gfpAdd (gfpAdd (gfpAdd 0 (gfpMul (newGFp (constantTimeEq 1 index)) a1))
      (gfpMul (newGFp (constantTimeEq 2 index)) a2)) (gfpMul (newGFp (constantTimeEq 3 index)) a3))
      (if p then c1 else if q then c2 else c3) := by
  have hcoef : ∀ i j : Int, IsGfp (newGFp (constantTimeEq i j)) (if i = j then 1 else 0) := by
    intro i j
    rw [constantTimeEq]
    split
    · exact newGFp_one
    · exact newGFp_zero
  intro index
  have h :=
    gfpAdd_spec (gfpAdd_spec (gfpAdd_spec (.zero (by decide)) (gfpMul_spec (hcoef 1 index) h1))
    (gfpMul_spec (hcoef 2 index) h2)) (gfpMul_spec (hcoef 3 index) h3)
  convert h using 1
  by_cases hp : p <;> by_cases hq : q <;> simp [index, hp, hq]

theorem makeAffine_one (x y t : Nat) : (⟨x, y, newGFp 1, t⟩ : CurvePoint).makeAffine = ⟨x, y,
      newGFp 1, t⟩ := by
  rw [CurvePoint.makeAffine, if_pos rfl]

theorem newGFp_one_ne_zero : newGFp 1 ≠ 0 := by decide

theorem isOnCurve_spec {b t : Nat} {y : Fp} (ha : IsGfp a x) (hb : IsGfp b y) :
    (⟨a, b, newGFp 1, t⟩ : CurvePoint).isOnCurve = true ↔ y ^ 2 = rhs 3 x := by
  have hrhs : IsGfp (gfpAdd (gfpMul (gfpMul a a) a) curveB) (rhs 3 x) := g_spec ha
  rw [CurvePoint.isOnCurve, makeAffine_one, CurvePoint.isInfinity]
  dsimp only
  rw [decide_eq_false newGFp_one_ne_zero, if_neg Bool.false_ne_true, decide_eq_true_iff,
    (gfpMul_spec hb hb).eq_iff isUnit_R hrhs, pow_two]

theorem baseToG1_spec (ha : IsGfp a t) :
    ∃ b c, baseToG1 a = .ok ⟨b, c, newGFp 1, newGFp 1⟩ ∧ IsGfp b (baseX t) ∧ IsGfp c (baseY t) := by
  classical
  have hcandidates := candidates_spec ha
  rw [baseToG1]
  generalize candidates a = c at hcandidates
  obtain ⟨c1, c2, c3⟩ := c
  obtain ⟨h1, h2, h3⟩ := hcandidates
  dsimp only at h1 h2 h3 ⊢
  rw [legendre_spec (g_spec h1) (rhs_ne_zero _), legendre_spec (g_spec h2) (rhs_ne_zero _)]
  have hx := select_spec (p := IsSquare (rhs 3 (x₁ 3 (HASH_CONST_2 : Fp) t)))
    (q := IsSquare (rhs 3 (x₂ 3 (HASH_CONST_2 : Fp) t))) h1 h2 h3
  dsimp only at hx
  rw [← baseX] at hx
  have hy := gfpMul_spec (sqrt_spec (g_spec hx)) (sign0_spec ha)
  rw [← baseY] at hy
  rw [if_pos ((isOnCurve_spec hx hy).mpr (baseY_sq t))]
  exact ⟨_, _, rfl, hx, hy⟩

/-- For every field element the node and the contract find the same point, and it is on the curve.
-/
theorem baseToG1_eq_contract (t : Fp) : ∃ P h, CryptoLibrary.baseToG1 t.val = .ok P ∧
    baseToG1 (bigToGFp t.val) = .ok h ∧ h.marshal = P ∧
    (P.1 < FIELD_MODULUS ∧ P.2 < FIELD_MODULUS ∧ (P.2 : Fp) ^ 2 = (P.1 : Fp) ^ 3 + 3) := by
  obtain ⟨x, y, hcontract, ⟨hxlt, hx⟩, hylt, hy⟩ := CryptoLibrary.baseToG1_spec (ZMod.val_lt t)
  obtain ⟨a, b, hnode, ha, hb⟩ := baseToG1_spec (bigToGFp_spec (ZMod.val_lt t))
  obtain ⟨halt, ha'⟩ := montDecode_spec ha
  obtain ⟨hblt, hb'⟩ := montDecode_spec hb
  refine ⟨(x, y), _, hcontract, hnode, ?_, hxlt, hylt, ?_⟩
  · rw [CurvePoint.marshal, makeAffine_one, CurvePoint.isInfinity]
    dsimp only
    rw [decide_eq_false newGFp_one_ne_zero, if_neg Bool.false_ne_true,
      natCast_inj halt hxlt (ha'.trans hx.symm),
      natCast_inj hblt hylt (hb'.trans hy.symm)]
  · have hcurve := baseY_sq ((t.val : Nat) : Fp)
    rewrite [← hx, ← hy, rhs] at hcurve
    exact hcurve

end Cloudflare

end MadNet.Crypto
