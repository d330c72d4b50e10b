import MadNet.Bridge.CryptoLibrary
import MadNet.Lib.FouqueTibouchi
import MadNet.Lib.Lucas

/-!
# `crypto/bn256`

The two groups and their pairing are parameters of what follows; `Curve.Lawful` says what is assumed
of them. How their elements are read from and written to integers is as in the source. A `big.Int`
is a natural number: only `LagrangeInterpolationG1` computes with negative ones.
-/

namespace MadNet.Dkg

open ZMod
open Bridge (Point GROUP_ORDER FIELD_MODULUS)
open Monitor (G2Big)

/-! ## The order of the groups -/

def smallPrimes : List Nat :=
  [2, 3, 5, 7, 11, 13, 29, 83, 107, 229, 379, 661, 823, 853, 983, 1637, 3691, 4999, 11003, 93001,
    237073, 1593227]

def orderCertificate : Lucas.Certificate :=
  ⟨GROUP_ORDER, 5, List.replicate 28 2 ++ [3, 3, 13, 29, 983, 11003, 237073, 405928799,
    1670836401704629, 13818364434197438864469338081]⟩

/-- The certificates on which that of `GROUP_ORDER` rests, and it. -/
def certificates : List Lucas.Certificate :=
  [⟨639533339, 2, [2, 229, 853, 1637]⟩, ⟨65865678001877903, 5, [2, 83, 379, 1637, 639533339]⟩,
    ⟨13818364434197438864469338081, 3, [2, 2, 2, 2, 2, 5, 823, 1593227, 65865678001877903]⟩,
    ⟨12048837557, 2, [2, 2, 7, 7, 661, 93001]⟩,
    ⟨5156902474397, 2, [2, 2, 107, 12048837557]⟩,
    ⟨1670836401704629, 2, [2, 2, 3, 3, 3, 3, 5156902474397]⟩,
    ⟨405928799, 22, [2, 11, 3691, 4999]⟩,
    orderCertificate]

theorem prime_GROUP_ORDER : Nat.Prime GROUP_ORDER := by
  have hsmall : ∀ r ∈ smallPrimes, r.Prime := by
    simp only [smallPrimes, List.forall_mem_cons]
    norm_num
  have hcheck : Lucas.checkAll 254 smallPrimes certificates = true := by decide +kernel
  exact Lucas.prime_of_checkAll hsmall hcheck orderCertificate (by simp [certificates])

instance : Fact (Nat.Prime GROUP_ORDER) := ⟨prime_GROUP_ORDER⟩

/-! ## The groups -/

/-- An error is its text. -/
abbrev Err := String

def ErrNotUint256 : Err := "big.Ints are not at most 256-bit unsigned integers"
def ErrMalformedPoint : Err := "cloudflare: Byte slice yielded invalid curve point"
def ErrInvalidCoordinate : Err := "cloudflare: coordinate equals or exceeds modulus"
def ErrDangerousPoint : Err := "hashToG1: p == curveGen or p == Inf or p == negCurveGen; " ++
  "dangerous hash point for signatures"

structure Curve (G₁ G₂ : Type) where
  curveGen : G₁
  twistGen : G₂
  /-- The affine coordinates of a point, which are 0 for the point at infinity. -/
  marshal₁ : G₁ → Point
  marshal₂ : G₂ → G2Big
  /-- The point with these coordinates, if there is one in the group. -/
  onCurve₁ : Point → Option G₁
  onCurve₂ : G2Big → Option G₂
  /-- `PairingCheck` of two pairs of points. -/
  pairingCheck : G₁ × G₂ → G₁ × G₂ → Bool
  hashFunc256 : List UInt8 → Nat
  hashToG1 : List UInt8 → Except Err G₁

def h1BaseMessage : List UInt8 := "MadHive Rocks!".toUTF8.toList

variable {G₁ G₂ : Type} [AddCommGroup G₁] [AddCommGroup G₂]

namespace Curve

/-- What is assumed of the groups. No point of G₁ other than the one at infinity has the x
coordinate 0, since it would have order 3. -/
structure Lawful (C : Curve G₁ G₂) : Prop where
  order₁ : ∀ a : G₁, GROUP_ORDER • a = 0
  order₂ : ∀ b : G₂, GROUP_ORDER • b = 0
  cyclic : ∀ a : G₁, ∃ k : Nat, a = k • C.curveGen
  pairing : ∃ e : G₁ →+ G₂ →+ ZMod GROUP_ORDER, e C.curveGen C.twistGen ≠ 0 ∧
    ∀ p q, C.pairingCheck p q = true ↔ e p.1 p.2 + e q.1 q.2 = 0
  marshal₁_zero : C.marshal₁ 0 = (0, 0)
  marshal₂_zero : C.marshal₂ 0 = (0, 0, 0, 0)
  marshal₁_lt : ∀ a, (C.marshal₁ a).1 < FIELD_MODULUS ∧ (C.marshal₁ a).2 < FIELD_MODULUS
  marshal₂_lt : ∀ b, (C.marshal₂ b).1 < FIELD_MODULUS ∧ (C.marshal₂ b).2.1 < FIELD_MODULUS ∧
    (C.marshal₂ b).2.2.1 < FIELD_MODULUS ∧ (C.marshal₂ b).2.2.2 < FIELD_MODULUS
  onCurve₁ : ∀ p a, C.onCurve₁ p = some a ↔ a ≠ 0 ∧ C.marshal₁ a = p
  onCurve₂ : ∀ p b, C.onCurve₂ p = some b ↔ b ≠ 0 ∧ C.marshal₂ b = p
  fst_marshal₁ : ∀ a, (C.marshal₁ a).1 = 0 → a = 0
  marshal₁_curveGen : C.marshal₁ C.curveGen = Bridge.G1
  hash_lt : ∀ m, C.hashFunc256 m < 2 ^ 256
  hashToG1_ne_zero : ∀ m h, C.hashToG1 m = .ok h → h ≠ 0
  hashToG1_base : ∃ h, C.hashToG1 h1BaseMessage = .ok h

variable (C : Curve G₁ G₂)

/-- `MarshalG1Big` writes the point at infinity if the x coordinate is 0, and `Unmarshal` reads it.
-/
def bigIntArrayToG1 (p : Point) : Except Err G₁ :=
  if p.1 = 0 then .ok 0
  else if 2 ^ 256 ≤ p.1 ∨ 2 ^ 256 ≤ p.2 then .error ErrNotUint256
  else if FIELD_MODULUS ≤ p.1 ∨ FIELD_MODULUS ≤ p.2 then .error ErrInvalidCoordinate
  else match C.onCurve₁ p with
    | some a => .ok a
    | none => .error ErrMalformedPoint

/-- `MarshalG2Big` writes the point at infinity if the imaginary part of the x coordinate is 0. -/
def bigIntArrayToG2 (p : G2Big) : Except Err G₂ :=
  if p.1 = 0 then .ok 0
  else if 2 ^ 256 ≤ p.1 ∨ 2 ^ 256 ≤ p.2.1 ∨ 2 ^ 256 ≤ p.2.2.1 ∨ 2 ^ 256 ≤ p.2.2.2 then
    .error ErrNotUint256
  else if FIELD_MODULUS ≤ p.1 ∨ FIELD_MODULUS ≤ p.2.1 ∨ FIELD_MODULUS ≤ p.2.2.1 ∨
    FIELD_MODULUS ≤ p.2.2.2 then
    .error ErrInvalidCoordinate
  else match C.onCurve₂ p with
    | some b => .ok b
    | none => .error ErrMalformedPoint

/-- The negation of the generator of G₂, as `ScalarBaseMult(orderMinus1)`. -/
def h2Neg : G₂ := (GROUP_ORDER - 1) • C.twistGen

namespace Lawful

variable {C} (hC : C.Lawful)
include hC

theorem curveGen_ne_zero : C.curveGen ≠ 0 := by
  obtain ⟨e, he, -⟩ := hC.pairing
  intro h
  simp [h] at he

theorem addOrderOf_curveGen : addOrderOf C.curveGen = GROUP_ORDER :=
  addOrderOf_eq_prime (hC.order₁ _) hC.curveGen_ne_zero

theorem mod_nsmul (k : Nat) (a : G₁) : (k % GROUP_ORDER) • a = k • a :=
  nsmul_eq_nsmul_of_modEq (Nat.mod_modEq k GROUP_ORDER) (hC.order₁ a)

theorem nsmul_congr₂ {k l : Nat} (h : k % GROUP_ORDER = l % GROUP_ORDER) (b : G₂) : k • b = l • b :=
  nsmul_eq_nsmul_of_modEq h (hC.order₂ b)

theorem nsmul_curveGen_eq_iff {k l : Nat} :
    k • C.curveGen = l • C.curveGen ↔ k % GROUP_ORDER = l % GROUP_ORDER := by
  rw [nsmul_eq_nsmul_iff_modEq, hC.addOrderOf_curveGen]
  exact Iff.rfl

theorem bigIntArrayToG1_marshal₁ (a : G₁) : C.bigIntArrayToG1 (C.marshal₁ a) = .ok a := by
  obtain ⟨h₁, h₂⟩ := hC.marshal₁_lt a
  have hP : FIELD_MODULUS < 2 ^ 256 := by decide
  unfold bigIntArrayToG1
  split
  · rename_i h
    rw [hC.fst_marshal₁ a h]
  · rename_i h
    have ha : a ≠ 0 := by
      rintro rfl
      exact h (by rw [hC.marshal₁_zero])
    rw [if_neg (by omega), if_neg (by omega), (hC.onCurve₁ _ a).mpr ⟨ha, rfl⟩]

theorem bigIntArrayToG1_eq_ok {p : Point} {a : G₁} (hp : p.1 ≠ 0)
    (h : C.bigIntArrayToG1 p = .ok a) : C.marshal₁ a = p := by
  rw [bigIntArrayToG1, if_neg hp] at h
  split at h
  · cases h
  · split at h
    · cases h
    · split at h
      · rename_i hcurve
        cases h
        exact ((hC.onCurve₁ _ _).mp hcurve).2
      · cases h

/-- A point of G₂ is read back unless it is one of those that are taken for the point at infinity.
-/
theorem bigIntArrayToG2_marshal₂ (b : G₂) :
    C.bigIntArrayToG2 (C.marshal₂ b) = .ok (if (C.marshal₂ b).1 = 0 then 0 else b) := by
  obtain ⟨h₁, h₂, h₃, h₄⟩ := hC.marshal₂_lt b
  have hP : FIELD_MODULUS < 2 ^ 256 := by decide
  unfold bigIntArrayToG2
  split
  · rfl
  · rename_i h
    have hb : b ≠ 0 := by
      rintro rfl
      exact h (by rw [hC.marshal₂_zero])
    rw [if_neg (by omega), if_neg (by omega), (hC.onCurve₂ _ b).mpr ⟨hb, rfl⟩]

theorem h2Neg_eq : C.h2Neg = -C.twistGen := by
  have hsucc : (GROUP_ORDER - 1) • C.twistGen + C.twistGen = 0 := by
    rw [← succ_nsmul]
    exact hC.order₂ _
  exact eq_neg_of_add_eq_zero_left hsucc

theorem exists_nsmul_of_ne_zero {a : G₁} (ha : a ≠ 0) :
    ∃ k : Nat, a = k • C.curveGen ∧ (k : ZMod GROUP_ORDER) ≠ 0 := by
  obtain ⟨k, rfl⟩ := hC.cyclic a
  refine ⟨k, rfl, ?_⟩
  intro hk
  apply ha
  rw [← hC.mod_nsmul, Nat.mod_eq_zero_of_dvd ((natCast_eq_zero_iff _ _).mp hk), zero_nsmul]

/-- The pairing finds out whether two points have the same discrete logarithm. -/
theorem pairingCheck_iff {h : G₁} (hh : h ≠ 0) (k l : Nat) :
    C.pairingCheck (k • h, C.h2Neg) (h, l • C.twistGen) = true ↔
      k % GROUP_ORDER = l % GROUP_ORDER := by
  obtain ⟨e, he, hcheck⟩ := hC.pairing
  obtain ⟨m, rfl, hm⟩ := hC.exists_nsmul_of_ne_zero hh
  have hne : (m : ZMod GROUP_ORDER) * e C.curveGen C.twistGen ≠ 0 := mul_ne_zero hm he
  have hsum : e (k • m • C.curveGen) (-C.twistGen) + e (m • C.curveGen) (l • C.twistGen) =
      ((l : ZMod GROUP_ORDER) - k) * (m * e C.curveGen C.twistGen) := by
    simp only [map_nsmul, map_neg, AddMonoidHom.nsmul_apply, nsmul_eq_mul]
    ring
  rw [hcheck, hC.h2Neg_eq, hsum, mul_eq_zero, or_iff_left hne, sub_eq_zero, eq_comm,
    natCast_eq_natCast_iff']

end Lawful

end Curve

/-! ## A model of the assumptions -/

/-- The groups in which a point is its discrete logarithm, with any function as the hash. -/
def Curve.scalar (hash : List UInt8 → Nat) : Curve (ZMod GROUP_ORDER) (ZMod GROUP_ORDER) where
  curveGen := 1
  twistGen := 1
  marshal₁ a := if a = 0 then (0, 0) else (a.val, 2)
  marshal₂ b := (b.val, 0, 0, 0)
  onCurve₁ p := if p.1 ≠ 0 ∧ p.1 < GROUP_ORDER ∧ p.2 = 2 then some p.1 else none
  onCurve₂ p := if p.1 ≠ 0 ∧ p.1 < GROUP_ORDER ∧ p.2 = (0, 0, 0) then some p.1 else none
  pairingCheck p q := p.1 * p.2 + q.1 * q.2 = 0
  hashFunc256 := hash
  hashToG1 _ := .ok 2

theorem natCast_ne_zero_of_lt {k : Nat} (hk : k ≠ 0) (hlt : k < GROUP_ORDER) :
    (k : ZMod GROUP_ORDER) ≠ 0 := by
  intro h
  rw [natCast_eq_zero_iff] at h
  exact absurd (Nat.le_of_dvd (Nat.pos_of_ne_zero hk) h) (by omega)

theorem Curve.scalar_lawful {hash : List UInt8 → Nat} (hhash : ∀ m, hash m < 2 ^ 256) :
    (Curve.scalar hash).Lawful where
  order₁ a := by simp
  order₂ b := by simp
  cyclic a := ⟨a.val, by simp [scalar]⟩
  pairing := ⟨AddMonoidHom.mul, by simp [scalar], by simp [scalar]⟩
  marshal₁_zero := by simp [scalar]
  marshal₂_zero := by simp [scalar]
  marshal₁_lt a := by
    have ha := val_lt a
    have hq : GROUP_ORDER < FIELD_MODULUS := by decide
    have h2 : 2 < FIELD_MODULUS := by decide
    simp only [scalar]
    split
    · exact ⟨by omega, by omega⟩
    · exact ⟨by omega, h2⟩
  marshal₂_lt b := by
    have hb := val_lt b
    have hq : GROUP_ORDER < FIELD_MODULUS := by decide
    simp only [scalar]
    omega
  onCurve₁ p a := by
    obtain ⟨x, y⟩ := p
    simp only [scalar]
    constructor
    · intro h
      split at h
      · rename_i hp
        cases h
        have hne := natCast_ne_zero_of_lt hp.1 hp.2.1
        exact ⟨hne, by rw [if_neg hne, val_natCast_of_lt hp.2.1, ← hp.2.2]⟩
      · cases h
    · intro ⟨hne, h⟩
      rw [if_neg hne] at h
      cases h
      rw [if_pos ⟨(val_ne_zero a).mpr hne, val_lt a, rfl⟩, natCast_zmod_val]
  onCurve₂ p b := by
    obtain ⟨x, y⟩ := p
    simp only [scalar]
    constructor
    · intro h
      split at h
      · rename_i hp
        cases h
        exact ⟨natCast_ne_zero_of_lt hp.1 hp.2.1, by rw [val_natCast_of_lt hp.2.1, ← hp.2.2]⟩
      · cases h
    · intro ⟨hne, h⟩
      cases h
      rw [if_pos ⟨(val_ne_zero b).mpr hne, val_lt b, rfl⟩, natCast_zmod_val]
  fst_marshal₁ a := by
    simp only [scalar]
    split <;> simp_all
  marshal₁_curveGen := by
    simp [scalar, val_one, Bridge.G1]
  hash_lt := hhash
  hashToG1_ne_zero m h heq := by
    cases heq
    exact natCast_ne_zero_of_lt (k := 2) (by decide) (by decide)
  hashToG1_base := ⟨2, rfl⟩

end MadNet.Dkg
