import MadNet.Crypto.BaseField
import MadNet.Lib.Montgomery

/-!
# `gfp.go` and `gfp_generic.go`

A `gfP` is the number that its four words represent. It stands for a field element in Montgomery's
form; what reduces a sum or a product is as in the source, with its carry.
-/

namespace MadNet.Crypto

open Nat
open Bridge (FIELD_MODULUS)
open Montgomery (Represents)

namespace Cloudflare

/-- The number of four words, the lowest first. -/
def words (w₀ w₁ w₂ w₃ : Nat) : Nat := w₀ + 2 ^ 64 * (w₁ + 2 ^ 64 * (w₂ + 2 ^ 64 * w₃))

def p2 : Nat := words 0x3c208c16d87cfd47 0x97816a916871ca8d 0xb85045b68181585d 0x30644e72e131a029
/-- The negative inverse of `p2` modulo 2²⁵⁶. -/
def np : Nat := words 0x87d20782e4866389 0x9ede7d651eca6ac9 0xd8afcbd01833da80 0xf57a22b791888c6b
def rN1 : Nat := words 0xed84884a014afa37 0xeb2022850278edf8 0xcf63e9cfb74492d9 0x2e67157159e5c639
def r2 : Nat := words 0xf32cfc5b538afa89 0xb5e71911d44501fb 0x47ab1eff0a417ff6 0x06d89f71cab8351f
def r3 : Nat := words 0xb1cd6dafda1530df 0x62f210e6a7283db6 0xef7f0b0c0ada0afb 0x20fd6e902d592544
def pMinus2 : Nat :=
  words 0x3c208c16d87cfd45 0x97816a916871ca8d 0xb85045b68181585d 0x30644e72e131a029
def pPlus1Over4 : Nat :=
  words 0x4f082305b61f3f52 0x65e05aa45a1c72a3 0x6e14116da0605617 0x0c19139cb84c680a
def pMinus1Over2 : Nat :=
  words 0x9e10460b6c3e7ea3 0xcbc0b548b438e546 0xdc2822db40c0ac2e 0x183227397098d014

/-! ## Arithmetic -/

/-- Subtracts `p2`, unless this borrows and there is no carry `head`. -/
def gfpCarry (a head : Nat) : Nat := if a < p2 ∧ head = 0 then a else (a + 2 ^ 256 - p2) % 2 ^ 256

def gfpNeg (a : Nat) : Nat := gfpCarry ((p2 + 2 ^ 256 - a) % 2 ^ 256) 0

def gfpAdd (a b : Nat) : Nat := gfpCarry ((a + b) % 2 ^ 256) ((a + b) / 2 ^ 256)

def gfpMul (a b : Nat) : Nat :=
  let T := a * b
  let m := T % 2 ^ 256 * np % 2 ^ 256
  -- the upper four words of the sum, and its carry
  let T := (T + m * p2) / 2 ^ 256
  gfpCarry (T % 2 ^ 256) (T / 2 ^ 256)

def montEncode (a : Nat) : Nat := gfpMul a r2

def montDecode (a : Nat) : Nat := gfpMul a 1

/-- The number, modulo 2⁶⁴, is nonnegative or is negated. -/
def newGFp (x : Int) : Nat := montEncode (if 0 ≤ x then x.toNat else gfpNeg (-x).toNat)

def bigToGFp (a : Nat) : Nat := montEncode (a % FIELD_MODULUS)

/-- Square and multiply, over the four words of `bits`. -/
def exp (f bits : Nat) : Nat := gfpMul (Montgomery.powLoop gfpMul 256 bits rN1 f) r3

def invert (f : Nat) : Nat := exp f pMinus2

def sqrt (f : Nat) : Nat := exp f pPlus1Over4

def legendre (e : Nat) : Int :=
  let f := montDecode (exp e pMinus1Over2)
  if f ≠ 0 then 2 * ((f &&& 1 : Nat) : Int) - 1 else 0

/-- The words are compared from the highest on. -/
def sign0 (e : Nat) : Int := if montDecode e ≤ pMinus1Over2 then 1 else -1

/-! ## Values in the field -/

theorem p2_eq : p2 = FIELD_MODULUS := by decide

/-- The number stands for the field element. -/
abbrev IsGfp (a : Nat) (x : Fp) : Prop := Represents (2 ^ 256) FIELD_MODULUS a x

theorem isUnit_R : IsUnit ((2 ^ 256 : Nat) : Fp) := by
  rw [isUnit_iff_ne_zero, cast_pow]
  exact pow_ne_zero _ (by exact_mod_cast two_ne_zero)

theorem dvd_np : 2 ^ 256 ∣ np * FIELD_MODULUS + 1 := by decide

theorem two_mul_lt : 2 * FIELD_MODULUS < 2 ^ 256 := by decide

theorem gfpCarry_spec {c : Nat} (hc : c < 2 * FIELD_MODULUS) :
    gfpCarry c 0 < FIELD_MODULUS ∧ (gfpCarry c 0 : Fp) = c := by
  have hlt := two_mul_lt
  rw [gfpCarry, p2_eq]
  split
  next h => exact ⟨h.1, rfl⟩
  next h =>
    have hle : FIELD_MODULUS ≤ c := by
      by_contra hc'
      exact h ⟨Nat.lt_of_not_le hc', rfl⟩
    have heq : (c + 2 ^ 256 - FIELD_MODULUS) % 2 ^ 256 = c - FIELD_MODULUS := by
      rw [show c + 2 ^ 256 - FIELD_MODULUS = c - FIELD_MODULUS +
        2 ^ 256 by omega, Nat.add_mod_right,
        mod_eq_of_lt (by omega)]
    rw [heq]
    exact ⟨by omega, by rw [cast_sub hle, ZMod.natCast_self, sub_zero]⟩

variable {a b : Nat} {x y : Fp}

theorem gfpAdd_spec (ha : IsGfp a x) (hb : IsGfp b y) : IsGfp (gfpAdd a b) (x + y) := by
  have hlt := two_mul_lt
  have hsum : a + b < 2 * FIELD_MODULUS := by
    have := ha.lt
    have := hb.lt
    omega
  have heq : gfpAdd a b = gfpCarry (a + b) 0 := by
    rw [gfpAdd, mod_eq_of_lt (by omega), div_eq_of_lt (by omega)]
  obtain ⟨hcarry, hcast⟩ := gfpCarry_spec hsum
  rw [heq]
  exact ⟨hcarry, by rw [hcast, cast_add, ha.cast, hb.cast, add_mul]⟩

theorem gfpNeg_spec (ha : IsGfp a x) : IsGfp (gfpNeg a) (-x) := by
  have hlt := two_mul_lt
  have hle := ha.lt
  have heq : gfpNeg a = gfpCarry (FIELD_MODULUS - a) 0 := by
    rw [gfpNeg, p2_eq, show FIELD_MODULUS + 2 ^ 256 - a = FIELD_MODULUS - a +
      2 ^ 256 by omega, add_mod_right,
      mod_eq_of_lt (by omega)]
  obtain ⟨hcarry, hcast⟩ := gfpCarry_spec (c := FIELD_MODULUS - a) (by omega)
  rw [heq]
  refine ⟨hcarry, ?_⟩
  rw [hcast, cast_sub (le_of_lt hle), ZMod.natCast_self, ha.cast, zero_sub, neg_mul]

/-- Any two factors of which the product is not too large. -/
theorem gfpMul_eq (hab : a * b < 2 ^ 256 * FIELD_MODULUS) :
    gfpMul a b < FIELD_MODULUS ∧ (gfpMul a b : Fp) * (2 ^ 256 : Nat) = a * b := by
  have hlt := two_mul_lt
  have hreduce : Montgomery.reduce (2 ^ 256) FIELD_MODULUS np (a * b) < 2 * FIELD_MODULUS :=
    Montgomery.reduce_lt (Nat.two_pow_pos 256) (by decide) hab
  have heq : gfpMul a b = gfpCarry (Montgomery.reduce (2 ^ 256) FIELD_MODULUS np (a * b)) 0 := by
    rw [gfpMul, p2_eq, ← Montgomery.reduce, Nat.mod_eq_of_lt (Nat.lt_trans hreduce hlt),
      div_eq_of_lt (lt_trans hreduce hlt)]
  obtain ⟨hcarry, hcast⟩ := gfpCarry_spec hreduce
  rw [heq]
  exact ⟨hcarry, by rw [hcast, Montgomery.cast_reduce dvd_np, cast_mul]⟩

theorem gfpMul_spec (ha : IsGfp a x) (hb : IsGfp b y) : IsGfp (gfpMul a b) (x * y) := by
  have hlt : a * b < 2 ^ 256 * FIELD_MODULUS :=
    Nat.mul_lt_mul_of_lt_of_lt (Nat.lt_trans ha.lt (by decide)) hb.lt
  obtain ⟨hmul, hcast⟩ := gfpMul_eq hlt
  refine ⟨hmul, isUnit_R.mul_right_cancel ?_⟩
  rw [hcast, ha.cast, hb.cast]
  ring

/-- What is decoded is the field element itself. -/
theorem montDecode_spec (ha : IsGfp a x) : montDecode a < FIELD_MODULUS ∧
    (montDecode a : Fp) = x := by
  have hlt : a * 1 < 2 ^ 256 * FIELD_MODULUS :=
    Nat.mul_lt_mul_of_lt_of_lt (Nat.lt_trans ha.lt (by decide)) (by decide)
  obtain ⟨hmul, hcast⟩ := gfpMul_eq hlt
  refine ⟨hmul, isUnit_R.mul_right_cancel ?_⟩
  rw [montDecode, hcast, ha.cast, cast_one, mul_one]

theorem cast_r2 : (r2 : Fp) = (2 ^ 256 : Nat) * (2 ^ 256 : Nat) := by
  rw [← cast_mul]
  exact natCast_eq_iff.mpr (by decide)

theorem montEncode_spec (ha : a < FIELD_MODULUS) : IsGfp (montEncode a) a := by
  have hlt : a * r2 < 2 ^ 256 * FIELD_MODULUS :=
    Nat.mul_lt_mul_of_lt_of_lt (Nat.lt_trans ha (by decide)) (by decide)
  obtain ⟨hmul, hcast⟩ := gfpMul_eq hlt
  refine ⟨hmul, isUnit_R.mul_right_cancel ?_⟩
  rw [montEncode, hcast, cast_r2, mul_assoc]

theorem bigToGFp_spec (ha : a < FIELD_MODULUS) : IsGfp (bigToGFp a) a := by
  rw [bigToGFp, mod_eq_of_lt ha]
  exact montEncode_spec ha

theorem newGFp_natCast {n : Nat} (hn : n < FIELD_MODULUS) : IsGfp (newGFp n) n := by
  rw [newGFp, if_pos (Int.natCast_nonneg n), Int.toNat_natCast]
  exact montEncode_spec hn

theorem newGFp_neg_one : IsGfp (newGFp (-1)) (-1) := by
  have h : newGFp (-1) = montEncode P_MINUS1 := by decide
  rw [h, ← cast_P_MINUS1]
  exact montEncode_spec (by decide)

/-- `rN1` cancels the two factors that the last multiplication, by `r3`, adds. -/
theorem exp_spec {f bits : Nat} (hf : IsGfp f x) (hbits : bits < 2 ^ 256) :
    IsGfp (exp f bits) (x ^ bits) := by
  have hrN1 : IsGfp rN1 (((2 ^ 256 : Nat) : Fp) ^ 2)⁻¹ := by
    refine ⟨by decide, ?_⟩
    have hcast : (rN1 : Fp) * (2 ^ 256 : Nat) = 1 := by
      rw [← cast_mul, ← cast_one]
      exact natCast_eq_iff.mpr (by decide)
    have hR := isUnit_R.ne_zero
    rw [eq_comm, pow_two, mul_inv, mul_assoc, inv_mul_cancel₀ hR, mul_one]
    exact (eq_inv_of_mul_eq_one_left hcast).symm
  have hr3 : IsGfp r3 (((2 ^ 256 : Nat) : Fp) ^ 2) := by
    refine ⟨by decide, ?_⟩
    rw [← pow_succ, ← cast_pow]
    exact natCast_eq_iff.mpr (by decide)
  have hloop := Montgomery.powLoop_spec (r := IsGfp) gfpMul_spec hrN1 hf hbits
  have hexp := gfpMul_spec hloop hr3
  have heq : (((2 ^ 256 : Nat) : Fp) ^ 2)⁻¹ * x ^ bits * ((2 ^ 256 : Nat) : Fp) ^ 2 = x ^ bits := by
    rw [mul_comm, ← mul_assoc, mul_inv_cancel₀ (pow_ne_zero 2 isUnit_R.ne_zero), one_mul]
  rw [heq] at hexp
  exact hexp

end Cloudflare

end MadNet.Crypto
