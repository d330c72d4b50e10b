import MadNet.Bridge.CryptoLibrary
import MadNet.Lib.FouqueTibouchi
import MadNet.Lib.Lucas

/-!
# The base field of the curve

The modulus is a prime that leaves the remainder 3 when it is divided by 4. The constants of
`CryptoLibrary.sol` are what the map of Fouque and Tibouchi needs, and `x³ + 3` is never 0, so that
every `t` has a point.
-/

namespace MadNet.Crypto

open Bridge (FIELD_MODULUS Point)
open FouqueTibouchi (rhs x₁ x₂ x₃)

/-! ## Constants -/

/-- The 𝔽ₚ element `2 ^ 256`. -/
def TWO_256_MOD_P : Nat :=
  6350874878119819312338956282401532409788428879151445726012394534686998597021
def P_MINUS1 : Nat := 21888242871839275222246405745257275088696311157297823662689037894645226208582
def P_MINUS2 : Nat := 21888242871839275222246405745257275088696311157297823662689037894645226208581
def P_MINUS1_OVER2 : Nat :=
  10944121435919637611123202872628637544348155578648911831344518947322613104291
def P_PLUS1_OVER4 : Nat :=
  5472060717959818805561601436314318772174077789324455915672259473661306552146

/-- The right side of the curve's equation is `x ^ 3 + CURVE_B`. -/
def CURVE_B : Nat := 3

def HASH_CONST_1 : Nat := 2203960485148121921418603742825762020974279258880205651966
def HASH_CONST_2 : Nat := 4407920970296243842837207485651524041948558517760411303933
def HASH_CONST_3 : Nat :=
  14592161914559516814830937163504850059130874104865215775126025263096817472389
def HASH_CONST_4 : Nat := 4

/-! ## The modulus is prime -/

def fieldPrimes : List Nat :=
  [2, 3, 5, 7, 11, 13, 17, 19, 29, 41, 67, 73, 89, 109, 229, 311, 911, 983, 1231, 3557, 3691,
    4999, 11003, 13327,
    327599, 1853641]

def fieldCertificate : Lucas.Certificate :=
  ⟨FIELD_MODULUS, 3, [2, 3, 3, 13, 29, 67, 229, 311, 983, 11003, 405928799, 11465965001,
    13427688667394608761327070753331941386769]⟩

/-- The certificates on which that of `FIELD_MODULUS` rests, and it. -/
def fieldCertificates : List Lucas.Certificate :=
  [⟨405928799, 22, [2, 11, 3691, 4999]⟩, ⟨11465965001, 3, [2, 2, 2, 5, 5, 5, 5, 7, 327599]⟩,
    ⟨4562087, 5, [2, 17, 109, 1231]⟩,
    ⟨173171039, 13, [2, 73, 89, 13327]⟩,
    ⟨1263766531, 10, [2, 3, 5, 13, 911, 3557]⟩,
    ⟨35385462869, 2, [2, 2, 7, 1263766531]⟩,
    ⟨2480874801745591, 6, [2, 3, 3, 5, 19, 41, 35385462869]⟩,
    ⟨13427688667394608761327070753331941386769, 17,
      [2, 2, 2, 2, 3, 7, 11, 1853641, 4562087, 173171039, 2480874801745591]⟩,
    fieldCertificate]

theorem prime_FIELD_MODULUS : Nat.Prime FIELD_MODULUS := by
  have hsmall : ∀ r ∈ fieldPrimes, r.Prime := by
    simp only [fieldPrimes, List.forall_mem_cons]
    norm_num
  have hcheck : Lucas.checkAll 254 fieldPrimes fieldCertificates = true := by decide +kernel
  exact Lucas.prime_of_checkAll hsmall hcheck fieldCertificate (by simp [fieldCertificates])

instance : Fact (Nat.Prime FIELD_MODULUS) := ⟨prime_FIELD_MODULUS⟩

abbrev Fp := ZMod FIELD_MODULUS

theorem natCast_eq_iff {a b : Nat} : (a : Fp) = (b : Fp) ↔ a % FIELD_MODULUS = b % FIELD_MODULUS :=
  ZMod.natCast_eq_natCast_iff' ..

theorem natCast_inj {a b : Nat} (ha : a < FIELD_MODULUS) (hb : b < FIELD_MODULUS)
    (h : (a : Fp) = (b : Fp)) :
    a = b := by
  rw [natCast_eq_iff, Nat.mod_eq_of_lt ha, Nat.mod_eq_of_lt hb] at h
  exact h

/-! ## Facts about the constants -/

theorem ne_zero_of_lt {a : Nat} (h0 : a ≠ 0) (h : a < FIELD_MODULUS) : (a : Fp) ≠ 0 := by
  intro ha
  exact h0 (natCast_inj h (by decide) (by rw [ha, Nat.cast_zero]))

theorem two_ne_zero : (2 : Fp) ≠ 0 := by
  exact_mod_cast ne_zero_of_lt (a := 2) (by decide) (by decide)

theorem three_ne_zero : (3 : Fp) ≠ 0 := by
  exact_mod_cast ne_zero_of_lt (a := 3) (by decide) (by decide)

theorem cast_HASH_CONST_2 : (HASH_CONST_2 : Fp) ^ 2 = -3 := by
  have h : ((HASH_CONST_2 ^ 2 + 3 : Nat) : Fp) = (0 : Nat) := natCast_eq_iff.mpr (by decide)
  push_cast at h
  exact eq_neg_of_add_eq_zero_left h

theorem cast_HASH_CONST_1 : (HASH_CONST_1 : Fp) = (-1 + HASH_CONST_2) / 2 := by
  have h : ((2 * HASH_CONST_1 + 1 : Nat) : Fp) = (HASH_CONST_2 : Nat) :=
    natCast_eq_iff.mpr (by decide)
  push_cast at h
  rw [eq_div_iff two_ne_zero]
  linear_combination h

theorem cast_HASH_CONST_3 : (HASH_CONST_3 : Fp) = 3⁻¹ := by
  have h : ((HASH_CONST_3 * 3 : Nat) : Fp) = (1 : Nat) := natCast_eq_iff.mpr (by decide)
  push_cast at h
  exact eq_inv_of_mul_eq_one_left h

theorem cast_HASH_CONST_4 : (HASH_CONST_4 : Fp) = 1 + 3 := by
  norm_num [HASH_CONST_4]

theorem cast_P_MINUS1 : (P_MINUS1 : Fp) = -1 := by
  have h : ((P_MINUS1 + 1 : Nat) : Fp) = (0 : Nat) := natCast_eq_iff.mpr (by decide)
  push_cast at h
  exact eq_neg_of_add_eq_zero_left h

/-! ## Squares -/

/-- Euler's criterion, with the exponent that the code uses. -/
theorem pow_P_MINUS1_OVER2 [DecidablePred (IsSquare : Fp → Prop)] {a : Fp} (ha : a ≠ 0) :
    a ^ P_MINUS1_OVER2 = if IsSquare a then 1 else -1 := by
  have hexp : P_MINUS1_OVER2 = FIELD_MODULUS / 2 := by decide
  rw [hexp]
  split
  next h => exact (ZMod.euler_criterion FIELD_MODULUS ha).mp h
  next h =>
    rcases ZMod.pow_div_two_eq_neg_one_or_one FIELD_MODULUS ha with h1 | h1
    · exact absurd ((ZMod.euler_criterion FIELD_MODULUS ha).mpr h1) h
    · exact h1

/-- The power with `P_PLUS1_OVER4` is a root of what has one. -/
theorem pow_P_PLUS1_OVER4_sq {a : Fp} (ha : IsSquare a) : (a ^ P_PLUS1_OVER4) ^ 2 = a := by
  obtain ⟨r, rfl⟩ := ha
  have hexp : P_PLUS1_OVER4 * 2 + P_PLUS1_OVER4 * 2 = FIELD_MODULUS + 1 := by decide
  rw [← pow_mul, mul_pow, ← pow_add, hexp, pow_succ, ZMod.pow_card]

/-- -3 is not a cube. -/
theorem rhs_ne_zero (x : Fp) : rhs 3 x ≠ 0 := by
  intro hx
  have hcube : x ^ 3 = ((FIELD_MODULUS - 3 : Nat) : Fp) := by
    rw [Nat.cast_sub (by decide), CharP.cast_eq_zero]
    rw [rhs] at hx
    push_cast
    linear_combination hx
  have hx0 : x ≠ 0 := by
    rintro rfl
    apply three_ne_zero
    simpa [rhs] using hx
  have hpow : ((FIELD_MODULUS - 3 : Nat) : Fp) ^ ((FIELD_MODULUS - 1) / 3) = 1 := by
    have hexp : 3 * ((FIELD_MODULUS - 1) / 3) = FIELD_MODULUS - 1 := by decide
    rw [← hcube, ← pow_mul, hexp, ZMod.pow_card_sub_one_eq_one hx0]
  have hpowMod : Lucas.powMod (FIELD_MODULUS - 3) FIELD_MODULUS 254 ((FIELD_MODULUS - 1) / 3) ≠
    1 := by
    decide +kernel
  rw [Lucas.powMod_eq (by decide)] at hpowMod
  apply hpowMod
  have h : (((FIELD_MODULUS - 3) ^ ((FIELD_MODULUS - 1) / 3) : Nat) : Fp) = (1 : Nat) := by
    rw [Nat.cast_pow, hpow, Nat.cast_one]
  exact natCast_eq_iff.mp h

/-! ## The point of a field element -/

section Point

open Classical

/-- The first of the three candidates that is the x coordinate of a point. -/
noncomputable def baseX (t : Fp) : Fp :=
  if IsSquare (rhs 3 (x₁ 3 (HASH_CONST_2 : Fp) t)) then x₁ 3 (HASH_CONST_2 : Fp) t
  else if IsSquare (rhs 3 (x₂ 3 (HASH_CONST_2 : Fp) t)) then x₂ 3 (HASH_CONST_2 : Fp) t
  else x₃ 3 t

/-- Field elements above the half are negative. -/
noncomputable def sign (t : Fp) : Fp := if P_MINUS1_OVER2 < t.val then -1 else 1

noncomputable def baseY (t : Fp) : Fp := rhs 3 (baseX t) ^ P_PLUS1_OVER4 * sign t

theorem sign_sq (t : Fp) : sign t ^ 2 = 1 := by
  rw [sign]
  split
  · rw [neg_one_sq]
  · rw [one_pow]

theorem isSquare_rhs_baseX (t : Fp) : IsSquare (rhs 3 (baseX t)) := by
  rw [baseX]
  split
  next h1 => exact h1
  next h1 =>
    split
    next h2 => exact h2
    next h2 =>
      exact FouqueTibouchi.isSquare_rhs_x₃ cast_HASH_CONST_2 two_ne_zero three_ne_zero
        ⟨2, by norm_num⟩ h1 h2

/-- The point is on the curve. -/
theorem baseY_sq (t : Fp) : baseY t ^ 2 = rhs 3 (baseX t) := by
  rw [baseY, mul_pow, sign_sq, mul_one, pow_P_PLUS1_OVER4_sq (isSquare_rhs_baseX t)]

end Point

end MadNet.Crypto
