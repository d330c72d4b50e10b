import MadNet.Crypto.BaseField

/-!
# `baseToG1` of `CryptoLibrary.sol`

Every value is a `uint256`. The precompile for modular exponentiation is a function here, since it
does not fail. `neg` subtracts with Solidity's check, which never fails for what is below the
modulus.
-/

namespace MadNet.Crypto

open Bridge (FIELD_MODULUS Point Revert require bn128IsOnCurve)
open FouqueTibouchi (rhs alpha x₁ x₂ x₃)

/-- Of which the modulus is never 0 here. -/
def mulmod (x y k : Nat) : Nat := x * y % k

def addmod (x y k : Nat) : Nat := (x + y) % k

namespace CryptoLibrary

def expmod (base e m : Nat) : Nat := Lucas.powMod base m 256 e

def invert (t : Nat) : Nat := expmod t P_MINUS2 FIELD_MODULUS

def sqrt (t : Nat) : Nat := expmod t P_PLUS1_OVER4 FIELD_MODULUS

/-- What `legendre` makes of the power. -/
def symbol (s : Nat) : Int := if s ≠ 0 then 2 * ((s &&& 1 : Nat) : Int) - 1 else 0

def legendre (t : Nat) : Int := symbol (expmod t P_MINUS1_OVER2 FIELD_MODULUS)

def neg (t : Nat) : Except Revert Nat :=
  if t = 0 then .ok 0
  else if t ≤ FIELD_MODULUS then .ok (FIELD_MODULUS - t)
  else .error .panic

def sign0 (t : Nat) : Nat := if P_MINUS1_OVER2 < t then P_MINUS1 else 1

/-- `y` before its root is taken. -/
def curveRhs (x : Nat) : Nat :=
  addmod (mulmod (mulmod x x FIELD_MODULUS) x FIELD_MODULUS) CURVE_B FIELD_MODULUS

/-- `x1`, `x2` and `x3`. -/
def candidates (t : Nat) : Except Revert (Nat × Nat × Nat) := do
  let ap1 := mulmod t t FIELD_MODULUS
  let ap2 := addmod ap1 HASH_CONST_4 FIELD_MODULUS
  let alpha := invert (mulmod ap1 ap2 FIELD_MODULUS)
  let tmp := mulmod (mulmod ap2 ap2 FIELD_MODULUS) ap2 FIELD_MODULUS
  let tFourth := mulmod ap1 ap1 FIELD_MODULUS
  let x ← neg (mulmod (mulmod HASH_CONST_2 tFourth FIELD_MODULUS) alpha FIELD_MODULUS)
  let x1 := addmod x HASH_CONST_1 FIELD_MODULUS
  let x2 ← neg (addmod x1 1 FIELD_MODULUS)
  let x ← neg (mulmod (mulmod HASH_CONST_3 tmp FIELD_MODULUS) alpha FIELD_MODULUS)
  let x3 := addmod x 1 FIELD_MODULUS
  return (x1, x2, x3)

/-- The index of the right candidate; the division rounds towards 0. -/
def index (residue1 residue2 : Int) : Int := ((residue1 - 1) * (residue2 - 3)).tdiv 4 + 1

def baseToG1 (t : Nat) : Except Revert Point := do
  let (x1, x2, x3) ← candidates t
  let i := index (legendre (curveRhs x1)) (legendre (curveRhs x2))
  let x := if i = 1 then x1 else if i = 2 then x2 else x3
  let y := mulmod (sqrt (curveRhs x)) (sign0 t) FIELD_MODULUS
  require (bn128IsOnCurve (x, y)) "706"
  return (x, y)

end CryptoLibrary

/-! ## Values in the field -/

theorem mod_lt (n : Nat) : n % FIELD_MODULUS < FIELD_MODULUS := Nat.mod_lt _ (by decide)

theorem mulmod_lt (x y : Nat) : mulmod x y FIELD_MODULUS < FIELD_MODULUS := mod_lt _

theorem addmod_lt (x y : Nat) : addmod x y FIELD_MODULUS < FIELD_MODULUS := mod_lt _

@[simp] theorem cast_mulmod (x y : Nat) : ((mulmod x y FIELD_MODULUS : Nat) : Fp) = x * y := by
  rw [mulmod, ZMod.natCast_mod, Nat.cast_mul]

@[simp] theorem cast_addmod (x y : Nat) : ((addmod x y FIELD_MODULUS : Nat) : Fp) = x + y := by
  rw [addmod, ZMod.natCast_mod, Nat.cast_add]

theorem bn128IsOnCurve_iff {x y : Nat} : bn128IsOnCurve (x, y) = true ↔
    (y : Fp) ^ 2 = rhs 3 (x : Fp) := by
  rw [bn128IsOnCurve, decide_eq_true_iff, ← Nat.mod_mod (y * y), ← Nat.mod_mod (_ + 3),
    ← natCast_eq_iff, rhs]
  simp only [ZMod.natCast_mod, Nat.cast_mul, Nat.cast_add, Nat.cast_ofNat]
  rw [← pow_two, ← pow_two, ← pow_succ']

namespace CryptoLibrary

theorem expmod_lt (base : Nat) {e : Nat} (he : e < 2 ^ 256) :
    expmod base e FIELD_MODULUS < FIELD_MODULUS := by
  rw [expmod, Lucas.powMod_eq he]
  exact mod_lt _

theorem cast_expmod (base : Nat) {e : Nat} (he : e < 2 ^ 256) :
    ((expmod base e FIELD_MODULUS : Nat) : Fp) = (base : Fp) ^ e := by
  rw [expmod, Lucas.powMod_eq he, ZMod.natCast_mod, Nat.cast_pow]

/-- Also for 0, whose inverse is 0. -/
theorem inv_eq_pow (a : Fp) : a ^ P_MINUS2 = a⁻¹ := by
  have hexp : P_MINUS2 + 1 = FIELD_MODULUS - 1 := by decide
  by_cases ha : a = 0
  · rw [ha, inv_zero, zero_pow (by decide)]
  · apply eq_inv_of_mul_eq_one_left
    rw [← pow_succ, hexp, ZMod.pow_card_sub_one_eq_one ha]

theorem cast_invert (t : Nat) : ((invert t : Nat) : Fp) = (t : Fp)⁻¹ := by
  rw [invert, cast_expmod _ (by decide), inv_eq_pow]

theorem cast_sqrt (t : Nat) : ((sqrt t : Nat) : Fp) = (t : Fp) ^ P_PLUS1_OVER4 :=
  cast_expmod _ (by decide)

theorem cast_curveRhs (x : Nat) : ((curveRhs x : Nat) : Fp) = rhs 3 (x : Fp) := by
  rw [curveRhs, cast_addmod, cast_mulmod, cast_mulmod, rhs, CURVE_B]
  push_cast
  ring

theorem cast_sign0 (t : Nat) (ht : t < FIELD_MODULUS) : ((sign0 t : Nat) : Fp) = sign t := by
  rw [sign0, sign, ZMod.val_natCast_of_lt ht]
  split
  · exact cast_P_MINUS1
  · exact Nat.cast_one

theorem neg_spec {t : Nat} (ht : t < FIELD_MODULUS) :
    ∃ s, neg t = .ok s ∧ s < FIELD_MODULUS ∧ (s : Fp) = -(t : Fp) := by
  by_cases h0 : t = 0
  · subst h0
    exact ⟨0, rfl, by decide, by simp⟩
  · refine ⟨FIELD_MODULUS - t, ?_, Nat.sub_lt (by decide) (Nat.pos_of_ne_zero h0), ?_⟩
    · rw [neg, if_neg h0, if_pos (Nat.le_of_lt ht)]
    · rw [Nat.cast_sub (Nat.le_of_lt ht), CharP.cast_eq_zero, zero_sub]

theorem neg_mulmod (x y : Nat) : ∃ s, neg (mulmod x y FIELD_MODULUS) = .ok s ∧
    (s : Fp) = -(x * y) := by
  obtain ⟨s, hs, -, hcast⟩ := neg_spec (mulmod_lt x y)
  exact ⟨s, hs, by rw [hcast, cast_mulmod]⟩

/-- The power is 1 or -1, and the first of these is odd. -/
theorem symbol_spec [DecidablePred (IsSquare : Fp → Prop)] {s : Nat} {a : Fp}
    (hs : s < FIELD_MODULUS)
    (ha : a ≠ 0) (h : (s : Fp) = a ^ P_MINUS1_OVER2) : symbol s = if IsSquare a then 1 else -1 := by
  rw [pow_P_MINUS1_OVER2 ha] at h
  split at h
  next hsq =>
    obtain rfl : s = 1 := natCast_inj hs (by decide) (by rw [h, Nat.cast_one])
    rw [if_pos hsq]
    rfl
  next hsq =>
    obtain rfl : s = P_MINUS1 := natCast_inj hs (by decide) (by rw [h, cast_P_MINUS1])
    rw [if_neg hsq]
    decide

theorem legendre_curveRhs [DecidablePred (IsSquare : Fp → Prop)] (x : Nat) :
    legendre (curveRhs x) = if IsSquare (rhs 3 (x : Fp)) then 1 else -1 :=
  symbol_spec (expmod_lt _ (by decide)) (rhs_ne_zero _)
    (by rw [cast_expmod _ (by decide), cast_curveRhs])

/-- The index chooses the first candidate of which the symbol is 1. -/
theorem index_cases {p q : Prop} [Decidable p] [Decidable q] {α : Type} (a b c : α) :
    let i := index (if p then 1 else -1) (if q then 1 else -1)
    (if i = 1 then a else if i = 2 then b else c) = if p then a else if q then b else c := by
  by_cases hp : p <;> by_cases hq : q <;> simp [index, hp, hq]

theorem candidates_spec (t : Nat) : ∃ c1 c2 c3, candidates t = .ok (c1, c2, c3) ∧
    (c1 < FIELD_MODULUS ∧ (c1 : Fp) = x₁ 3 (HASH_CONST_2 : Fp) t) ∧
    (c2 < FIELD_MODULUS ∧ (c2 : Fp) = x₂ 3 (HASH_CONST_2 : Fp) t) ∧
    (c3 < FIELD_MODULUS ∧ (c3 : Fp) = x₃ 3 (t : Fp)) := by
  rw [candidates]
  dsimp only
  generalize hap1 : mulmod t t FIELD_MODULUS = ap1
  generalize hap2 : addmod ap1 HASH_CONST_4 FIELD_MODULUS = ap2
  generalize halpha : invert (mulmod ap1 ap2 FIELD_MODULUS) = a
  have hcast1 : (ap1 : Fp) = t ^ 2 := by rw [← hap1, cast_mulmod, pow_two]
  have hcast2 : (ap2 : Fp) = t ^ 2 +
    (1 + 3) := by rw [← hap2, cast_addmod, cast_HASH_CONST_4, hcast1]
  have hcasta : (a : Fp) = alpha 3 (t : Fp) := by
    rw [← halpha, cast_invert, cast_mulmod, hcast1, hcast2, alpha]
  obtain ⟨n1, hn1, hcast₁⟩ :=
    neg_mulmod (mulmod HASH_CONST_2 (mulmod ap1 ap1 FIELD_MODULUS) FIELD_MODULUS) a
  obtain ⟨n2, hn2, hlt2, hcast₂⟩ := neg_spec (addmod_lt (addmod n1 HASH_CONST_1 FIELD_MODULUS) 1)
  obtain ⟨n3, hn3, hcast3⟩ :=
    neg_mulmod (mulmod HASH_CONST_3 (mulmod (mulmod ap2 ap2 FIELD_MODULUS) ap2 FIELD_MODULUS)
      FIELD_MODULUS) a
  have hx1 : ((addmod n1 HASH_CONST_1 FIELD_MODULUS : Nat) : Fp) = x₁ 3 (HASH_CONST_2 : Fp) t := by
    rw [cast_addmod, hcast₁, cast_mulmod, cast_mulmod, hcast1, hcasta, cast_HASH_CONST_1, x₁]
    ring
  refine ⟨addmod n1 HASH_CONST_1 FIELD_MODULUS, n2, addmod n3 1 FIELD_MODULUS, ?_,
    ⟨addmod_lt _ _, hx1⟩, ⟨hlt2, ?_⟩,
    ⟨addmod_lt _ _, ?_⟩⟩
  · rw [hn1, Prog.ok_bind, hn3, hn2]
    rfl
  · rw [hcast₂, cast_addmod, hx1, Nat.cast_one, x₂]
    ring
  · rw [cast_addmod, hcast3, cast_mulmod, cast_mulmod, cast_mulmod, hcast2, hcasta,
      cast_HASH_CONST_3, x₃]
    push_cast
    ring

/-- The call succeeds, and the point is that of the map. -/
theorem baseToG1_spec {t : Nat} (ht : t < FIELD_MODULUS) : ∃ x y, baseToG1 t = .ok (x, y) ∧
    (x < FIELD_MODULUS ∧ (x : Fp) = baseX t) ∧ y < FIELD_MODULUS ∧ (y : Fp) = baseY t := by
  classical
  obtain ⟨c1, c2, c3, hc, ⟨hlt1, hc1⟩, ⟨hlt2, hc2⟩, hlt3, hc3⟩ := candidates_spec t
  obtain ⟨x, hx⟩ : ∃ x, x = if IsSquare (rhs 3 (c1 : Fp)) then c1
    else if IsSquare (rhs 3 (c2 : Fp)) then c2 else c3 :=
    ⟨_, rfl⟩
  have hlt : x < FIELD_MODULUS := by
    rw [hx]
    split
    · exact hlt1
    · split
      · exact hlt2
      · exact hlt3
  have hcast : (x : Fp) = baseX t := by
    rw [hx, baseX, ← hc1, ← hc2, ← hc3]
    split
    · rfl
    · split <;> rfl
  have hy : ((mulmod (sqrt (curveRhs x)) (sign0 t) FIELD_MODULUS : Nat) : Fp) = baseY t := by
    rw [cast_mulmod, cast_sqrt, cast_curveRhs, cast_sign0 t ht, hcast, baseY]
  refine ⟨x, mulmod (sqrt (curveRhs x)) (sign0 t) FIELD_MODULUS, ?_, ⟨hlt, hcast⟩,
    mulmod_lt _ _, hy⟩
  have hcurve : bn128IsOnCurve (x, mulmod (sqrt (curveRhs x)) (sign0 t) FIELD_MODULUS) = true := by
    rw [bn128IsOnCurve_iff, hy, hcast, baseY_sq]
  rw [baseToG1, hc, Prog.ok_bind]
  dsimp only
  rw [legendre_curveRhs, legendre_curveRhs, index_cases, ← hx, hcurve]
  rfl

end CryptoLibrary

end MadNet.Crypto
