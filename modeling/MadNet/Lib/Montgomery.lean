import Mathlib

/-!
# Montgomery multiplication

A residue `x` modulo `p` is represented by the number `x * R % p`. The product of two
representatives, reduced by a division by `R`, represents the product.
-/

namespace Montgomery

variable {R p np n : ℕ}

/-- `n / R` modulo `p`, up to a last subtraction; `np` is the negative inverse of `p` modulo `R`. -/
def reduce (R p np n : ℕ) : ℕ := (n + n % R * np % R * p) / R

theorem reduce_mul (hnp : R ∣ np * p + 1) (n : ℕ) :
    reduce R p np n * R = n + n % R * np % R * p := by
  apply Nat.div_mul_cancel
  rw [Nat.dvd_iff_mod_eq_zero, Nat.add_mod, Nat.mod_mul_mod, ← Nat.add_mod,
    Nat.mul_assoc, Nat.add_mod,
    Nat.mod_mul_mod, ← Nat.add_mod]
  apply Nat.mod_eq_zero_of_dvd
  rw [show n + n * (np * p) = n * (np * p + 1) by ring]
  exact Dvd.dvd.mul_left hnp n

theorem cast_reduce (hnp : R ∣ np * p + 1) (n : ℕ) : (reduce R p np n : ZMod p) * R = n := by
  rw [← Nat.cast_mul, reduce_mul hnp, Nat.cast_add, Nat.cast_mul, ZMod.natCast_self,
    mul_zero, add_zero]

theorem reduce_lt (hR : 0 < R) (hp : 0 < p) (hn : n < R * p) : reduce R p np n < 2 * p := by
  rw [reduce, Nat.div_lt_iff_lt_mul hR]
  have hm : n % R * np % R * p < R * p := Nat.mul_lt_mul_of_pos_right (Nat.mod_lt _ hR) hp
  calc n + n % R * np % R * p < R * p + R * p := Nat.add_lt_add hn hm
    _ = 2 * p * R := by ring

/-- The number `a` represents the residue `x`. -/
structure Represents (R p a : ℕ) (x : ZMod p) : Prop where
  lt : a < p
  cast : (a : ZMod p) = x * R

theorem Represents.inj {a b : ℕ} {x : ZMod p} (ha : Represents R p a x)
    (hb : Represents R p b x) : a = b := by
  have h := ha.cast.trans hb.cast.symm
  rw [ZMod.natCast_eq_natCast_iff', Nat.mod_eq_of_lt ha.lt, Nat.mod_eq_of_lt hb.lt] at h
  exact h

theorem Represents.eq_iff (hR : IsUnit (R : ZMod p)) {a b : ℕ} {x y : ZMod p}
    (ha : Represents R p a x)
    (hb : Represents R p b y) : a = b ↔ x = y := by
  constructor
  · rintro rfl
    exact hR.mul_right_cancel (ha.cast.symm.trans hb.cast)
  · rintro rfl
    exact ha.inj hb

theorem Represents.zero (hp : 0 < p) : Represents R p 0 0 := ⟨hp, by simp⟩

/-! ## Powers -/

/-- The loop over the lowest `n` bits of an exponent. -/
def powLoop {α : Type*} (mul : α → α → α) : (n bits : ℕ) → (sum power : α) → α
  | 0, _, sum, _ => sum
  | n + 1, bits, sum, power =>
    powLoop mul n (bits / 2) (if bits % 2 = 1 then mul sum power else sum) (mul power power)

theorem powLoop_spec {α M : Type*} [CommMonoid M] {mul : α → α → α} {r : α → M → Prop}
    (hmul : ∀ {a b x y}, r a x → r b y → r (mul a b) (x * y)) {bits : ℕ} {sum power : α} {x y : M}
    (hsum : r sum x) (hpower : r power y) (hbits : bits < 2 ^ n) :
    r (powLoop mul n bits sum power) (x * y ^ bits) := by
  induction n generalizing bits sum power x y with
  | zero =>
    obtain rfl : bits = 0 := by simpa using hbits
    rw [pow_zero, mul_one]
    exact hsum
  | succ n ih =>
    have hhalf : bits / 2 < 2 ^ n := by
      rw [pow_succ] at hbits
      omega
    rw [powLoop]
    split
    next hodd =>
      have heq : x * y ^ bits = x * y * (y * y) ^ (bits / 2) := by
        rw [← pow_two, ← pow_mul, mul_assoc, ← pow_succ', show 2 * (bits / 2) + 1 = bits by omega]
      rw [heq]
      exact ih (hmul hsum hpower) (hmul hpower hpower) hhalf
    next heven =>
      have heq : x * y ^ bits = x * (y * y) ^ (bits / 2) := by
        rw [← pow_two, ← pow_mul, show 2 * (bits / 2) = bits by omega]
      rw [heq]
      exact ih hsum (hmul hpower hpower) hhalf

end Montgomery
