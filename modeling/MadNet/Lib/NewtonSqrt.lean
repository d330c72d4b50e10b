import Mathlib

/-!
# Newton's iteration for the integer square root

From a guess `r` for the root of `x` the next guess is `(r + x / r) / 2`. It is never below the
root, and the relative error of its square is about a quarter of the square of the one before. `Near
a b x r` says that this error is at most `a / b`; next to the root, rounding may still add one to
the square.
-/

namespace NewtonSqrt

open Nat

/-- The next guess. -/
def newton (x r : Nat) : Nat := (r + x / r) / 2

variable {x r a b a' b' : Nat}

theorem sqrt_le_newton (hr : 0 < r) : sqrt x ≤ newton x r := by
  have hn : sqrt x * sqrt x ≤ x := sqrt_le x
  generalize sqrt x = n at hn
  rw [newton, le_div_iff_mul_le two_pos]
  rcases le_total (n * 2) r with h | h
  · exact Nat.le_trans h (Nat.le_add_right _ _)
  · obtain ⟨d, hd⟩ := Nat.exists_eq_add_of_le h
    have hdx : d ≤ x / r := by
      rw [Nat.le_div_iff_mul_le hr]
      have hsq : (d * r : ℤ) ≤ n * n := by
        have hd : (n * 2 : ℤ) = r + d := by exact_mod_cast hd
        nlinarith [sq_nonneg ((r : ℤ) - d)]
      exact le_trans (by exact_mod_cast hsq) hn
    omega

/-- The error of the next guess. -/
theorem newton_error (x r : Nat) :
    4 * (r : ℤ) ^ 2 * ((newton x r : ℤ) ^ 2 - x) ≤ ((r : ℤ) ^ 2 - x) ^ 2 := by
  have h : newton x r * (2 * r) ≤ r ^ 2 + x := by
    have h₁ : newton x r * 2 ≤ r + x / r := div_mul_le_self _ _
    have h₂ : x / r * r ≤ x := div_mul_le_self x r
    nlinarith
  have h : (newton x r : ℤ) * (2 * r) ≤ (r : ℤ) ^ 2 + x := by exact_mod_cast h
  have hnonneg : 0 ≤ (newton x r : ℤ) * (2 * r) := by positivity
  nlinarith [mul_self_le_mul_self hnonneg h]

/-- The guess is not below the root, and its square is too large by `a / b` of `x` at most. -/
structure Near (a b x r : Nat) : Prop where
  sqrt_le : Nat.sqrt x ≤ r
  close : r ^ 2 ≤ x + 1 ∨ b * r ^ 2 ≤ (b + a) * x

theorem Near.pos (h : Near a b x r) (hx : 0 < x) : 0 < r :=
  lt_of_lt_of_le (sqrt_pos.mpr hx) h.sqrt_le

/-- A guess below the root that is an eighth of `x` at least is enough to start with. -/
theorem near_newton_of_guess (hr : 0 < r) (hle : r ^ 2 ≤ x) (hlt : x ≤ 8 * r ^ 2) :
    Near 49 32 x (newton x r) := by
  refine ⟨sqrt_le_newton hr, .inr ?_⟩
  have herror := newton_error x r
  have hle : (r : ℤ) ^ 2 ≤ x := by exact_mod_cast hle
  have hlt : (x : ℤ) ≤ 8 * (r : ℤ) ^ 2 := by exact_mod_cast hlt
  have hr : 0 < (r : ℤ) ^ 2 := by positivity
  suffices h : 32 * (newton x r : ℤ) ^ 2 ≤ (32 + 49) * x by exact_mod_cast h
  -- (8 r ^ 2 - x) (8 x - r ^ 2) is not negative
  nlinarith [mul_nonneg (sub_nonneg.mpr hlt) (by linarith : (0 : ℤ) ≤ 8 * x - r ^ 2)]

/-- Where the square is off by less than the guess, rounding up by one is all that is left. -/
theorem newton_sq_le_succ (hr : 0 < r) (h : ((r : ℤ) ^ 2 - x) ^ 2 ≤ 4 * (r : ℤ) ^ 2) :
    newton x r ^ 2 ≤ x + 1 := by
  have herror := newton_error x r
  have hr : 0 < 4 * (r : ℤ) ^ 2 := by positivity
  have hle : (newton x r : ℤ) ^ 2 - x ≤ 1 := by
    refine le_of_mul_le_mul_left ?_ hr
    linarith
  have hle : (newton x r : ℤ) ^ 2 ≤ x + 1 := by linarith
  exact_mod_cast hle

theorem newton_sq_le_mul (hr : 0 < r) (hb : 0 < b) (hx : x ≤ r ^ 2) (h : b * r ^ 2 ≤ (b + a) * x)
    (hab : a ^ 2 * b' ≤ 4 * b * (a + b) * a') : b' * newton x r ^ 2 ≤ (b' + a') * x := by
  have herror := newton_error x r
  have hx : (x : ℤ) ≤ (r : ℤ) ^ 2 := by exact_mod_cast hx
  have h : (b : ℤ) * (r : ℤ) ^ 2 ≤ (b + a) * x := by exact_mod_cast h
  have hab : (a : ℤ) ^ 2 * b' ≤ 4 * b * (a + b) * a' := by exact_mod_cast hab
  have hr : 0 < (r : ℤ) ^ 2 := by positivity
  have hb : 0 < (b : ℤ) := by exact_mod_cast hb
  generalize (r : ℤ) ^ 2 = s at *
  have hsquare : b * (a + b) * (s - x) ^ 2 ≤ a ^ 2 * x * s := by
    have hleft : 0 ≤ (b + a) * (x : ℤ) - b * s := sub_nonneg.mpr h
    have hright : 0 ≤ (b + a) * s - b * (x : ℤ) := by nlinarith
    nlinarith [mul_nonneg hleft hright]
  have hnear : 4 * b * (a + b) * ((newton x r : ℤ) ^ 2 - x) ≤ a ^ 2 * x := by
    refine le_of_mul_le_mul_left ?_ hr
    have hmul := mul_le_mul_of_nonneg_left herror (by positivity : 0 ≤ (b : ℤ) * (a + b))
    linarith
  have hscale : 0 < 4 * (b : ℤ) * (a + b) := by positivity
  have hnext : (b' : ℤ) * ((newton x r : ℤ) ^ 2 - x) ≤ a' * x := by
    refine le_of_mul_le_mul_left ?_ hscale
    have hmul₁ := mul_le_mul_of_nonneg_left hnear (Int.natCast_nonneg b')
    have hmul₂ := mul_le_mul_of_nonneg_right hab (Int.natCast_nonneg x)
    linarith
  have hgoal : (b' : ℤ) * (newton x r : ℤ) ^ 2 ≤ (b' + a') * x := by linarith
  exact_mod_cast hgoal

theorem Near.newton (h : Near a b x r) (hx : 0 < x) (hb : 0 < b)
    (hab : a ^ 2 * b' ≤ 4 * b * (a + b) * a') : Near a' b' x (newton x r) := by
  have hr := h.pos hx
  refine ⟨sqrt_le_newton hr, ?_⟩
  rcases lt_or_ge (r ^ 2) x with hlt | hge
  · -- the guess is the root
    have hroot : x ≤ r ^ 2 + 2 * r := by
      have hx := sqrt_le_add x
      have hsqrt : sqrt x = r := by
        refine le_antisymm h.sqrt_le (le_sqrt.mpr ?_)
        rw [← pow_two]
        exact le_of_lt hlt
      rw [hsqrt] at hx
      linarith
    have hroot : (x : ℤ) ≤ (r : ℤ) ^ 2 + 2 * r := by exact_mod_cast hroot
    have hlt : (r : ℤ) ^ 2 < x := by exact_mod_cast hlt
    exact .inl (newton_sq_le_succ hr (by nlinarith))
  · rcases h.close with hclose | hclose
    · have hclose : (r : ℤ) ^ 2 ≤ x + 1 := by exact_mod_cast hclose
      have hge : (x : ℤ) ≤ (r : ℤ) ^ 2 := by exact_mod_cast hge
      have hr' : 1 ≤ (r : ℤ) ^ 2 := by
        have : 0 < (r : ℤ) ^ 2 := by positivity
        omega
      exact .inl (newton_sq_le_succ hr (by nlinarith))
    · exact .inr (newton_sq_le_mul hr hb hge hclose hab)

/-- Once the guess is off by one at most, dividing by it tells which of the two it is. -/
theorem min_div_eq_sqrt (hle : sqrt x ≤ r) (hclose : r ^ 2 ≤ x + sqrt x) (hx : 0 < x) :
    min r (x / r) = sqrt x := by
  have hn := sqrt_pos.mpr hx
  have hlower := sqrt_le x
  have hupper := sqrt_le_add x
  generalize sqrt x = n at *
  have hr : r ≤ n + 1 := by nlinarith
  rcases lt_or_ge n r with hlt | hge
  · obtain rfl : r = n + 1 := by omega
    have hdiv : x / (n + 1) = n := by
      refine Nat.div_eq_of_lt_le ?_ ?_ <;> nlinarith
    rw [hdiv]
    exact Nat.min_eq_right (Nat.le_succ n)
  · obtain rfl : r = n := by omega
    exact min_eq_left ((le_div_iff_mul_le hn).mpr hlower)

/-- An error that is small against the root is no error. -/
theorem Near.min_div_eq_sqrt (h : Near 1 b x r) (hx : 0 < x) (hb : sqrt x + 2 ≤ b) :
    min r (x / r) = sqrt x := by
  refine NewtonSqrt.min_div_eq_sqrt h.sqrt_le ?_ hx
  have hn := sqrt_pos.mpr hx
  rcases h.close with hclose | hclose
  · omega
  · have hupper := sqrt_le_add x
    generalize sqrt x = n at *
    have hxb : x ≤ b * n := by nlinarith
    refine le_of_mul_le_mul_left ?_ (by omega : 0 < b)
    linarith

end NewtonSqrt
