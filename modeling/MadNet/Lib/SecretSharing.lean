import Mathlib

/-!
# Sharing a secret by a polynomial

A polynomial is the list of its coefficients, the constant term first. The coefficients may be
scalars or, as in Feldman's scheme, elements of a module. The constant term of a polynomial over a
field is recovered from as many of its values as it has coefficients.
-/

namespace SecretSharing

open Finset

section Module

variable {R M : Type*} [CommSemiring R] [AddCommMonoid M] [Module R M]

/-- The value at `x` of the polynomial with the coefficients `cs`. -/
def eval (x : R) : List M → M
  | [] => 0
  | c :: cs => c + x • eval x cs

@[simp] theorem eval_nil (x : R) : eval x ([] : List M) = 0 := rfl

@[simp] theorem eval_cons (x : R) (c : M) (cs : List M) : eval x (c :: cs) = c + x • eval x cs :=
  rfl

theorem eval_zero_left (cs : List M) : eval (0 : R) cs = cs.headD 0 := by
  cases cs <;> simp

theorem eval_eq_sum (x : R) (cs : List M) : eval x cs = ∑ k ∈ range cs.length,
    x ^ k • cs.getD k 0 := by
  induction cs with
  | nil => simp
  | cons c cs ih =>
    rw [List.length_cons, sum_range_succ', eval_cons, ih, smul_sum, add_comm]
    simp [smul_smul, pow_succ']

end Module

section Field

open Polynomial

variable {F ι : Type*} [Field F] [DecidableEq ι] {s : Finset ι} {v : ι → F}

/-- The polynomial with the coefficients `cs`. -/
noncomputable def toPoly : List F → F[X]
  | [] => 0
  | c :: cs => C c + X * toPoly cs

theorem eval_toPoly (x : F) (cs : List F) : (toPoly cs).eval x = eval x cs := by
  induction cs with
  | nil => simp [toPoly]
  | cons c cs ih => simp [toPoly, ih]

theorem degree_toPoly_lt (cs : List F) : (toPoly cs).degree < cs.length := by
  induction cs with
  | nil => simp [toPoly]
  | cons c cs ih =>
    have hX : (X * toPoly cs).degree < ((cs.length + 1 : ℕ) : WithBot ℕ) := by
      rw [degree_mul, degree_X, add_comm 1]
      push_cast
      exact WithBot.add_lt_add_right WithBot.one_ne_bot ih
    refine lt_of_le_of_lt (degree_add_le _ _) (max_lt ?_ hX)
    exact lt_of_le_of_lt degree_C_le (by exact_mod_cast Nat.succ_pos _)

/-- The weight of the value at `v i` in the value at 0. -/
def weight (s : Finset ι) (v : ι → F) (i : ι) : F := ∏ k ∈ s.erase i, v k / (v k - v i)

theorem eval_zero_basis (i : ι) : (Lagrange.basis s v i).eval 0 = weight s v i := by
  rw [Lagrange.basis, eval_prod, weight]
  apply prod_congr rfl
  intro k _
  rw [Lagrange.basisDivisor, eval_mul, eval_C, eval_sub, eval_X, eval_C, zero_sub, mul_comm,
    neg_mul, ← mul_neg, neg_inv, neg_sub, div_eq_mul_inv]

/-- The constant term from as many values as there are coefficients. -/
theorem sum_weight_mul_eval (hv : Set.InjOn v s) {cs : List F} (hlen : cs.length ≤ s.card) :
    ∑ i ∈ s, weight s v i * eval (v i) cs = eval (0 : F) cs := by
  have hdegree : (toPoly cs).degree < s.card :=
    lt_of_lt_of_le (degree_toPoly_lt cs) (by exact_mod_cast hlen)
  have hpoly := congrArg (Polynomial.eval 0) (Lagrange.eq_interpolate hv hdegree)
  rw [eval_toPoly, Lagrange.interpolate_apply, eval_finsetSum] at hpoly
  rw [hpoly]
  apply sum_congr rfl
  intro i _
  rw [eval_mul, eval_C, eval_toPoly, eval_zero_basis, mul_comm]

end Field

end SecretSharing
