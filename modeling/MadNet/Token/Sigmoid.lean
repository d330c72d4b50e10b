import MadNet.Lib.NewtonSqrt
import MadNet.Staking.Effects

/-!
# `libraries/math/Sigmoid.sol`

`fx` gives the number of tokens that the curve has issued for a pool of Ether, and `fp` the Ether
for a number of tokens. Both read the same branch of one hyperbola, `fx` rounded up and `fp` rounded
down, so that they form a Galois connection (`fx_le_iff`).
-/

namespace MadNet.Token

open Nat
open Prog (bind_ok bind₂_ok ok_bind)
open Staking (Revert checked checkedSub checked_eq_ok checked_of_lt checkedSub_eq_ok
  checkedSub_of_le)

/-! ## The square root -/

/-- The pair of `xAux` and `result` after one of the tests of its size. -/
def halve (k : Nat) (g : Nat × Nat) : Nat × Nat :=
  if 2 ^ (2 * k) ≤ g.1 then (g.1 >>> (2 * k), g.2 <<< k) else g

/-- The initial guess. -/
def sqrtGuess (x : Nat) : Nat :=
  let g := halve 2 (halve 4 (halve 8 (halve 16 (halve 32 (halve 64 (x, 1))))))
  if 8 ≤ g.1 then g.2 <<< 1 else g.2

/-- One iteration; the sum is not checked. -/
def babylonian (x result : Nat) : Nat := ((result + x / result) % 2 ^ 256) >>> 1

def sqrt (x : Nat) : Nat :=
  if x = 0 then 0
  else
    let result := babylonian x (babylonian x (babylonian x (babylonian x (babylonian x (babylonian x
      (babylonian x (sqrtGuess x)))))))
    let roundedDownResult := x / result
    if roundedDownResult ≤ result then roundedDownResult else result

/-- What the tests of the size of `xAux` keep: `result` is a root of what has been shifted out. -/
structure Scaled (x : Nat) (g : Nat × Nat) : Prop where
  pos : 0 < g.1
  pos' : 0 < g.2
  lower : g.1 * g.2 ^ 2 ≤ x
  upper : x < (g.1 + 1) * g.2 ^ 2

variable {x k n r a b : Nat}

theorem Scaled.halve {g : Nat × Nat} (h : Scaled x g) : Scaled x (halve k g) := by
  unfold Token.halve
  split
  next hle =>
    have hpow : (g.2 <<< k) ^ 2 = 2 ^ (2 * k) * g.2 ^ 2 := by
      rw [shiftLeft_eq]
      ring
    have hdiv : g.1 >>> (2 * k) = g.1 / 2 ^ (2 * k) := shiftRight_eq_div_pow _ _
    have hscale : 0 < 2 ^ (2 * k) := by positivity
    refine ⟨?_, ?_, ?_, ?_⟩
    · rw [hdiv]
      exact div_pos hle hscale
    · rw [shiftLeft_eq]
      exact mul_pos h.pos' (by positivity)
    · rw [hdiv, hpow, ← mul_assoc]
      exact le_trans (mul_le_mul_right _ (div_mul_le_self _ _)) h.lower
    · rw [hdiv, hpow, ← mul_assoc]
      refine lt_of_lt_of_le h.upper (mul_le_mul_right _ ?_)
      rw [add_mul, one_mul]
      exact lt_div_mul_add hscale
  next => exact h

theorem halve_lt {g : Nat × Nat} (h : g.1 < 2 ^ (2 * k + n)) (hn : n ≤ 2 * k) :
    (halve k g).1 < 2 ^ (2 * k) := by
  unfold halve
  split
  next hle =>
    rw [Nat.shiftRight_eq_div_pow, Nat.div_lt_iff_lt_mul (by positivity), ← Nat.pow_add]
    exact Nat.lt_of_lt_of_le h (Nat.pow_le_pow_right Nat.two_pos (by omega))
  next hlt => exact Nat.lt_of_not_le hlt

theorem sqrtGuess_spec (hx : 0 < x) (hlt : x < 2 ^ 256) :
    0 < sqrtGuess x ∧ sqrtGuess x ^ 2 ≤ x ∧ x ≤ 8 * sqrtGuess x ^ 2 := by
  unfold sqrtGuess
  have hscaled : Scaled x (x, 1) := ⟨hx, one_pos, by simp, by simp⟩
  have h64 := halve_lt (k := 64) (n := 128) (g := (x, 1)) hlt (by decide)
  have h32 := halve_lt (k := 32) (n := 64) h64 (by decide)
  have h16 := halve_lt (k := 16) (n := 32) h32 (by decide)
  have h8 := halve_lt (k := 8) (n := 16) h16 (by decide)
  have h4 := halve_lt (k := 4) (n := 8) h8 (by decide)
  have h2 := halve_lt (k := 2) (n := 4) h4 (by decide)
  have h := hscaled.halve (k := 64) |>.halve (k := 32) |>.halve (k := 16) |>.halve (k := 8)
    |>.halve (k := 4) |>.halve (k := 2)
  generalize halve 2 (halve 4 (halve 8 (halve 16 (halve 32 (halve 64 (x, 1)))))) = g at h h2
  obtain ⟨xAux, result⟩ := g
  obtain ⟨hpos, hresult, hlower, hupper⟩ := h
  dsimp only at *
  split
  next hge =>
    have hshift : (result <<< 1) ^ 2 = 4 * result ^ 2 := by
      rw [shiftLeft_eq]
      ring
    rw [hshift, shiftLeft_eq]
    have hupper' : (xAux + 1) * result ^ 2 ≤ 16 * result ^ 2 := mul_le_mul_right _ h2
    have hlower' : 8 * result ^ 2 ≤ xAux * result ^ 2 := mul_le_mul_right _ hge
    omega
  next hlt =>
    have hupper' : (xAux + 1) * result ^ 2 ≤ 8 * result ^ 2 := mul_le_mul_right _ (by omega)
    have hlower' : 1 * result ^ 2 ≤ xAux * result ^ 2 := mul_le_mul_right _ hpos
    omega

open NewtonSqrt

/-- The sum of an iteration does not wrap around. -/
theorem babylonian_eq (hr : r < 2 ^ 255) (hx : x / r < 2 ^ 255) :
    r + x / r < 2 ^ 256 ∧ babylonian x r = newton x r := by
  have hlt : r + x / r < 2 ^ 256 := by omega
  refine ⟨hlt, ?_⟩
  rw [babylonian, newton, mod_eq_of_lt hlt]
  rfl

theorem babylonian_of_near (h : Near a b x r) (hx : 0 < x) (hlt : x < 2 ^ 256)
    (hb : 0 < b) (hab : a ≤ 2 * b) : r + x / r < 2 ^ 256 ∧ babylonian x r = newton x r := by
  have hr := h.pos hx
  have hbound : r ^ 2 ≤ 3 * x + 1 := by
    rcases h.close with hclose | hclose
    · omega
    · have : b * r ^ 2 ≤ b * (3 * x) := by nlinarith
      exact le_trans (le_of_mul_le_mul_left this hb) (le_succ _)
  refine babylonian_eq ?_ ?_
  · refine lt_of_pow_lt_pow_left₀ 2 (zero_le _) ?_
    exact lt_of_le_of_lt hbound (by omega)
  · rw [div_lt_iff_lt_mul hr]
    rcases lt_or_ge r 2 with hone | htwo
    · -- the guess is 1, and so is the root
      have hle := h.sqrt_le
      have hupper := Nat.sqrt_le_add x
      have hroot : Nat.sqrt x * Nat.sqrt x ≤ 1 * 1 := Nat.mul_le_mul (by omega) (by omega)
      omega
    · omega

theorem babylonian_guess (hr : 0 < r) (hlt : x < 2 ^ 256) (hle : r ^ 2 ≤ x)
    (hge : x ≤ 8 * r ^ 2) : r + x / r < 2 ^ 256 ∧ babylonian x r = newton x r := by
  have hroot : r < 2 ^ 128 := lt_of_pow_lt_pow_left₀ 2 (zero_le _) (by omega)
  refine babylonian_eq (by omega) ?_
  rw [div_lt_iff_lt_mul hr]
  calc x ≤ 8 * r * r := by rw [mul_assoc, ← pow_two]; exact hge
    _ < 2 ^ 255 * r := mul_lt_mul_of_pos_right (by omega) hr

theorem near_babylonian (c : Nat) (h : Near a b x r) (hx : 0 < x) (hlt : x < 2 ^ 256)
    (hb : 0 < b) (hab : a ≤ 2 * b) (hnext : a ^ 2 * c ≤ 4 * b * (a + b) * 1) :
    Near 1 c x (babylonian x r) := by
  rw [(babylonian_of_near h hx hlt hb hab).2]
  exact h.newton hx hb hnext

/-- The largest `r` with `r * r ≤ x`. -/
theorem sqrt_eq (hlt : x < 2 ^ 256) : sqrt x = Nat.sqrt x := by
  unfold sqrt
  split
  next h =>
    rw [h]
    rfl
  next h =>
    have hx : 0 < x := Nat.pos_of_ne_zero h
    obtain ⟨hpos, hle, hge⟩ := sqrtGuess_spec hx hlt
    have h1 : Near 49 32 x (babylonian x (sqrtGuess x)) := by
      rw [(babylonian_guess hpos hlt hle hge).2]
      exact near_newton_of_guess hpos hle hge
    have h2 := near_babylonian 4 h1 hx hlt (by decide) (by decide) (by decide)
    have h3 := near_babylonian 80 h2 hx hlt (by decide) (by decide) (by decide)
    have h4 := near_babylonian (25 * 10 ^ 3) h3 hx hlt (by decide) (by decide) (by decide)
    have h5 := near_babylonian (25 * 10 ^ 8) h4 hx hlt (by decide) (by decide) (by decide)
    have h6 := near_babylonian (25 * 10 ^ 18) h5 hx hlt (by decide) (by decide) (by decide)
    have h7 := near_babylonian (25 * 10 ^ 38) h6 hx hlt (by decide) (by decide) (by decide)
    have hroot : Nat.sqrt x < 2 ^ 128 := Nat.sqrt_lt'.mpr (by omega)
    have hsqrt := h7.min_div_eq_sqrt hx (by omega)
    dsimp only
    rw [← hsqrt]
    split
    next hle => exact (Nat.min_eq_right hle).symm
    next hlt => exact (Nat.min_eq_left (Nat.le_of_not_le hlt)).symm

/-- `result` after `k` iterations. -/
def sqrtIterate (x k : Nat) : Nat := (babylonian x)^[k] (sqrtGuess x)

theorem sqrtIterate_zero (x : Nat) : sqrtIterate x 0 = sqrtGuess x := by
  rw [sqrtIterate, Function.iterate_zero_apply]

theorem sqrtIterate_succ (x k : Nat) : sqrtIterate x (k + 1) = babylonian x (sqrtIterate x k) :=
  Function.iterate_succ_apply' ..

/-- What the first iteration reaches, every other one keeps. -/
theorem near_sqrtIterate (hx : 0 < x) (hlt : x < 2 ^ 256) (k : Nat) :
    Near 49 32 x (sqrtIterate x (k + 1)) := by
  induction k with
  | zero =>
    obtain ⟨hpos, hle, hge⟩ := sqrtGuess_spec hx hlt
    rw [sqrtIterate_succ, sqrtIterate_zero, (babylonian_guess hpos hlt hle hge).2]
    exact near_newton_of_guess hpos hle hge
  | succ k ih =>
    rw [sqrtIterate_succ, (babylonian_of_near ih hx hlt (by decide) (by decide)).2]
    exact ih.newton hx (by decide) (by decide)

/-- No iteration divides by zero, and none of the sums wraps around. -/
theorem sqrtIterate_no_overflow (hx : 0 < x) (hlt : x < 2 ^ 256) (k : Nat) :
    0 < sqrtIterate x k ∧ sqrtIterate x k + x / sqrtIterate x k < 2 ^ 256 := by
  cases k with
  | zero =>
    obtain ⟨hpos, hle, hge⟩ := sqrtGuess_spec hx hlt
    rw [sqrtIterate_zero]
    exact ⟨hpos, (babylonian_guess hpos hlt hle hge).1⟩
  | succ k =>
    have hnear := near_sqrtIterate hx hlt k
    exact ⟨hnear.pos hx, (babylonian_of_near hnear hx hlt (by decide) (by decide)).1⟩

/-- The last test keeps the smaller of two. -/
theorem sqrt_eq_min (hx : x ≠ 0) : sqrt x = min (sqrtIterate x 7) (x / sqrtIterate x 7) := by
  rw [sqrt, if_neg hx, min_comm]
  rfl

/-- The root is exact, and the seven sums that are not checked do not overflow. -/
theorem sqrt_isGreatest {x : Nat} (hlt : x < 2 ^ 256) : IsGreatest {r | r * r ≤ x} (sqrt x) ∧
    (x ≠ 0 → sqrt x = min (sqrtIterate x 7) (x / sqrtIterate x 7) ∧
      ∀ k ≤ 7, 0 < sqrtIterate x k ∧ sqrtIterate x k + x / sqrtIterate x k < 2 ^ 256) := by
  refine ⟨?_, fun hx => ⟨sqrt_eq_min hx, fun k _ => ?_⟩⟩
  · rw [sqrt_eq hlt]
    exact ⟨Nat.sqrt_le x, fun r hr => Nat.le_sqrt.mpr hr⟩
  · exact sqrtIterate_no_overflow (Nat.pos_of_ne_zero hx) hlt k

theorem sqrt_isGreatest_max : IsGreatest {r | r * r ≤ 2 ^ 256 - 1} (sqrt (2 ^ 256 - 1)) :=
  (sqrt_isGreatest (by decide)).1

/-! ## The curve -/

def safeAbsSub (a b : Nat) : Nat := max a b - min a b

def fx (x : Nat) : Except Revert Nat := do
  let a ← checked 256 (201 * x)
  let a ← checked 256 (a + 504975246918103897890400)
  let b ← checked 256 (safeAbsSub 2500000000000000000000 x ^ 2)
  let b ← checked 256 (b + 125000000000000005611050234958650739260304)
  let b ← checked 256 (200 ^ 2 * b)
  checkedSub a (sqrt b)

def fp (p : Nat) : Except Revert Nat := do
  let a ← checked 256 (201 * p)
  let b ← checked 256 (p ^ 2)
  let b ← checked 256 (b + 1015056498152694417606544040542564448516855541904)
  let c ← checked 256 (2014950493836207795780800 * p)
  let b ← checkedSub b c
  let b ← checked 256 (200 ^ 2 * b)
  let a ← checked 256 (a + sqrt b)
  let a ← checkedSub a 201500024630538883475970400
  return a / 401

namespace Curve

/-- Half of the tokens between the branches of the hyperbola at an empty pool. -/
def A : Nat := 504975246918103897890400

/-- The pool at which the price changes. -/
def B : Nat := 2500000000000000000000

/-- The square under the root of `fx`. -/
def discriminant (x : Nat) : Nat :=
  200 ^ 2 * (safeAbsSub B x ^ 2 + 125000000000000005611050234958650739260304)

/-- The square under the root of `fp`. -/
def discriminant' (p : Nat) : Nat :=
  200 ^ 2 * (p ^ 2 + 1015056498152694417606544040542564448516855541904 - 2014950493836207795780800 *
    p)

/-- The tokens that are issued for a pool of `x` wei. -/
def tokens (x : Nat) : Nat := 201 * x + A - Nat.sqrt (discriminant x)

/-- The wei for `p` tokens. -/
def price (p : Nat) : Nat :=
  (201 * p + Nat.sqrt (discriminant' p) - 201500024630538883475970400) / 401

theorem discriminant_cast (x : Nat) : (discriminant x : ℤ) =
    40000 * (((x : ℤ) - B) ^ 2 + 125000000000000005611050234958650739260304) := by
  have hsq : ((safeAbsSub B x : ℕ) : ℤ) ^ 2 = ((x : ℤ) - B) ^ 2 := by
    unfold safeAbsSub
    rcases le_total B x with h | h
    · rw [max_eq_right h, min_eq_left h, cast_sub h]
    · rw [max_eq_left h, min_eq_right h, cast_sub h]
      ring
  unfold discriminant
  push_cast
  rw [hsq]

theorem two_mul_le (p : Nat) : 2014950493836207795780800 * p ≤
    p ^ 2 + 1015056498152694417606544040542564448516855541904 := by
  zify
  nlinarith [sq_nonneg ((p : ℤ) - 1007475246918103897890400)]

theorem discriminant'_cast (p : Nat) : (discriminant' p : ℤ) = 40000 * ((p : ℤ) ^ 2 +
    1015056498152694417606544040542564448516855541904 - 2014950493836207795780800 * p) := by
  unfold discriminant'
  rw [cast_mul, cast_sub (two_mul_le p)]
  push_cast
  norm_num

/-- The equation of the hyperbola; it is not positive between the branches. -/
def conic (x p : ℤ) : ℤ :=
  401 * x ^ 2 - 402 * x * p + p ^ 2 + 403000049261077766951940800 * x - 1009950493836207795780800 *
    p

theorem sub_le_sqrt_iff {n m d : Nat} : n ≤ m + Nat.sqrt d ↔ n ≤ m ∨ ((n : ℤ) - m) ^ 2 ≤ d := by
  rw [← Nat.sub_le_iff_le_add', Nat.le_sqrt']
  rcases Nat.le_total n m with h | h
  · simp [Nat.sub_eq_zero_of_le h, h]
  · rw [← cast_sub h]
    have hcast : ((n - m : ℕ) : ℤ) ^ 2 ≤ d ↔ (n - m) ^ 2 ≤ d := by exact_mod_cast Iff.rfl
    rw [hcast]
    refine ⟨.inr, fun h' => h'.elim (fun hle => ?_) id⟩
    simp [Nat.sub_eq_zero_of_le hle]

theorem tokens_le_iff {x p : Nat} : tokens x ≤ p ↔ 201 * x + A ≤ p ∨ conic x p ≤ 0 := by
  rw [tokens, Nat.sub_le_iff_le_add, sub_le_sqrt_iff, discriminant_cast, conic, A, B]
  push_cast
  constructor
  all_goals
    rintro (h | h)
    · exact .inl h
    · exact .inr (by nlinarith)

theorem offset_le (p : Nat) :
    201500024630538883475970400 ≤ 201 * p + Nat.sqrt (discriminant' p) := by
  rw [sub_le_sqrt_iff, discriminant'_cast]
  rcases Nat.le_total 201500024630538883475970400 (201 * p) with h | h
  · exact .inl h
  · refine .inr ?_
    push_cast
    zify at h
    nlinarith

theorem le_price_iff {x p : Nat} :
    x ≤ price p ↔ 401 * x + 201500024630538883475970400 ≤ 201 * p ∨ conic x p ≤ 0 := by
  rw [price, Nat.le_div_iff_mul_le (by decide), Nat.le_sub_iff_add_le (offset_le p),
    sub_le_sqrt_iff,
    discriminant'_cast, conic]
  push_cast
  constructor
  all_goals
    rintro (h | h)
    · exact .inl (by omega)
    · exact .inr (by nlinarith)

/-- Away from the hyperbola by more than its slopes. -/
theorem not_between {x p : Nat} (h : 0 < conic x p) :
    200 * |(x : ℤ) - B| < |201 * (x : ℤ) + A - p| := by
  refine lt_of_pow_lt_pow_left₀ 2 (abs_nonneg _) ?_
  rw [mul_pow, sq_abs, sq_abs, A, B]
  rw [conic] at h
  push_cast
  nlinarith

/-- `fx` and `fp` read the same branch of the hyperbola. -/
theorem tokens_le_iff_le_price {x p : Nat} : tokens x ≤ p ↔ x ≤ price p := by
  rw [tokens_le_iff, le_price_iff]
  rcases le_or_gt (conic x p) 0 with h | h
  · simp [h]
  · have hbetween := not_between h
    have hright : 200 * ((x : ℤ) - B) < |201 * (x : ℤ) + A - p| :=
      lt_of_le_of_lt (mul_le_mul_of_nonneg_left (le_abs_self _) (by decide)) hbetween
    have hleft : 200 * -((x : ℤ) - B) < |201 * (x : ℤ) + A - p| :=
      lt_of_le_of_lt (mul_le_mul_of_nonneg_left (neg_le_abs _) (by decide)) hbetween
    have hconic : ¬conic x p ≤ 0 := not_le.mpr h
    simp only [hconic, or_false]
    rw [A, B] at *
    -- above both branches or below both of them
    rcases abs_cases (201 * (x : ℤ) + (504975246918103897890400 : ℕ) - p) with ⟨habs, -⟩ | ⟨habs, -⟩
    · omega
    · omega

theorem gc : GaloisConnection tokens price := fun _ _ => tokens_le_iff_le_price

theorem sqrt_discriminant_le (x : Nat) : Nat.sqrt (discriminant x) ≤ 201 * x + A := by
  refine Nat.sqrt_le_sqrt (?_ : discriminant x ≤ (201 * x + A) * (201 * x + A)) |>.trans
    (Nat.le_of_eq (Nat.sqrt_eq _))
  zify
  rw [discriminant_cast, A, B]
  push_cast
  nlinarith

theorem sqrt_discriminant_succ_le (x : Nat) :
    Nat.sqrt (discriminant (x + 1)) ≤ 200 + Nat.sqrt (discriminant x) := by
  have hsq : (Nat.sqrt (discriminant (x + 1)) : ℤ) ^ 2 ≤ discriminant (x + 1) := by
    exact_mod_cast Nat.sqrt_le' (discriminant (x + 1))
  have hslope : 200 * ((x : ℤ) + 1 - B) ≤ Nat.sqrt (discriminant (x + 1)) := by
    have hroot := Nat.sqrt_lt'.mp (Nat.lt_succ_self (Nat.sqrt (discriminant (x + 1))))
    zify at hroot
    rw [discriminant_cast] at hroot
    push_cast at hroot
    nlinarith
  rw [sub_le_sqrt_iff, discriminant_cast]
  rw [discriminant_cast] at hsq
  push_cast at *
  refine .inr ?_
  nlinarith

/-- One more wei buys a token at least. -/
theorem tokens_lt_succ (x : Nat) : tokens x < tokens (x + 1) := by
  have hle := sqrt_discriminant_le x
  have hsucc := sqrt_discriminant_succ_le x
  unfold tokens
  omega

/-- Rounding up and then down loses nothing. -/
theorem price_tokens (x : Nat) : price (tokens x) = x := by
  refine Nat.le_antisymm ?_ (gc.le_u_l x)
  by_contra hlt
  have hle := tokens_le_iff_le_price.mpr (Nat.succ_le_of_lt (Nat.lt_of_not_le hlt))
  exact absurd (tokens_lt_succ x) (Nat.not_lt.mpr hle)

theorem tokens_zero : tokens 0 = 0 := le_zero.mp (tokens_le_iff.mpr (.inr (by decide)))

theorem price_zero : price 0 = 0 := by
  have h := price_tokens 0
  rwa [tokens_zero] at h

end Curve

open Curve

/-- `fx` is the curve wherever its numbers fit. -/
theorem fx_eq_ok : fx x = .ok n ↔ (201 * x + A < 2 ^ 256 ∧ discriminant x < 2 ^ 256) ∧
    tokens x = n := by
  constructor
  · intro h
    obtain ⟨a1, a2, ha1, ha2, h⟩ := bind₂_ok h
    obtain ⟨b1, b2, hb1, hb2, h⟩ := bind₂_ok h
    obtain ⟨b3, hb3, h⟩ := bind_ok h
    obtain ⟨-, rfl⟩ := checked_eq_ok.mp ha1
    obtain ⟨hfits, rfl⟩ := checked_eq_ok.mp ha2
    obtain ⟨-, rfl⟩ := checked_eq_ok.mp hb1
    obtain ⟨-, rfl⟩ := checked_eq_ok.mp hb2
    obtain ⟨hfits', rfl⟩ := checked_eq_ok.mp hb3
    obtain ⟨-, rfl⟩ := checkedSub_eq_ok.mp h
    rw [sqrt_eq hfits']
    exact ⟨⟨hfits, hfits'⟩, rfl⟩
  · rintro ⟨⟨hfits, hfits'⟩, rfl⟩
    have hle := sqrt_discriminant_le x
    have hsum : safeAbsSub B x ^ 2 + 125000000000000005611050234958650739260304 < 2 ^ 256 := by
      refine Nat.lt_of_le_of_lt ?_ hfits'
      exact Nat.le_mul_of_pos_left _ (by decide)
    have hsquare : safeAbsSub B x ^ 2 < 2 ^ 256 := Nat.lt_of_le_of_lt (Nat.le_add_right _ _) hsum
    unfold fx
    rw [checked_of_lt (by omega), ok_bind, checked_of_lt (by exact hfits),
      ok_bind, checked_of_lt (by exact hsquare), ok_bind,
      checked_of_lt (by exact hsum), ok_bind, checked_of_lt (by exact hfits'),
      ok_bind, sqrt_eq (by exact hfits')]
    exact checkedSub_of_le hle

/-- The numbers of `fp` fit. -/
structure Fits (p : Nat) : Prop where
  square : p ^ 2 + 1015056498152694417606544040542564448516855541904 < 2 ^ 256
  product : 2014950493836207795780800 * p < 2 ^ 256
  discriminant : discriminant' p < 2 ^ 256
  sum : 201 * p + Nat.sqrt (discriminant' p) < 2 ^ 256

theorem fp_eq_ok {p : Nat} : fp p = .ok n ↔ Fits p ∧ price p = n := by
  constructor
  · intro h
    obtain ⟨a1, b1, ha1, hb1, h⟩ := bind₂_ok h
    obtain ⟨b2, c, hb2, hc, h⟩ := bind₂_ok h
    obtain ⟨b3, b4, hb3, hb4, h⟩ := bind₂_ok h
    obtain ⟨a2, a3, ha2, ha3, hreturn⟩ := bind₂_ok h
    obtain ⟨-, rfl⟩ := checked_eq_ok.mp ha1
    obtain ⟨-, rfl⟩ := checked_eq_ok.mp hb1
    obtain ⟨hsquare, rfl⟩ := checked_eq_ok.mp hb2
    obtain ⟨hproduct, rfl⟩ := checked_eq_ok.mp hc
    obtain ⟨-, rfl⟩ := checkedSub_eq_ok.mp hb3
    obtain ⟨hdiscriminant, rfl⟩ := checked_eq_ok.mp hb4
    obtain ⟨hsum, rfl⟩ := checked_eq_ok.mp ha2
    obtain ⟨-, ha3⟩ := checkedSub_eq_ok.mp ha3
    have hn := Except.ok.inj hreturn
    rw [sqrt_eq hdiscriminant] at hsum ha3
    refine ⟨⟨hsquare, hproduct, hdiscriminant, hsum⟩, ?_⟩
    rw [← hn, ← ha3]
    rfl
  · rintro ⟨⟨hsquare, hproduct, hdiscriminant, hsum⟩, rfl⟩
    have hle := offset_le p
    have hle' := two_mul_le p
    unfold fp
    rw [checked_of_lt (by omega), ok_bind, checked_of_lt (by omega), ok_bind,
      checked_of_lt hsquare, ok_bind, checked_of_lt hproduct, ok_bind,
      checkedSub_of_le hle', ok_bind, checked_of_lt (by exact hdiscriminant),
      ok_bind, sqrt_eq (by exact hdiscriminant), checked_of_lt (by exact hsum),
      ok_bind]
    rw [checkedSub_of_le (by exact hle)]
    rfl

end MadNet.Token
