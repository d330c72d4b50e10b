import Mathlib

/-!
# Primality certificates

A prime `p` is certified by a generator of its units and the prime factors of `p - 1`. The powers
are computed by repeated squaring, so that the kernel can check the certificate of a large prime.
-/

namespace Lucas

/-- `a ^ e % m`, for an exponent of at most `bits` bits. -/
def powMod (a m : ℕ) : (bits e : ℕ) → ℕ
  | 0, _ => 1 % m
  | bits + 1, e =>
    let root := powMod a m bits (e / 2)
    if e % 2 = 1 then root * root % m * a % m else root * root % m

theorem powMod_eq {a m bits e : ℕ} (he : e < 2 ^ bits) : powMod a m bits e = a ^ e % m := by
  induction bits generalizing e with
  | zero =>
    obtain rfl : e = 0 := by simpa using he
    simp [powMod]
  | succ bits ih =>
    have hroot : powMod a m bits (e / 2) = a ^ (e / 2) % m := ih (by rw [pow_succ] at he; omega)
    simp only [powMod, hroot]
    have hsq : a ^ (e / 2) % m * (a ^ (e / 2) % m) % m = a ^ (2 * (e / 2)) % m := by
      rw [← Nat.mul_mod, ← pow_add, two_mul]
    rw [hsq]
    split
    · rename_i hodd
      have h : e = 2 * (e / 2) + 1 := by omega
      conv_rhs => rw [h, pow_succ]
      rw [Nat.mod_mul_mod]
    · rename_i heven
      have h : 2 * (e / 2) = e := by omega
      rw [h]

/-- A generator of the units of `prime` and the factors of `prime - 1`, each as often as it divides
it. -/
structure Certificate where
  prime : ℕ
  generator : ℕ
  factors : List ℕ

/-- The certificate is right if its factors are prime, and these are among the `known` primes. -/
def Certificate.check (known : List ℕ) (bits : ℕ) (c : Certificate) : Bool :=
  let pow := powMod c.generator c.prime bits
  1 < c.prime && c.prime < 2 ^ bits && c.factors.prod == c.prime - 1 && pow (c.prime - 1) == 1 &&
    c.factors.all fun r => known.contains r && pow ((c.prime - 1) / r) != 1

theorem Certificate.prime_of_check {known : List ℕ} {bits : ℕ} {c : Certificate}
    (hknown : ∀ r ∈ known, r.Prime) (h : c.check known bits = true) : c.prime.Prime := by
  obtain ⟨p, a, factors⟩ := c
  simp only [check, Bool.and_eq_true, decide_eq_true_eq, beq_iff_eq, List.all_eq_true,
    List.contains_iff_mem, bne_iff_ne, ne_eq] at h
  obtain ⟨⟨⟨⟨hp1, hbits⟩, hprod⟩, hone⟩, hfactors⟩ := h
  have hpow : ∀ e ≤ p - 1, ((a : ZMod p) ^ e = 1 ↔ powMod a p bits e = 1) := by
    intro e he
    rw [powMod_eq (by omega)]
    have hcast := ZMod.natCast_eq_natCast_iff' (a ^ e) 1 p
    rw [Nat.mod_eq_of_lt hp1] at hcast
    exact_mod_cast hcast
  apply lucas_primality p (a : ZMod p) ((hpow _ le_rfl).mpr hone)
  intro r hr hdvd h
  rw [← hprod] at hdvd
  obtain ⟨s, hs, hrs⟩ := (Nat.Prime.prime hr).dvd_prod_iff.mp hdvd
  obtain ⟨hmem, hne⟩ := hfactors s hs
  obtain rfl := (Nat.prime_dvd_prime_iff_eq hr (hknown s hmem)).mp hrs
  exact hne ((hpow _ (Nat.div_le_self _ _)).mp h)

/-- Each certificate may use the primes of those before it. -/
def checkAll (bits : ℕ) : (known : List ℕ) → List Certificate → Bool
  | _, [] => true
  | known, c :: cs => c.check known bits && checkAll bits (c.prime :: known) cs

theorem prime_of_checkAll {bits : ℕ} {known : List ℕ} {cs : List Certificate}
    (hknown : ∀ r ∈ known, r.Prime) (h : checkAll bits known cs = true) :
    ∀ c ∈ cs, c.prime.Prime := by
  induction cs generalizing known with
  | nil => simp
  | cons c cs ih =>
    simp only [checkAll, Bool.and_eq_true] at h
    have hc : c.prime.Prime := c.prime_of_check hknown h.1
    have hcs := ih (by simpa using ⟨hc, hknown⟩) h.2
    intro d hd
    rcases List.mem_cons.mp hd with rfl | hd
    · exact hc
    · exact hcs d hd

end Lucas
