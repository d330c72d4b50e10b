import Mathlib

/-!
# Byte strings

Numbers of a fixed width in both byte orders, and the reading of a part of a string. A string that
is laid out as a concatenation is read part by part with `At.slice`.
-/

abbrev Bytes := List UInt8

namespace Bytes

open List Nat

/-! ## Numbers -/

/-- The `w` low bytes of a number, the lowest first. -/
def ofNatLE : Nat → Nat → Bytes
  | 0, _ => []
  | w + 1, n => UInt8.ofNat n :: ofNatLE w (n / 256)

/-- The number with these bytes, the lowest first. -/
def toNatLE : Bytes → Nat
  | [] => 0
  | b :: bs => b.toNat + 256 * toNatLE bs

/-- The `w` low bytes of a number, the highest first. -/
def ofNatBE (w n : Nat) : Bytes := (ofNatLE w n).reverse

/-- The number with these bytes, the highest first. -/
def toNatBE (bs : Bytes) : Nat := toNatLE bs.reverse

@[simp] theorem length_ofNatLE (w n : Nat) : (ofNatLE w n).length = w := by
  induction w generalizing n with
  | zero => rfl
  | succ w ih => rw [ofNatLE, length_cons, ih]

@[simp] theorem length_ofNatBE (w n : Nat) : (ofNatBE w n).length = w := by
  rw [ofNatBE, length_reverse, length_ofNatLE]

variable {w n offset len : Nat}

theorem toNatLE_ofNatLE (h : n < 256 ^ w) : toNatLE (ofNatLE w n) = n := by
  induction w generalizing n with
  | zero =>
    rw [pow_zero, lt_one_iff] at h
    rw [h]
    rfl
  | succ w ih =>
    have hdiv : n / 256 < 256 ^ w := Nat.div_lt_of_lt_mul (by rwa [pow_succ'] at h)
    rw [ofNatLE, toNatLE, ih hdiv, UInt8.toNat_ofNat']
    exact Nat.mod_add_div n 256

theorem toNatBE_ofNatBE (h : n < 256 ^ w) : toNatBE (ofNatBE w n) = n := by
  rw [toNatBE, ofNatBE, reverse_reverse, toNatLE_ofNatLE h]

/-- The bytes of a number that is put together from two. -/
theorem ofNatLE_add (v w n m : Nat) (h : n < 256 ^ v) :
    ofNatLE (v + w) (n + 256 ^ v * m) = ofNatLE v n ++ ofNatLE w m := by
  induction v generalizing n with
  | zero =>
    rw [pow_zero, lt_one_iff] at h
    rw [h, pow_zero, one_mul, zero_add, zero_add]
    rfl
  | succ v ih =>
    have hdiv : n / 256 < 256 ^ v := Nat.div_lt_of_lt_mul (by rwa [pow_succ'] at h)
    have hpow : 256 ^ (v + 1) * m = 256 * (256 ^ v * m) := by rw [pow_succ', Nat.mul_assoc]
    have hlow : UInt8.ofNat (n + 256 ^ (v + 1) * m) = UInt8.ofNat n := by
      rw [← UInt8.toNat_inj, UInt8.toNat_ofNat', UInt8.toNat_ofNat', hpow]
      exact add_mul_mod_self_left ..
    have hhigh : (n + 256 ^ (v + 1) * m) / 256 = n / 256 + 256 ^ v * m := by
      rw [hpow]
      exact add_mul_div_left n _ (by decide)
    rw [add_right_comm, ofNatLE, hlow, hhigh, ih _ hdiv]
    rfl

theorem ofNatLE_toNatLE (bs : Bytes) : ofNatLE bs.length (toNatLE bs) = bs := by
  induction bs with
  | nil => rfl
  | cons b bs ih =>
    have hb := b.toNat_lt
    have hlow : UInt8.ofNat (b.toNat + 256 * toNatLE bs) = b := by
      rw [← UInt8.toNat_inj, UInt8.toNat_ofNat', add_mul_mod_self_left, mod_eq_of_lt hb]
    have hhigh : (b.toNat + 256 * toNatLE bs) / 256 = toNatLE bs := by
      rw [add_mul_div_left _ _ (by decide), div_eq_of_lt hb, zero_add]
    rw [length_cons, toNatLE, ofNatLE, hlow, hhigh, ih]

theorem ofNatBE_toNatBE {bs : Bytes} (h : bs.length = w) : ofNatBE w (toNatBE bs) = bs := by
  rw [ofNatBE, toNatBE, ← h, ← length_reverse, ofNatLE_toNatLE, reverse_reverse]

theorem toNatLE_append (a b : Bytes) :
    toNatLE (a ++ b) = toNatLE a + 256 ^ a.length * toNatLE b := by
  induction a with
  | nil => simp [toNatLE]
  | cons x a ih =>
    rw [cons_append, toNatLE, toNatLE, ih, length_cons, pow_succ']
    ring

theorem toNatBE_append (a b : Bytes) :
    toNatBE (a ++ b) = toNatBE b + 256 ^ b.length * toNatBE a := by
  rw [toNatBE, reverse_append, toNatLE_append, length_reverse]
  rfl

theorem toNatLE_lt (bs : Bytes) : toNatLE bs < 256 ^ bs.length := by
  induction bs with
  | nil => exact one_pos
  | cons b bs ih =>
    have hb := b.toNat_lt
    rw [toNatLE, length_cons, pow_succ']
    omega

theorem toNatBE_lt (bs : Bytes) : toNatBE bs < 256 ^ bs.length := by
  rw [toNatBE, ← length_reverse]
  exact toNatLE_lt _

/-! ## Parts -/

def slice (bs : Bytes) (offset len : Nat) : Bytes := (bs.drop offset).take len

theorem slice_append_left {a b : Bytes} (h : offset + len ≤ a.length) :
    slice (a ++ b) offset len = slice a offset len := by
  unfold slice
  rw [drop_append_of_le_length (by omega), take_append_of_le_length]
  rw [length_drop]
  omega

theorem slice_append_right {a b : Bytes} (h : a.length ≤ offset) :
    slice (a ++ b) offset len = slice b (offset - a.length) len := by
  unfold slice
  rw [drop_append, drop_eq_nil_of_le h, nil_append]

theorem slice_self {a : Bytes} (h : a.length = len) : slice a 0 len = a :=
  take_of_length_le (le_of_eq h)

/-- `rest` is what `bs` holds from `offset` on. -/
structure At (bs : Bytes) (offset : Nat) (rest : Bytes) : Prop where
  drop_eq : bs.drop offset = rest
  le : offset ≤ bs.length

namespace At

variable {bs b rest : Bytes} {offset : Nat}

theorem start (h : bs = rest) : At bs 0 rest := ⟨h, zero_le _⟩

theorem length_eq (h : At bs offset rest) : bs.length = offset + rest.length := by
  have := h.le
  rw [← h.drop_eq, length_drop]
  omega

theorem skip {next : Nat} (h : At bs offset (b ++ rest)) (hnext : offset + b.length = next) :
    At bs next rest := by
  subst hnext
  refine ⟨?_, ?_⟩
  · rw [← drop_drop, h.drop_eq, drop_left]
  · rw [h.length_eq, length_append]
    omega

theorem slice {len : Nat} (h : At bs offset (b ++ rest)) (hlen : b.length = len) :
    slice bs offset len = b ∧ offset + len ≤ bs.length := by
  subst hlen
  refine ⟨?_, ?_⟩
  · rw [Bytes.slice, h.drop_eq, take_left]
  · rw [h.length_eq, length_append]
    omega

end At

end Bytes
