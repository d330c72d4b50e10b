import MadNet.Lib.Bytes

/-!
# A memory of bytes

Byte addressed, with words of 32 bytes of which the highest byte comes first. Of a memory after a
write one either reads what was written or, elsewhere, what was there before.
-/

abbrev Memory := Nat → UInt8

namespace Memory

open Bytes List Nat

variable (m : Memory)

def read (a n : Nat) : Bytes := (List.range n).map fun i => m (a + i)

def write (a : Nat) (bs : Bytes) : Memory := fun i => if i < a then m i else bs.getD (i - a) (m i)

def mload (a : Nat) : Nat := toNatBE (m.read a 32)

def mstore (a v : Nat) : Memory := m.write a (ofNatBE 32 v)

def mstore8 (a : Nat) (b : UInt8) : Memory := m.write a [b]

variable {m}

@[simp] theorem length_read (a n : Nat) : (m.read a n).length = n := by simp [read]

variable {a n i b v k : Nat}

@[simp] theorem getElem_read (h : i < (m.read a n).length) : (m.read a n)[i] = m (a + i) := by
  simp [read]

/-- Two memories are read alike where they have the same bytes. -/
theorem read_congr {m' : Memory} (h : ∀ i < n, m (a + i) = m' (b + i)) : m.read a n = m'.read b n :=
  map_congr_left fun i hi => h i (mem_range.mp hi)

theorem read_add (a n k : Nat) : m.read a (n + k) = m.read a n ++ m.read (a + n) k := by
  rw [read, range_add, map_append, map_map]
  congr 1
  refine map_congr_left fun i _ => ?_
  rw [Function.comp_apply, add_assoc]

theorem slice_read {offset len : Nat} (h : offset + len ≤ n) :
    slice (m.read a n) offset len = m.read (a + offset) len := by
  obtain ⟨rest, rfl⟩ := Nat.exists_eq_add_of_le h
  rw [Nat.add_assoc, read_add, slice_append_right (by simp), read_add, slice_append_left (by simp)]
  rw [length_read, Nat.sub_self, slice_self (length_read ..)]

variable {bs : Bytes}

theorem write_of_lt (h : i < a) : m.write a bs i = m i := if_pos h

theorem write_of_le (h : a + bs.length ≤ i) : m.write a bs i = m i := by
  rw [write, if_neg (by omega), getD_eq_default _ _ (by omega)]

theorem write_add (h : i < bs.length) : m.write a bs (a + i) = bs[i] := by
  rw [write, if_neg (by omega), Nat.add_sub_cancel_left, getD_eq_getElem _ _ h]

theorem read_write_self (h : bs.length = n) : (m.write a bs).read a n = bs := by
  apply ext_getElem (by simp [h])
  intro i h₁ h₂
  rw [getElem_read]
  exact write_add h₂

theorem read_write_of_disjoint (h : b + n ≤ a ∨ a + bs.length ≤ b) :
    (m.write a bs).read b n = m.read b n := by
  apply read_congr
  intro i hi
  rcases h with h | h
  · exact write_of_lt (by omega)
  · exact write_of_le (by omega)

theorem write_append (a : Nat) (bs cs : Bytes) :
    m.write a (bs ++ cs) = (m.write a bs).write (a + bs.length) cs := by
  funext i
  by_cases hlt : i < a + bs.length
  · rw [write_of_lt hlt]
    by_cases ha : i < a
    · rw [write_of_lt ha, write_of_lt ha]
    · obtain ⟨j, rfl⟩ := Nat.exists_eq_add_of_le (Nat.le_of_not_lt ha)
      rw [write_add (by simp; omega), write_add (by omega), getElem_append_left (by omega)]
  · obtain ⟨j, rfl⟩ := Nat.exists_eq_add_of_le (Nat.le_of_not_lt hlt)
    by_cases hj : j < cs.length
    · rw [write_add hj, Nat.add_assoc, write_add (by simp; omega), getElem_append_right (by omega)]
      simp
    · have hle : a + (bs ++ cs).length ≤ a + bs.length + j := by
        rw [length_append]
        omega
      rw [write_of_le hle, write_of_le (by omega), write_of_le (by omega)]

/-! ## Words -/

theorem mload_lt (a : Nat) : m.mload a < 2 ^ 256 := by
  have h := toNatBE_lt (m.read a 32)
  rw [length_read] at h
  exact h

theorem mload_mstore (hv : v < 2 ^ 256) : (m.mstore a v).mload a = v := by
  rw [mload, mstore, read_write_self (length_ofNatBE ..)]
  exact toNatBE_ofNatBE hv

theorem mload_write_of_disjoint (h : b + 32 ≤ a ∨ a + bs.length ≤ b) :
    (m.write a bs).mload b = m.mload b := by
  rw [mload, mload, read_write_of_disjoint h]

theorem mload_mstore_of_disjoint (h : b + 32 ≤ a ∨ a + 32 ≤ b) :
    (m.mstore a v).mload b = m.mload b :=
  mload_write_of_disjoint (by rwa [length_ofNatBE])

theorem mstore_mload (a b : Nat) : m.mstore a (m.mload b) = m.write a (m.read b 32) := by
  rw [mstore, mload, ofNatBE_toNatBE (length_read ..)]

/-! ## Words that are put together with a mask -/

theorem and_not_mask {w : Nat} (hv : v < 2 ^ w) (hk : k ≤ w) :
    v &&& (2 ^ w - 1 - (2 ^ k - 1)) = 2 ^ k * (v / 2 ^ k) := by
  have hmask : 2 ^ w - 1 - (2 ^ k - 1) = (2 ^ (w - k) - 1) <<< k := by
    have hle : 2 ^ k ≤ 2 ^ w := Nat.pow_le_pow_right (by decide) hk
    have hpos := Nat.two_pow_pos k
    rw [Nat.shiftLeft_eq, Nat.sub_mul, ← pow_add, Nat.sub_add_cancel hk]
    omega
  apply eq_of_testBit_eq
  intro i
  rw [hmask, testBit_and, testBit_shiftLeft, testBit_two_pow_sub_one, testBit_two_pow_mul,
    testBit_div_two_pow]
  by_cases hi : k ≤ i
  · by_cases hw : i < w
    · simp [hi, show i - k < w - k by omega]
    · have hhigh : v.testBit i = false :=
        Nat.testBit_lt_two_pow (Nat.lt_of_lt_of_le hv (Nat.pow_le_pow_right (by decide) (by omega)))
      simp [hi, hhigh]
  · simp [hi]

theorem and_mask_or (u k a : Nat) : (u &&& (2 ^ k - 1)) ||| 2 ^ k * a = u % 2 ^ k + 2 ^ k * a := by
  rw [Nat.and_two_pow_sub_one_eq_mod, Nat.or_comm,
    ← Nat.two_pow_add_eq_or_of_lt (Nat.mod_lt _ (Nat.two_pow_pos k)), Nat.add_comm]

/-- The high part of one word with the low part of another. -/
theorem mask_or_mask {u : Nat} (hv : v < 2 ^ 256) (hk : k ≤ 32) :
    (u &&& (256 ^ k - 1)) ||| (v &&& (2 ^ 256 - 1 - (256 ^ k - 1))) = u % 256 ^ k + 256 ^ k *
      (v / 256 ^ k) := by
  have hpow : 256 ^ k = 2 ^ (8 * k) := by
    rw [pow_mul]
    norm_num
  rw [hpow, and_not_mask hv (by omega), and_mask_or]

theorem mload_eq (h : n + k = 32) (a : Nat) :
    m.mload a = toNatBE (m.read (a + n) k) + 256 ^ k * toNatBE (m.read a n) := by
  rw [mload, ← h, read_add, toNatBE_append, length_read]

theorem read_lt (a k : Nat) : toNatBE (m.read a k) < 256 ^ k := by
  have h := toNatBE_lt (m.read a k)
  rwa [length_read] at h

/-- The first `n` bytes of one word and the others of another. -/
theorem mstore_mask (h : n + k = 32) (a b c : Nat) :
    m.mstore c ((m.mload a &&& (256 ^ k - 1)) ||| (m.mload b &&& (2 ^ 256 - 1 - (256 ^ k - 1)))) =
      m.write c (m.read b n ++ m.read (a + n) k) := by
  have hmod : m.mload a % 256 ^ k = toNatBE (m.read (a + n) k) := by
    rw [mload_eq h, add_mul_mod_self_left, mod_eq_of_lt (read_lt ..)]
  have hdiv : m.mload b / 256 ^ k = toNatBE (m.read b n) := by
    rw [mload_eq h, Nat.add_mul_div_left _ _ (Nat.pow_pos (by decide)),
      Nat.div_eq_of_lt (read_lt ..), Nat.zero_add]
  have happend : toNatBE (m.read b n ++ m.read (a + n) k) =
      toNatBE (m.read (a + n) k) + 256 ^ k * toNatBE (m.read b n) := by
    rw [toNatBE_append, length_read]
  rw [mask_or_mask (mload_lt b) (by omega), hmod, hdiv, ← happend, mstore, ofNatBE_toNatBE]
  rw [length_append, length_read, length_read, h]

end Memory
