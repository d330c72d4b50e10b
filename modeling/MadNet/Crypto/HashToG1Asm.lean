import MadNet.Crypto.HashToG1
import MadNet.Lib.Memory

/-!
# `hashToG1ASM` of `CryptoLibrary.sol`

The functions of the assembly block work on the memory, in the free part of which they build the
inputs of `keccak256` and of the precompiles. A call that is reverted gives its text. The precompile
for modular exponentiation does not fail.
-/

namespace MadNet.Crypto

open List Prog CryptoLibrary Nat
open Bridge (FIELD_MODULUS Point)
open FouqueTibouchi (rhs alpha x₁ x₂ x₃)
open Bytes (slice toNatBE ofNatBE)

namespace Asm

/-! ## Instructions and precompiles -/

/-- `sub`, modulo 2²⁵⁶. -/
def sub (a b : Nat) : Nat := (a + 2 ^ 256 - b) % 2 ^ 256

/-- The precompile at 0x05, for an input that is as long as its three lengths say. -/
def modexp (input : Bytes) : Bytes :=
  let baseLength := toNatBE (slice input 0 32)
  let exponentLength := toNatBE (slice input 0x20 32)
  let modulusLength := toNatBE (slice input 0x40 32)
  let base := toNatBE (slice input 0x60 baseLength)
  let exponent := toNatBE (slice input (0x60 + baseLength) exponentLength)
  let modulus := toNatBE (slice input (0x60 + baseLength + exponentLength) modulusLength)
  ofNatBE modulusLength (if modulus = 0 then 0
    else Lucas.powMod base modulus (8 * exponentLength) exponent)

/-- The precompile at 0x06. -/
def bn256Add (input : Bytes) : Option Bytes :=
  let word (i : Nat) : Nat := toNatBE (slice input (0x20 * i) 32)
  match ecAdd (word 0, word 1) (word 2, word 3) with
  | some (x, y) => some (ofNatBE 32 x ++ ofNatBE 32 y)
  | none => none

/-- `staticcall(gas(), 0x05, ptr, 0xc0, fp, 0x20)`. -/
def callModexp (mem : Memory) (ptr fp : Nat) : Memory :=
  mem.write fp ((modexp (mem.read ptr 0xc0)).take 0x20)

/-! ## The functions of the block -/

/-- The loop of `memCopy`, which runs as long as there is a whole word to copy. -/
def memCopyWords : Nat → Memory → Nat → Nat → Memory
  | 0, mem, _, _ => mem
  | n + 1, mem, dest, src => memCopyWords n (mem.mstore dest (mem.mload src)) (dest + 32) (src + 32)

def memCopy (mem : Memory) (dest src len : Nat) : Except String Memory :=
  if len < 32 then .error "invalid len"
  else
    let words := len / 32
    let mem := memCopyWords words mem dest src
    let dest := dest + 32 * words
    let src := src + 32 * words
    let len := len % 32
    if len = 0 then .ok mem
    else
      let mask := 256 ^ (32 - len) - 1
      let srcpart := mem.mload src &&& (2 ^ 256 - 1 - mask)
      let destpart := mem.mload dest &&& mask
      .ok (mem.mstore dest (destpart ||| srcpart))

def bn128IsOnCurve (p0 p1 : Nat) : Bool :=
  let o1 := addmod (mulmod p0 (mulmod p0 p0 FIELD_MODULUS) FIELD_MODULUS) 3 FIELD_MODULUS
  let o2 := mulmod p1 p1 FIELD_MODULUS
  o1 = o2

def xThree (x : Nat) : Nat :=
  addmod (mulmod (mulmod x x FIELD_MODULUS) x FIELD_MODULUS) 3 FIELD_MODULUS

/-- Stores the base, calls the precompile and gives the root the sign: `y`, with the memory. -/
def signedRoot (mem : Memory) (ptr x_three ymul : Nat) : Nat × Memory :=
  let fp := ptr + 0xc0
  let mem := mem.mstore (ptr + 0x60) x_three
  let mem := callModexp mem ptr fp
  (mulmod (mem.mload fp) ymul FIELD_MODULUS, mem)

/-- Stores the point. -/
def putPoint (mem : Memory) (output x y : Nat) : Memory :=
  (mem.mstore output x).mstore (output + 0x20) y

def invertAlpha (mem : Memory) (ptr t : Nat) : Nat × Memory :=
  let fp := ptr + 0xc0
  let ap1 := mulmod t t FIELD_MODULUS
  let alpha := mulmod ap1 (addmod ap1 HASH_CONST_4 FIELD_MODULUS) FIELD_MODULUS
  let mem := mem.mstore (ptr + 0x60) alpha
  let mem := mem.mstore (ptr + 0x80) P_MINUS2
  let mem := callModexp mem ptr fp
  (mem.mload fp, mem)

def firstX (t alpha : Nat) : Nat :=
  let ap1 := mulmod t t FIELD_MODULUS
  let ap1 := mulmod ap1 ap1 FIELD_MODULUS
  let x := mulmod (mulmod ap1 HASH_CONST_2 FIELD_MODULUS) alpha FIELD_MODULUS
  addmod (sub FIELD_MODULUS x) HASH_CONST_1 FIELD_MODULUS

/-- `x` for the second root, from that for the first; it is not reduced. -/
def secondX (x : Nat) : Nat := sub FIELD_MODULUS (addmod x 1 FIELD_MODULUS)

def thirdX (t alpha : Nat) : Nat :=
  let ap1 := addmod (mulmod t t FIELD_MODULUS) 4 FIELD_MODULUS
  let x := mulmod (mulmod ap1 ap1 FIELD_MODULUS) ap1 FIELD_MODULUS
  let x := mulmod (mulmod x HASH_CONST_3 FIELD_MODULUS) alpha FIELD_MODULUS
  addmod (sub FIELD_MODULUS x) 1 FIELD_MODULUS

def baseToG1 (mem : Memory) (ptr t output : Nat) : Memory :=
  let (alpha, mem) := invertAlpha mem ptr t
  let x := firstX t alpha
  let mem := mem.mstore (ptr + 0x80) P_PLUS1_OVER4
  let ymul := if P_MINUS1_OVER2 < t then P_MINUS1 else 1
  let (y, mem) := signedRoot mem ptr (xThree x) ymul
  if xThree x = mulmod y y FIELD_MODULUS then putPoint mem output x y
  else
    let x := secondX x
    let (y, mem) := signedRoot mem ptr (xThree x) ymul
    if xThree x = mulmod y y FIELD_MODULUS then putPoint mem output x y
    else
      let x := thirdX t alpha
      let (y, mem) := signedRoot mem ptr (xThree x) ymul
      putPoint mem output x y

/-- The byte for the separation of the domains is put before the message, which has been copied
already. -/
def hashWith (keccak256 : Bytes → Nat) (mem : Memory) (ptr size : Nat) (c : UInt8) : Nat × Memory :=
  let mem := mem.mstore8 ptr c
  (keccak256 (mem.read ptr size), mem)

def require (p : Bool) (text : String) : Except String Unit := if p then .ok () else .error text

/-- The last checks; what passes them is stored. -/
def putSafePoint (mem : Memory) (output x y : Nat) : Except String Memory := do
  require (bn128IsOnCurve x y) "x2 y2 not in curve"
  require (!(decide (x = 0) || decide (y = 1))) "point not safe to sign"
  return putPoint mem output x y

def hashToG1 (keccak256 : Bytes → Nat) (mem : Memory) (ptr messageptr messagesize output : Nat) :
    Except String Memory := do
  let size := messagesize + 1
  let mem ← memCopy mem (ptr + 1) messageptr messagesize
  let (h0, mem) := hashWith keccak256 mem ptr size 0x00
  let (h1, mem) := hashWith keccak256 mem ptr size 0x01
  let (h2, mem) := hashWith keccak256 mem ptr size 0x02
  let (h3, mem) := hashWith keccak256 mem ptr size 0x03
  let mem := mem.mstore ptr 0x20
  let mem := mem.mstore (ptr + 0x20) 0x20
  let mem := mem.mstore (ptr + 0x40) 0x20
  let mem := mem.mstore (ptr + 0xa0) FIELD_MODULUS
  let h1 := addmod h1 (mulmod h0 TWO_256_MOD_P FIELD_MODULUS) FIELD_MODULUS
  let h2 := addmod h3 (mulmod h2 TWO_256_MOD_P FIELD_MODULUS) FIELD_MODULUS
  let mem := baseToG1 mem ptr h1 output
  let x1 := mem.mload output
  let y1 := mem.mload (output + 0x20)
  require (bn128IsOnCurve x1 y1) "x1 y1 not in curve"
  let mem := baseToG1 mem ptr h2 output
  let x2 := mem.mload output
  let y2 := mem.mload (output + 0x20)
  require (bn128IsOnCurve x2 y2) "x2 y2 not in curve"
  let mem := putPoint (putPoint mem ptr x1 y1) (ptr + 0x40) x2 y2
  match bn256Add (mem.read ptr 128) with
  | none => .error "bn256 add failed"
  | some result =>
    let mem := mem.write ptr (result.take 64)
    let x := mem.mload ptr
    let y := mem.mload (ptr + 0x20)
    putSafePoint mem output x y

end Asm

/-- The point that is at `h` when the block is left; `message` and `h` are pointers. -/
def CryptoLibrary.hashToG1ASM (keccak256 : Bytes → Nat) (mem : Memory) (message h : Nat) :
    Except String Point := do
  let messageptr := message + 0x20
  let messagesize := mem.mload message
  let ptr := mem.mload 0x40
  let mem ← Asm.hashToG1 keccak256 mem ptr messageptr messagesize h
  return (mem.mload h, mem.mload (h + 0x20))

namespace Asm

open Memory

/-! ## Copying the message -/

variable {mem : Memory}

variable {n dest src i x ptr base exponent output y : Nat}

theorem memCopyWords_of_lt (h : i < dest) : memCopyWords n mem dest src i = mem i := by
  induction n generalizing mem dest src with
  | zero => rfl
  | succ n ih =>
    rw [memCopyWords, ih (by omega)]
    exact write_of_lt h

theorem memCopyWords_add (h : src + 32 * n ≤ dest) (hi : i < 32 * n) :
    memCopyWords n mem dest src (dest + i) = mem (src + i) := by
  induction n generalizing mem dest src i with
  | zero => omega
  | succ n ih =>
    rw [memCopyWords, mstore_mload]
    by_cases hword : i < 32
    · -- the byte is in the word that is copied first
      rw [memCopyWords_of_lt (by omega), write_add (by simpa using hword), getElem_read]
    · obtain ⟨j, rfl⟩ := Nat.exists_eq_add_of_le (Nat.le_of_not_lt hword)
      rw [← Nat.add_assoc, ih (by omega) (by omega), write_of_lt (by omega), Nat.add_assoc]

/-- The message is copied to where it is not yet, and nothing below that changes. -/
theorem memCopy_spec {len : Nat} (hlen : 32 ≤ len) (h : src + len ≤ dest) :
    ∃ mem', memCopy mem dest src len = .ok mem' ∧ mem'.read dest len = mem.read src len ∧
      ∀ i < dest, mem' i = mem i := by
  have hread : ∀ i < 32 * (len / 32), memCopyWords (len / 32) mem dest src (dest + i) =
    mem (src + i) :=
    fun i hi => memCopyWords_add (by omega) hi
  rw [memCopy, if_neg (not_lt.mpr hlen)]
  dsimp only
  split
  next hrest =>
    refine ⟨_, rfl, read_congr fun i hi => hread i (by omega), fun i hi => memCopyWords_of_lt hi⟩
  next hrest =>
    rw [mstore_mask (n := len % 32) (by omega)]
    refine ⟨_, rfl, read_congr fun i hi => ?_, fun i hi => ?_⟩
    · by_cases hword : i < 32 * (len / 32)
      · rw [write_of_lt (by omega), hread i hword]
      · obtain ⟨j, rfl⟩ := Nat.exists_eq_add_of_le (Nat.le_of_not_lt hword)
        rw [← Nat.add_assoc, write_add (by simp; omega), getElem_append_left (by simp; omega),
          getElem_read, memCopyWords_of_lt (by omega), Nat.add_assoc]
    · rw [write_of_lt (by omega), memCopyWords_of_lt hi]

/-! ## The input of the precompile -/

/-- The six words from `ptr` on. -/
structure Slots (mem : Memory) (ptr base exponent : Nat) : Prop where
  baseLength : mem.mload ptr = 32
  exponentLength : mem.mload (ptr + 0x20) = 32
  modulusLength : mem.mload (ptr + 0x40) = 32
  base : mem.mload (ptr + 0x60) = base
  exponent : mem.mload (ptr + 0x80) = exponent
  modulus : mem.mload (ptr + 0xa0) = FIELD_MODULUS

namespace Slots

variable {mem : Memory} {ptr base exponent : Nat}

/-- A word is stored outside the slots, or where the base or the exponent is. -/
theorem store (h : Slots mem ptr base exponent) {a v b e : Nat}
    (ha : a + 32 ≤ ptr ∨ ptr + 0xc0 ≤ a ∨ ptr + 0x60 ≤ a ∧ a + 32 ≤ ptr + 0xa0)
    (hb : (mem.mstore a v).mload (ptr + 0x60) = b) (he : (mem.mstore a v).mload (ptr + 0x80) = e) :
    Slots (mem.mstore a v) ptr b e where
  baseLength := by rw [mload_mstore_of_disjoint (by omega), h.baseLength]
  exponentLength := by rw [mload_mstore_of_disjoint (by omega), h.exponentLength]
  modulusLength := by rw [mload_mstore_of_disjoint (by omega), h.modulusLength]
  base := hb
  exponent := he
  modulus := by rw [mload_mstore_of_disjoint (by omega), h.modulus]

theorem mstore_of_disjoint (h : Slots mem ptr base exponent) {a v : Nat}
    (ha : a + 32 ≤ ptr ∨ ptr + 0xc0 ≤ a) :
    Slots (mem.mstore a v) ptr base exponent :=
  h.store (by omega) (by rw [mload_mstore_of_disjoint (by omega), h.base])
    (by rw [mload_mstore_of_disjoint (by omega), h.exponent])

theorem setBase (h : Slots mem ptr base exponent) {v : Nat} (hv : v < FIELD_MODULUS) :
    Slots (mem.mstore (ptr + 0x60) v) ptr v exponent :=
  h.store (by omega) (mload_mstore (lt_trans hv (by decide)))
    (by rw [mload_mstore_of_disjoint (by omega), h.exponent])

theorem setExponent (h : Slots mem ptr base exponent) {v : Nat} (hv : v < 2 ^ 256) :
    Slots (mem.mstore (ptr + 0x80) v) ptr base v :=
  h.store (by omega) (by rw [mload_mstore_of_disjoint (by omega), h.base]) (mload_mstore hv)

theorem modexp_eq (h : Slots mem ptr base exponent) :
    modexp (mem.read ptr 0xc0) = ofNatBE 32 (expmod base exponent FIELD_MODULUS) := by
  have hword : ∀ {i v : Nat}, mem.mload (ptr + i) = v → i + 32 ≤ 0xc0 →
      toNatBE (slice (mem.read ptr 0xc0) i 32) = v := by
    intro i v hv hi
    rw [slice_read hi]
    exact hv
  have h₁ := hword (i := 0) h.baseLength (by decide)
  have h₂ := hword h.exponentLength (by decide)
  have h₃ := hword h.modulusLength (by decide)
  rw [modexp, h₁, h₂, h₃, hword h.base (by decide), hword h.exponent (by decide),
    hword h.modulus (by decide)]
  rfl

/-- The precompile stores the power. -/
theorem callModexp_eq (h : Slots mem ptr base exponent) (fp : Nat) :
    callModexp mem ptr fp = mem.mstore fp (expmod base exponent FIELD_MODULUS) := by
  rw [callModexp, h.modexp_eq, take_of_length_le (by simp), mstore]

end Slots

theorem xThree_lt (x : Nat) : xThree x < FIELD_MODULUS := addmod_lt _ _

theorem cast_xThree (x : Nat) : ((xThree x : Nat) : Fp) = rhs 3 (x : Fp) := cast_curveRhs x

theorem sub_spec (hx : x ≤ FIELD_MODULUS) :
    sub FIELD_MODULUS x ≤ FIELD_MODULUS ∧ ((sub FIELD_MODULUS x : Nat) : Fp) = -(x : Fp) := by
  have hlt : FIELD_MODULUS < 2 ^ 256 := by decide
  have heq : sub FIELD_MODULUS x = FIELD_MODULUS - x := by
    rw [sub, show FIELD_MODULUS + 2 ^ 256 - x = FIELD_MODULUS - x + 2 ^ 256 by omega, add_mod_right,
      mod_eq_of_lt (by omega)]
  rw [heq]
  exact ⟨sub_le _ _, by rw [cast_sub hx, ZMod.natCast_self, zero_sub]⟩

/-- The root is a root if there is one, whatever its sign. -/
theorem signedRoot_spec {ymul : Nat} {t : Fp} (h : Slots mem ptr base P_PLUS1_OVER4)
    (hymul : (ymul : Fp) = sign t) : ∃ y mem', signedRoot mem ptr (xThree x) ymul = (y, mem') ∧
      Slots mem' ptr (xThree x) P_PLUS1_OVER4 ∧ y < FIELD_MODULUS ∧
      (y : Fp) = rhs 3 (x : Fp) ^ P_PLUS1_OVER4 * sign t ∧
      (xThree x = mulmod y y FIELD_MODULUS ↔ IsSquare (rhs 3 (x : Fp))) := by
  have hset := h.setBase (xThree_lt x)
  have hexp : P_PLUS1_OVER4 < 2 ^ 256 := by decide
  have hlt := expmod_lt (xThree x) hexp
  have hcast := cast_expmod (xThree x) hexp
  rw [signedRoot, hset.callModexp_eq]
  generalize expmod (xThree x) P_PLUS1_OVER4 FIELD_MODULUS = r at hlt hcast
  rw [mload_mstore (lt_trans hlt (by decide))]
  have hy : ((mulmod r ymul FIELD_MODULUS : Nat) : Fp) = rhs 3 (x : Fp) ^ P_PLUS1_OVER4 *
    sign t := by
    rw [cast_mulmod, hcast, cast_xThree, hymul]
  refine ⟨_, _, rfl, hset.mstore_of_disjoint (by omega), mulmod_lt _ _, hy, ?_⟩
  have hsq :
    ((mulmod (mulmod r ymul FIELD_MODULUS) (mulmod r ymul FIELD_MODULUS)
    FIELD_MODULUS : Nat) : Fp) =
      (rhs 3 (x : Fp) ^ P_PLUS1_OVER4) ^ 2 := by
    rw [cast_mulmod, hy, ← pow_two, mul_pow, sign_sq, mul_one]
  constructor
  · intro heq
    refine ⟨rhs 3 (x : Fp) ^ P_PLUS1_OVER4, ?_⟩
    rw [← pow_two, ← hsq, ← heq, cast_xThree]
  · intro hsquare
    exact natCast_inj (xThree_lt x) (mulmod_lt _ _)
      (by rw [hsq, cast_xThree, pow_P_PLUS1_OVER4_sq hsquare])

theorem putPoint_spec (h : Slots mem ptr base exponent)
    (hout : output + 0x40 ≤ ptr) (hx : x < FIELD_MODULUS) (hy : y < FIELD_MODULUS) :
    Slots (putPoint mem output x y) ptr base exponent ∧ (putPoint mem output x y).mload output = x ∧
      (putPoint mem output x y).mload (output + 0x20) = y := by
  have hp : FIELD_MODULUS < 2 ^ 256 := by decide
  refine ⟨(h.mstore_of_disjoint (by omega)).mstore_of_disjoint (by omega), ?_,
    mload_mstore (by omega)⟩
  rw [putPoint, mload_mstore_of_disjoint (by omega), mload_mstore (by omega)]

theorem invertAlpha_spec (h : Slots mem ptr base exponent) (t : Nat) :
    ∃ a mem' base', invertAlpha mem ptr t = (a, mem') ∧ Slots mem' ptr base' P_MINUS2 ∧
      (a : Fp) = alpha 3 (t : Fp) := by
  have hexp : P_MINUS2 < 2 ^ 256 := by decide
  have hset := (h.setBase (mulmod_lt (mulmod t t FIELD_MODULUS)
    (addmod (mulmod t t FIELD_MODULUS) HASH_CONST_4 FIELD_MODULUS))).setExponent hexp
  rw [invertAlpha, hset.callModexp_eq, mload_mstore (lt_trans (expmod_lt _ hexp) (by decide))]
  refine ⟨_, _, _, rfl, hset.mstore_of_disjoint (by omega), ?_⟩
  rw [← invert, cast_invert, cast_mulmod, cast_addmod, cast_mulmod, cast_HASH_CONST_4,
    alpha, pow_two]

section Candidates

variable {t a : Nat} (ha : (a : Fp) = alpha 3 (t : Fp))
include ha

theorem firstX_spec : firstX t a < FIELD_MODULUS ∧
    ((firstX t a : Nat) : Fp) = x₁ 3 (HASH_CONST_2 : Fp) t := by
  refine ⟨addmod_lt _ _, ?_⟩
  rw [firstX, cast_addmod, (sub_spec (le_of_lt (mulmod_lt _ _))).2]
  simp only [cast_mulmod]
  rw [ha, cast_HASH_CONST_1, x₁]
  ring

theorem secondX_spec : secondX (firstX t a) ≤ FIELD_MODULUS ∧
    ((secondX (firstX t a) : Nat) : Fp) = x₂ 3 (HASH_CONST_2 : Fp) t := by
  obtain ⟨hle, hcast⟩ := sub_spec (le_of_lt (addmod_lt (firstX t a) 1))
  refine ⟨hle, ?_⟩
  rw [secondX, hcast, cast_addmod, (firstX_spec ha).2, cast_one, x₂]
  ring

theorem thirdX_spec : thirdX t a < FIELD_MODULUS ∧ ((thirdX t a : Nat) : Fp) = x₃ 3 (t : Fp) := by
  refine ⟨addmod_lt _ _, ?_⟩
  rw [thirdX, cast_addmod, (sub_spec (le_of_lt (mulmod_lt _ _))).2]
  simp only [cast_mulmod, cast_addmod]
  rw [ha, cast_HASH_CONST_3, x₃]
  ring

end Candidates

/-- What is left to do with a candidate that has been found right. -/
theorem putPoint_base {t : Fp} (h : Slots mem ptr base P_PLUS1_OVER4)
    (hout : output + 0x40 ≤ ptr) (hx : x < FIELD_MODULUS) (hcast : (x : Fp) = baseX t)
    (hy : y < FIELD_MODULUS)
    (hroot : (y : Fp) = rhs 3 (x : Fp) ^ P_PLUS1_OVER4 * sign t) :
    ∃ base', Slots (putPoint mem output x y) ptr base' P_PLUS1_OVER4 ∧
      (putPoint mem output x y).mload output = (marshal (basePoint t)).1 ∧
      (putPoint mem output x y).mload (output + 0x20) = (marshal (basePoint t)).2 := by
  obtain ⟨hslots, hmx, hmy⟩ := putPoint_spec h hout hx hy
  rw [hcast, ← baseY] at hroot
  rw [basePoint, marshal_some]
  exact ⟨base, hslots, by rw [hmx, val_eq hx hcast], by rw [hmy, val_eq hy hroot]⟩

/-- The point of `t` is stored, and the input of the precompile stays ready. -/
theorem baseToG1_spec {t : Nat} (h : Slots mem ptr base exponent)
    (hout : output + 0x40 ≤ ptr) (ht : t < FIELD_MODULUS) :
    ∃ base', Slots (baseToG1 mem ptr t output) ptr base' P_PLUS1_OVER4 ∧
      (baseToG1 mem ptr t output).mload output = (marshal (basePoint t)).1 ∧
      (baseToG1 mem ptr t output).mload (output + 0x20) = (marshal (basePoint t)).2 := by
  classical
  have hymul : (((if P_MINUS1_OVER2 < t then P_MINUS1 else 1 : Nat) : Nat) : Fp) = sign t :=
    cast_sign0 t ht
  obtain ⟨a, mem0, base0, hinvert, hslots0, ha⟩ := invertAlpha_spec h t
  have hslots1 := hslots0.setExponent (show P_PLUS1_OVER4 < 2 ^ 256 by decide)
  obtain ⟨hlt1, hx₁⟩ := firstX_spec ha
  obtain ⟨hle2, hx2⟩ := secondX_spec ha
  obtain ⟨hlt3, hx3⟩ := thirdX_spec ha
  rw [baseToG1, hinvert]
  dsimp only
  obtain ⟨y₁, mem1, hroot1, hslots1, hylt1, hy₁, htest1⟩ :=
    signedRoot_spec (x := firstX t a) hslots1 hymul
  rw [hroot1]
  by_cases hsq1 : IsSquare (rhs 3 (x₁ 3 (HASH_CONST_2 : Fp) t))
  · have hbase : baseX t = x₁ 3 (HASH_CONST_2 : Fp) t := if_pos hsq1
    rw [if_pos (htest1.mpr (by rwa [hx₁]))]
    exact putPoint_base hslots1 hout hlt1 (hx₁.trans hbase.symm) hylt1 hy₁
  · rw [if_neg (fun htest => hsq1 (by rw [← hx₁]; exact htest1.mp htest))]
    obtain ⟨y₂, mem2, hroot2, hslots2, hylt2, hy2, htest2⟩ :=
      signedRoot_spec (x := secondX (firstX t a)) hslots1 hymul
    rw [hroot2]
    by_cases hsq2 : IsSquare (rhs 3 (x₂ 3 (HASH_CONST_2 : Fp) t))
    · have hbase : baseX t = x₂ 3 (HASH_CONST_2 : Fp) t := by
        rw [baseX, if_neg hsq1, if_pos hsq2]
      -- the modulus itself would stand for 0, which is not the coordinate of a point
      have hlt2 : secondX (firstX t a) < FIELD_MODULUS := by
        refine lt_of_le_of_ne hle2 fun heq => ?_
        obtain ⟨r, hr⟩ := hsq2
        refine x_ne_zero (y := r) (by rw [pow_two, ← hr]) ?_
        rw [← hx2, heq, ZMod.natCast_self]
      rw [if_pos (htest2.mpr (by rwa [hx2]))]
      exact putPoint_base hslots2 hout hlt2 (hx2.trans hbase.symm) hylt2 hy2
    · have hbase : baseX t = x₃ 3 (t : Fp) := by
        rw [baseX, if_neg hsq1, if_neg hsq2]
      rw [if_neg (fun htest => hsq2 (by rw [← hx2]; exact htest2.mp htest))]
      obtain ⟨y3, mem3, hroot3, hslots3, hylt3, hy3, -⟩ :=
        signedRoot_spec (x := thirdX t a) hslots2 hymul
      rw [hroot3]
      exact putPoint_base hslots3 hout hlt3 (hx3.trans hbase.symm) hylt3 hy3

theorem basePoint_ne_zero (t : Fp) : basePoint t ≠ 0 := nofun

/-! ## The whole block -/

theorem require_eq_ok {p : Bool} {text : String} {u : Unit} :
    require p text = .ok u ↔ p = true := by
  cases p <;> simp [require]

theorem require_true (text : String) : require true text = .ok () := rfl

theorem bn128IsOnCurve_eq (P : Point) : bn128IsOnCurve P.1 P.2 = Bridge.bn128IsOnCurve P := by
  exact decide_eq_decide.mpr eq_comm

theorem putSafePoint_eq_ok {mem' : Memory} : putSafePoint mem output x y = .ok mem' ↔
    bn128IsOnCurve x y = true ∧ x ≠ 0 ∧ y ≠ 1 ∧ mem' = putPoint mem output x y := by
  have hsafe : (!(decide (x = 0) || decide (y = 1))) = true ↔ x ≠ 0 ∧ y ≠ 1 := by
    rw [Bool.not_eq_true', Bool.or_eq_false_iff, decide_eq_false_iff_not, decide_eq_false_iff_not]
  constructor
  · intro h
    obtain ⟨_, _, hcurve, hchecked, h₂⟩ := bind₂_ok h
    obtain ⟨hx, hy⟩ := hsafe.mp (require_eq_ok.mp hchecked)
    exact ⟨require_eq_ok.mp hcurve, hx, hy, (Except.ok.inj h₂).symm⟩
  · rintro ⟨hcurve, hx, hy, rfl⟩
    exact bind_eq_ok.mpr ⟨(), require_eq_ok.mpr hcurve,
      bind_eq_ok.mpr ⟨(), require_eq_ok.mpr (hsafe.mpr ⟨hx, hy⟩), rfl⟩⟩

theorem hashWith_spec (keccak256 : Bytes → Nat) {message : Bytes}
    (h : mem.read (ptr + 1) n = message) (c : UInt8) :
    ∃ mem', hashWith keccak256 mem ptr (n + 1) c = (keccak256 (c :: message), mem') ∧
      mem'.read (ptr + 1) n = message := by
  have hkeep : (mem.mstore8 ptr c).read (ptr + 1) n = message := by
    rw [mstore8, read_write_of_disjoint (by simp), h]
  refine ⟨mem.mstore8 ptr c, ?_, hkeep⟩
  have hfirst : (mem.mstore8 ptr c).read ptr 1 = [c] := read_write_self rfl
  rw [hashWith, add_comm n 1, read_add, hkeep, hfirst, singleton_append]

theorem slots_mstore (mem : Memory) (ptr : Nat) :
    ∃ base exponent, Slots ((((mem.mstore ptr 0x20).mstore
    (ptr + 0x20) 0x20).mstore (ptr + 0x40) 0x20).mstore (ptr + 0xa0) FIELD_MODULUS) ptr
      base exponent := by
  refine ⟨_, _, ?_, ?_, ?_, rfl, rfl, mload_mstore (by decide)⟩
  · rw [mload_mstore_of_disjoint (by omega), mload_mstore_of_disjoint (by omega),
      mload_mstore_of_disjoint (by omega),
      mload_mstore (by decide)]
  · rw [mload_mstore_of_disjoint (by omega), mload_mstore_of_disjoint (by omega),
      mload_mstore (by decide)]
  · rw [mload_mstore_of_disjoint (by omega), mload_mstore (by decide)]

theorem mload_putPoint (mem : Memory) (a : Nat) (hx : x < 2 ^ 256) (hy : y < 2 ^ 256) :
    (putPoint mem a x y).mload a = x ∧ (putPoint mem a x y).mload (a + 0x20) = y := by
  refine ⟨?_, mload_mstore hy⟩
  rw [putPoint, mload_mstore_of_disjoint (by omega), mload_mstore hx]

theorem mload_putPoint_of_disjoint {a b : Nat} (h : b + 32 ≤ a ∨ a + 64 ≤ b) :
    (putPoint mem a x y).mload b = mem.mload b := by
  rw [putPoint, mload_mstore_of_disjoint (by omega), mload_mstore_of_disjoint (by omega)]

theorem marshal_lt (P : curve.Point) : (marshal P).1 < 2 ^ 256 ∧ (marshal P).2 < 2 ^ 256 := by
  have hp : FIELD_MODULUS < 2 ^ 256 := by decide
  cases P with
  | zero => exact ⟨Nat.two_pow_pos _, Nat.two_pow_pos _⟩
  | some x y h => exact ⟨Nat.lt_trans (ZMod.val_lt x) hp, Nat.lt_trans (ZMod.val_lt y) hp⟩

/-- The precompile reads the two points that have been stored, and their sum replaces the first one.
-/
theorem bn256Add_putPoint (mem : Memory) (ptr : Nat) (P Q : curve.Point) :
    bn256Add ((putPoint (putPoint mem ptr (marshal P).1 (marshal P).2) (ptr + 0x40) (marshal Q).1
      (marshal Q).2).read ptr 128) = some (ofNatBE 32 (marshal (P + Q)).1 ++ ofNatBE 32 (marshal
      (P + Q)).2) := by
  obtain ⟨hP1, hP2⟩ := marshal_lt P
  obtain ⟨hQ1, hQ2⟩ := marshal_lt Q
  generalize hmem' : putPoint (putPoint mem ptr (marshal P).1 (marshal P).2)
    (ptr + 0x40) (marshal Q).1
    (marshal Q).2 = mem'
  have hword : ∀ i < 4, toNatBE (slice (mem'.read ptr 128) (0x20 * i) 32) =
    mem'.mload (ptr + 0x20 * i) := by
    intro i hi
    rw [slice_read (by omega)]
    rfl
  have h₀ : mem'.mload (ptr + 0x20 * 0) = (marshal P).1 := by
    rw [← hmem', mload_putPoint_of_disjoint (by omega)]
    exact (mload_putPoint _ _ hP1 hP2).1
  have h₁ : mem'.mload (ptr + 0x20 * 1) = (marshal P).2 := by
    rw [← hmem', mload_putPoint_of_disjoint (by omega)]
    exact (mload_putPoint _ _ hP1 hP2).2
  have h₂ : mem'.mload (ptr + 0x20 * 2) = (marshal Q).1 := by
    rw [← hmem']
    exact (mload_putPoint _ _ hQ1 hQ2).1
  have h₃ : mem'.mload (ptr + 0x20 * 3) = (marshal Q).2 := by
    rw [← hmem']
    exact (mload_putPoint _ _ hQ1 hQ2).2
  rw [bn256Add]
  dsimp only
  rw [hword 0 (by decide), hword 1 (by decide), hword 2 (by decide), hword 3 (by decide), h₀, h₁,
    h₂, h₃, Prod.mk.eta,
    Prod.mk.eta, ecAdd_marshal]

/-- Where the message and the result are when the block is entered: both below the free memory. -/
structure Layout (mem : Memory) (message h : Nat) (m : Bytes) : Prop where
  size : mem.mload message = m.length
  bytes : mem.read (message + 0x20) m.length = m
  below : message + 0x20 + m.length ≤ mem.mload 0x40
  output : h + 0x40 ≤ mem.mload 0x40

theorem addmod_comm (x y k : Nat) : addmod x y k = addmod y x k := by rw [addmod, addmod, add_comm]

/-- The point is stored at `output` if it passes the last two checks. -/
theorem hashToG1_eq (keccak256 : Bytes → Nat) {messageptr : Nat} {message : Bytes}
    (hlen : 32 ≤ message.length) (hmessage : mem.read messageptr message.length = message)
    (hbelow : messageptr + message.length ≤ ptr) (hout : output + 0x40 ≤ ptr) :
    ∃ mem', hashToG1 keccak256 mem ptr messageptr message.length output =
      putSafePoint mem' output (marshal (hashPoint keccak256 message)).1
      (marshal (hashPoint keccak256 message)).2 := by
  obtain ⟨mem0, hcopy, hread, -⟩ :=
    memCopy_spec hlen (show messageptr + message.length ≤ ptr + 1 by omega)
  rw [hmessage] at hread
  obtain ⟨mem1, hhash1, hread1⟩ := hashWith_spec keccak256 hread 0x00
  obtain ⟨mem2, hhash2, hread2⟩ := hashWith_spec keccak256 hread1 0x01
  obtain ⟨mem3, hhash3, hread3⟩ := hashWith_spec keccak256 hread2 0x02
  obtain ⟨mem4, hhash4, -⟩ := hashWith_spec keccak256 hread3 0x03
  obtain ⟨base, exponent, hslots⟩ := slots_mstore mem4 ptr
  rw [hashToG1, hcopy, ok_bind]
  simp only [hhash1, hhash2, hhash3, hhash4]
  generalize Memory.mstore _ (ptr + 0xa0) FIELD_MODULUS = mem5 at hslots ⊢
  -- the points of the two field elements
  have ht0 : addmod (keccak256 (0x01 :: message))
    (mulmod (keccak256 (0x00 :: message)) TWO_256_MOD_P FIELD_MODULUS)
      FIELD_MODULUS = hashToBase keccak256 message 0x00 0x01 := addmod_comm ..
  have ht1 : addmod (keccak256 (0x03 :: message))
    (mulmod (keccak256 (0x02 :: message)) TWO_256_MOD_P FIELD_MODULUS)
      FIELD_MODULUS = hashToBase keccak256 message 0x02 0x03 := addmod_comm ..
  rw [ht0, ht1, hashPoint]
  have hlt0 := hashToBase_lt keccak256 message 0x00 0x01
  have hlt1 := hashToBase_lt keccak256 message 0x02 0x03
  generalize hashToBase keccak256 message 0x00 0x01 = t₀ at hlt0 ⊢
  generalize hashToBase keccak256 message 0x02 0x03 = t₁ at hlt1 ⊢
  obtain ⟨base0, hslots0, hx₀, hy0⟩ := baseToG1_spec hslots hout hlt0
  generalize baseToG1 mem5 ptr t₀ output = mem6 at hslots0 hx₀ hy0 ⊢
  obtain ⟨base1, hslots1, hx₁, hy₁⟩ := baseToG1_spec hslots0 hout hlt1
  generalize baseToG1 mem6 ptr t₁ output = mem7 at hslots1 hx₁ hy₁ ⊢
  rw [hx₀, hy0, hx₁, hy₁, bn128IsOnCurve_eq, bn128IsOnCurve_eq,
    (onCurve_marshal _).mpr (basePoint_ne_zero t₀),
    (onCurve_marshal _).mpr (basePoint_ne_zero t₁), bn256Add_putPoint]
  generalize putPoint (putPoint mem7 ptr _ _) (ptr + 0x40) _ _ = mem8
  generalize basePoint (t₀ : Fp) + basePoint (t₁ : Fp) = S
  have hsum : mem8.write ptr ((ofNatBE 32 (marshal S).1 ++ ofNatBE 32 (marshal S).2).take 64) =
      putPoint mem8 ptr (marshal S).1 (marshal S).2 := by
    rw [take_of_length_le (by simp), write_append, Bytes.length_ofNatBE]
    rfl
  obtain ⟨hlt1, hlt2⟩ := marshal_lt S
  obtain ⟨hx, hy⟩ := mload_putPoint mem8 ptr hlt1 hlt2
  refine ⟨putPoint mem8 ptr (marshal S).1 (marshal S).2, ?_⟩
  rw [require_true, ok_bind, require_true, ok_bind]
  dsimp only
  rw [hsum, hx, hy]

/-- Of a point that is on the curve the first coordinate is not 0. -/
theorem marshal_fst_eq_zero (P : curve.Point) : (marshal P).1 = 0 ↔ P = 0 := by
  cases P with
  | zero => exact ⟨fun _ => rfl, fun _ => rfl⟩
  | some x y h =>
    exact ⟨fun hx => absurd ((ZMod.val_eq_zero x).mp hx) (x_ne_zero (nonsingular_iff.mp h)), nofun⟩

end Asm

open Asm (Layout)

/-! ## The two versions -/

section Agreement

variable {keccak256 : Bytes → Nat} {mem : Memory} {message h : Nat} {m : Bytes}

theorem CryptoLibrary.hashToG1ASM_eq_ok (hlayout : Layout mem message h m) (hlen : 32 ≤ m.length)
    {P : Point} :
    hashToG1ASM keccak256 mem message h = .ok P ↔
      hashPoint keccak256 m ≠ 0 ∧ (marshal (hashPoint keccak256 m)).2 ≠ 1 ∧ P = marshal
      (hashPoint keccak256 m) := by
  obtain ⟨mem', hblock⟩ := Asm.hashToG1_eq keccak256 hlen hlayout.bytes hlayout.below hlayout.output
  rw [hashToG1ASM, hlayout.size, hblock]
  generalize hashPoint keccak256 m = S
  obtain ⟨hlt1, hlt2⟩ := Asm.marshal_lt S
  obtain ⟨hx, hy⟩ := Asm.mload_putPoint mem' h hlt1 hlt2
  constructor
  · intro hok
    obtain ⟨mem1, hblock1, hresult⟩ := bind_ok hok
    obtain ⟨-, hx0, hy1, rfl⟩ := Asm.putSafePoint_eq_ok.mp hblock1
    rw [hx, hy, Prod.mk.eta] at hresult
    exact ⟨fun h0 => hx0 ((Asm.marshal_fst_eq_zero S).mpr h0), hy1, (Except.ok.inj hresult).symm⟩
  · rintro ⟨hne, hy1, rfl⟩
    have hcurve : Asm.bn128IsOnCurve (marshal S).1 (marshal S).2 = true := by
      rw [Asm.bn128IsOnCurve_eq]
      exact (onCurve_marshal S).mpr hne
    have hput := Asm.putSafePoint_eq_ok.mpr
      ⟨hcurve, fun hx0 => hne ((Asm.marshal_fst_eq_zero S).mp hx0), hy1,
      Eq.refl (Asm.putPoint mem' h _ _)⟩
    refine bind_eq_ok.mpr ⟨_, hput, ?_⟩
    rw [hx, hy, Prod.mk.eta]
    exact Eq.refl _

/-- The point has neither 1 as its first coordinate, as the generator and its inverse have, nor as
its second. -/
def Ordinary (P : curve.Point) : Prop := ∀ x y hxy, P = .some x y hxy → x ≠ 1 ∧ y ≠ 1

/-- Where the two last checks say the same. -/
theorem ordinary_iff (S : curve.Point) :
    Ordinary S ↔ ((S ≠ 0 ∧ (marshal S).2 ≠ 1) ↔ ¬ Dangerous S) := by
  cases S with
  | zero =>
    have hdangerous : Dangerous .zero := .inl rfl
    exact ⟨fun _ => ⟨fun h => absurd rfl h.1, fun h => absurd hdangerous h⟩, fun _ _ _ _ => nofun⟩
  | some x y h =>
    have hne : (.some x y h : curve.Point) ≠ 0 := nofun
    have hx : Dangerous (.some x y h) ↔ x = 1 := by
      rw [x_eq_one_iff h, Dangerous]
      exact ⟨fun hd => hd.resolve_left hne, .inr⟩
    have hy : (marshal (.some x y h)).2 = 1 ↔ y = 1 := by
      rw [marshal_some, val_eq_iff (by decide), cast_one]
    -- (1, 1) is not on the curve
    have hboth : x = 1 → y ≠ 1 := by
      rintro rfl rfl
      have hcurve := nonsingular_iff.mp h
      rw [rhs] at hcurve
      apply three_ne_zero
      linear_combination -hcurve
    have hord : Ordinary (.some x y h) ↔ x ≠ 1 ∧ y ≠ 1 := by
      refine ⟨fun ho => ho x y h rfl, fun hxy x' y' h' heq => ?_⟩
      obtain ⟨rfl, rfl⟩ := WeierstrassCurve.Affine.Point.some.inj heq
      exact hxy
    rw [hord, hx, ne_eq (marshal _).2, hy]
    constructor
    · rintro ⟨hx1, hy1⟩
      exact ⟨fun _ => hx1, fun _ => ⟨hne, hy1⟩⟩
    · intro hiff
      by_cases hx1 : x = 1
      · exact absurd hx1 (hiff.mp ⟨hne, hboth hx1⟩)
      · exact ⟨hx1, (hiff.mpr hx1).2⟩

theorem exists_error_iff {ε α : Type} {r : Except ε α} : (∃ e, r = .error e) ↔ ∀ a, r ≠ .ok a := by
  cases r with
  | error e => exact ⟨fun _ _ => nofun, fun _ => ⟨e, rfl⟩⟩
  | ok a => exact ⟨nofun, fun h => absurd rfl (h a)⟩

/-- The two versions answer alike, and refuse the dangerous points and no others, when the point of
the message is ordinary and only then. -/
theorem CryptoLibrary.hashToG1ASM_agrees_iff (hlayout : Layout mem message h m)
    (hlen : 32 ≤ m.length) :
    ((∀ P, hashToG1ASM keccak256 mem message h = .ok P ↔ hashToG1 keccak256 m = .ok P) ∧
      ((∃ e, hashToG1ASM keccak256 mem message h = .error e) ↔ Dangerous (hashPoint keccak256 m)) ∧
      ((∃ e, hashToG1 keccak256 m = .error e) ↔ Dangerous (hashPoint keccak256 m))) ↔
    Ordinary (hashPoint keccak256 m) := by
  have hasm : ∀ P, hashToG1ASM keccak256 mem message h = .ok P ↔ _ :=
    fun P => hashToG1ASM_eq_ok hlayout hlen
  have hsol : ∀ P, hashToG1 keccak256 m = .ok P ↔ _ := fun P => hashToG1_eq_ok
  rw [ordinary_iff, exists_error_iff, exists_error_iff]
  generalize hashPoint keccak256 m = S at hasm hsol ⊢
  constructor
  · rintro ⟨hagree, -, -⟩
    constructor
    · rintro ⟨hne, hy⟩
      exact ((hsol _).mp ((hagree _).mp ((hasm _).mpr ⟨hne, hy, rfl⟩))).1
    · intro hsafe
      have hok := (hasm _).mp ((hagree _).mpr ((hsol _).mpr ⟨hsafe, rfl⟩))
      exact ⟨hok.1, hok.2.1⟩
  · intro hiff
    have hagree : ∀ P, hashToG1ASM keccak256 mem message h = .ok P ↔
      hashToG1 keccak256 m = .ok P := by
      intro P
      rw [hasm, hsol, ← hiff, and_assoc]
    have hrefuse : (∀ P, hashToG1 keccak256 m ≠ .ok P) ↔ Dangerous S := by
      constructor
      · intro hno
        by_contra hsafe
        exact hno _ ((hsol _).mpr ⟨hsafe, rfl⟩)
      · intro hdangerous P hok
        exact ((hsol P).mp hok).1 hdangerous
    exact ⟨hagree, (forall_congr' fun P => not_congr (hagree P)).trans hrefuse, hrefuse⟩

end Agreement

/-! ## Messages in a new memory -/

def zeroMemory : Memory := fun _ => 0

/-- The message is at 0x80, and the result has its place after it. -/
def allocate (m : Bytes) : Memory :=
  ((zeroMemory.mstore 0x80 m.length).write 0xa0 m).mstore 0x40 (0xe0 + (m.length + 31) / 32 * 32)

theorem layout_allocate {m : Bytes} (hm : m.length < 2 ^ 64) :
    Layout (allocate m) 0x80 (0xa0 + (m.length + 31) / 32 * 32) m := by
  have hfree : (allocate m).mload 0x40 = 0xe0 + (m.length + 31) / 32 * 32 :=
    Memory.mload_mstore (by omega)
  refine ⟨?_, ?_, ?_, ?_⟩
  · rw [allocate, Memory.mload_mstore_of_disjoint (by omega),
      Memory.mload_write_of_disjoint (by omega),
      Memory.mload_mstore (by omega)]
  · rw [allocate, Memory.mstore, Memory.read_write_of_disjoint (by simp),
      Memory.read_write_self rfl]
  · rw [hfree]
    omega
  · rw [hfree]
    omega

/-- The coordinates of the point of a message, computed. -/
theorem marshal_hashPoint {keccak256 : Bytes → Nat} {m : Bytes} {R : Point}
    (h : (do
      let P ← baseToG1 (hashToBase keccak256 m 0x00 0x01)
      let Q ← baseToG1 (hashToBase keccak256 m 0x02 0x03)
      return ecAdd P Q) = .ok (some R)) : marshal (hashPoint keccak256 m) = R := by
  rw [baseToG1_eq (hashToBase_lt ..), baseToG1_eq
    (hashToBase_lt ..), ok_bind, ok_bind, ecAdd_marshal, ← hashPoint] at h
  exact Option.some.inj (Except.ok.inj h)

theorem ordinary_of_marshal {S : curve.Point} (hx : (marshal S).1 ≠ 1) (hy : (marshal S).2 ≠ 1) :
    Ordinary S := by
  rintro x y h rfl
  refine ⟨fun h1 => hx ?_, fun h1 => hy ?_⟩
  · exact (val_eq_iff (by decide)).mpr (h1.trans cast_one.symm)
  · exact (val_eq_iff (by decide)).mpr (h1.trans cast_one.symm)

/-- For a function that always gives 0 the point is twice that of 0, and the two versions give it.
-/
theorem hashToG1ASM_agrees_zero :
    let R : Point := (19152212512859365816297411829699690440570029382323562799702381723174277307809,
      9918110051302171585080402603319702774565515993150576347155970296011118125764)
    CryptoLibrary.hashToG1ASM (fun _ => 0) (allocate (List.replicate 32 0)) 0x80 0xc0 = .ok R ↔
      CryptoLibrary.hashToG1 (fun _ => 0) (List.replicate 32 0) = .ok R := by
  intro R
  have hpoint : marshal (hashPoint (fun _ => 0) (replicate 32 0)) = R :=
    marshal_hashPoint (by decide +kernel)
  have hordinary : Ordinary (hashPoint (fun _ => 0) (replicate 32 0)) :=
    ordinary_of_marshal (by rw [hpoint]; decide) (by rw [hpoint]; decide)
  exact ((hashToG1ASM_agrees_iff (layout_allocate (by decide)) (by decide)).mpr hordinary).1 R

/-- A function for which the two field elements of every message are these. -/
def twoElements (t₀ t₁ : Nat) (input : Bytes) : Nat :=
  if input.head? = some 0x01 then t₀ else if input.head? = some 0x03 then t₁ else 0

/-- The version in assembly gives the generator, which the other refuses. -/
theorem hashToG1ASM_gives_generator :
    let keccak256 :=
  twoElements 2 19419651327759545468661098617610205955295091569447630642231507767122859750030
    CryptoLibrary.hashToG1ASM keccak256 (allocate (List.replicate 32 0)) 0x80 0xc0 = .ok (1, 2) ∧
      CryptoLibrary.hashToG1 keccak256 (List.replicate 32 0) = .error (.code "705") := by
  intro keccak256
  have hpoint : marshal (hashPoint keccak256 (replicate 32 0)) = (1, 2) :=
    marshal_hashPoint (by decide +kernel)
  refine ⟨(hashToG1ASM_eq_ok (layout_allocate (by decide)) (by decide)).mpr ⟨?_, ?_, hpoint.symm⟩,
    ?_⟩
  · intro h0
    rw [h0] at hpoint
    exact absurd hpoint (by decide)
  · rw [hpoint]
    decide
  · decide +kernel

end MadNet.Crypto
