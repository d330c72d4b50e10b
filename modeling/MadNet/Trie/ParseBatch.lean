import MadNet.Trie.SnapShot

/-!
# The bytes of a batch (`parseBatch`)

A batch is a bitmap of four bytes and then 33 bytes for each slot whose bit is set. An index or a
slice out of range is the error `panic`.
-/

namespace MadNet.Trie

open List

/-- 32 bytes, which are a hash, a key or a value. -/
abbrev Word := {l : List UInt8 // l.length = 32}

/-- The 32 bytes of a list that has so many. -/
def Word.ofBytes (l : List UInt8) : Word := ⟨(l ++ List.replicate 32 0).take 32, by simp⟩

/-- `batch[i][:constants.HashLen]` and `batch[i][32]`. -/
def Raw.ofBytes (s : List UInt8) : Raw Word := ⟨.ofBytes (s.take 32), s.getD 32 0⟩

/-- `val[a:b]`. -/
def sliceBytes (val : List UInt8) (a b : Nat) : Except SyncErr (List UInt8) :=
  if a ≤ b ∧ b ≤ val.length then .ok ((val.drop a).take (b - a)) else .error .panic

/-- `bitIsSet`. -/
def bitmapBitIsSet (bits : List UInt8) (i : Nat) : Except SyncErr Bool :=
  match bits[i / 8]? with
  | some byte => .ok (byte.toNat.testBit (7 - i % 8))
  | none => .error .panic

/-- The number of bits that are set among `k` from the bit `i` on. -/
def countSlots (bitmap : List UInt8) : Nat → Nat → Except SyncErr Nat
  | 0, _ => .ok 0
  | k + 1, i => do
    let set ← bitmapBitIsSet bitmap i
    let j ← countSlots bitmap k (i + 1)
    return if set then j + 1 else j

/-- The slots of `k` bits from the bit `i` on, of which `j` precede. -/
def readSlots (val bitmap : List UInt8) :
    Nat → Nat → Nat → Except SyncErr (List (Option (Raw Word)))
  | 0, _, _ => .ok []
  | k + 1, i, j => do
    match ← bitmapBitIsSet bitmap i with
    | true =>
      let s ← sliceBytes val (4 + 33 * j) (4 + 33 * (j + 1))
      return some (.ofBytes s) :: (← readSlots val bitmap k (i + 1) (j + 1))
    | false => return none :: (← readSlots val bitmap k (i + 1) j)

/-- `%x`. -/
def hex (val : List UInt8) : String :=
  .ofList (val.flatMap fun b => [Nat.digitChar (b.toNat / 16), Nat.digitChar (b.toNat % 16)])

/-- `parseBatch` of bytes from a peer. -/
def RawBatch.parseBatch (val : List UInt8) : Except SyncErr (RawBatch Word) :=
  if val.length = 0 then
    .error (.invalid "length of input value should be higher than zero")
  else if val.length < 4 then
    .error (.invalid "length of input value should be at least 4 to contain the bitmap")
  else do
    let bitmap ← sliceBytes val 0 4
    match ← bitmapBitIsSet val 31 with
    | true =>
      if val.length < 70 then
        .error (.invalid ("length of input value should be seventy-one for a shortcut: got " ++
          toString val.length ++ " " ++ hex val))
      else
        let key ← sliceBytes val 4 (4 + 33)
        let value ← sliceBytes val (4 + 33) (4 + 33 * 2)
        return .shortcut (.ofBytes key) (.ofBytes value)
    | false =>
      let j ← countSlots bitmap 30 0
      if val.length < 4 + 33 * j then
        .error (.invalid "length of input value is lower than it should be")
      else
        let slots ← readSlots val bitmap 30 0 0
        return .regular fun i => slots.getD i none

/-! ## The batch in closed form -/

section

variable (val : List UInt8)

def bit (i : Nat) : Bool := (val.getD (i / 8) 0).toNat.testBit (7 - i % 8)

/-- The number of slots before the slot of the bit `i`. -/
def rank (i : Nat) : Nat := (List.range i).countP (bit val)

/-- The 33 bytes after `k` others. -/
def rawAt (k : Nat) : Raw Word := .ofBytes ((val.drop (4 + 33 * k)).take 33)

def slotAt (i : Nat) : Option (Raw Word) :=
  if bit val i then some (rawAt val (rank val i)) else none

theorem rank_succ (i : Nat) : rank val (i + 1) = rank val i + if bit val i then 1 else 0 := by
  simp only [rank, range_succ, countP_append, countP_singleton]

variable {i k : Nat}

theorem rank_mono {i' : Nat} (h : i ≤ i') : rank val i ≤ rank val i' := by
  induction h with
  | refl => exact Nat.le_refl _
  | step _ ih =>
    rw [rank_succ]
    omega

variable {val}

theorem bitmapBitIsSet_eq (h : i / 8 < val.length) : bitmapBitIsSet val i = .ok (bit val i) := by
  rw [bitmapBitIsSet, bit, getD_eq_getElem?_getD, getElem?_eq_getElem h]
  rfl

/-- The bitmap is the first four bytes. -/
theorem bitmapBitIsSet_take (hlen : 4 ≤ val.length) (hi : i < 32) :
    bitmapBitIsSet (val.take 4) i = .ok (bit val i) := by
  have hi' : i / 8 < 4 := by omega
  rw [bitmapBitIsSet, bit, getElem?_take_of_lt hi', getD_eq_getElem?_getD,
    getElem?_eq_getElem (by omega)]
  rfl

theorem sliceBytes_eq {a b : Nat} (hab : a ≤ b) (hb : b ≤ val.length) :
    sliceBytes val a b = .ok ((val.drop a).take (b - a)) := if_pos ⟨hab, hb⟩

theorem countSlots_eq (hlen : 4 ≤ val.length) (hk : i + k ≤ 32) :
    countSlots (val.take 4) k i = .ok (rank val (i + k) - rank val i) := by
  induction k generalizing i with
  | zero => simp [countSlots]
  | succ k ih =>
    have hmono := rank_mono val (show i + 1 ≤ i + (k + 1) by omega)
    rw [countSlots, bitmapBitIsSet_take hlen (by omega), ih (by omega)]
    refine congrArg Except.ok ?_
    rw [rank_succ] at hmono ⊢
    rw [show i + 1 + k = i + (k + 1) by omega]
    cases hbit : bit val i with
    | true =>
      rw [hbit, if_pos rfl] at hmono
      simp only [if_true]
      omega
    | false =>
      simp only [Bool.false_eq_true, if_false]
      omega

theorem readSlots_eq (hlen : 4 ≤ val.length) (hk : i + k ≤ 32)
    (hval : 4 + 33 * rank val (i + k) ≤ val.length) :
    readSlots val (val.take 4) k i (rank val i) = .ok ((range' i k).map (slotAt val)) := by
  induction k generalizing i with
  | zero => rfl
  | succ k ih =>
    have hmono := rank_mono val (show i + 1 ≤ i + (k + 1) by omega)
    have hrec := ih (i := i + 1) (by omega) (by rwa [show i + 1 + k = i + (k + 1) by omega])
    rw [range'_succ, map_cons, readSlots, bitmapBitIsSet_take hlen (by omega)]
    cases hbit : bit val i with
    | true =>
      have hrank : rank val (i + 1) = rank val i + 1 := by rw [rank_succ, if_pos hbit]
      rw [hrank] at hrec
      change (sliceBytes val _ _ >>= _) = _
      rw [sliceBytes_eq (by omega) (by omega)]
      change (readSlots val _ k (i + 1) _ >>= _) = _
      rw [hrec, slotAt, if_pos hbit, rawAt]
      have hwidth : 4 + 33 * (rank val i + 1) - (4 + 33 * rank val i) = 33 := by omega
      rw [hwidth]
      rfl
    | false =>
      have hrank : rank val (i + 1) = rank val i := by
        rw [rank_succ, hbit]
        rfl
      rw [hrank] at hrec
      change (readSlots val _ k (i + 1) _ >>= _) = _
      rw [hrec, slotAt, if_neg (by rw [hbit]; exact Bool.false_ne_true)]
      rfl

/-- `parseBatch` never leaves its input. -/
theorem parseBatch_eq (hlen : 4 ≤ val.length) : RawBatch.parseBatch val =
    if bit val 31 then
      if val.length < 70 then
        .error (.invalid ("length of input value should be seventy-one for a shortcut: got " ++
          toString val.length ++ " " ++ hex val))
      else .ok (.shortcut (rawAt val 0) (rawAt val 1))
    else if val.length < 4 + 33 * rank val 30 then
      .error (.invalid "length of input value is lower than it should be")
    else .ok (.regular fun i => slotAt val i) := by
  rw [RawBatch.parseBatch, if_neg (by omega), if_neg (by omega), sliceBytes_eq (by omega) hlen]
  change (bitmapBitIsSet val 31 >>= _) = _
  rw [bitmapBitIsSet_eq (by omega)]
  cases bit val 31 with
  | true =>
    change (if _ then _ else _) = _
    rw [if_pos rfl]
    split
    · rfl
    · rw [sliceBytes_eq (by omega) (by omega)]
      change (sliceBytes val _ _ >>= _) = _
      rw [sliceBytes_eq (by omega) (by omega)]
      rfl
  | false =>
    change (countSlots (val.take 4) 30 0 >>= _) = _
    rw [if_neg Bool.false_ne_true, countSlots_eq hlen (by omega)]
    change (if val.length < 4 + 33 * (rank val 30 - 0) then _ else _) = _
    rw [Nat.sub_zero]
    split
    · rfl
    next hval =>
      change (readSlots val (val.take 4) 30 0 (rank val 0) >>= _) = _
      rw [readSlots_eq hlen (by omega) (by rw [Nat.zero_add]; omega)]
      refine congrArg (fun slots => Except.ok (RawBatch.regular slots)) (funext fun i => ?_)
      rw [getD_eq_getElem?_getD, getElem?_map, getElem?_range' i.isLt]
      simp

end

end MadNet.Trie
