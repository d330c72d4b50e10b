import MadNet.Trie.CompressedProof
import MadNet.Trie.Discard
import MadNet.Trie.ParseBatch

/-!
# The bytes of a stored batch (`serializeBatch`)

`serializeBatch` writes the bitmap and the slots that are not empty. `parseBatch` reads only two
slots of a shortcut batch, so that it gives back what was written because such a batch has no
others.
-/

namespace MadNet.Trie

open List Option

/-- A batch with its slots as bytes: the flag in `batch[0]`, and 33 bytes in the slots from
`batch[1]` on that are not empty. -/
structure ByteBatch where
  isShortcut : Bool
  slots : Fin 30 → Option (Raw Word)

def Raw.toBytes (r : Raw Word) : Bytes := r.bytes.1 ++ [r.last]

/-- The loop of `serializeBatch`, from the slot `i + 1` on. -/
def serializeSlots : Nat → List (Option (Raw Word)) → Bytes → Bytes
  | _, [], serialized => serialized
  | i, none :: slots, serialized => serializeSlots (i + 1) slots serialized
  | i, some r :: slots, serialized =>
    serializeSlots (i + 1) slots (bitSet serialized i ++ r.toBytes)

/-- The bitmap before the loop. -/
def flagBitmap (isShortcut : Bool) : Bytes :=
  let serialized := List.replicate 4 0
  if isShortcut then bitSet serialized 31 else serialized

def serializeBatch (b : ByteBatch) : Bytes :=
  serializeSlots 0 (List.ofFn b.slots) (flagBitmap b.isShortcut)

/-! ## What is written -/

theorem Raw.length_toBytes (r : Raw Word) : r.toBytes.length = 33 := by
  rw [Raw.toBytes, length_append, r.bytes.2, length_singleton]

variable {i j : Nat} {bits : Bytes}

theorem bitIsSetIn_eq (h : i / 8 < bits.length) : bitIsSetIn bits i = some (bit bits i) := by
  unfold bitIsSetIn bit
  rw [getD_eq_getElem?_getD, getElem?_eq_getElem h, map_some, getD_some]
  simp only [and_shiftLeft_ne_zero _ (show 7 - i % 8 < 8 by omega), Bool.decide_eq_true]

theorem bit_bitSet (h : j / 8 < bits.length) : bit (bitSet bits i) j = (bit bits j || i = j) := by
  have hset := bitIsSetIn_bitSet bits i j
  rw [bitIsSetIn_eq h, bitIsSetIn_eq (by rwa [length_bitSet])] at hset
  exact some_inj.mp hset

theorem drop_bitSet {n : Nat} (h : i / 8 < n) : (bitSet bits i).drop n = bits.drop n := by
  refine ext_getElem? fun k => ?_
  rw [getElem?_drop, getElem?_drop, bitSet, getElem?_modify_ne _ _ (by omega)]

theorem bit_append {more : Bytes} (h : j / 8 < bits.length) :
    bit (bits ++ more) j = bit bits j := by
  rw [bit, bit, getD_append _ _ _ _ h]

section Slots

variable {slots : List (Option (Raw Word))} {serialized : Bytes} {i : Nat}

/-- Behind the bitmap are the slots that are not empty. -/
theorem drop_serializeSlots (hlen : 4 ≤ serialized.length) (hi : i + slots.length ≤ 32) :
    (serializeSlots i slots serialized).drop 4 =
      serialized.drop 4 ++ slots.reduceOption.flatMap Raw.toBytes := by
  induction slots generalizing i serialized with
  | nil => simp [serializeSlots]
  | cons slot slots ih =>
    rw [length_cons] at hi
    cases slot with
    | none =>
      rw [serializeSlots, ih hlen (by omega), reduceOption_cons_of_none]
    | some r =>
      have hlen' : 4 ≤ (bitSet serialized i).length := by rwa [length_bitSet]
      rw [serializeSlots, ih (by rw [length_append]; omega) (by omega),
        drop_append_of_le_length hlen', drop_bitSet (by omega), reduceOption_cons_of_some,
        flatMap_cons, append_assoc]

/-- The bits tell which slots are not empty. -/
theorem bit_serializeSlots (hlen : 4 ≤ serialized.length) {j : Nat} (hj : j < 32) :
    bit (serializeSlots i slots serialized) j =
      (bit serialized j || (decide (i ≤ j) && slots[j - i]?.join.isSome)) := by
  induction slots generalizing i serialized with
  | nil => simp [serializeSlots]
  | cons slot slots ih =>
    have hbyte : j / 8 < serialized.length := by omega
    have hnext (hij : i < j) : (slot :: slots)[j - i]? = slots[j - (i + 1)]? := by
      rw [show j - i = j - (i + 1) + 1 by omega, getElem?_cons_succ]
    cases slot with
    | none =>
      rw [serializeSlots, ih hlen]
      rcases Nat.lt_trichotomy i j with hij | rfl | hij
      · rw [hnext hij, decide_eq_true (show i + 1 ≤ j by omega),
          decide_eq_true (show i ≤ j by omega)]
      · simp
      · rw [decide_eq_false (show ¬i + 1 ≤ j by omega), decide_eq_false (show ¬i ≤ j by omega)]
        rfl
    | some r =>
      have hbyte' : j / 8 < (bitSet serialized i).length := by rwa [length_bitSet]
      rw [serializeSlots, ih (by rw [length_append, length_bitSet]; omega), bit_append hbyte',
        bit_bitSet hbyte]
      rcases Nat.lt_trichotomy i j with hij | rfl | hij
      · rw [hnext hij, decide_eq_true (show i + 1 ≤ j by omega),
          decide_eq_true (show i ≤ j by omega),
          decide_eq_false (show i ≠ j by omega), Bool.or_false]
      · simp
      · rw [decide_eq_false (show ¬i + 1 ≤ j by omega), decide_eq_false (show ¬i ≤ j by omega),
          decide_eq_false (show i ≠ j by omega), Bool.or_false]
        rfl

theorem length_serializeSlots :
    (serializeSlots i slots serialized).length = serialized.length +
      33 * slots.reduceOption.length := by
  induction slots generalizing i serialized with
  | nil => rfl
  | cons slot slots ih =>
    cases slot with
    | none => rw [serializeSlots, ih, reduceOption_cons_of_none]
    | some r =>
      rw [serializeSlots, ih, reduceOption_cons_of_some, length_append, length_bitSet,
        r.length_toBytes, length_cons]
      omega

end Slots

/-! ## What is read -/

theorem Raw.ofBytes_toBytes (r : Raw Word) : Raw.ofBytes r.toBytes = r := by
  obtain ⟨⟨bytes, hbytes⟩, last⟩ := r
  have hword : Word.ofBytes ((bytes ++ [last]).take 32) = ⟨bytes, hbytes⟩ := by
    refine Subtype.ext ?_
    rw [take_left' hbytes]
    exact take_left' hbytes
  have hlast : (bytes ++ [last]).getD 32 0 = last := by
    rw [getD_append_right _ _ _ _ (Nat.le_of_eq hbytes), hbytes]
    rfl
  rw [Raw.ofBytes, Raw.toBytes, hword, hlast]

theorem drop_flatMap_toBytes (rs : List (Raw Word)) (k : Nat) :
    (rs.flatMap Raw.toBytes).drop (33 * k) = (rs.drop k).flatMap Raw.toBytes := by
  induction rs generalizing k with
  | nil => simp
  | cons r rs ih =>
    cases k with
    | zero => rfl
    | succ k =>
      have hk : 33 * (k + 1) = 33 + 33 * k := by omega
      rw [flatMap_cons, hk, ← drop_drop, drop_left' r.length_toBytes, ih, drop_succ_cons]

/-- The slots follow each other. -/
theorem rawAt_eq {val : Bytes} {rs : List (Raw Word)} (hval : val.drop 4 = rs.flatMap Raw.toBytes)
    {k : Nat}
    {r : Raw Word} (hk : rs[k]? = some r) : rawAt val k = r := by
  obtain ⟨hlt, rfl⟩ := List.getElem?_eq_some_iff.mp hk
  rw [rawAt, ← List.drop_drop, hval, drop_flatMap_toBytes, List.drop_eq_getElem_cons hlt,
    List.flatMap_cons,
    List.take_left' (Raw.length_toBytes _), Raw.ofBytes_toBytes]

section Read

variable {val : Bytes} {os : List (Option (Raw Word))}
  (hbits : ∀ j, j < os.length → bit val j = os[j]?.join.isSome)
include hbits

theorem rank_eq {i : Nat} (hi : i ≤ os.length) : rank val i = (os.take i).reduceOption.length := by
  induction i with
  | zero => rfl
  | succ i ih =>
    have hlt : i < os.length := hi
    rw [rank_succ, ih (by omega), hbits i hlt, take_succ_eq_append_getElem hlt,
      reduceOption_append, length_append, getElem?_eq_getElem hlt]
    cases os[i] with
    | none | some r => rfl

theorem slotAt_eq (hval : val.drop 4 = os.reduceOption.flatMap Raw.toBytes) {i : Nat}
    (hi : i < os.length) :
    slotAt val i = os[i] := by
  have hget : os[i]? = some os[i] := getElem?_eq_getElem hi
  rw [slotAt, hbits i hi, hget, rank_eq hbits (Nat.le_of_lt hi)]
  cases hslot : os[i] with
  | none => rfl
  | some r =>
    refine (if_pos rfl).trans (congrArg some (rawAt_eq hval ?_))
    have hos : os.reduceOption = (os.take i).reduceOption ++
      r :: (os.drop (i + 1)).reduceOption := by
      conv_lhs => rw [← take_append_drop i os, drop_eq_getElem_cons hi, hslot,
        reduceOption_append, reduceOption_cons_of_some]
    rw [hos, getElem?_append_right (Nat.le_refl _), Nat.sub_self]
    rfl

end Read

/-! ## The round trip -/

/-- A shortcut batch has a key and a value, and nothing else. -/
def ByteBatch.WellFormed (b : ByteBatch) : Prop :=
  b.isShortcut = true → ∀ i, (b.slots i).isSome ↔ i.val < 2

/-- The slots of a batch that was read. -/
def RawBatch.byteBatch (b : RawBatch Word) : ByteBatch where
  isShortcut := b.isShortcut
  slots i := b.slot (i + 1)

@[simp] theorem length_flagBitmap (isShortcut : Bool) : (flagBitmap isShortcut).length = 4 := by
  cases isShortcut with
  | false | true => rfl

theorem bit_flagBitmap (isShortcut : Bool) (hj : j < 32) :
    bit (flagBitmap isShortcut) j = (isShortcut && decide (31 = j)) := by
  have hzero : bit (replicate 4 0) j = false := by
    rw [bit, getD_eq_getElem?_getD, getElem?_replicate_of_lt (by omega)]
    exact Nat.zero_testBit _
  cases isShortcut with
  | false => exact hzero
  | true =>
    refine (bit_bitSet (by rw [length_replicate]; omega)).trans ?_
    rw [hzero]
    rfl

section RoundTrip

variable {b : ByteBatch}

theorem bit_serializeBatch {j : Nat} (hj : j < 30) :
    bit (serializeBatch b) j = (ofFn b.slots)[j]?.join.isSome := by
  rw [serializeBatch, bit_serializeSlots (by simp) (by omega), bit_flagBitmap _ (by omega),
    decide_eq_false (show 31 ≠ j by omega), decide_eq_true (Nat.zero_le j)]
  simp

theorem flag_serializeBatch : bit (serializeBatch b) 31 = b.isShortcut := by
  rw [serializeBatch, bit_serializeSlots (by simp) (by decide), bit_flagBitmap _ (by decide)]
  simp

theorem drop_serializeBatch :
    (serializeBatch b).drop 4 = (ofFn b.slots).reduceOption.flatMap Raw.toBytes := by
  rw [serializeBatch, drop_serializeSlots (by simp) (by simp), drop_of_length_le (by simp)]
  rfl

theorem length_serializeBatch :
    (serializeBatch b).length = 4 + 33 * (ofFn b.slots).reduceOption.length := by
  rw [serializeBatch, length_serializeSlots, length_flagBitmap]

theorem ByteBatch.WellFormed.reduceOption (hb : b.WellFormed) (hshort : b.isShortcut = true) :
    ∃ k v, b.slots 0 = some k ∧ b.slots 1 = some v ∧ (ofFn b.slots).reduceOption = [k, v] := by
  have hslots := hb hshort
  obtain ⟨k, hk⟩ := isSome_iff_exists.mp ((hslots 0).mpr (by decide))
  obtain ⟨v, hv⟩ := isSome_iff_exists.mp ((hslots 1).mpr (by decide))
  refine ⟨k, v, hk, hv, ?_⟩
  have hrest : (ofFn fun i : Fin 28 => b.slots i.succ.succ).reduceOption = [] := by
    refine filterMap_eq_nil_iff.mpr fun slot hslot => ?_
    obtain ⟨i, rfl⟩ := (mem_ofFn' _ _).mp hslot
    exact not_isSome_iff_eq_none.mp fun hsome => absurd ((hslots _).mp hsome) (by simp)
  have hcons : ofFn b.slots = b.slots 0 :: b.slots 1 :: ofFn fun i : Fin 28 =>
    b.slots i.succ.succ := by
    rw [ofFn_succ, ofFn_succ]
    rfl
  rw [hcons, hk, hv, reduceOption_cons_of_some, reduceOption_cons_of_some, hrest]

/-- What was written is read back. -/
theorem parseBatch_serializeBatch (hb : b.WellFormed) :
    ∃ raw, RawBatch.parseBatch (serializeBatch b) = .ok raw ∧ raw.byteBatch = b := by
  rw [parseBatch_eq (by rw [length_serializeBatch]; omega), flag_serializeBatch,
    length_serializeBatch]
  obtain ⟨isShortcut, slots⟩ := b
  cases isShortcut with
  | true =>
    obtain ⟨k, v, hk, hv, hslots⟩ := hb.reduceOption rfl
    have hdrop := drop_serializeBatch (b := ⟨true, slots⟩)
    rw [hslots] at hdrop ⊢
    refine ⟨.shortcut k v, ?_, ?_⟩
    · rw [if_pos rfl, if_neg (by simp), rawAt_eq hdrop rfl, rawAt_eq hdrop rfl]
    · refine congrArg (ByteBatch.mk true) (funext fun i => ?_)
      match i with
      | 0 => exact hk.symm
      | 1 => exact hv.symm
      | ⟨i + 2, hi⟩ =>
        exact (not_isSome_iff_eq_none.mp fun hsome => absurd ((hb rfl _).mp hsome) (by simp)).symm
  | false =>
    have hlength : (ofFn slots).length = 30 := length_ofFn
    have hbits (j : Nat) (hj : j < (ofFn slots).length) :
        bit (serializeBatch ⟨false, slots⟩) j = (ofFn slots)[j]?.join.isSome :=
      bit_serializeBatch (by omega)
    have hrank : rank (serializeBatch ⟨false, slots⟩) 30 = (ofFn slots).reduceOption.length := by
      rw [rank_eq hbits (Nat.le_of_eq hlength.symm), take_of_length_le (Nat.le_of_eq hlength)]
    refine ⟨_, (if_neg Bool.false_ne_true).trans (if_neg (by rw [hrank]; exact Nat.lt_irrefl _)),
      ?_⟩
    refine congrArg (ByteBatch.mk false) (funext fun i => ?_)
    have hslot := slotAt_eq hbits drop_serializeBatch (i := i) (by rw [hlength]; exact i.isLt)
    rw [List.getElem_ofFn] at hslot
    refine Eq.trans ?_ hslot
    simp [RawBatch.slot]

end RoundTrip

/-! ## The batches of a trie -/

variable {D : Type}

/-- The bytes of a slot, with the byte that tells a node, a shortcut, and a key or a value. -/
def Slot.raw (bytes : D → Word) : Slot D → Raw Word
  | .node n => ⟨bytes n.hash, if n.flag = some true then 1 else 0⟩
  | .key k => ⟨⟨Bytes.ofNatBE 32 k.toNat, Bytes.length_ofNatBE 32 _⟩, 2⟩
  | .value v => ⟨bytes v, 2⟩

def Batch.bytes (bytes : D → Word) (b : Batch D) : ByteBatch where
  isShortcut := b.isShortcut
  slots i := (b.slot (i + 1)).map (Slot.raw bytes)

section Represented

variable {H : Hasher D} {b : Batch D} {n i h : Nat}

/-- There is nothing on the levels below an empty tree. -/
theorem Below.slot_eq_none (hb : Below H b n i h .empty) {m x : Nat} (hm : m < n)
    (hle : (i + 1) * 2 ^ (m + 1) ≤ x + 1) (hlt : x + 1 < (i + 2) * 2 ^ (m + 1)) :
    b.slot x = none := by
  induction n generalizing i h m with
  | zero => cases hm
  | succ n ih =>
    obtain ⟨hl, hr, hbl, hbr⟩ := hb
    cases m with
    | zero =>
      obtain rfl | rfl : x = 2 * i + 1 ∨ x = 2 * i + 2 := by omega
      · exact hl
      · exact hr
    | succ m =>
      -- on which side `x` is
      have hfirst : (i + 1) * 2 ^ (m + 1 + 1) = (2 * i + 1 + 1) * 2 ^ (m + 1) := by ring
      have hlast : (i + 2) * 2 ^ (m + 1 + 1) = (2 * i + 2 + 2) * 2 ^ (m + 1) := by ring
      rcases Nat.lt_or_ge (x + 1) ((2 * i + 1 + 2) * 2 ^ (m + 1)) with hx | hx
      · exact ih hbl (by omega) (by omega) hx
      · exact ih hbr (by omega) hx (by omega)

/-- A batch that stands for a leaf has its key and its value, and nothing else. -/
theorem Represents.wellFormed {T : Radix.Tree Key D} (hb : Represents H b h T) (bytes : D → Word) :
    (b.bytes bytes).WellFormed := by
  intro hshort i
  change ((b.slot (i + 1)).map _).isSome ↔ _
  rw [isSome_map]
  have hleaf : T.isLeaf = true := hb.isShortcut.symm.trans hshort
  cases T with
  | empty | node l r => cases hleaf
  | leaf k v =>
    obtain ⟨hk, hv, hbl, hbr⟩ := hb.below
    obtain ⟨i, hi⟩ := i
    rcases Nat.lt_or_ge i 2 with hlt | hge
    · refine iff_of_true ?_ hlt
      obtain rfl | rfl : i = 0 ∨ i = 1 := by omega
      · exact isSome_iff_exists.mpr ⟨_, hk⟩
      · exact isSome_iff_exists.mpr ⟨_, hv⟩
    · refine iff_of_false (not_isSome_iff_eq_none.mpr ?_) (Nat.not_lt.mpr hge)
      obtain ⟨m, hm, hle, hlt⟩ : ∃ m < 3, 2 * 2 ^ (m + 1) ≤ i + 1 + 1 ∧
        i + 1 + 1 < 4 * 2 ^ (m + 1) := by
        rcases Nat.lt_or_ge i 6 with h₁ | h₁
        · exact ⟨0, by decide, by omega, by omega⟩
        · rcases Nat.lt_or_ge i 14 with h₂ | h₂
          · exact ⟨1, by decide, by omega, by omega⟩
          · exact ⟨2, by decide, by omega, by omega⟩
      rcases Nat.lt_or_ge (i + 1 + 1) (3 * 2 ^ (m + 1)) with hx | hx
      · exact hbl.slot_eq_none hm hle hx
      · exact hbr.slot_eq_none hm hx hlt

end Represented

section Reachable

variable [DecidableEq D] [∀ s : Store D, Decidable s.HasUpdates] {H : Hasher D}

/-- Every batch that is recorded in a trie that has been reached by updates, commits and rollbacks
is read from its bytes as it was, and its bytes are written again. -/
theorem parseBatch_serializeBatch_recorded (hH : H.CollisionFree) (bytes : D → Word)
    {root : Option D}
    {db : D → Option (Record D)} {T : Radix.Tree Key D} (hdb : (SMT.newSMT root db).Holds H T)
    (es : List (VersionedSMT.Call D)) {d : D} {b : Batch D}
    (hb : (Run.exec (VersionedSMT.step H) (.newSMT root db) es).store.updatedNodes d = some b) :
    ∃ raw, RawBatch.parseBatch (serializeBatch (b.bytes bytes)) = .ok raw ∧ raw.byteBatch = b.bytes
      bytes ∧
      serializeBatch raw.byteBatch = serializeBatch (b.bytes bytes) := by
  obtain ⟨T', T₀, hholds⟩ := (VersionedSMT.holds_newSMT hdb).exec hH es
  obtain ⟨h, T, n, -, -, hrep⟩ := hholds.recorded d b hb
  obtain ⟨raw, hparse, hraw⟩ := parseBatch_serializeBatch (hrep.wellFormed bytes)
  exact ⟨raw, hparse, hraw, by rw [hraw]⟩

open Classical in
/-- The batch of a trie with one key is a shortcut batch. -/
theorem Digest.parseBatch_serializeBatch_insertion :
    let t := Run.exec (VersionedSMT.step hasher) (.newSMT none fun _ => none) [insertion]
    let bytes (_ : Digest Nat) : Word := .ofBytes []
    ∃ b raw, t.store.updatedNodes (.leaf (key 6) (.value 6) 0) = some b ∧ b.isShortcut = true ∧
      RawBatch.parseBatch (serializeBatch (b.bytes bytes)) = .ok raw ∧
      raw.byteBatch = b.bytes bytes := by
  intro t bytes
  have hrecorded : (t.store.updatedNodes (.leaf (key 6) (.value 6) 0)).map (·.isShortcut) =
    some true := by
    decide +kernel
  obtain ⟨b, hb, hshort⟩ := map_eq_some_iff.mp hrecorded
  obtain ⟨raw, hparse, hraw, -⟩ :=
    parseBatch_serializeBatch_recorded collisionFree bytes SMT.Holds.empty
    [insertion] hb
  exact ⟨b, raw, hb, hshort, hparse, hraw⟩

end Reachable

end MadNet.Trie
