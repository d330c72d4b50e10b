import MadNet.Lib.Bytes
import MadNet.Trie.MerkleProof

/-!
# Compressed Merkle proofs (`merkleProofCompressed`)

The default leaves of an audit path are left out; a bitmap tells where the others are.
-/

namespace MadNet.Trie

open List Prog Nat SMT

variable {D : Type}

def bitSet (bits : Bytes) (i : Nat) : Bytes :=
  bits.modify (i / 8) (· ||| 1 <<< UInt8.ofNat (7 - i % 8))

/-- `bitIsSet` on a bitmap; `none` is the panic on an index beyond it. -/
def bitIsSetIn (bits : Bytes) (i : Nat) : Option Bool :=
  bits[i / 8]?.map fun b => b &&& 1 <<< UInt8.ofNat (7 - i % 8) ≠ 0

@[simp] theorem length_bitSet (bits : Bytes) (i : Nat) : (bitSet bits i).length = bits.length :=
  length_modify ..

variable {k i j : Nat}

theorem toNat_one_shiftLeft (hk : k < 8) : (1 <<< UInt8.ofNat k : UInt8).toNat = 2 ^ k := by
  have hpow : 2 ^ k < 2 ^ 8 := Nat.pow_lt_pow_right (by decide) hk
  have hmod : k % 2 ^ 8 % 8 = k := by omega
  rw [UInt8.toNat_shiftLeft, UInt8.toNat_ofNat', hmod, UInt8.toNat_one, Nat.one_shiftLeft,
    mod_eq_of_lt hpow]

theorem and_shiftLeft_ne_zero (b : UInt8) (hk : k < 8) :
    b &&& 1 <<< UInt8.ofNat k ≠ 0 ↔ b.toNat.testBit k = true := by
  rw [Ne, ← UInt8.toNat_inj, UInt8.toNat_and, toNat_one_shiftLeft hk, and_two_pow]
  cases b.toNat.testBit k with
  | false | true => simp

theorem bitIsSetIn_bitSet (bits : Bytes) (i j : Nat) :
    bitIsSetIn (bitSet bits i) j = (bitIsSetIn bits j).map (· || i = j) := by
  unfold bitIsSetIn bitSet
  rw [getElem?_modify]
  cases hb : bits[j / 8]? with
  | none => rfl
  | some b =>
    have hj : 7 - j % 8 < 8 := by omega
    simp only [Option.map_eq_map, Option.map_some, Option.some.injEq, and_shiftLeft_ne_zero _ hj,
      Bool.decide_eq_true]
    split
    next hbyte =>
      have hij : 7 - i % 8 = 7 - j % 8 ↔ i = j := by omega
      rw [UInt8.toNat_or, toNat_one_shiftLeft (by omega), testBit_or, testBit_two_pow]
      simp only [hij]
    next hbyte =>
      have hij : i ≠ j := fun h => hbyte (by rw [h])
      simp [hij]

variable [DecidableEq D]

/-- The loop of `merkleProofCompressed` from the item with the index `i` on. -/
def compress (defaultLeaf : D) : Nat → Bytes → List D → Bytes × List D
  | _, bitmap, [] => (bitmap, [])
  | i, bitmap, node :: nodes =>
    if node = defaultLeaf then compress defaultLeaf (i + 1) bitmap nodes
    else
      let (bitmap, mp) := compress defaultLeaf (i + 1) (bitSet bitmap i) nodes
      (bitmap, node :: mp)

/-- `merkleProofCompressed`: the bitmap, the items, the number of all items and what they lead to.
-/
def Store.merkleProofCompressed (H : Hasher D) (s : Store D) (key : Key) (root : Option D) :
    Except Err (Bytes × List D × Nat × Found D) := do
  let (mpFull, found) ←
    s.merkleProof H key 256 (root.map fun hash => { hash, flag := none }) .empty 0
  let (bitmap, mp) := compress H.defaultLeaf 0 (List.replicate (mpFull.length / 8 + 1) 0) mpFull
  return (bitmap, mp, mpFull.length, found)

theorem compress_snd (defaultLeaf : D) (i : Nat) (bitmap : Bytes) (nodes : List D) :
    (compress defaultLeaf i bitmap nodes).2 = nodes.filter (· ≠ defaultLeaf) := by
  induction nodes generalizing i bitmap with
  | nil => rfl
  | cons node nodes ih =>
    unfold compress
    split
    next h => rw [ih, filter_cons_of_neg (by simpa using h)]
    next h => rw [filter_cons_of_pos (by simpa using h), ← ih (i + 1) (bitSet bitmap i)]

theorem length_compress_fst (defaultLeaf : D) (i : Nat) (bitmap : Bytes) (nodes : List D) :
    (compress defaultLeaf i bitmap nodes).1.length = bitmap.length := by
  induction nodes generalizing i bitmap with
  | nil => rfl
  | cons node nodes ih =>
    unfold compress
    split
    · exact ih ..
    · exact (ih ..).trans (length_bitSet ..)

theorem bitIsSetIn_compress_of_lt (defaultLeaf : D) (h : j < i) (bitmap : Bytes) (nodes : List D) :
    bitIsSetIn (compress defaultLeaf i bitmap nodes).1 j = bitIsSetIn bitmap j := by
  induction nodes generalizing i bitmap with
  | nil => rfl
  | cons node nodes ih =>
    unfold compress
    split
    · exact ih (Nat.lt_succ_of_lt h) bitmap
    · have hne : i ≠ j := (Nat.ne_of_lt h).symm
      refine (ih (Nat.lt_succ_of_lt h) (bitSet bitmap i)).trans ?_
      rw [bitIsSetIn_bitSet]
      simp [hne]

variable {nodes mp ap : List D}

/-- The bitmap tells which items are not default leaves. -/
theorem bitIsSetIn_compress (defaultLeaf : D) {bitmap : Bytes}
    (hzero : ∀ j, i ≤ j → j < i + nodes.length → bitIsSetIn bitmap j = some false) {node : D}
    (hk : nodes[k]? = some node) :
    bitIsSetIn (compress defaultLeaf i bitmap nodes).1
      (i + k) = some (decide (node ≠ defaultLeaf)) := by
  induction nodes generalizing i bitmap k with
  | nil => cases hk
  | cons node' nodes ih =>
    rw [length_cons] at hzero
    have hfirst := hzero i (le_refl i) (by omega)
    unfold compress
    split
    next heq =>
      cases k with
      | zero =>
        cases hk
        refine (bitIsSetIn_compress_of_lt defaultLeaf (lt_succ_self i) bitmap nodes).trans ?_
        simp [hfirst, heq]
      | succ k =>
        rw [show i + (k + 1) = i + 1 + k by omega]
        exact ih (fun j h1 h2 => hzero j (by omega) (by omega)) hk
    next hne =>
      cases k with
      | zero =>
        cases hk
        refine (bitIsSetIn_compress_of_lt defaultLeaf (lt_succ_self i) _ nodes).trans ?_
        rw [bitIsSetIn_bitSet, hfirst]
        simp [hne]
      | succ k =>
        rw [show i + (k + 1) = i + 1 + k by omega]
        refine ih (fun j h1 h2 => ?_) hk
        have hij : i ≠ j := by omega
        rw [bitIsSetIn_bitSet, hzero j (by omega) (by omega)]
        simp [hij]

theorem bitIsSetIn_replicate {n : Nat} (h : j < 8 * n) :
    bitIsSetIn (replicate n 0) j = some false := by
  have hbyte : j / 8 < n := by omega
  unfold bitIsSetIn
  rw [getElem?_replicate_of_lt hbyte]
  simp

variable {H : Hasher D} {found : Found D}

omit [DecidableEq D] in
/-- A path has at most as many items as there are levels. -/
theorem merkleProof_length_le {s : Store D} {key : Key} {h : Nat} {root : Option (Node D)}
    {b : Batch D}
    (hproof : s.merkleProof H key h root b i = .ok (mp, found)) : mp.length ≤ h := by
  induction h generalizing root b i mp found with
  | zero =>
    cases root with
    | none =>
      cases hproof
      exact le_refl _
    | some root =>
      obtain ⟨_, _, -, -, h2⟩ := bind₂_ok hproof
      cases h2
      exact le_refl _
  | succ h ih =>
    cases root with
    | none =>
      cases hproof
      exact zero_le _
    | some root =>
      obtain ⟨⟨b', i', lnode, rnode, isShortcut⟩, -, h1⟩ := bind_ok hproof
      dsimp only at h1
      split at h1
      · obtain ⟨_, -, h2⟩ := bind_ok h1
        cases h2
        exact zero_le _
      · obtain ⟨_, _, -, -, h3⟩ := bind₂_ok h1
        split at h3
        all_goals
          obtain ⟨⟨mp', found'⟩, hrec, h4⟩ := bind_ok h3
          cases h4
          rw [length_append]
          exact succ_le_succ (ih hrec)

/-! ## Verifying a compressed proof -/

/-- `verifyInclusionC` with `n` levels to go; `none` is a panic on an index that is out of range. -/
def verifyInclusionC (H : Hasher D) (key : Key) (leafHash : D) (bitmap : Bytes) (ap : List D)
    (length : Nat) : Nat → Nat → Option D
  | 0, _ => some leafHash
  | n + 1, apIndex =>
    if 256 ≤ length - (n + 1) then none
    else do
      if ← bitIsSetIn bitmap n then
        let hash ← verifyInclusionC H key leafHash bitmap ap length n (apIndex + 1)
        let item ← if apIndex < ap.length then ap[ap.length - apIndex - 1]? else none
        return if bitIsSet key (length - (n + 1)) then H.interior item hash
          else H.interior hash item
      else
        let hash ← verifyInclusionC H key leafHash bitmap ap length n apIndex
        return if bitIsSet key (length - (n + 1)) then H.interior H.defaultLeaf hash
          else H.interior hash H.defaultLeaf

def SMT.verifyInclusionC (H : Hasher D) (t : SMT D) (bitmap : Bytes) (key : Key) (value : D)
    (ap : List D) (length : Nat) : Option Bool := do
  let leafHash := H.leaf key value (.ofInt (256 - length))
  let hash ← Trie.verifyInclusionC H key leafHash bitmap ap length length 0
  return t.root = some hash

def SMT.verifyNonInclusionC (H : Hasher D) (t : SMT D) (ap : List D) (length : Nat) (bitmap : Bytes)
    (key : Key) : Option (Key × D) → Option Bool
  | none => do
    let hash ← Trie.verifyInclusionC H key H.defaultLeaf bitmap ap length length 0
    return t.root = some hash
  | some (proofKey, value) => do
    if ← t.verifyInclusionC H bitmap proofKey value ap length then
      return (List.range length).all fun b => bitIsSet key b == bitIsSet proofKey b
    else
      return false

/-- The bitmap of a path. -/
def bitmapOf (H : Hasher D) (nodes : List D) : Bytes :=
  (compress H.defaultLeaf 0 (List.replicate (nodes.length / 8 + 1) 0) nodes).1

theorem bitIsSetIn_bitmapOf (H : Hasher D) {node : D} (hk : nodes[k]? = some node) :
    bitIsSetIn (bitmapOf H nodes) k = some (decide (node ≠ H.defaultLeaf)) := by
  have hzero (j : Nat) (_ : 0 ≤ j) (hj : j < 0 + nodes.length) :
      bitIsSetIn (replicate (nodes.length / 8 + 1) 0) j = some false :=
    bitIsSetIn_replicate (by omega)
  have h := bitIsSetIn_compress H.defaultLeaf hzero hk
  rwa [zero_add] at h

theorem merkleProofCompressed_eq {s : Store D} {key : Key} {root : Option D}
    (hproof : s.merkleProof H key 256 (root.map fun hash => { hash, flag := none }) .empty 0 =
      .ok (mp, found)) :
    s.merkleProofCompressed H key root =
      .ok (bitmapOf H mp, mp.filter (· ≠ H.defaultLeaf), mp.length, found) := by
  unfold Store.merkleProofCompressed
  rw [hproof, ← compress_snd H.defaultLeaf 0 (replicate (mp.length / 8 + 1) 0)]
  rfl

section Compressed

variable {H : Hasher D} {nodes : List D} {bitmap : Bytes}

/-- An item that is not left out comes after those that are not left out before it. -/
theorem filter_eq_append (defaultLeaf : D) {n : Nat} {node : D} (hn : nodes[n]? = some node)
    (hne : node ≠ defaultLeaf) : nodes.filter (· ≠ defaultLeaf) =
      (nodes.take n).filter (· ≠ defaultLeaf) ++ node :: (nodes.drop (n + 1)).filter
      (· ≠ defaultLeaf) := by
  obtain ⟨hlt, rfl⟩ := List.getElem?_eq_some_iff.mp hn
  rw [← List.filter_cons_of_pos (by simpa using hne), ← List.drop_eq_getElem_cons hlt,
    ← List.filter_append, List.take_append_drop]

/-- The item that is read, from the end of the list on. -/
theorem getElem?_filter (defaultLeaf : D) {n : Nat} {node : D} (hn : nodes[n]? = some node)
    (hne : node ≠ defaultLeaf) :
    let ap := nodes.filter (· ≠ defaultLeaf)
    let apIndex := ((nodes.drop (n + 1)).filter (· ≠ defaultLeaf)).length
    apIndex < ap.length ∧ ap[ap.length - apIndex - 1]? = some node ∧
      ((nodes.drop n).filter (· ≠ defaultLeaf)).length = apIndex + 1 := by
  intro ap apIndex
  have hap : ap = _ := filter_eq_append defaultLeaf hn hne
  have hlength : ap.length = ((nodes.take n).filter (· ≠ defaultLeaf)).length + (apIndex + 1) := by
    rw [hap, length_append, length_cons]
  have hindex : ap.length - apIndex - 1 =
    ((nodes.take n).filter (· ≠ defaultLeaf)).length := by omega
  refine ⟨by omega, ?_, ?_⟩
  · rw [hindex, hap, getElem?_append_right (Nat.le_refl _), Nat.sub_self]
    rfl
  · obtain ⟨hlt, rfl⟩ := List.getElem?_eq_some_iff.mp hn
    rw [List.drop_eq_getElem_cons hlt, List.filter_cons_of_pos (by simpa using hne),
      List.length_cons]

/-- The compressed path leads where the path leads. -/
theorem verifyInclusionC_eq_climb (hlen : nodes.length ≤ 256)
    (hbits : ∀ k node, nodes[k]? = some node →
      bitIsSetIn bitmap k = some (decide (node ≠ H.defaultLeaf)))
    (key : Key) (leafHash : D) {n : Nat} (hn : n ≤ nodes.length) :
    verifyInclusionC H key leafHash bitmap (nodes.filter (· ≠ H.defaultLeaf)) nodes.length n
        ((nodes.drop n).filter (· ≠ H.defaultLeaf)).length =
      some (climb H key leafHash (nodes.length - n) (nodes.take n).reverse) := by
  induction n with
  | zero => rfl
  | succ n ih =>
    have hlt : n < nodes.length := hn
    have hget : nodes[n]? = some nodes[n] := getElem?_eq_getElem hlt
    have hdepth : nodes.length - (n + 1) + 1 = nodes.length - n := by omega
    have ih := ih (le_of_succ_le hn)
    rw [verifyInclusionC, if_neg (by omega), hbits n _ hget, take_succ_eq_append_getElem hlt,
      reverse_append, reverse_singleton, singleton_append, climb, hdepth, above]
    by_cases hnode : nodes[n] = H.defaultLeaf
    · have hdrop : (nodes.drop (n + 1)).filter (· ≠ H.defaultLeaf) =
          (nodes.drop n).filter (· ≠ H.defaultLeaf) := by
        rw [drop_eq_getElem_cons hlt, filter_cons_of_neg (by simpa using hnode)]
      simp only [hnode, ne_eq, not_true, decide_false, Option.bind_eq_bind, Option.bind_some,
        Bool.false_eq_true, if_false]
      rw [hdrop, ih]
      split
      · rfl
      · rfl
    · obtain ⟨hindex, hitem, hcount⟩ := getElem?_filter H.defaultLeaf hget hnode
      rw [hcount] at ih
      simp only [hnode, ne_eq, not_false_eq_true, decide_true, Option.bind_eq_bind,
        Option.bind_some,
        if_true, ih, if_pos hindex, hitem]
      split
      · rfl
      · rfl

variable {t : SMT D} {ap : List D} {length : Nat}
  (hpaths : ∀ key leafHash, Trie.verifyInclusionC H key leafHash bitmap ap length length 0 =
    Trie.verifyInclusion H key leafHash 0 nodes.reverse) (hlength : length = nodes.length)
include hpaths hlength

theorem SMT.verifyInclusionC_eq (key : Key) (value : D) :
    t.verifyInclusionC H bitmap key value ap length = t.verifyInclusion H nodes key value := by
  unfold SMT.verifyInclusionC SMT.verifyInclusion
  dsimp only
  rw [hpaths, hlength]

theorem SMT.verifyNonInclusionC_eq (key : Key) (leaf : Option (Key × D)) :
    t.verifyNonInclusionC H ap length bitmap key leaf = t.verifyNonInclusion H nodes key leaf := by
  cases leaf with
  | none =>
    unfold verifyNonInclusionC verifyNonInclusion
    dsimp only
    rw [hpaths]
  | some kv =>
    unfold verifyNonInclusionC verifyNonInclusion
    dsimp only
    rw [verifyInclusionC_eq hpaths hlength, hlength]

end Compressed

theorem SMT.verifyInclusion_isSome {t : SMT D} (h : ap.length ≤ 256)
    (key : Key) (value : D) : (t.verifyInclusion H ap key value).isSome := by
  unfold SMT.verifyInclusion
  dsimp only
  rw [verifyInclusion_eq_climb (by rw [length_reverse]; omega)]
  rfl

theorem SMT.verifyNonInclusion_isSome {t : SMT D} (h : ap.length ≤ 256)
    (key : Key) (leaf : Option (Key × D)) : (t.verifyNonInclusion H ap key leaf).isSome := by
  cases leaf with
  | none =>
    unfold verifyNonInclusion
    dsimp only
    rw [verifyInclusion_eq_climb (by rw [length_reverse]; omega)]
    rfl
  | some kv =>
    unfold verifyNonInclusion
    dsimp only
    obtain ⟨b, hb⟩ :=
      Option.isSome_iff_exists.mp (verifyInclusion_isSome (H := H) (t := t) h kv.1 kv.2)
    rw [hb]
    cases b with
    | false | true => rfl

def SMT.merkleProofCompressed (H : Hasher D) (t : SMT D) (key : Key) :
    Except Err (Bytes × List D × Nat × Found D) :=
  t.store.merkleProofCompressed H key t.root

/-- For every key of which a trie makes a proof, the compressed proof has the same length and is
verified exactly when the proof is, for every key and value. No index is out of range. -/
theorem SMT.compressed_proof_correct (H : Hasher D) (t : SMT D) (key : Key) {mp : List D}
    {found : Found D}
    (hproof : t.merkleProof H key = .ok (mp, found)) :
    ∃ bitmap ap, t.merkleProofCompressed H key = .ok (bitmap, ap, mp.length, found) ∧
      (∀ key' value', (t.verifyInclusionC H bitmap key' value' ap mp.length).isSome ∧
        t.verifyInclusionC H bitmap key' value' ap mp.length = t.verifyInclusion H mp key' value') ∧
      ∀ key' leaf, (t.verifyNonInclusionC H ap mp.length bitmap key' leaf).isSome ∧
        t.verifyNonInclusionC H ap mp.length bitmap key' leaf = t.verifyNonInclusion H mp
        key' leaf := by
  have hlen : mp.length ≤ 256 := merkleProof_length_le hproof
  have hpaths (key' : Key) (leafHash : D) :
      Trie.verifyInclusionC H key' leafHash (bitmapOf H mp) (mp.filter (· ≠ H.defaultLeaf))
      mp.length
          mp.length 0 =
        Trie.verifyInclusion H key' leafHash 0 mp.reverse := by
    have h := verifyInclusionC_eq_climb hlen (fun _ _ hk => bitIsSetIn_bitmapOf H hk) key' leafHash
      (Nat.le_refl mp.length)
    rw [drop_length, take_length, Nat.sub_self] at h
    rw [verifyInclusion_eq_climb (by rw [length_reverse]; omega)]
    exact h
  refine ⟨_, _, merkleProofCompressed_eq hproof, fun key' value' => ?_, fun key' leaf => ?_⟩
  · rw [verifyInclusionC_eq hpaths rfl]
    exact ⟨verifyInclusion_isSome hlen key' value', rfl⟩
  · rw [verifyNonInclusionC_eq hpaths rfl]
    exact ⟨verifyNonInclusion_isSome hlen key' leaf, rfl⟩

theorem Digest.compressed_proof_permitted :
    let t := (Run.exec (Session.step hasher) .start permitted).trie
    ∃ bitmap ap mp found, t.merkleProof hasher (key 9) = .ok (mp, found) ∧
      t.merkleProofCompressed hasher (key 9) = .ok (bitmap, ap, mp.length, found) ∧
      ∀ value, t.verifyInclusionC hasher bitmap (key 9) value ap mp.length =
        t.verifyInclusion hasher mp (key 9) value := by
  intro t
  obtain ⟨⟨mp, found⟩, hproof⟩ : ∃ proof, t.merkleProof hasher (key 9) = .ok proof :=
    ⟨_, (Session.shows_exec collisionFree permitted).holds.merkleProof⟩
  obtain ⟨bitmap, ap, hcompressed, hinclusion, -⟩ :=
    compressed_proof_correct hasher t (key 9) hproof
  refine ⟨bitmap, ap, mp, found, hproof, hcompressed, ?_⟩
  intro value
  exact (hinclusion (key 9) value).2

theorem merkleProofCompressed_length {s : Store D} {key : Key} {root : Option D} {bitmap : Bytes}
    {height : Nat} (h : s.merkleProofCompressed H key root = .ok (bitmap, mp, height, found)) :
    bitmap.length = height / 8 + 1 ∧ mp.length ≤ height ∧ height ≤ 256 := by
  obtain ⟨⟨mpFull, found'⟩, hproof, h1⟩ := bind_ok h
  simp only [pure, Except.pure, Except.ok.injEq, Prod.mk.injEq] at h1
  obtain ⟨rfl, rfl, rfl, -⟩ := h1
  refine ⟨?_, ?_, merkleProof_length_le hproof⟩
  · rw [length_compress_fst, length_replicate]
  · rw [compress_snd]
    exact length_filter_le ..

end MadNet.Trie
