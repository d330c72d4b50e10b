import MadNet.Staking.Effects
import MadNet.Trie.CompressedProof

/-!
# `MerkleProofLibrary.sol`

The contracts verify the compressed proofs of the tries of the nodes. They do not look at the
lengths of the bitmap and of the audit path: behind their end, what follows in memory is read. So a
proof has here the words that are in memory from the beginning of both on.
-/

namespace MadNet.Accusation

open Radix Trie List Prog
open Staking (Revert require require_eq_ok)

/-- `MerkleProofParserLibrary.MerkleProof`, as far as it is read. -/
structure MerkleProof (D : Type) where
  keyHeight : Nat
  key : Key
  proofKey : Key
  proofValue : D
  /-- The word at the beginning of the bitmap. -/
  bitmap : BitVec 256
  /-- The words from the beginning of the audit path on. -/
  auditPath : Nat → D

variable {D : Type} (H : Hasher D)

/-! ## The functions -/

/-- `bitSet` and `bitSetBytes32`. -/
def bitSet (word : BitVec 256) (index : Nat) : Bool :=
  (word &&& 1#256 <<< (255 - index)) >>> (255 - index) = 1#256

/-- The hash is that of the encoded arguments. -/
def computeLeafHash (key : Key) (value : D) (proofHeight : Nat) : Except Revert D := do
  require (proofHeight ≤ 256) "MerkleProofLibrary: Invalid proofHeight, should be [0, 256["
  return H.leaf key value (.ofNat (256 - proofHeight))

/-- The item that the loop of `checkProof` reads, and how many were read from the audit path; `n`
rounds are left after this one. -/
def nextItem (proof : MerkleProof D) (n proofIdx : Nat) : D × Nat :=
  if bitSet proof.bitmap (proof.keyHeight - (n + 1)) then (proof.auditPath proofIdx, proofIdx + 1)
  else (H.defaultLeaf, proofIdx)

/-- The loop of `checkProof` with `n` rounds to go. -/
def checkLoop (proof : MerkleProof D) : Nat → Nat → D → D
  | 0, _, h => h
  | n + 1, proofIdx, h =>
    let (el, proofIdx) := nextItem H proof n proofIdx
    checkLoop proof n proofIdx (if bitSet proof.key n then H.interior el h else H.interior h el)

variable [DecidableEq D]

def checkProof (proof : MerkleProof D) (root keyHash : D) : Except Revert Bool := do
  require (proof.keyHeight ≤ 256) "MerkleProofLibrary: proofHeight should be in the range [0, 256]"
  return checkLoop H proof proof.keyHeight 0 keyHash = root

variable [Zero D]

def verifyInclusion (proof : MerkleProof D) (root : D) : Except Revert Unit := do
  require (proof.proofValue ≠ 0) "MerkleProofLibrary: Invalid Inclusion Merkle proof!"
  let keyHash ← computeLeafHash H proof.key proof.proofValue proof.keyHeight
  let result ← checkProof H proof root keyHash
  require result "MerkleProofLibrary: The proof doesn't match the root of the trie!"

def verifyNonInclusion (proof : MerkleProof D) (root : D) : Except Revert Unit :=
  if proof.proofKey = 0 ∧ proof.proofValue = 0 then do
    let result ← checkProof H proof root H.defaultLeaf
    require result "MerkleProofLibrary: Default leaf not found in the key's path!"
  else if proof.proofKey ≠ 0 ∧ proof.proofValue ≠ 0 then do
    let keyHash ← computeLeafHash H proof.proofKey proof.proofValue proof.keyHeight
    let result ← checkProof H proof root keyHash
    require result "MerkleProofLibrary: The Leaf node provided was not found in the key's path!"
  else
    .error (.code "MerkleProofLibrary: Invalid Non Inclusion Merkle proof!")

/-! ## The loop climbs a path -/

theorem and_shiftLeft_shiftRight_eq_one {word : BitVec 256} {k : Nat} (h : k < 256) :
    (word &&& 1#256 <<< k) >>> k = 1#256 ↔ word.getLsbD k = true := by
  constructor
  · intro heq
    have hbit := congrArg (·.getLsbD 0) heq
    simpa [h] using hbit
  · intro hbit
    ext j hj
    by_cases hz : j = 0
    · subst hz
      simp [h, hbit]
    · simp [hz]

theorem bitSet_eq {word : BitVec 256} {index : Nat} (h : index < 256) :
    bitSet word index = word.getMsbD index := by
  rw [bitSet, BitVec.getMsbD_eq_getLsbD, Bool.eq_iff_iff, decide_eq_true_iff,
    and_shiftLeft_shiftRight_eq_one (by omega)]
  simp [h]

/-- The items that `n` rounds of the loop read, in their order. -/
def items (proof : MerkleProof D) : Nat → Nat → List D
  | 0, _ => []
  | n + 1, proofIdx =>
    (nextItem H proof n proofIdx).1 :: items proof n (nextItem H proof n proofIdx).2

omit [DecidableEq D] [Zero D] in
@[simp] theorem length_items (proof : MerkleProof D) (n proofIdx : Nat) :
    (items H proof n proofIdx).length = n := by
  induction n generalizing proofIdx with
  | zero => rfl
  | succ n ih => rw [items, length_cons, ih]

omit [DecidableEq D] [Zero D] in
theorem checkLoop_eq_climb (proof : MerkleProof D) {n : Nat} (hn : n ≤ 256)
    (proofIdx : Nat) (h : D) :
    checkLoop H proof n proofIdx h = climb H proof.key h 0 (items H proof n proofIdx).reverse := by
  induction n generalizing proofIdx h with
  | zero => rfl
  | succ n ih =>
    rw [checkLoop, items, reverse_cons, climb_append, length_reverse, length_items, Nat.zero_add,
      above, bitSet_eq (by omega)]
    dsimp only
    rw [ih (by omega), apply_ite H.hash]
    rfl

/-- The items of the audit path with the default leaves, from the top down. -/
def path (proof : MerkleProof D) : List D := (items H proof proof.keyHeight 0).reverse

variable {H} {proof : MerkleProof D} {root : D}

omit [Zero D] in
theorem checkProof_eq_ok {keyHash : D} {result : Bool} :
    checkProof H proof root keyHash = .ok result ↔
      proof.keyHeight ≤ 256 ∧ result = decide
      (climb H proof.key keyHash 0 (path H proof) = root) := by
  constructor
  · intro h
    obtain ⟨_, h1, h2⟩ := bind_ok h
    have hheight := of_decide_eq_true (require_eq_ok.mp h1)
    rw [checkLoop_eq_climb H proof hheight] at h2
    exact ⟨hheight, (Except.ok.inj h2).symm⟩
  · rintro ⟨hheight, rfl⟩
    unfold checkProof
    rw [require, if_pos (decide_eq_true hheight), ok_bind, checkLoop_eq_climb H proof hheight]
    rfl

def leafBelow (proof : MerkleProof D) (key : Key) : Preimage D :=
  .leaf key proof.proofValue (.ofNat (256 - proof.keyHeight))

omit [DecidableEq D] [Zero D] in
theorem computeLeafHash_eq_ok {key : Key} {keyHash : D} :
    computeLeafHash H key proof.proofValue proof.keyHeight = .ok keyHash ↔
      proof.keyHeight ≤ 256 ∧ keyHash = H.hash (leafBelow proof key) := by
  constructor
  · intro h
    obtain ⟨_, h1, h2⟩ := bind_ok h
    exact ⟨of_decide_eq_true (require_eq_ok.mp h1), (Except.ok.inj h2).symm⟩
  · rintro ⟨hheight, rfl⟩
    unfold computeLeafHash
    rw [require, if_pos (decide_eq_true hheight)]
    rfl

omit [Zero D] in
/-- What both functions check: the path from the leaf of a key leads to the root. -/
theorem check_leaf_eq_ok {key : Key} {text : String} :
    (do let keyHash ← computeLeafHash H key proof.proofValue proof.keyHeight
        let result ← checkProof H proof root keyHash
        require result text) = .ok () ↔
      proof.keyHeight ≤ 256 ∧ climb H proof.key (H.hash (leafBelow proof key)) 0
      (path H proof) = root := by
  constructor
  · intro h
    obtain ⟨keyHash, result, h1, h3, h4⟩ := bind₂_ok h
    obtain ⟨hheight, rfl⟩ := computeLeafHash_eq_ok.mp h1
    obtain ⟨-, rfl⟩ := checkProof_eq_ok.mp h3
    exact ⟨hheight, of_decide_eq_true (require_eq_ok.mp h4)⟩
  · rintro ⟨hheight, hroot⟩
    rw [computeLeafHash_eq_ok.mpr ⟨hheight, rfl⟩, ok_bind, checkProof_eq_ok.mpr ⟨hheight, rfl⟩,
      ok_bind]
    exact if_pos (decide_eq_true hroot)

theorem verifyInclusion_eq_ok : verifyInclusion H proof root = .ok () ↔ proof.proofValue ≠ 0 ∧
    proof.keyHeight ≤ 256 ∧
      climb H proof.key (H.hash (leafBelow proof proof.key)) 0 (path H proof) = root := by
  constructor
  · intro h
    obtain ⟨_, h1, h2⟩ := bind_ok h
    exact ⟨of_decide_eq_true (require_eq_ok.mp h1), check_leaf_eq_ok.mp h2⟩
  · rintro ⟨hvalue, hcheck⟩
    unfold verifyInclusion
    rw [require, if_pos (decide_eq_true hvalue), ok_bind]
    exact check_leaf_eq_ok.mpr hcheck

/-- What is at the end of the path of a proof of non-inclusion. -/
def endOfPath (proof : MerkleProof D) : Preimage D :=
  if proof.proofKey = 0 ∧ proof.proofValue = 0 then .default else leafBelow proof proof.proofKey

theorem verifyNonInclusion_eq_ok : verifyNonInclusion H proof root = .ok () ↔
    (proof.proofKey = 0 ↔ proof.proofValue = 0) ∧ proof.keyHeight ≤ 256 ∧
      climb H proof.key (H.hash (endOfPath proof)) 0 (path H proof) = root := by
  unfold verifyNonInclusion endOfPath
  split
  next hzero =>
    constructor
    · intro h
      obtain ⟨result, h1, h2⟩ := bind_ok h
      obtain ⟨hheight, rfl⟩ := checkProof_eq_ok.mp h1
      exact ⟨⟨fun _ => hzero.2, fun _ => hzero.1⟩, hheight, of_decide_eq_true (require_eq_ok.mp h2)⟩
    · rintro ⟨-, hheight, hroot⟩
      rw [checkProof_eq_ok.mpr ⟨hheight, rfl⟩, ok_bind]
      exact if_pos (decide_eq_true hroot)
  next hzero =>
    split
    next hne =>
      rw [check_leaf_eq_ok]
      exact ⟨fun h => ⟨⟨fun hkey => absurd hkey hne.1, fun hvalue => absurd hvalue hne.2⟩, h⟩,
        And.right⟩
    next hne =>
      constructor
      · nofun
      · rintro ⟨hiff, -⟩
        by_cases hkey : proof.proofKey = 0
        · exact absurd ⟨hkey, hiff.mp hkey⟩ hzero
        · exact absurd ⟨hkey, fun hvalue => hkey (hiff.mpr hvalue)⟩ hne

/-! ## Soundness -/

section Soundness

variable {M : Set (Preimage D)} {T : Tree Key D} (hM : Set.InjOn H.hash M)
  (hT : ∀ p ∈ preimages H 256 T, p ∈ M) (hroot : root = digest H (ref H 256 T))
include hM hT hroot

/-- A proof of inclusion that is accepted tells what the tree has. -/
theorem get_of_verifyInclusion (h : verifyInclusion H proof root = .ok ())
    (hleaf : leafBelow proof proof.key ∈ M)
    (hclimbed : ∀ p ∈ climbed H proof.key (H.hash (leafBelow proof proof.key)) 0 (path H proof),
      p ∈ M) :
    T.get bitIsSet proof.key 0 = some proof.proofValue := by
  obtain ⟨-, -, hclimb⟩ := verifyInclusion_eq_ok.mp h
  rw [← Tree.get_follow proof.key (path H proof).length,
    follow_eq_leaf_of_climb hM hT hclimbed hleaf (hclimb.trans hroot)]
  exact if_pos rfl

/-- A proof of non-inclusion that is accepted tells that the tree does not have the key, unless the
leaf that it shows is that of the key. -/
theorem get_of_verifyNonInclusion (h : verifyNonInclusion H proof root = .ok ())
    (hend : endOfPath proof ∈ M)
    (hclimbed : ∀ p ∈ climbed H proof.key (H.hash (endOfPath proof)) 0 (path H proof), p ∈ M) :
    T.get bitIsSet proof.key 0 =
      if proof.proofKey ≠ 0 ∧ proof.proofKey = proof.key then some proof.proofValue else none := by
  obtain ⟨hiff, -, hclimb⟩ := verifyNonInclusion_eq_ok.mp h
  rw [← Tree.get_follow proof.key (path H proof).length]
  unfold endOfPath at hend hclimbed hclimb
  split at hclimb
  next hzero =>
    rw [if_pos hzero] at hend hclimbed
    rw [follow_eq_empty_of_climb hM hT hclimbed hend (hclimb.trans hroot),
      if_neg fun hne => hne.1 hzero.1]
    rfl
  next hzero =>
    have hne : proof.proofKey ≠ 0 := fun hkey => hzero ⟨hkey, hiff.mp hkey⟩
    rw [if_neg hzero] at hend hclimbed
    rw [follow_eq_leaf_of_climb hM hT hclimbed hend (hclimb.trans hroot), Radix.Tree.get]
    simp only [hne, ne_eq, not_false_eq_true, true_and]

end Soundness

/-! ## Completeness -/

/-- A proof in memory that a compressed proof of the nodes was decoded to; no proof key and no value
are zeros. -/
structure Decodes (proof : MerkleProof D) (key : Key) (bitmap : Bytes) (ap : List D) (length : Nat)
    (found : Found D) : Prop where
  keyHeight : proof.keyHeight = length
  key : proof.key = key
  bitmap : ∀ i, i < 256 → ∀ b ∈ bitIsSetIn bitmap i, proof.bitmap.getMsbD i = b
  auditPath : ∀ i, ∀ item ∈ ap[i]?, proof.auditPath i = item
  found : (proof.proofKey, proof.proofValue) = match found with
    | .value v => (0, v)
    | .leaf k v => (k, v)
    | .default => (0, 0)

omit [Zero D] in
/-- The loop reads the items with the default leaves. -/
theorem items_eq {nodes : List D} (hlen : nodes.length ≤ 256)
    (hheight : proof.keyHeight = nodes.length)
    (hbits : ∀ k node, nodes[k]? = some node →
      proof.bitmap.getMsbD k = decide (node ≠ H.defaultLeaf))
    (haudit : ∀ i, ∀ item ∈ (nodes.filter (· ≠ H.defaultLeaf))[i]?, proof.auditPath i = item)
    {n : Nat}
    (hn : n ≤ nodes.length) :
    items H proof n ((nodes.take (nodes.length - n)).filter (· ≠ H.defaultLeaf)).length =
      nodes.drop (nodes.length - n) := by
  induction n with
  | zero => rw [items, Nat.sub_zero, drop_length]
  | succ n ih =>
    have ih := ih (Nat.le_of_succ_le hn)
    have hi : nodes.length - n = nodes.length - (n + 1) + 1 := by omega
    rw [hi] at ih
    generalize nodes.length - (n + 1) = i at ih hi
    have hlt : i < nodes.length := by omega
    have hget : nodes[i]? = some nodes[i] := getElem?_eq_getElem hlt
    have hnext : nextItem H proof n ((nodes.take i).filter (· ≠ H.defaultLeaf)).length =
        (nodes[i], ((nodes.take (i + 1)).filter (· ≠ H.defaultLeaf)).length) := by
      have hindex : proof.keyHeight - (n + 1) = i := by omega
      rw [nextItem, hindex, bitSet_eq (by omega), hbits i _ hget,
        take_succ_eq_append_getElem hlt, filter_append, length_append]
      by_cases hnode : nodes[i] = H.defaultLeaf
      · rw [if_neg (by simpa using hnode), filter_cons_of_neg (by simpa using hnode), hnode]
        rfl
      · have hitem := haudit ((nodes.take i).filter (· ≠ H.defaultLeaf)).length nodes[i] (by
          rw [filter_eq_append H.defaultLeaf hget hnode,
            getElem?_append_right (Nat.le_refl _), Nat.sub_self]
          rfl)
        rw [if_pos (by simpa using hnode), filter_cons_of_pos (by simpa using hnode), hitem]
        rfl
    rw [items, hnext, ih, ← drop_eq_getElem_cons hlt]

/-- The check that matches what a proof says. -/
def Accepts (H : Hasher D) (proof : MerkleProof D) (root : D) : Found D → Prop
  | .value _ => verifyInclusion H proof root = .ok ()
  | _ => verifyNonInclusion H proof root = .ok ()

/-- Neither the key nor the value of the leaf that a proof shows is zero; the key of an included
value is not in the proof. -/
def NonZero : Found D → Prop
  | .value v => v ≠ 0
  | .leaf k v => k ≠ 0 ∧ v ≠ 0
  | .default => True

theorem Decodes.path_eq {key : Key} {nodes : List D} {found : Found D} (hlen : nodes.length ≤ 256)
    (h : Decodes proof key (bitmapOf H nodes) (nodes.filter (· ≠ H.defaultLeaf))
      nodes.length found) :
    path H proof = nodes.reverse := by
  have hbits (k : Nat) (node : D) (hk : nodes[k]? = some node) :
      proof.bitmap.getMsbD k = decide (node ≠ H.defaultLeaf) := by
    obtain ⟨hlt, -⟩ := List.getElem?_eq_some_iff.mp hk
    exact h.bitmap k (by omega) _ (bitIsSetIn_bitmapOf H hk)
  have hitems := items_eq hlen h.keyHeight hbits h.auditPath (Nat.le_refl nodes.length)
  rw [Nat.sub_self] at hitems
  rw [path, h.keyHeight]
  exact congrArg reverse hitems

section Completeness

variable {t : SMT D} {T : Tree Key D} {key : Key}

omit [DecidableEq D] [Zero D] in
/-- The proof that a trie makes for a key leads from what it has found to the root. -/
theorem climb_proofOf (key : Key) (ht : t.Holds H T) (hroot : t.root = some root) :
    climb H key
      (digest H (ref H (256 - (proofOf H key 256 T).1.length) ((proofOf H key 256 T).2.tree key)))
      0 (proofOf H key 256 T).1.reverse = root := by
  rw [ht.root_eq_some hroot]
  exact climb_of_verifyInclusion
    (Trie.verifyInclusion_proofOf (Nat.le_refl 256) ht.complete fun _ _ _ => rfl)

/-- A proof of the nodes is accepted, but for the leaves with zeros. -/
theorem accepts_iff (hH : H.CollisionFree) (ht : t.Holds H T) (hroot : t.root = some root)
    {bitmap : Bytes}
    {ap : List D} {length : Nat} {found : Found D}
    (hproof : t.merkleProofCompressed H key = .ok (bitmap, ap, length, found))
    (hd : Decodes proof key bitmap ap length found) : Accepts H proof root found ↔
      NonZero found := by
  have hclimb := climb_proofOf key ht hroot
  have hlen : (proofOf H key 256 T).1.length ≤ 256 := length_proofOf ht.complete
  have hcompressed : t.merkleProofCompressed H key = _ := merkleProofCompressed_eq ht.merkleProof
  generalize (proofOf H key 256 T).1 = mp at hclimb hlen hcompressed
  generalize (proofOf H key 256 T).2 = found' at hclimb hcompressed
  obtain ⟨rfl, rfl, rfl, rfl⟩ : bitmapOf H mp = bitmap ∧ mp.filter (· ≠ H.defaultLeaf) = ap ∧
      mp.length = length ∧ found' = found := by
    simpa using hcompressed.symm.trans hproof
  have hpath := hd.path_eq hlen
  have hheight := hd.keyHeight
  have hvalues := hd.found
  rw [← hheight] at hclimb hlen
  rw [← hpath, ← hd.key] at hclimb
  cases found' with
  | value v =>
    obtain ⟨-, rfl⟩ := Prod.mk.inj hvalues
    exact verifyInclusion_eq_ok.trans ⟨And.left, fun hne => ⟨hne, hlen, hclimb⟩⟩
  | default =>
    obtain ⟨hkey, hvalue⟩ := Prod.mk.inj hvalues
    refine verifyNonInclusion_eq_ok.trans ⟨fun _ => trivial, fun _ => ?_⟩
    rw [endOfPath, if_pos ⟨hkey, hvalue⟩]
    exact ⟨⟨fun _ => hvalue, fun _ => hkey⟩, hlen, hclimb⟩
  | leaf k v =>
    cases hvalues
    refine verifyNonInclusion_eq_ok.trans ⟨fun haccepts => ?_, fun hne => ?_⟩
    · obtain ⟨hiff, -, hend⟩ := haccepts
      have hne : ¬(proof.proofKey = 0 ∧ proof.proofValue = 0) := by
        intro hzero
        rw [endOfPath, if_pos hzero] at hend
        have hM := hH.injective.injOn (s := Set.univ)
        have hempty := follow_eq_empty_of_climb hM (fun _ _ => trivial) (fun _ _ => trivial) trivial
          (hend.trans (ht.root_eq_some hroot))
        have hleaf := follow_eq_leaf_of_climb hM (fun _ _ => trivial) (fun _ _ => trivial) trivial
          (hclimb.trans (ht.root_eq_some hroot))
        rw [hempty] at hleaf
        cases hleaf
      exact ⟨fun hkey => hne ⟨hkey, hiff.mp hkey⟩, fun hvalue => hne ⟨hiff.mpr hvalue, hvalue⟩⟩
    · rw [endOfPath, if_neg fun hzero => hne.1 hzero.1]
      exact ⟨⟨fun hkey => absurd hkey hne.1, fun hvalue => absurd hvalue hne.2⟩, hlen, hclimb⟩

end Completeness

/-! ## Proofs against the root of a history -/

/-- For every root that the trie of the nodes can have: a proof of inclusion that is accepted tells
what the trie has; a proof of non-inclusion that is accepted tells that the key is absent exactly if
the leaf that it shows is not that of the key; the proof that the trie makes is accepted exactly if
it shows no zeros. -/
theorem merkleProofLibrary_correct (hH : H.CollisionFree) (es : List (Trie.Event D))
    (hroot : (Run.exec (Session.step H) .start es).trie.root = some root) :
    let t := (Run.exec (Session.step H) .start es).trie
    (∀ proof, verifyInclusion H proof root = .ok () →
      t.get proof.key = .ok (some proof.proofValue)) ∧
    (∀ proof, verifyNonInclusion H proof root = .ok () →
      (t.get proof.key = .ok none ↔ ¬(proof.proofKey ≠ 0 ∧ proof.proofKey = proof.key))) ∧
    ∀ key, ∃ bitmap ap length found, t.merkleProofCompressed H key = .ok (bitmap, ap,
      length, found) ∧
      ∀ proof, Decodes proof key bitmap ap length found →
      (Accepts H proof root found ↔ NonZero found) := by
  intro t
  have ht := (Session.shows_exec hH es).holds
  have hM := hH.injective.injOn (s := Set.univ)
  refine ⟨fun proof hok => ?_, fun proof hok => ?_, fun key => ?_⟩
  · rw [ht.get]
    exact congrArg _ (get_of_verifyInclusion hM (fun _ _ => trivial) (ht.root_eq_some hroot) hok
      trivial
      fun _ _ => trivial)
  · rw [ht.get, get_of_verifyNonInclusion hM (fun _ _ => trivial) (ht.root_eq_some hroot) hok
      trivial
      fun _ _ => trivial]
    split
    next hown => simpa using hown
    next hown => simpa using hown
  · obtain ⟨⟨mp, found⟩, hproof⟩ : ∃ p, t.merkleProof H key = .ok p := ⟨_, ht.merkleProof⟩
    have hcompressed : t.merkleProofCompressed H key = _ := merkleProofCompressed_eq hproof
    exact ⟨_, _, _, _, hcompressed, fun proof hd => accepts_iff hH ht hroot hcompressed hd⟩

namespace Words

open Trie.Digest

instance : Zero (Digest Nat) := ⟨.value 0⟩

def single : List (Trie.Event (Digest Nat)) := [.update [Digest.key 6] [.value 6]]

theorem root_single : (Run.exec (Session.step hasher) .start single).trie.root =
    some (hasher.leaf (Digest.key 6) (.value 6) 0) := by
  rw [(Session.shows_exec collisionFree single).holds.root]
  decide +kernel

/-- The proof with this leaf at the root. -/
def ofLeaf (proofKey : Key) : MerkleProof (Digest Nat) where
  keyHeight := 0
  key := Digest.key 6
  proofKey := proofKey
  proofValue := .value 6
  bitmap := 0
  auditPath := fun _ => .defaultLeaf

/-- Two keys that differ in the first bit. -/
def pair : List (Trie.Event (Digest Nat)) :=
  [.update [Digest.key 6, Digest.key 14] [.value 6, .value 14]]

def pairRoot : Digest Nat :=
  hasher.interior (hasher.leaf (Digest.key 6) (.value 6) 255)
    (hasher.leaf (Digest.key 14) (.value 14) 255)

/-- A proof whose path has the leaf of the second key beside that of the first one. -/
def besideLeaf (key proofKey : Key) : MerkleProof (Digest Nat) where
  keyHeight := 1
  key := key
  proofKey := proofKey
  proofValue := .value 6
  bitmap := 1#256 <<< 255
  auditPath := fun _ => hasher.leaf (Digest.key 14) (.value 14) 255

/-- The first key is included, a key that shares its first bits is not, and the proof that the trie
makes for the first key is accepted. -/
theorem merkleProofLibrary_pair :
    let t := (Run.exec (Session.step hasher) .start pair).trie
    t.get (Digest.key 6) = .ok (some (.value 6)) ∧ t.get (Digest.key 7) = .ok none ∧
    ∃ bitmap ap length found,
      t.merkleProofCompressed hasher (Digest.key 6) = .ok (bitmap, ap, length, found) ∧
      Accepts hasher (besideLeaf (Digest.key 6) 0) pairRoot found := by
  intro t
  have hroot : t.root = some pairRoot := by decide +kernel
  obtain ⟨hincluded, habsent, hmakes⟩ := merkleProofLibrary_correct collisionFree pair hroot
  refine ⟨hincluded (besideLeaf (Digest.key 6) 0) (by decide +kernel), ?_, ?_⟩
  · exact (habsent (besideLeaf (Digest.key 7) (Digest.key 6)) (by decide +kernel)).mpr
      (by decide +kernel)
  · obtain ⟨bitmap, ap, length, found, hmade, haccepts⟩ := hmakes (Digest.key 6)
    have hproof : t.merkleProofCompressed hasher (Digest.key 6) = .ok ([128],
        [hasher.leaf (Digest.key 14) (.value 14) 255], 1, .value (.value 6)) := by decide +kernel
    obtain ⟨rfl, rfl, rfl, rfl⟩ : bitmap = [128] ∧ ap = [_] ∧ length = 1 ∧
      found = .value (.value 6) := by
      simpa using hmade.symm.trans hproof
    refine ⟨_, _, _, _, hmade, (haccepts _ ⟨rfl, rfl, by decide +kernel, ?_, rfl⟩).mpr ?_⟩
    · intro i item hitem
      cases i with
      | zero => exact Option.some_inj.mp hitem
      | succ i => cases hitem
    · exact fun h => by cases h

/-- A key is included, and the proof with its own leaf is accepted as a proof that it is not. -/
theorem verifyNonInclusion_own_leaf : (Run.exec (Session.step hasher) .start single).trie.root =
      some (hasher.leaf (Digest.key 6) (.value 6) 0) ∧
    (Run.exec (Session.step hasher) .start single).trie.get (Digest.key 6) = .ok (some (.value 6)) ∧
    verifyNonInclusion hasher (ofLeaf (Digest.key 6))
      (hasher.leaf (Digest.key 6) (.value 6) 0) = .ok () := by
  refine ⟨root_single, ?_, by decide +kernel⟩
  rw [(Session.shows_exec collisionFree single).holds.get]
  decide +kernel

end Words

end MadNet.Accusation
