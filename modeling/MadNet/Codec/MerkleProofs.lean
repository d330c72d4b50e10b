import MadNet.Codec.Agreement
import MadNet.Trie.CompressedProof
import MadNet.Trie.ParseBatch

/-!
# The encoding of Merkle proofs (`consensus/db/merkle.go`, `consensus/db/headertrie.go`)

A proof is encoded without Cap'n Proto. No proof key and no proof value are encoded as zeros.
-/

namespace MadNet.Codec

open Bytes List Prog
open Staking (checked checked_of_lt)
open Trie (Word Store Hasher Found)

structure MerkleProof where
  included : Bool
  keyHeight : Nat
  key : Bytes
  proofKey : Bytes
  proofValue : Bytes
  bitmap : Bytes
  path : List Bytes
  deriving DecidableEq

def MerkleProof.marshalBinary (mp : MerkleProof) : Bytes :=
  [if mp.included then 1 else 0] ++ ofNatBE 2 mp.keyHeight ++ (Word.ofBytes mp.key).1 ++
    (Word.ofBytes mp.proofKey).1 ++ (Word.ofBytes mp.proofValue).1 ++ ofNatBE 2 mp.bitmap.length ++
    ofNatBE 2 mp.path.length ++ mp.bitmap ++ mp.path.flatten

/-! ## `headerTrie` -/

namespace HeaderTrie

def trieKey (height : UInt32) : Bytes := (Word.ofBytes (ofNatBE 4 height.toNat)).1

/-- `included`, `proofKey` and `proofVal`. -/
def outcome : Found Word → Bool × Bytes × Bytes
  | .value v => (true, [], v.1)
  | .leaf proofKey proofValue => (false, ofNatBE 32 proofKey.toNat, proofValue.1)
  | .default => (false, [], [])

/-- The proof that `GetProof` makes. -/
def proof (H : Hasher Word) (s : Store Word) (root : Option Word) (height : UInt32) :
    Except Trie.Err MerkleProof := do
  let key := trieKey height
  let (bitmap, mp, keyHeight, found) ← s.merkleProofCompressed H (.ofNat 256 (toNatBE key)) root
  let (included, proofKey, proofValue) := outcome found
  return { included, keyHeight, key, proofKey, proofValue, bitmap, path := mp.map (·.1) }

end HeaderTrie

/-! ## Agreement -/

/-- What the proofs of a trie have in common. -/
structure MerkleProof.WellFormed (mp : MerkleProof) : Prop where
  keyHeight : mp.keyHeight ≤ 256
  key : mp.key.length = 32
  proofKey : mp.proofKey = [] ∨ mp.proofKey.length = 32
  proofValue : mp.proofValue = [] ∨ mp.proofValue.length = 32
  bitmap : mp.bitmap.length ≤ 33
  path : mp.path.length ≤ 256
  items : ∀ item ∈ mp.path, item.length = 32

/-- Zeros for no hash. -/
def zerosIfNil (hash : Bytes) : Bytes := if hash = [] then List.replicate 32 0 else hash

/-- The fields of a proof as the contracts know them. -/
def MerkleProof.parsed (mp : MerkleProof) : ParsedMerkleProof where
  included := mp.included
  keyHeight := mp.keyHeight
  key := mp.key
  proofKey := zerosIfNil mp.proofKey
  proofValue := zerosIfNil mp.proofValue
  bitmap := mp.bitmap
  auditPath := mp.path.flatten

variable {hash : Bytes}

theorem ofBytes_of_length (h : hash.length = 32) : (Word.ofBytes hash).1 = hash := take_left' h

theorem ofBytes_eq (h : hash = [] ∨ hash.length = 32) :
    (Word.ofBytes hash).1 = zerosIfNil hash := by
  rcases h with rfl | h
  · rfl
  · have hne : hash ≠ [] := by
      rintro rfl
      simp at h
    rw [ofBytes_of_length h, zerosIfNil, if_neg hne]

theorem length_zerosIfNil (h : hash = [] ∨ hash.length = 32) : (zerosIfNil hash).length = 32 := by
  rw [← ofBytes_eq h]
  exact (Word.ofBytes hash).2

theorem length_flatten_items {path : List Bytes} (h : ∀ item ∈ path, item.length = 32) :
    path.flatten.length = path.length * 32 := by
  induction path with
  | nil => rfl
  | cons item path ih =>
    rw [flatten_cons, length_append, h item mem_cons_self,
      ih fun item hitem => h item (mem_cons_of_mem _ hitem), length_cons]
    omega

section Cursor

variable {src rest : Bytes} {offset : Nat}

theorem extractUInt16FromBigEndian_at {n : Nat} (h : At src offset (ofNatBE 2 n ++ rest))
    (hn : n < 2 ^ 16) :
    extractUInt16FromBigEndian src offset = .ok n := by
  obtain ⟨hslice, hle⟩ := h.slice (length_ofNatBE 2 n)
  unfold extractUInt16FromBigEndian
  rw [extractPart_ok (by decide) hle, ok_bind, hslice, toNatBE_ofNatBE hn]
  rfl

theorem extractBytes_at {b : Bytes} {len : Nat} (h : At src offset (b ++ rest))
    (hb : b.length = len) :
    extractBytes src offset len = .ok b := by
  obtain ⟨hslice, hle⟩ := h.slice hb
  unfold extractBytes
  rw [require_le (Nat.le_add_right ..), ok_bind, require_le hle, ok_bind, hslice]
  rfl

end Cursor

theorem extractBool_head (b : Bool) (rest : Bytes) :
    extractBool ([if b then 1 else 0] ++ rest) 0 = .ok b := by
  unfold extractBool
  rw [extractPart_ok (by decide) (by simp), ok_bind]
  cases b
  · rfl
  · rfl

theorem extractMerkleProof_marshalBinary {mp : MerkleProof} (h : mp.WellFormed) :
    extractMerkleProof mp.marshalBinary = .ok mp.parsed := by
  have hproofKey := length_zerosIfNil h.proofKey
  have hproofValue := length_zerosIfNil h.proofValue
  have hpath := length_flatten_items h.items
  have hbitmap := h.bitmap
  have hpathLength := h.path
  have hsrc : mp.marshalBinary = [if mp.included then 1 else 0] ++
    (ofNatBE 2 mp.keyHeight ++ (mp.key ++
      (zerosIfNil mp.proofKey ++ (zerosIfNil mp.proofValue ++ (ofNatBE 2 mp.bitmap.length ++
        (ofNatBE 2 mp.path.length ++ (mp.bitmap ++ (mp.path.flatten ++ [])))))))) := by
    unfold MerkleProof.marshalBinary
    rw [ofBytes_of_length h.key, ofBytes_eq h.proofKey, ofBytes_eq h.proofValue]
    simp only [append_assoc, append_nil]
  have hincluded : extractBool mp.marshalBinary 0 = .ok mp.included := by
    rw [hsrc]
    exact extractBool_head ..
  generalize mp.marshalBinary = src at hsrc hincluded
  have h1 : At src 1 _ := (At.start hsrc).skip rfl
  have h3 : At src 3 _ := h1.skip (by simp)
  have h35 : At src 35 _ := h3.skip (by rw [h.key])
  have h67 : At src 67 _ := h35.skip (by rw [hproofKey])
  have h99 : At src 99 _ := h67.skip (by rw [hproofValue])
  have h101 : At src 101 _ := h99.skip (by simp)
  have h103 : At src 103 _ := h101.skip (by simp)
  have hpathAt : At src (103 + mp.bitmap.length) _ := h103.skip rfl
  have hlength : merkleProofSize + mp.bitmap.length + mp.path.length * 32 ≤ src.length :=
    (hpathAt.slice hpath).2
  unfold extractMerkleProof
  rw [require_le (by omega), extractUInt16FromBigEndian_at h99 (by omega),
    extractUInt16FromBigEndian_at h101 (by omega), hincluded,
    extractUInt16FromBigEndian_at h1 (Nat.lt_of_le_of_lt h.keyHeight (by decide)),
    extractBytes32_at h3 h.key, extractBytes32_at h35 hproofKey, extractBytes32_at h67 hproofValue]
  simp only [ok_bind]
  rw [checked_of_lt (by omega), ok_bind, require_le hlength, ok_bind,
    require_le h.keyHeight, ok_bind, extractBytes_at h103 rfl, ok_bind,
    checked_of_lt (by omega), ok_bind, extractBytes_at hpathAt hpath]
  rfl

theorem outcome_lengths (found : Found Word) :
    ((HeaderTrie.outcome found).2.1 = [] ∨ (HeaderTrie.outcome found).2.1.length = 32) ∧
    ((HeaderTrie.outcome found).2.2 = [] ∨ (HeaderTrie.outcome found).2.2.length = 32) := by
  cases found with
  | value v => exact ⟨.inl rfl, .inr v.2⟩
  | leaf proofKey proofValue => exact ⟨.inr (length_ofNatBE ..), .inr proofValue.2⟩
  | default => exact ⟨.inl rfl, .inl rfl⟩

theorem HeaderTrie.proof_wellFormed {H : Hasher Word} {s : Store Word} {root : Option Word}
    {height : UInt32} {mp : MerkleProof} (h : proof H s root height = .ok mp) : mp.WellFormed := by
  obtain ⟨⟨bitmap, items, keyHeight, found⟩, hproof, h₁⟩ := bind_ok h
  cases h₁
  obtain ⟨hbitmap, hitems, hkeyHeight⟩ := Trie.merkleProofCompressed_length hproof
  obtain ⟨hproofKey, hproofValue⟩ := outcome_lengths found
  refine ⟨hkeyHeight, (Word.ofBytes _).2, hproofKey, hproofValue, ?_, ?_, ?_⟩
  · show bitmap.length ≤ 33
    omega
  · show (items.map (·.1)).length ≤ 256
    rw [length_map]
    omega
  · intro item hitem
    obtain ⟨w, -, rfl⟩ := mem_map.mp hitem
    exact w.2

/-! ## All objects -/

/-- What the nodes encode is what the contracts read, for objects whose hashes have 32 bytes, whose
group signature has 192, and which are of a chain, a height and a round. That of `RCert` and
`PClaims` is not checked by the nodes before they encode them. -/
theorem extract_eq_of_marshalBinary :
    (∀ (b : BClaims) (bytes : Bytes), b.marshalBinary = .ok bytes → b.prevBlock.length = 32 →
      b.txRoot.length = 32 → b.stateRoot.length = 32 → b.headerRoot.length = 32 →
      extractBClaims bytes = .ok b) ∧
    (∀ (b : RClaims) (bytes : Bytes), b.marshalBinary = .ok bytes → b.prevBlock.length = 32 →
      extractRClaims bytes = .ok b) ∧
    (∀ (b : RCert) (bytes : Bytes), b.marshalBinary = .ok bytes → b.WellFormed →
      extractRCert bytes = .ok b.parsed) ∧
    (∀ (b : PClaims) (bytes : Bytes), b.marshalBinary = .ok bytes → b.WellFormed →
      extractPClaims bytes = .ok b.parsed) ∧
    (∀ (b : TXInPreImage) (bytes : Bytes), b.marshalBinary = .ok bytes →
      extractTXInPreImage bytes = .ok b) ∧
    ∀ (H : Hasher Word) (s : Store Word) (root : Option Word) (height : UInt32) (mp : MerkleProof),
      HeaderTrie.proof H s root height = .ok mp → extractMerkleProof
      mp.marshalBinary = .ok mp.parsed := by
  refine ⟨?_, ?_, ?_, ?_, ?_, ?_⟩
  · intro b bytes hbytes hprevBlock htxRoot hstateRoot hheaderRoot
    unfold BClaims.marshalBinary at hbytes
    split at hbytes
    · nomatch hbytes
    split at hbytes
    · nomatch hbytes
    next hchain hheight =>
      cases hbytes
      exact extractBClaims_canonicalize ⟨hchain, hheight, hprevBlock, htxRoot,
        hstateRoot, hheaderRoot⟩
  · intro b bytes hbytes hprevBlock
    unfold RClaims.marshalBinary at hbytes
    split at hbytes
    · nomatch hbytes
    split at hbytes
    · nomatch hbytes
    split at hbytes
    · nomatch hbytes
    split at hbytes
    · nomatch hbytes
    next hchain hround _ hheight =>
      cases hbytes
      exact extractRClaims_canonicalize ⟨hchain, hheight, hround, hprevBlock⟩
  · intro b bytes hbytes hb
    cases hbytes
    exact extractRCert_canonicalize hb
  · intro b bytes hbytes hb
    cases hbytes
    exact extractPClaims_canonicalize hb
  · intro b bytes hbytes
    unfold TXInPreImage.marshalBinary at hbytes
    split at hbytes
    · nomatch hbytes
    split at hbytes
    · nomatch hbytes
    next hchain hhash =>
      cases hbytes
      exact extractTXInPreImage_canonicalize hchain (Decidable.not_not.mp hhash)
  · intro H s root height mp hproof
    exact extractMerkleProof_marshalBinary (HeaderTrie.proof_wellFormed hproof)

/-- Claims of a first block without transactions. -/
def BClaims.first : BClaims where
  chainID := 1
  height := 1
  txCount := 0
  prevBlock := List.replicate 32 1
  txRoot := List.replicate 32 2
  stateRoot := List.replicate 32 3
  headerRoot := List.replicate 32 4

/-- A certificate of a round. -/
def RCert.ofRound (round : UInt32) : RCert where
  rClaims := { chainID := 1, height := 1, round, prevBlock := List.replicate 32 1 }
  sigGroup := List.replicate 192 5

theorem extractPClaims_first : ∃ bytes, (PClaims.mk .first (.ofRound 1)).marshalBinary = .ok bytes ∧
    extractPClaims bytes = .ok (PClaims.mk .first (.ofRound 1)).parsed :=
  ⟨_, rfl, extract_eq_of_marshalBinary.2.2.2.1 _ _ rfl
    ⟨⟨by decide, by decide, rfl, rfl, rfl, rfl⟩, ⟨⟨by decide, by decide, by decide, rfl⟩, rfl⟩⟩⟩

/-- The nodes encode a certificate of the round zero, which is shorter than the contracts expect,
and a hash of 31 bytes, which the contracts read as one of 32. -/
theorem extract_ne_of_marshalBinary :
    (∃ bytes, (RCert.ofRound 0).marshalBinary = .ok bytes ∧
      extractRCert bytes = .error (.code "1402")) ∧
    ∃ bytes, BClaims.marshalBinary
      { BClaims.first with txRoot := List.replicate 31 2 } = .ok bytes ∧
      extractBClaims bytes ≠ .ok { BClaims.first with txRoot := replicate 31 2 } :=
  ⟨⟨_, rfl, by decide +kernel⟩, ⟨_, rfl, by decide +kernel⟩⟩

end MadNet.Codec
