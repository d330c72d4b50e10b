import MadNet.Codec.Objects

/-!
# The contracts read what the nodes write

An object whose byte strings have the length that the nodes expect of them has its fields at the
offsets where the contracts look for them. Each lemma takes the encoding with what is around it, so
that the objects that contain others follow from those that they contain.
-/

namespace MadNet.Codec

open Prog (ok_bind)
open Bytes Capnp List
open Staking (require)

/-! ## Reading -/

variable {code : String}

theorem require_of {p : Bool} (h : p = true) : require p code = .ok () := if_pos h

theorem require_pos {v : UInt32} (h : v ≠ 0) : require (0 < v) code = .ok () :=
  require_of (decide_eq_true (UInt32.pos_iff_ne_zero.mpr h))

variable {m n offset : Nat}

theorem require_le (h : m ≤ n) : require (m ≤ n) code = .ok () := require_of (decide_eq_true h)

theorem require_lt (h : m < n) : require (m < n) code = .ok () := require_of (decide_eq_true h)

theorem extractPart_ok {overflow outOfBounds : String} {len : Nat} {src : Bytes} (hpos : 0 < len)
    (h : offset + len ≤ src.length) :
    extractPart overflow outOfBounds len src offset = .ok (slice src offset len) := by
  unfold extractPart
  rw [require_lt (by omega), ok_bind, require_le h, ok_bind]
  rfl

section Cursor

variable {src rest : Bytes} {offset : Nat}

theorem extractUInt32_at {v : UInt32} (h : At src offset (ofNatLE 4 v.toNat ++ rest)) :
    extractUInt32 src offset = .ok v := by
  obtain ⟨hslice, hle⟩ := h.slice (length_ofNatLE 4 v.toNat)
  unfold extractUInt32
  rw [extractPart_ok (by decide) hle, ok_bind, hslice, toNatLE_ofNatLE v.toNat_lt,
    UInt32.ofNat_toNat]
  rfl

theorem extractUInt16_at {n : Nat} (h : At src offset (ofNatLE 2 n ++ rest)) (hn : n < 2 ^ 16) :
    extractUInt16 src offset = .ok n := by
  obtain ⟨hslice, hle⟩ := h.slice (length_ofNatLE 2 n)
  unfold extractUInt16
  rw [extractPart_ok (by decide) hle, ok_bind, hslice, toNatLE_ofNatLE hn]
  rfl

theorem extractBytes32_at {b : Bytes} (h : At src offset (b ++ rest)) (hb : b.length = 32) :
    extractBytes32 src offset = .ok b := by
  obtain ⟨hslice, hle⟩ := h.slice hb
  unfold extractBytes32
  rw [extractPart_ok (by decide) hle, hslice]

end Cursor

variable {src rest : Bytes} {dataOffset : Nat}

/-! ## `RClaims` -/

theorem toNat_ne_zero {v : UInt32} (h : v ≠ 0) : v.toNat ≠ 0 := fun hz => h (UInt32.toNat_inj.mp hz)

variable {b : RClaims}

/-- The fields of `RClaims` one after the other. -/
theorem RClaims.content_eq (hround : b.round ≠ 0) (hprev : b.prevBlock.length = 32) :
    ∃ pointers : Bytes, pointers.length = 8 ∧ b.marshalCapn.content =
      ofNatLE 4 b.chainID.toNat ++ (ofNatLE 4 b.height.toNat ++ (ofNatLE 4 b.round.toNat ++
        (ofNatLE 4 0 ++ (pointers ++ b.prevBlock)))) := by
  refine ⟨Capnp.pointers 0 [.data b.prevBlock], by simp, ?_⟩
  have htrim := trim_of_ne [b.chainID.toNat + 2 ^ 32 * b.height.toNat] (toNat_ne_zero hround)
  rw [singleton_append] at htrim
  simp only [RClaims.marshalCapn, Obj.content, contents, htrim, flatMap_cons, flatMap_nil,
    words_eq, word_eq, pad_hash hprev, append_nil, append_assoc]

/-- What the contracts ask of `RClaims`, and that the hash is one. -/
structure RClaims.WellFormed (b : RClaims) : Prop where
  chainID : b.chainID ≠ 0
  height : b.height ≠ 0
  round : b.round ≠ 0
  prevBlock : b.prevBlock.length = 32

theorem extractInnerRClaims_at (h : At src dataOffset (b.marshalCapn.content ++ rest))
    (hb : b.WellFormed) : extractInnerRClaims src dataOffset = .ok b := by
  obtain ⟨pointers, hpointers, hcontent⟩ := b.content_eq hb.round hb.prevBlock
  simp only [hcontent, append_assoc] at h
  have h4 : At src (dataOffset + 4) _ := h.skip (by simp)
  have h8 : At src (dataOffset + 8) _ := h4.skip (by simp)
  have h12 : At src (dataOffset + 12) _ := h8.skip (by simp)
  have h24 : At src (dataOffset + 24) _ := (h12.skip rfl).skip (by simp [hpointers])
  have hlength : dataOffset + rClaimsSize ≤ src.length := (h24.slice hb.prevBlock).2
  unfold extractInnerRClaims
  rw [require_lt (by simp [rClaimsSize]), require_le hlength, extractUInt32_at h,
    extractUInt32_at h4,
    extractUInt32_at h8, extractBytes32_at h24 hb.prevBlock]
  simp only [ok_bind, require_pos hb.chainID, require_pos hb.height, require_pos hb.round]
  rfl

/-! ## `RCert` -/

/-- The six numbers of the group signature. -/
def sigGroupAt (sigGroup : Bytes) (offset : Nat) : Nat := toNatBE (slice sigGroup offset 32)

/-- The fields of `RCert` as the contracts know them. -/
def RCert.parsed (b : RCert) : ParsedRCert where
  rClaims := b.rClaims
  sigGroupPublicKey := [0, 32, 64, 96].map (sigGroupAt b.sigGroup)
  sigGroupSignature := [128, 160].map (sigGroupAt b.sigGroup)

structure RCert.WellFormed (b : RCert) : Prop where
  rClaims : b.rClaims.WellFormed
  sigGroup : b.sigGroup.length = 192

theorem RCert.content_eq {b : RCert} (h : b.sigGroup.length = 192) :
    ∃ pointers : Bytes, pointers.length = 16 ∧
      b.marshalCapn.content = pointers ++ (b.rClaims.marshalCapn.content ++ b.sigGroup) := by
  refine ⟨Capnp.pointers 0 [b.rClaims.marshalCapn, .data b.sigGroup], by simp, ?_⟩
  have hpad : pad b.sigGroup = b.sigGroup := pad_of_dvd (by rw [h])
  simp only [RCert.marshalCapn, Obj.content, contents, trim_nil, flatMap_nil, nil_append,
    hpad, append_nil]

theorem RClaims.length_content (hb : b.WellFormed) : b.marshalCapn.content.length = 56 := by
  obtain ⟨pointers, hpointers, hcontent⟩ := b.content_eq hb.round hb.prevBlock
  simp only [hcontent, length_append, length_ofNatLE, hpointers, hb.prevBlock]

theorem extractUInt256_at {b : Bytes} (h : At src dataOffset (b ++ rest))
    (hle : offset + 32 ≤ b.length) :
    extractUInt256 src (dataOffset + offset) = .ok (sigGroupAt b offset) := by
  have hlength := h.length_eq
  rw [length_append] at hlength
  unfold extractUInt256 sigGroupAt
  rw [require_lt (by omega), ok_bind, require_lt (by omega), ok_bind, slice, ← drop_drop, h.drop_eq]
  change Except.ok (toNatBE (slice (b ++ rest) offset 32)) = _
  rw [slice_append_left hle]

theorem extractSigGroup_at {b : Bytes} (h : At src dataOffset (b ++ rest)) (hb : b.length = 192) :
    extractSigGroup src dataOffset =
      .ok ([0, 32, 64, 96].map (sigGroupAt b), [128, 160].map (sigGroupAt b)) := by
  have hpart (offset : Nat) (hle : offset + 32 ≤ 192) :
      extractUInt256 src (dataOffset + offset) = .ok (sigGroupAt b offset) :=
    extractUInt256_at h (hb ▸ hle)
  have hlength : dataOffset + sigGroupSize ≤ src.length := (h.slice hb).2
  unfold extractSigGroup
  rw [require_lt (by simp [sigGroupSize]), ok_bind, require_le hlength, ok_bind]
  simp only [mapM_cons, mapM_nil, hpart 0 (by decide), hpart 32 (by decide),
    hpart 64 (by decide), hpart 96 (by decide), hpart 128 (by decide), hpart 160 (by decide)]
  rfl

theorem extractInnerRCert_at {b : RCert} (h : At src dataOffset (b.marshalCapn.content ++ rest))
    (hb : b.WellFormed) : extractInnerRCert src dataOffset = .ok b.parsed := by
  obtain ⟨pointers, hpointers, hcontent⟩ := b.content_eq hb.sigGroup
  simp only [hcontent, append_assoc] at h
  have h16 : At src (dataOffset + 16) _ := h.skip (by rw [hpointers])
  have h72 : At src (dataOffset + 72) _ := h16.skip (by rw [RClaims.length_content hb.rClaims])
  have hlength : dataOffset + rCertSize ≤ src.length := (h72.slice hb.sigGroup).2
  unfold extractInnerRCert
  rw [require_lt (by simp [rCertSize]), require_le hlength, extractInnerRClaims_at h16 hb.rClaims,
    extractSigGroup_at h72 hb.sigGroup]
  rfl

/-! ## `BClaims` -/

structure BClaims.WellFormed (b : BClaims) : Prop where
  chainID : b.chainID ≠ 0
  height : b.height ≠ 0
  prevBlock : b.prevBlock.length = 32
  txRoot : b.txRoot.length = 32
  stateRoot : b.stateRoot.length = 32
  headerRoot : b.headerRoot.length = 32

/-- The word of `txCount`, if it is there. -/
def BClaims.countWord (b : BClaims) : Bytes :=
  if b.txCount = 0 then [] else ofNatLE 4 b.txCount.toNat ++ ofNatLE 4 0

/-- How much shorter the encoding is without transactions. -/
def BClaims.adjustment (b : BClaims) : Nat := if b.txCount = 0 then 8 else 0

theorem BClaims.trim_words {b : BClaims} (hchain : b.chainID ≠ 0) :
    (trim [b.chainID.toNat + 2 ^ 32 * b.height.toNat, b.txCount.toNat]).length * 8 +
      b.adjustment = 16 ∧
    (trim [b.chainID.toNat + 2 ^ 32 * b.height.toNat, b.txCount.toNat]).flatMap (ofNatLE 8) =
      ofNatLE 4 b.chainID.toNat ++ (ofNatLE 4 b.height.toNat ++ b.countWord) := by
  unfold BClaims.adjustment BClaims.countWord
  split
  next hcount =>
    have hword : b.chainID.toNat + 2 ^ 32 * b.height.toNat ≠ 0 := by
      have := toNat_ne_zero hchain
      omega
    have htrim : trim [b.chainID.toNat + 2 ^ 32 * b.height.toNat, b.txCount.toNat] =
        [b.chainID.toNat + 2 ^ 32 * b.height.toNat] := by
      rw [hcount]
      exact (trim_zero [_]).trans (trim_of_ne [] hword)
    rw [htrim]
    simp only [length_singleton, flatMap_cons, flatMap_nil, words_eq, append_assoc, true_and]
  next hcount =>
    have htrim := trim_of_ne [b.chainID.toNat + 2 ^ 32 * b.height.toNat] (toNat_ne_zero hcount)
    rw [singleton_append] at htrim
    rw [htrim]
    simp only [length_cons, length_nil, flatMap_cons, flatMap_nil, words_eq, word_eq,
      append_assoc, append_nil, true_and]

theorem BClaims.content_eq {b : BClaims} (hb : b.WellFormed) :
    ∃ pointers : Bytes, pointers.length = 32 ∧ b.marshalCapn.content =
      ofNatLE 4 b.chainID.toNat ++ (ofNatLE 4 b.height.toNat ++ (b.countWord ++ (pointers ++
        (b.prevBlock ++ (b.txRoot ++ (b.stateRoot ++ b.headerRoot)))))) := by
  refine ⟨Capnp.pointers 0 [.data b.prevBlock, .data b.txRoot, .data b.stateRoot,
    .data b.headerRoot],
    by simp, ?_⟩
  simp only [BClaims.marshalCapn, Obj.content, contents, (BClaims.trim_words hb.chainID).2,
    pad_hash hb.prevBlock, pad_hash hb.txRoot, pad_hash hb.stateRoot, pad_hash hb.headerRoot,
    append_nil, append_assoc]

theorem BClaims.length_countWord (b : BClaims) : b.countWord.length + b.adjustment = 8 := by
  unfold BClaims.countWord BClaims.adjustment
  split <;> simp

theorem extractInnerBClaims_at {b : BClaims} (h : At src dataOffset (b.marshalCapn.content ++ rest))
    (hb : b.WellFormed) : extractInnerBClaims src dataOffset b.adjustment = .ok b := by
  obtain ⟨pointers, hpointers, hcontent⟩ := BClaims.content_eq hb
  simp only [hcontent, append_assoc] at h
  have hcount := b.length_countWord
  have h4 : At src (dataOffset + 4) _ := h.skip (by simp)
  have h8 : At src (dataOffset + 8) _ := h4.skip (by simp)
  have h48 : At src (dataOffset + 48 - b.adjustment) _ := (h8.skip rfl).skip (by omega)
  have h80 : At src (dataOffset + 80 - b.adjustment) _ := h48.skip (by rw [hb.prevBlock]; omega)
  have h112 : At src (dataOffset + 112 - b.adjustment) _ := h80.skip (by rw [hb.txRoot]; omega)
  have h144 : At src (dataOffset + 144 - b.adjustment) _ := h112.skip (by rw [hb.stateRoot]; omega)
  have hlength : dataOffset + bClaimsSize - b.adjustment ≤ src.length := by
    have := (h144.slice hb.headerRoot).2
    unfold bClaimsSize
    omega
  have htxCount : extractTxCount src dataOffset b.adjustment = .ok b.txCount := by
    unfold extractTxCount BClaims.adjustment
    by_cases hzero : b.txCount = 0
    · rw [if_pos hzero, hzero]
      rfl
    · rw [if_neg hzero, if_pos rfl]
      rw [BClaims.countWord, if_neg hzero, append_assoc] at h8
      exact extractUInt32_at h8
  unfold extractInnerBClaims
  rw [require_lt (by simp [bClaimsSize]; omega), require_le hlength, htxCount, extractUInt32_at h,
    extractUInt32_at h4, extractBytes32_at h48 hb.prevBlock, extractBytes32_at h80 hb.txRoot,
    extractBytes32_at h112 hb.stateRoot, extractBytes32_at h144 hb.headerRoot]
  simp only [ok_bind, require_pos hb.chainID, require_pos hb.height]
  rfl

theorem BClaims.length_content {b : BClaims} (hb : b.WellFormed) :
    b.marshalCapn.content.length + b.adjustment = 176 := by
  obtain ⟨pointers, hpointers, hcontent⟩ := BClaims.content_eq hb
  have hcount := b.length_countWord
  simp only [hcontent, length_append, length_ofNatLE, hpointers, hb.prevBlock, hb.txRoot,
    hb.stateRoot, hb.headerRoot]
  omega

/-- The size of the data section is in the pointer to it. -/
theorem getPointerOffsetAdjustment_at {b : BClaims} (hb : b.chainID ≠ 0)
    (h : At src dataOffset (b.marshalCapn.pointer offset ++ rest)) :
    getPointerOffsetAdjustment src (dataOffset + 4) = .ok b.adjustment := by
  have hsize := (BClaims.trim_words hb).1
  unfold BClaims.marshalCapn Obj.pointer at h
  simp only [append_assoc] at h
  generalize trim [b.chainID.toNat + 2 ^ 32 * b.height.toNat, b.txCount.toNat] = words at hsize h
  have hread := extractUInt16_at (h.skip rfl) (by omega)
  rw [length_ofNatLE] at hread
  have hcases : b.adjustment = 8 ∨ b.adjustment = 0 := by
    unfold BClaims.adjustment
    split
    · exact .inl rfl
    · exact .inr rfl
  unfold getPointerOffsetAdjustment
  rw [hread, ok_bind]
  rcases hcases with hadjustment | hadjustment
  · rw [hadjustment] at hsize ⊢
    obtain hone : words.length = 1 := by omega
    rw [hone]
    rfl
  · rw [hadjustment] at hsize ⊢
    obtain htwo : words.length = 2 := by omega
    rw [htwo]
    rfl

/-! ## `PClaims` -/

structure PClaims.WellFormed (b : PClaims) : Prop where
  bClaims : b.bClaims.WellFormed
  rCert : b.rCert.WellFormed

/-- The fields of `PClaims` as the contracts know them. -/
def PClaims.parsed (b : PClaims) : ParsedPClaims where
  bClaims := b.bClaims
  rCert := b.rCert.parsed

theorem RCert.length_content {b : RCert} (hb : b.WellFormed) :
    b.marshalCapn.content.length = 264 := by
  obtain ⟨pointers, hpointers, hcontent⟩ := b.content_eq hb.sigGroup
  rw [hcontent, length_append, length_append, hpointers, RClaims.length_content hb.rClaims,
    hb.sigGroup]

theorem PClaims.canonicalize_eq (b : PClaims) : ∃ header pointer : Bytes, header.length = 8 ∧
    pointer.length = 8 ∧ canonicalize b.marshalCapn = header ++ (b.bClaims.marshalCapn.pointer 1 ++
      (pointer ++ (b.bClaims.marshalCapn.content ++ b.rCert.marshalCapn.content))) := by
  refine ⟨b.marshalCapn.pointer 0,
    b.rCert.marshalCapn.pointer (b.bClaims.marshalCapn.content.length / 8),
    length_pointer .., length_pointer .., ?_⟩
  simp only [canonicalize, PClaims.marshalCapn, Obj.content, contents, pointers, trim_nil,
    flatMap_nil, nil_append, append_nil, append_assoc, length_singleton,
    length_nil, Nat.add_zero, Nat.zero_add]

theorem extractPClaims_canonicalize {b : PClaims} (hb : b.WellFormed) :
    extractPClaims (canonicalize b.marshalCapn) = .ok b.parsed := by
  obtain ⟨header, pointer, hheader, hpointer, hsrc⟩ := b.canonicalize_eq
  have hbLength := BClaims.length_content hb.bClaims
  generalize canonicalize b.marshalCapn = src at hsrc ⊢
  have h8 : At src capnprotoHeaderSize _ := (At.start hsrc).skip (by rw [hheader]; rfl)
  have h24 : At src (capnprotoHeaderSize + 16) _ := (h8.skip rfl).skip (by simp [hpointer])
  have hr : At src (capnprotoHeaderSize + 16 + bClaimsSize - b.bClaims.adjustment)
      (b.rCert.marshalCapn.content ++ []) := by
    rw [append_nil]
    exact h24.skip (by unfold bClaimsSize; omega)
  have hlength : capnprotoHeaderSize + (pClaimsSize - b.bClaims.adjustment) ≤ src.length := by
    have := (hr.slice (RCert.length_content hb.rCert)).2
    unfold pClaimsSize
    unfold bClaimsSize at this
    omega
  unfold extractPClaims extractInnerPClaims
  rw [require_lt (by simp [pClaimsSize]), ok_bind,
    getPointerOffsetAdjustment_at hb.bClaims.chainID h8,
    ok_bind]
  dsimp only
  rw [require_le hlength, ok_bind, extractInnerBClaims_at h24 hb.bClaims, ok_bind,
    extractInnerRCert_at hr hb.rCert]
  rfl

/-! ## The others -/

theorem At.content (x : Obj) : At (canonicalize x) capnprotoHeaderSize (x.content ++ []) := by
  rw [append_nil]
  exact (At.start rfl).skip (by simp [capnprotoHeaderSize])

theorem extractRClaims_canonicalize (hb : b.WellFormed) :
    extractRClaims (canonicalize b.marshalCapn) = .ok b :=
  extractInnerRClaims_at (At.content _) hb

theorem extractRCert_canonicalize {b : RCert} (hb : b.WellFormed) :
    extractRCert (canonicalize b.marshalCapn) = .ok b.parsed :=
  extractInnerRCert_at (At.content _) hb

theorem extractBClaims_canonicalize {b : BClaims} (hb : b.WellFormed) :
    extractBClaims (canonicalize b.marshalCapn) = .ok b := by
  have hstart : At (canonicalize b.marshalCapn) 0 _ := At.start rfl
  have hadjustment := getPointerOffsetAdjustment_at hb.chainID hstart
  unfold extractBClaims
  rw [hadjustment]
  exact extractInnerBClaims_at (At.content _) hb

theorem extractTXInPreImage_canonicalize {b : TXInPreImage} (hchain : b.chainID ≠ 0)
    (hhash : b.consumedTxHash.length = 32) :
    extractTXInPreImage (canonicalize b.marshalCapn) = .ok b := by
  have hword : b.chainID.toNat + 2 ^ 32 * b.consumedTxIdx.toNat ≠ 0 := by
    have := toNat_ne_zero hchain
    omega
  have htrim : trim [b.chainID.toNat + 2 ^ 32 * b.consumedTxIdx.toNat] = [_] := trim_of_ne [] hword
  have hcontent : b.marshalCapn.content = ofNatLE 4 b.chainID.toNat ++
    (ofNatLE 4 b.consumedTxIdx.toNat ++
      (pointers 0 [.data b.consumedTxHash] ++ b.consumedTxHash)) := by
    simp only [TXInPreImage.marshalCapn, Obj.content, contents, htrim, flatMap_cons,
      flatMap_nil, words_eq,
      pad_hash hhash, append_nil, append_assoc]
  have h := At.content b.marshalCapn
  generalize canonicalize b.marshalCapn = src at h ⊢
  simp only [hcontent, append_assoc] at h
  have h12 : At src (capnprotoHeaderSize + 4) _ := h.skip (by simp)
  have h24 : At src (capnprotoHeaderSize + 16) _ := (h12.skip rfl).skip (by simp)
  have hlength : capnprotoHeaderSize + txInPreImageSize ≤ src.length := (h24.slice hhash).2
  unfold extractTXInPreImage extractInnerTXInPreImage
  rw [require_lt (by decide), require_le hlength, extractUInt32_at h, extractUInt32_at h12,
    extractBytes32_at h24 hhash]
  simp only [ok_bind, require_pos hchain]
  rfl

end MadNet.Codec
