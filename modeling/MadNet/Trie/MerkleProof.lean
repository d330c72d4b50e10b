import MadNet.Trie.History
import MadNet.Trie.Preimages

/-!
# Merkle proofs (`badgerTrie/smt_merkle_proof.go`)

A proof is the siblings of the nodes on the path of a key, from the bottom up. It is verified by
hashing them together again. With hashes that do not collide, what the hashes lead to is the subtree
that the bits of the key lead to.

Keys, values and the items of a proof are what they are in the trie: 32 bytes, or the default leaf.
-/

namespace MadNet.Trie

open Radix Prog Run List Option Nat

variable {D : Type}

/-! ## Making a proof -/

/-- What is at the end of the path of a key. -/
inductive Found (D : Type) where
  /-- `true, nil, value`: the key is included. -/
  | value (v : D)
  /-- `false, proofKey, proofValue`: the leaf of another key. -/
  | leaf (proofKey : Key) (proofValue : D)
  /-- `false, nil, nil`: a default leaf. -/
  | default
  deriving DecidableEq

def Found.ofLeaf (key k : Key) (v : D) : Found D := if k = key then .value v else .leaf k v

/-- `merkleProof`: the audit path, and what it leads to. -/
def Store.merkleProof (H : Hasher D) (s : Store D) (key : Key) :
    Nat → Option (Node D) → Batch D → Nat → Except Err (List D × Found D)
  | _, none, _, _ => .ok ([], .default)
  | 0, some root, batch, iBatch => do
    let (_, _, lnode, rnode, _) ← s.loadChildren (some root) 0 iBatch batch
    let (k, v) ← Slot.asShortcut lnode rnode
    return ([], .ofLeaf key k v)
  | height + 1, some root, batch, iBatch => do
    let (batch, iBatch, lnode, rnode, isShortcut) ←
      s.loadChildren (some root) (height + 1) iBatch batch
    if isShortcut then
      let (k, v) ← Slot.asShortcut lnode rnode
      return ([], .ofLeaf key k v)
    else
      let lnode ← Slot.asNode lnode
      let rnode ← Slot.asNode rnode
      if bitIsSet key (256 - (height + 1)) then
        let (mp, found) ← Store.merkleProof H s key height rnode batch (2 * iBatch + 2)
        return (mp ++ [digest H lnode], found)
      else
        let (mp, found) ← Store.merkleProof H s key height lnode batch (2 * iBatch + 1)
        return (mp ++ [digest H rnode], found)

def SMT.merkleProof (H : Hasher D) (t : SMT D) (key : Key) : Except Err (List D × Found D) :=
  t.store.merkleProof H key 256 t.rootNode .empty 0

/-! ## Verifying a proof -/

/-- `verifyInclusion`, on the items of the proof from the last one on; `none` is the panic of
`bitIsSet` on an index beyond the key. -/
def verifyInclusion (H : Hasher D) (key : Key) (leafHash : D) : Nat → List D → Option D
  | _, [] => some leafHash
  | keyIndex, item :: items =>
    if 256 ≤ keyIndex then none
    else do
      let hash ← verifyInclusion H key leafHash (keyIndex + 1) items
      return if bitIsSet key keyIndex then H.interior item hash else H.interior hash item

variable [DecidableEq D]

def SMT.verifyInclusion (H : Hasher D) (t : SMT D) (ap : List D) (key : Key) (value : D) :
    Option Bool := do
  let leafHash := H.leaf key value (.ofInt (256 - ap.length))
  let hash ← Trie.verifyInclusion H key leafHash 0 ap.reverse
  return t.root = some hash

/-- `VerifyNonInclusion`; the value is only read if there is a proof key. -/
def SMT.verifyNonInclusion (H : Hasher D) (t : SMT D) (ap : List D) (key : Key) :
    Option (Key × D) → Option Bool
  | none => do
    let hash ← Trie.verifyInclusion H key H.defaultLeaf 0 ap.reverse
    return t.root = some hash
  | some (proofKey, value) => do
    if ← t.verifyInclusion H ap proofKey value then
      return (List.range ap.length).all fun b => bitIsSet key b == bitIsSet proofKey b
    else
      return false

/-! ## Proofs of the tree -/

def proofOf (H : Hasher D) (key : Key) : Nat → Tree Key D → List D × Found D
  | _, .empty => ([], .default)
  | _, .leaf k v => ([], .ofLeaf key k v)
  | h, .node l r =>
    if bitIsSet key (256 - h) then
      ((proofOf H key (h - 1) r).1 ++ [digest H (ref H (h - 1) l)], (proofOf H key (h - 1) r).2)
    else
      ((proofOf H key (h - 1) l).1 ++ [digest H (ref H (h - 1) r)], (proofOf H key (h - 1) l).2)

section Proofs

variable {H : Hasher D} {s : Store D} {b : Batch D} {i h : Nat} {T : Tree Key D}
  {root : Option (Node D)} {key : Key}

omit [DecidableEq D] in
/-- `merkleProof` finds the proof of the tree. -/
theorem merkleProof_spec (hs : Sound H s) (hh : h ≤ 256) (hT : Complete H s h T)
    (hroot : root.map (·.hash) = (ref H h T).map (·.hash)) (hi : AtIndex H b i h T)
    (hb : Below H b (h % 4) i h T) : s.merkleProof H key h root b i = .ok (proofOf H key h T) := by
  induction h generalizing T root b i with
  | zero =>
    rcases root_cases hroot with ⟨rfl, rfl⟩ | ⟨n, n', rfl, -, -⟩
    · rfl
    · obtain ⟨b', i', hload, -⟩ := loadChildren_spec hs hT hroot hi hb
      cases T with
      | empty => simp [ref] at hroot
      | leaf k v => simp [Store.merkleProof, hload, leftSlot, rightSlot, Slot.asShortcut, bind,
          Except.bind, pure, Except.pure, proofOf]
      | node l r => exact absurd hT.1 (by omega)
  | succ h ih =>
    rcases root_cases hroot with ⟨rfl, rfl⟩ | ⟨n, n', rfl, -, -⟩
    · rfl
    · obtain ⟨b', i', hload, hbelow, hi', -⟩ := loadChildren_spec hs hT hroot hi hb
      rw [show (h + 1 + 3) % 4 = h % 4 by omega] at hbelow
      obtain ⟨hleft, hright, hbl, hbr⟩ := hbelow
      cases T with
      | empty => simp [ref] at hroot
      | leaf k v => simp [Store.merkleProof, hload, Tree.isLeaf, leftSlot, rightSlot,
          Slot.asShortcut, bind, Except.bind, pure, Except.pure, proofOf]
      | node l r =>
        have hl := ih (by omega) hT.left (Eq.refl ((ref H h l).map _))
          (fun _ => ⟨by omega, hleft⟩) hbl
        have hr := ih (by omega) hT.right (Eq.refl ((ref H h r).map _))
          (fun _ => ⟨by omega, hright⟩) hbr
        have hslotl : leftSlot H (h + 1) (.node l r) = (ref H h l).map .node := rfl
        have hslotr : rightSlot H (h + 1) (.node l r) = (ref H h r).map .node := rfl
        simp only [Store.merkleProof, hload, bind, Except.bind, Tree.isLeaf, Bool.false_eq_true,
          if_false, hslotl, hslotr, asNode_map, hl, hr, proofOf]
        split <;> rfl

omit [DecidableEq D] in
theorem SMT.Holds.merkleProof {t : SMT D} (ht : t.Holds H T) :
    t.merkleProof H key = .ok (proofOf H key 256 T) :=
  merkleProof_spec ht.sound (le_refl _) ht.complete ht.rootNode (fun hne => absurd rfl hne)
    trivial

/-! ### Completeness -/

/-- The subtree at the end of the path of a key, as the proof describes it. -/
def Found.tree (key : Key) : Found D → Tree Key D
  | .value v => .leaf key v
  | .leaf k v => .leaf k v
  | .default => .empty

section

omit [DecidableEq D]

theorem Found.tree_ofLeaf (k : Key) (v : D) : (Found.ofLeaf key k v).tree key = .leaf k v := by
  unfold Found.ofLeaf
  split
  next hk => rw [hk]; rfl
  next => rfl

theorem verifyInclusion_append {leafHash hash item : D} {items : List D} {d : Nat} (hd : d < 256)
    (hrest : verifyInclusion H key leafHash (d + 1) items.reverse = some hash) :
    verifyInclusion H key leafHash d (items ++ [item]).reverse =
      some (if bitIsSet key d then H.interior item hash else H.interior hash item) := by
  rw [reverse_append, reverse_singleton, singleton_append, verifyInclusion,
    if_neg (by omega), hrest]
  rfl

theorem verifyInclusion_proofOf (hh : h ≤ 256) (hT : Complete H s h T) {key' : Key}
    (hbits : ∀ j, 256 - h ≤ j → j < 256 - h + (proofOf H key h T).1.length →
      bitIsSet key' j = bitIsSet key j) :
    verifyInclusion H key'
        (digest H (ref H (h - (proofOf H key h T).1.length) ((proofOf H key h T).2.tree key)))
        (256 - h) (proofOf H key h T).1.reverse = some (digest H (ref H h T)) := by
  induction T generalizing h with
  | empty => rfl
  | leaf k v =>
    rw [proofOf]
    dsimp only [length_nil, reverse_nil, verifyInclusion, Nat.sub_zero]
    rw [Found.tree_ofLeaf]
  | node l r ihl ihr =>
    obtain ⟨hpos, -, hl, hr⟩ := hT
    obtain ⟨h, rfl⟩ : ∃ m, h = m + 1 := ⟨h - 1, by omega⟩
    have hdepth : 256 - h = 256 - (h + 1) + 1 := by omega
    rw [Nat.add_sub_cancel] at hl hr
    rw [proofOf] at hbits ⊢
    split
    next hbit =>
      simp only [hbit, if_true, length_append, length_singleton, Nat.add_sub_cancel,
        Nat.add_sub_add_right] at hbits ⊢
      have hrest := ihr (by omega) hr fun j h1 h2 => hbits j (by omega) (by omega)
      rw [hdepth] at hrest
      have hfirst := hbits (256 - (h + 1)) (by omega) (by omega)
      rw [verifyInclusion_append (by omega) hrest, hfirst, if_pos hbit]
      rfl
    next hbit =>
      simp only [hbit, Bool.false_eq_true, if_false, length_append, length_singleton,
        Nat.add_sub_cancel, Nat.add_sub_add_right] at hbits ⊢
      have hrest := ihl (by omega) hl fun j h1 h2 => hbits j (by omega) (by omega)
      rw [hdepth] at hrest
      have hfirst := hbits (256 - (h + 1)) (by omega) (by omega)
      rw [verifyInclusion_append (by omega) hrest, hfirst, if_neg hbit]
      rfl

/-- The leaf on the path of a key is an entry of the tree, and has the bits of the path. -/
theorem proofOf_leaf (hh : h ≤ 256) (hT : Complete H s h T) (hp : T.Placed bitIsSet (256 - h))
    {k : Key} {v : D} (hfound : (proofOf H key h T).2 = .leaf k v) : (k, v) ∈ T.entries ∧
      ∀ j, 256 - h ≤ j → j < 256 - h + (proofOf H key h T).1.length → bitIsSet k
      j = bitIsSet key j := by
  induction T generalizing h with
  | empty => cases hfound
  | leaf k' v' =>
    rw [proofOf, Found.ofLeaf] at hfound
    split at hfound
    · cases hfound
    · obtain ⟨rfl, rfl⟩ := Found.leaf.inj hfound
      refine ⟨mem_singleton_self _, fun j h1 h2 => ?_⟩
      simp only [proofOf, length_nil] at h2
      omega
  | node l r ihl ihr =>
    obtain ⟨hpos, -, hl, hr⟩ := hT
    obtain ⟨hbl, hbr, hpl, hpr⟩ := hp
    obtain ⟨h, rfl⟩ : ∃ m, h = m + 1 := ⟨h - 1, by omega⟩
    have hdepth : 256 - (h + 1) + 1 = 256 - h := by omega
    rw [Nat.add_sub_cancel] at hl hr
    rw [hdepth] at hpl hpr
    rw [proofOf] at hfound ⊢
    split at hfound
    next hbit =>
      obtain ⟨hmem, hbits⟩ := ihr (by omega) hr hpr hfound
      refine ⟨mem_append_right _ hmem, fun j h1 h2 => ?_⟩
      rcases eq_or_lt_of_le h1 with rfl | h1
      · rw [hbr _ hmem, hbit]
      · simp only [hbit, if_true, length_append, length_singleton, Nat.add_sub_cancel] at h2
        exact hbits j (by omega) (by omega)
    next hbit =>
      obtain ⟨hmem, hbits⟩ := ihl (by omega) hl hpl hfound
      refine ⟨mem_append_left _ hmem, fun j h1 h2 => ?_⟩
      rcases eq_or_lt_of_le h1 with rfl | h1
      · rw [hbl _ hmem, Bool.eq_false_iff.mpr hbit]
      · simp only [hbit, Bool.false_eq_true, if_false, length_append, length_singleton,
          Nat.add_sub_cancel] at h2
        exact hbits j (by omega) (by omega)

/-- The proof says that the key is included if it is. -/
theorem proofOf_value (hh : h ≤ 256) (hT : Complete H s h T) {v : D} :
    (proofOf H key h T).2 = .value v ↔ T.get bitIsSet key (256 - h) = some v := by
  induction T generalizing h with
  | empty => simp [proofOf, Radix.Tree.get]
  | leaf k' v' =>
    rw [proofOf, Found.ofLeaf, Radix.Tree.get]
    split
    · simp
    · simp
  | node l r ihl ihr =>
    obtain ⟨hpos, -, hl, hr⟩ := hT
    have hdepth : 256 - h + 1 = 256 - (h - 1) := by omega
    rw [proofOf, Radix.Tree.get, hdepth]
    split
    · exact ihr (by omega) hr
    · exact ihl (by omega) hl

theorem length_proofOf (hT : Complete H s h T) : (proofOf H key h T).1.length ≤ h := by
  induction T generalizing h with
  | empty | leaf k v => exact zero_le h
  | node l r ihl ihr =>
    obtain ⟨hpos, -, hl, hr⟩ := hT
    have hlenl := ihl hl
    have hlenr := ihr hr
    rw [proofOf]
    split
    all_goals
      rw [length_append, length_singleton]
      omega

end

/-- The byte of the height of a leaf below a proof. -/
theorem ofInt_height {n : Nat} (hn : n ≤ 256) : UInt8.ofInt (256 - n) = UInt8.ofNat (256 - n) := by
  have hmod : (256 - n : Int) % 2 ^ 8 = ((256 - n) % 2 ^ 8 : Nat) := by omega
  rw [UInt8.ofInt, hmod, Int.toNat_natCast]
  exact UInt8.ofNat_mod_size

variable {t : SMT D}

omit [DecidableEq D] in
theorem SMT.Holds.root_of_ne_empty (ht : t.Holds H T) (hT : T ≠ .empty) :
    t.root = some (digest H (ref H 256 T)) := by
  rw [ht.root]
  cases href : ref H 256 T with
  | none => exact absurd (ref_eq_none.mp href) hT
  | some n => rfl

theorem SMT.Holds.verifyInclusion_proofOf (ht : t.Holds H T) {v : D} {key' : Key}
    (hfound : (proofOf H key 256 T).2.tree key = .leaf key' v)
    (hbits : ∀ j, j < (proofOf H key 256 T).1.length → bitIsSet key' j = bitIsSet key j) :
    t.verifyInclusion H (proofOf H key 256 T).1 key' v = some true := by
  have hne : T ≠ .empty := by
    rintro rfl
    cases hfound
  have hv := Trie.verifyInclusion_proofOf (le_refl 256) ht.complete
    fun j _ hj => hbits j (by omega)
  rw [hfound] at hv
  rw [SMT.verifyInclusion, ofInt_height (length_proofOf ht.complete), ht.root_of_ne_empty hne]
  refine bind_eq_some_iff.mpr ⟨_, hv, ?_⟩
  simp

/-- What the proof of a key says is verified, but for the default leaf of an empty trie. -/
def SMT.Verifies (H : Hasher D) (t : SMT D) (key : Key) (ap : List D) : Found D → Prop
  | .value v => t.verifyInclusion H ap key v = some true
  | .leaf k v => t.verifyNonInclusion H ap key (some (k, v)) = some true
  | .default => t.verifyNonInclusion H ap key none = some true

theorem SMT.Holds.verifies (ht : t.Holds H T) (hT : T ≠ .empty) (hp : T.Placed bitIsSet 0)
    (key : Key) : t.Verifies H key (proofOf H key 256 T).1 (proofOf H key 256 T).2 := by
  cases hfound : (proofOf H key 256 T).2 with
  | value v =>
    exact ht.verifyInclusion_proofOf (by rw [hfound]; rfl) fun _ _ => rfl
  | leaf k v =>
    obtain ⟨-, hbits⟩ := proofOf_leaf (le_refl 256) ht.complete hp hfound
    have hbits (j : Nat) (hj : j < (proofOf H key 256 T).1.length) :
        bitIsSet k j = bitIsSet key j := hbits j (zero_le j) (by omega)
    have hv := ht.verifyInclusion_proofOf (by rw [hfound]; rfl) hbits
    refine bind_eq_some_iff.mpr ⟨true, hv, congrArg some (all_eq_true.mpr ?_)⟩
    intro j hj
    exact beq_iff_eq.mpr (hbits j (mem_range.mp hj)).symm
  | default =>
    have hv := Trie.verifyInclusion_proofOf (le_refl 256) ht.complete
      fun j _ _ => Eq.refl (bitIsSet key j)
    rw [hfound] at hv
    refine bind_eq_some_iff.mpr ⟨_, hv, ?_⟩
    simp [ht.root_of_ne_empty hT]

/-! ### Soundness -/

section

omit [DecidableEq D]

variable {items : List D}

theorem verifyInclusion_eq_climb {leafHash : D} {d : Nat} (hd : d + items.length ≤ 256) :
    verifyInclusion H key leafHash d items = some (climb H key leafHash d items) := by
  induction items generalizing d with
  | nil => rfl
  | cons item items ih =>
    rw [length_cons] at hd
    rw [verifyInclusion, if_neg (by omega), ih (by omega), climb, above]
    split
    · rfl
    · rfl

theorem climb_of_verifyInclusion {leafHash hash : D} {d : Nat}
    (hv : verifyInclusion H key leafHash d items = some hash) :
    climb H key leafHash d items = hash := by
  induction items generalizing d hash with
  | nil => exact some_inj.mp hv
  | cons item items ih =>
    rw [verifyInclusion] at hv
    split at hv
    · cases hv
    obtain ⟨below, hbelow, heq⟩ := bind_eq_some_iff.mp hv
    rw [climb, ih hbelow, ← some_inj.mp heq, above]
    split
    · rfl
    · rfl

/-- What the hashes of a proof lead to is what the bits of the key lead to. -/
theorem follow_of_verifyInclusion (hH : H.CollisionFree) {leafHash : D} {d : Nat}
    (hv : verifyInclusion H key leafHash d items = some (digest H (ref H h T))) :
    ∃ h', digest H (ref H h' (T.follow bitIsSet key d items.length)) = leafHash := by
  obtain ⟨h', hbottom, -⟩ :=
    follow_of_climb (hH.injective.injOn (s := Set.univ)) (fun _ _ => trivial)
    (fun _ _ => trivial) (climb_of_verifyInclusion hv)
  exact ⟨h', hbottom⟩

end

variable {ap : List D} {value : D}

omit [DecidableEq D] in
theorem SMT.Holds.root_eq_some (ht : t.Holds H T) {d : D} (hd : t.root = some d) :
    d = digest H (ref H 256 T) := by
  obtain ⟨n, hn, hhash⟩ := map_eq_some_iff.mp (ht.root.symm.trans hd)
  rw [hn, ← hhash]
  rfl

/-- The leaf whose inclusion is verified is the subtree that its key leads to. -/
theorem SMT.Holds.follow_eq_leaf (ht : t.Holds H T) (hH : H.CollisionFree)
    (hv : t.verifyInclusion H ap key value = some true) :
    T.follow bitIsSet key 0 ap.length = .leaf key value := by
  obtain ⟨hash, hhash, hroot⟩ := bind_eq_some_iff.mp hv
  rw [ht.root_eq_some (of_decide_eq_true (some_inj.mp hroot))] at hhash
  obtain ⟨h', hleaf⟩ := follow_of_verifyInclusion hH hhash
  rw [length_reverse] at hleaf
  cases hT : T.follow bitIsSet key 0 ap.length with
  | empty =>
    rw [hT] at hleaf
    exact absurd hleaf.symm hH.leaf_ne_default
  | leaf k v =>
    rw [hT] at hleaf
    obtain ⟨rfl, rfl, -⟩ := hH.leaf_inj hleaf
    rfl
  | node l r =>
    rw [hT] at hleaf
    exact absurd hleaf.symm hH.leaf_ne_interior

theorem SMT.Holds.get_of_verifyInclusion (ht : t.Holds H T) (hH : H.CollisionFree)
    (hv : t.verifyInclusion H ap key value = some true) : T.get bitIsSet key 0 = some value := by
  rw [← Tree.get_follow key ap.length, ht.follow_eq_leaf hH hv]
  exact if_pos rfl

/-- A key is absent if a default leaf or the leaf of another key is on its path. -/
theorem SMT.Holds.get_of_verifyNonInclusion (ht : t.Holds H T) (hH : H.CollisionFree)
    {leaf : Option (Key × D)} (hother : ∀ kv ∈ leaf, kv.1 ≠ key)
    (hv : t.verifyNonInclusion H ap key leaf = some true) : T.get bitIsSet key 0 = none := by
  rw [← Tree.get_follow key ap.length]
  cases leaf with
  | none =>
    obtain ⟨hash, hhash, hroot⟩ := bind_eq_some_iff.mp hv
    rw [ht.root_eq_some (of_decide_eq_true (some_inj.mp hroot))] at hhash
    obtain ⟨h', hleaf⟩ := follow_of_verifyInclusion hH hhash
    rw [length_reverse] at hleaf
    have hempty : ref H h' (T.follow bitIsSet key 0 ap.length) = ref H h' .empty :=
      digest_ref_inj hH hleaf
    rw [ref_eq_none.mp hempty]
    rfl
  | some kv =>
    obtain ⟨proofKey, v⟩ := kv
    obtain ⟨ok, hok, hbits⟩ := bind_eq_some_iff.mp hv
    cases ok with
    | false => cases hbits
    | true =>
      have hbits := all_eq_true.mp (some_inj.mp hbits)
      have hfollow : T.follow bitIsSet key 0 ap.length = .leaf proofKey v := by
        rw [← ht.follow_eq_leaf hH hok]
        exact Tree.follow_congr fun j _ hj =>
          eq_of_beq (hbits j (mem_range.mpr (by omega)))
      rw [hfollow]
      exact if_neg (hother _ rfl)

end Proofs

/-! ## Proofs of a session -/

/-- In every history whose updates do not clash, the proof that a trie that is not empty makes for a
key is verified, and a proof that is verified tells what the map has; the proof key of a proof of
non-inclusion has to be another key. -/
theorem Session.merkleProof_correct {H : Hasher D} (hH : H.CollisionFree) {es : List (Event D)}
    (hincr : ∀ e ∈ es, e.Increasing)
    (hclash : Along (fun s e => ¬e.Clashes H s) (step H) start es) (key : Key) :
    let s := exec (step H) start es
    (s.trie.root ≠ none → ∃ ap found, s.trie.merkleProof H key = .ok (ap, found) ∧
      (∀ v, found = .value v ↔ s.map key = some v) ∧ s.trie.Verifies H key ap found) ∧
    (∀ ap value, s.trie.verifyInclusion H ap key value = some true → s.map key = some value) ∧
    (∀ ap leaf, (∀ kv ∈ leaf, kv.1 ≠ key) →
      s.trie.verifyNonInclusion H ap key leaf = some true → s.map key = none) := by
  intro s
  obtain ⟨x, hx, hs⟩ := exists_tracks hH hincr hclash
  have hget : x.1.get bitIsSet key 0 = s.map key := (hx.get key).trans (congrFun hs.map key).symm
  refine ⟨fun hroot => ?_, fun ap value hv => ?_, fun ap leaf hother hv => ?_⟩
  · have hne : x.1 ≠ .empty := by
      intro hempty
      rw [hs.holds.root, hempty] at hroot
      exact hroot rfl
    refine ⟨_, _, hs.holds.merkleProof, fun v => ?_, hs.holds.verifies hne hx.good.placed key⟩
    rw [← hget]
    exact proofOf_value (le_refl 256) hs.holds.complete
  · rw [← hget]
    exact hs.holds.get_of_verifyInclusion hH hv
  · rw [← hget]
    exact hs.holds.get_of_verifyNonInclusion hH hother hv

namespace Digest

/-- The proof that a key is included is also a proof that it is not, with the key itself as the
proof key. The proof that a key is not in the empty trie is not verified. -/
theorem verifyNonInclusion_of_included :
    let s := exec (Session.step hasher) .start [.update [key 6] [.value 6]]
    s.map (key 6) = some (.value 6) ∧
      s.trie.verifyNonInclusion hasher [] (key 6) (some (key 6, .value 6)) = some true ∧
      (SMT.empty : SMT (Digest Nat)).merkleProof hasher (key 6) = .ok ([], .default) ∧
      (SMT.empty : SMT (Digest Nat)).verifyNonInclusion hasher [] (key 6) none = some false := by
  intro s
  have hs : s.Shows hasher _ := Session.shows_exec collisionFree _
  simp only [hs.map, SMT.verifyNonInclusion, SMT.verifyInclusion, hs.holds.root]
  exact ⟨by decide +kernel, by decide +kernel, rfl, by decide +kernel⟩

theorem merkleProof_permitted :
    let s := exec (Session.step hasher) .start permitted
    ∃ ap found, s.trie.merkleProof hasher (key 9) = .ok (ap, found) ∧
      s.trie.Verifies hasher (key 9) ap found := by
  intro s
  have hs : s.Shows hasher _ := Session.shows_exec collisionFree permitted
  have hroot : s.trie.root ≠ none := by
    rw [hs.holds.root]
    decide +kernel
  obtain ⟨ap, found, hproof, -, hv⟩ := (Session.merkleProof_correct collisionFree
    permitted_increasing permitted_along (key 9)).1 hroot
  exact ⟨ap, found, hproof, hv⟩

end Digest

end MadNet.Trie
