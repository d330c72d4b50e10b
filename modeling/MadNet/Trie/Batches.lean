import MadNet.Lib.Heap
import MadNet.Trie.Tree

/-!
# Trees in batches

What the batches of the store say about a tree: `ref` is the node that stands for a tree, `Below`
the slots of a batch below an index that holds it. Since hashes do not collide, a batch that was
stored under a hash represents every tree with that hash.
-/

namespace MadNet.Trie

open Radix Prog Heap List

variable {D : Type} {H : Hasher D}

/-- The hash function is free of collisions. -/
structure Hasher.CollisionFree (H : Hasher D) : Prop where
  leaf_inj : ∀ {k v b k' v' b'}, H.leaf k v b = H.leaf k' v' b' → k = k' ∧ v = v' ∧ b = b'
  interior_inj : ∀ {l r l' r'}, H.interior l r = H.interior l' r' → l = l' ∧ r = r'
  leaf_ne_interior : ∀ {k v b l r}, H.leaf k v b ≠ H.interior l r
  leaf_ne_default : ∀ {k v b}, H.leaf k v b ≠ H.defaultLeaf
  interior_ne_default : ∀ {l r}, H.interior l r ≠ H.defaultLeaf

/-- The terms that are hashed, instead of their hashes; `value` holds what the trie is a map to. -/
inductive Digest (V : Type) where
  | defaultLeaf
  | value (v : V)
  | leaf (key : Key) (value : Digest V) (height : UInt8)
  | interior (left right : Digest V)
  deriving DecidableEq

namespace Digest

/-- The hasher that keeps its arguments. -/
def hasher {V : Type} : Hasher (Digest V) where
  leaf := .leaf
  interior := .interior
  defaultLeaf := .defaultLeaf

theorem collisionFree {V : Type} : (hasher (V := V)).CollisionFree := by
  constructor <;> simp [hasher]

end Digest

/-! ## Nodes -/

/-- What is hashed for a node, or for an empty subtree. -/
def digest (H : Hasher D) : Option (Node D) → D
  | none => H.defaultLeaf
  | some n => n.hash

def ref (H : Hasher D) : Nat → Tree Key D → Option (Node D)
  | _, .empty => none
  | h, .leaf k v => some { hash := H.leaf k v (.ofNat h), flag := some true }
  | h, .node l r =>
    some { hash := H.interior (digest H (ref H (h - 1) l)) (digest H (ref H (h - 1) r)),
                           flag := some false }

variable {T : Tree Key D}

theorem ref_eq_none {h : Nat} : ref H h T = none ↔ T = .empty := by
  cases T <;> simp [ref]

section CollisionFree

variable (hH : H.CollisionFree)
include hH

theorem digest_ref_inj {h h' : Nat} {T T' : Tree Key D}
    (hd : digest H (ref H h T) = digest H (ref H h' T')) : ref H h T = ref H h' T' := by
  cases T <;> cases T' <;> simp only [ref, digest] at hd ⊢
  · exact absurd hd.symm hH.leaf_ne_default
  · exact absurd hd.symm hH.interior_ne_default
  · exact absurd hd hH.leaf_ne_default
  · rw [hd]
  · exact absurd hd hH.leaf_ne_interior
  · exact absurd hd hH.interior_ne_default
  · exact absurd hd.symm hH.leaf_ne_interior
  · rw [hd]

theorem ref_node_inj {h h' : Nat} {l r l' r' : Tree Key D}
    (heq : ref H h (.node l r) = ref H h' (.node l' r')) :
    ref H (h - 1) l = ref H (h' - 1) l' ∧ ref H (h - 1) r = ref H (h' - 1) r' := by
  simp only [ref, Option.some.injEq, Node.mk.injEq, and_true] at heq
  obtain ⟨hl, hr⟩ := hH.interior_inj heq
  exact ⟨digest_ref_inj hH hl, digest_ref_inj hH hr⟩

/-- A hash determines the tree. -/
theorem ref_inj {h h' : Nat} {T T' : Tree Key D} (heq : ref H h T = ref H h' T') : T = T' := by
  induction T generalizing h h' T' with
  | empty => exact (ref_eq_none.mp heq.symm).symm
  | leaf k v =>
    cases T' with
    | empty => cases heq
    | leaf k' v' =>
      simp only [ref, Option.some.injEq, Node.mk.injEq, and_true] at heq
      obtain ⟨rfl, rfl, -⟩ := hH.leaf_inj heq
      rfl
    | node l r => simp [ref] at heq
  | node l r ihl ihr =>
    cases T' with
    | empty => cases heq
    | leaf k v => simp [ref] at heq
    | node l' r' =>
      obtain ⟨hl, hr⟩ := ref_node_inj hH heq
      rw [ihl hl, ihr hr]

end CollisionFree

/-! ## Slots -/

def leftSlot (H : Hasher D) (h : Nat) : Tree Key D → Option (Slot D)
  | .leaf k _ => some (.key k)
  | T => (ref H (h - 1) T.left).map .node

def rightSlot (H : Hasher D) (h : Nat) : Tree Key D → Option (Slot D)
  | .leaf _ v => some (.value v)
  | T => (ref H (h - 1) T.right).map .node

theorem leftSlot_of_not_leaf {h : Nat} (hT : T.isLeaf = false) :
    leftSlot H h T = (ref H (h - 1) T.left).map .node := by
  cases T with
  | leaf k v => cases hT
  | empty | node l r => rfl

theorem rightSlot_of_not_leaf {h : Nat} (hT : T.isLeaf = false) :
    rightSlot H h T = (ref H (h - 1) T.right).map .node := by
  cases T with
  | leaf k v => cases hT
  | empty | node l r => rfl

/-- The `n` levels below index `i` of a batch represent the tree, which is at height `h`. -/
def Below (H : Hasher D) (b : Batch D) : Nat → Nat → Nat → Tree Key D → Prop
  | 0, _, _, _ => True
  | n + 1, i, h, T => b.slot (2 * i + 1) = leftSlot H h T ∧ b.slot (2 * i + 2) = rightSlot H h T ∧
    Below H b n (2 * i + 1) (h - 1) T.left ∧ Below H b n (2 * i + 2) (h - 1) T.right

variable {b b' : Batch D} {n i h h' : Nat} {T : Tree Key D}

/-- Only the slots of these levels matter. -/
theorem Below.congr_levels (hb : Below H b n i h T)
    (hslot : ∀ x, Under i x → x + 2 ≤ (i + 2) * 2 ^ n → b'.slot x = b.slot x) :
    Below H b' n i h T := by
  induction n generalizing i h T with
  | zero => trivial
  | succ n ih =>
    obtain ⟨hl, hr, hbl, hbr⟩ := hb
    have hpow : (i + 2) * 2 ^ (n + 1) = (2 * i + 2 + 2) * 2 ^ n := by ring
    have hone : 0 < 2 ^ n := Nat.two_pow_pos n
    have hle : (2 * i + 1 + 2) * 2 ^ n ≤ (2 * i + 2 + 2) * 2 ^ n :=
      Nat.mul_le_mul_right _ (by omega)
    have hself : 2 * i + 2 + 2 ≤ (2 * i + 2 + 2) * 2 ^ n := Nat.le_mul_of_pos_right _ hone
    rw [hpow] at hslot
    exact ⟨(hslot _ under_left (by omega)).trans hl, (hslot _ under_right (by omega)).trans hr,
      ih hbl fun x hx hx' => hslot x hx.of_left (by omega), ih hbr fun x hx => hslot x hx.of_right⟩

/-- Only the slots below the index matter. -/
theorem Below.congr (hb : Below H b n i h T) (hslot : ∀ x, Under i x → b'.slot x = b.slot x) :
    Below H b' n i h T := hb.congr_levels fun x hx _ => hslot x hx

theorem below_empty (hslot : ∀ x, Under i x → b.slot x = none) : Below H b n i h .empty := by
  induction n generalizing i h with
  | zero => trivial
  | succ n ih =>
    exact ⟨hslot _ under_left, hslot _ under_right, ih fun x hx => hslot x hx.of_left,
      ih fun x hx => hslot x hx.of_right⟩

/-- An empty tree is the same at all heights. -/
theorem Below.empty_height (hb : Below H b n i h .empty) : Below H b n i h' .empty := by
  induction n generalizing i h h' with
  | zero => trivial
  | succ n ih =>
    obtain ⟨hl, hr, hbl, hbr⟩ := hb
    exact ⟨hl, hr, ih hbl, ih hbr⟩

/-- Trees with one hash look alike in a batch. -/
theorem Below.of_ref (hH : H.CollisionFree) (hb : Below H b n i h T) (hT : ref H h T = ref H h' T) :
    Below H b n i h' T := by
  induction n generalizing i h h' T with
  | zero => trivial
  | succ n ih =>
    obtain ⟨hl, hr, hbl, hbr⟩ := hb
    cases T with
    | empty | leaf k v => exact ⟨hl, hr, hbl.empty_height, hbr.empty_height⟩
    | node l r =>
      obtain ⟨hrl, hrr⟩ := ref_node_inj hH hT
      refine ⟨hl.trans ?_, hr.trans ?_, ih hbl hrl, ih hbr hrr⟩
      · exact congrArg (Option.map Slot.node) hrl
      · exact congrArg (Option.map Slot.node) hrr

@[simp] theorem Batch.set_slot_self (s : Option (Slot D)) : (b.set i s).slot i = s := by
  simp [Batch.set]

theorem Batch.set_slot_of_ne {x : Nat} (s : Option (Slot D)) (hx : x ≠ i) :
    (b.set i s).slot x = b.slot x := Function.update_of_ne hx ..

/-- The children of an index are written; what is below them stays. -/
theorem Below.set_children {sl sr : Option (Slot D)} (hsl : sl = leftSlot H h T)
    (hsr : sr = rightSlot H h T)
    (hl : Below H b n (2 * i + 1) (h - 1) T.left) (hr : Below H b n (2 * i + 2) (h - 1) T.right)
    (hslot : ∀ x, x ≠ 2 * i + 1 → x ≠ 2 * i + 2 → b'.slot x = b.slot x)
    (hl' : b'.slot (2 * i + 1) = sl)
    (hr' : b'.slot (2 * i + 2) = sr) :
    Below H b' (n + 1) i h T := by
  refine ⟨hl'.trans hsl, hr'.trans hsr, hl.congr fun x hx => ?_, hr.congr fun x hx => ?_⟩
  all_goals
    have := hx.le
    exact hslot x (by omega) (by omega)

/-! ## The store -/

/-- A batch that is stored under a hash represents the trees with that hash. -/
structure Represents (H : Hasher D) (b : Batch D) (h : Nat) (T : Tree Key D) : Prop where
  isShortcut : b.isShortcut = T.isLeaf
  below : Below H b 4 0 h T

def Sound (H : Hasher D) (s : Store D) : Prop :=
  ∀ d b, s.loadBatch d = .ok b → ∀ h T n, ref H h T = some n → n.hash = d → Represents H b h T

def Available (s : Store D) (d : D) : Prop := ∃ b, s.loadBatch d = .ok b

def Complete (H : Hasher D) (s : Store D) : Nat → Tree Key D → Prop
  | _, .empty => True
  | h, .leaf k v => h % 4 = 0 → Available s (H.leaf k v (.ofNat h))
  | h, .node l r => 0 < h ∧ (h % 4 = 0 → Available s (digest H (ref H h (.node l r)))) ∧
    Complete H s (h - 1) l ∧ Complete H s (h - 1) r

variable {s s' : Store D}

theorem Complete.available (hT : Complete H s h T) (hh : h % 4 = 0) :
    ∀ n ∈ ref H h T, Available s n.hash := by
  intro n hn
  cases T with
  | empty => cases hn
  | leaf k v =>
    cases hn
    exact hT hh
  | node l r =>
    cases hn
    exact hT.2.1 hh

theorem Complete.left (hT : Complete H s (h + 1) T) : Complete H s h T.left := by
  cases T with
  | node l r => exact hT.2.2.1
  | _ => trivial

theorem Complete.right (hT : Complete H s (h + 1) T) : Complete H s h T.right := by
  cases T with
  | node l r => exact hT.2.2.2
  | _ => trivial

theorem Complete.mono_ref (hT : Complete H s h T)
    (hs : ∀ h T, ∀ n ∈ ref H h T, Available s n.hash → Available s' n.hash) :
    Complete H s' h T := by
  induction T generalizing h with
  | empty => trivial
  | leaf k v => exact fun hh => hs h (.leaf k v) _ rfl (hT hh)
  | node l r ihl ihr =>
    exact ⟨hT.1, fun hh => hs h (.node l r) _ rfl (hT.2.1 hh), ihl hT.2.2.1, ihr hT.2.2.2⟩

theorem Complete.mono (hT : Complete H s h T) (hs : ∀ d, Available s d → Available s' d) :
    Complete H s' h T := hT.mono_ref fun _ _ n _ => hs n.hash

/-! ## Batches in the database -/

theorem parseSlots_apply (os : List (Option (Slot D))) (i x : Nat) :
    parseSlots (os.map (·.isSome)) (os.reduceOption) i x =
      if i ≤ x then os[x - i]?.join else none := by
  induction os generalizing i with
  | nil => simp [parseSlots]
  | cons o os ih =>
    have hafter (hx : i < x) : os[x - (i + 1)]? = (o :: os)[x - i]? := by
      rw [show x - i = x - (i + 1) + 1 by omega, getElem?_cons_succ]
    cases o with
    | none =>
      rw [map_cons, reduceOption_cons_of_none, Option.isSome_none, parseSlots, ih]
      rcases Nat.lt_trichotomy i x with hx | rfl | hx
      · rw [if_pos (show i + 1 ≤ x by omega), if_pos (show i ≤ x by omega), hafter hx]
      · simp
      · rw [if_neg (show ¬i + 1 ≤ x by omega), if_neg (show ¬i ≤ x by omega)]
    | some s =>
      rw [map_cons, reduceOption_cons_of_some, Option.isSome_some, parseSlots]
      rcases Nat.lt_trichotomy i x with hx | rfl | hx
      · rw [Function.update_of_ne (show x ≠ i by omega), tail_cons, ih,
          if_pos (show i + 1 ≤ x by omega), if_pos (show i ≤ x by omega), hafter hx]
      · simp
      · rw [Function.update_of_ne (show x ≠ i by omega), tail_cons, ih,
          if_neg (show ¬i + 1 ≤ x by omega), if_neg (show ¬i ≤ x by omega)]

theorem length_reduceOption (os : List (Option (Slot D))) :
    (os.reduceOption).length = (os.map (·.isSome)).count true := by
  induction os with
  | nil => rfl
  | cons o os ih => cases o <;> simp [ih]

/-- The slots of a regular batch are read as they were written. -/
theorem parse_serialize_regular (hb : b.isShortcut = false) : parseBatch b.serialize =
    .ok { isShortcut := false, slot := fun x => if 1 ≤ x ∧ x ≤ 30 then b.slot x else none } := by
  let os := (range 30).map fun i => b.slot (i + 1)
  have hbits : b.serialize.bitmap = os.map (·.isSome) := by simp [Batch.serialize, os]
  have hslots : b.serialize.slots = os.reduceOption := by
    simp [Batch.serialize, os, reduceOption, filterMap_map]
  have hlen : ¬(os.reduceOption).length < (os.map (·.isSome)).count true := by
    rw [length_reduceOption]
    omega
  have hshort : b.serialize.isShortcut = false := hb
  have hread : parseSlots (os.map (·.isSome)) os.reduceOption 1 =
      fun x => if 1 ≤ x ∧ x ≤ 30 then b.slot x else none := by
    funext x
    rw [parseSlots_apply]
    by_cases hx : 1 ≤ x ∧ x ≤ 30
    · rw [if_pos hx.1, if_pos hx]
      simp [os, show x - 1 < 30 by omega, show x - 1 + 1 = x by omega]
    · rw [if_neg hx]
      split
      · rw [getElem?_eq_none (by simp [os]; omega)]
        rfl
      · rfl
  rw [parseBatch, hshort, hbits, hslots, if_neg hlen, hread]
  rfl

/-- Of a shortcut batch the key and the value are read. -/
theorem parse_serialize_shortcut (hb : b.isShortcut = true) {k v : Slot D} (hk : b.slot 1 = some k)
    (hv : b.slot 2 = some v) : parseBatch b.serialize =
      .ok { isShortcut := true,
            slot := fun x => if x = 1 then some k else if x = 2 then some v else none } := by
  have hslots : b.serialize.slots = k :: v :: (range 28).filterMap fun i => b.slot (i + 3) := by
    have hrange : range 30 = 0 :: 1 :: (range 28).map (· + 2) := rfl
    simp only [Batch.serialize, hrange, filterMap_cons, Nat.zero_add, Nat.reduceAdd, hk,
      hv, filterMap_map]
    rfl
  have hshort : b.serialize.isShortcut = true := hb
  have hread : parseSlots [true, true] [k, v] 1 =
      fun x => if x = 1 then some k else if x = 2 then some v else none := by
    funext x
    by_cases h₁ : x = 1
    · simp [h₁, parseSlots]
    · by_cases h₂ : x = 2
      · simp [h₂, parseSlots]
      · simp [h₁, h₂, parseSlots]
  rw [parseBatch, hshort, hslots, ← hread]
  rfl

/-- What is read from the database is what was written. -/
theorem Represents.parse_serialize (hb : Represents H b h T) :
    ∃ b', parseBatch b.serialize = .ok b' ∧ Represents H b' h T := by
  cases hleaf : T.isLeaf with
  | true =>
    cases T with
    | empty | node l r => cases hleaf
    | leaf k v =>
      obtain ⟨hk, hv, -, -⟩ := hb.below
      refine ⟨_, parse_serialize_shortcut hb.isShortcut hk hv, rfl, rfl, rfl, below_empty ?_,
        below_empty ?_⟩
      all_goals
        intro x hx
        have := hx.le
        exact (if_neg (by omega)).trans (if_neg (by omega))
  | false =>
    refine ⟨_, parse_serialize_regular (hb.isShortcut.trans hleaf), hleaf.symm, ?_⟩
    refine hb.below.congr_levels fun x hx hx' => if_pos ?_
    have := hx.le
    omega

end MadNet.Trie
