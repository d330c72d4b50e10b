import MadNet.Trie.Batches

/-!
# What is hashed for a tree and for a proof

No hash function with values of a fixed size is free of collisions. What a root says about a tree
only needs that there are none among what is hashed: for the tree, and by the one who verifies a
proof.
-/

namespace MadNet.Trie

open Radix List

/-- The arguments of the hash function. -/
inductive Preimage (D : Type) where
  | leaf (k : Key) (v : D) (height : UInt8)
  | interior (l r : D)
  /-- The byte zero. -/
  | default

variable {D : Type} {H : Hasher D}

def Hasher.hash (H : Hasher D) : Preimage D → D
  | .leaf k v height => H.leaf k v height
  | .interior l r => H.interior l r
  | .default => H.defaultLeaf

theorem Hasher.CollisionFree.injective (hH : H.CollisionFree) : Function.Injective H.hash := by
  intro p q h
  cases p with
  | leaf k v b =>
    cases q with
    | leaf k' v' b' =>
      obtain ⟨rfl, rfl, rfl⟩ := hH.leaf_inj h
      rfl
    | interior l r => exact absurd h hH.leaf_ne_interior
    | default => exact absurd h hH.leaf_ne_default
  | interior l r =>
    cases q with
    | leaf k v b => exact absurd h.symm hH.leaf_ne_interior
    | interior l' r' =>
      obtain ⟨rfl, rfl⟩ := hH.interior_inj h
      rfl
    | default => exact absurd h hH.interior_ne_default
  | default =>
    cases q with
    | leaf k v b => exact absurd h.symm hH.leaf_ne_default
    | interior l r => exact absurd h.symm hH.interior_ne_default
    | default => rfl

/-! ## Trees -/

/-- What is hashed at the root of a tree at a height. -/
def preimage (H : Hasher D) (h : Nat) : Tree Key D → Preimage D
  | .empty => .default
  | .leaf k v => .leaf k v (.ofNat h)
  | .node l r => .interior (digest H (ref H (h - 1) l)) (digest H (ref H (h - 1) r))

theorem digest_ref (H : Hasher D) (h : Nat) (T : Tree Key D) :
    digest H (ref H h T) = H.hash (preimage H h T) := by
  cases T with
  | empty | leaf k v | node l r => rfl

/-- What is hashed for a tree at a height. -/
def preimages (H : Hasher D) : Nat → Tree Key D → List (Preimage D)
  | h, .node l r => preimage H h (.node l r) :: (preimages H (h - 1) l ++ preimages H (h - 1) r)
  | h, T => [preimage H h T]

theorem preimage_mem (h : Nat) (T : Tree Key D) : preimage H h T ∈ preimages H h T := by
  cases T with
  | empty | leaf k v => exact mem_singleton_self _
  | node l r => exact mem_cons_self

/-! ## Paths -/

/-- What is hashed of an item of a path and the hash below it. -/
def above (key : Key) (d : Nat) (item hash : D) : Preimage D :=
  if bitIsSet key d then .interior item hash else .interior hash item

/-- The hash at the top of a path from a hash at its bottom; the items are from the top down. -/
def climb (H : Hasher D) (key : Key) (bottom : D) : Nat → List D → D
  | _, [] => bottom
  | d, item :: items => H.hash (above key d item (climb H key bottom (d + 1) items))

/-- What is hashed on the way. -/
def climbed (H : Hasher D) (key : Key) (bottom : D) : Nat → List D → List (Preimage D)
  | _, [] => []
  | d, item :: items =>
    above key d item (climb H key bottom (d + 1) items) :: climbed H key bottom (d + 1) items

theorem climb_append (key : Key) (bottom item : D) (d : Nat) (items : List D) :
    climb H key bottom d (items ++ [item]) =
      climb H key (H.hash (above key (d + items.length) item bottom)) d items := by
  induction items generalizing d with
  | nil => rfl
  | cons item' items ih =>
    have hdepth : d + 1 + items.length = d + (items.length + 1) := by omega
    rw [cons_append, climb, climb, ih, hdepth, length_cons]

variable {M : Set (Preimage D)} {key : Key} {bottom : D} {h : Nat} {T : Tree Key D}

variable {items : List D}

/-- A path whose top is the root of a tree leads to what the bits of the key lead to. -/
theorem follow_of_climb (hM : Set.InjOn H.hash M) {d : Nat}
    (hT : ∀ p ∈ preimages H h T, p ∈ M) (hitems : ∀ p ∈ climbed H key bottom d items, p ∈ M)
    (htop : climb H key bottom d items = digest H (ref H h T)) :
    ∃ h', digest H (ref H h' (T.follow bitIsSet key d items.length)) = bottom ∧
      ∀ p ∈ preimages H h' (T.follow bitIsSet key d items.length), p ∈ M := by
  induction items generalizing d h T with
  | nil => exact ⟨h, htop.symm, hT⟩
  | cons item items ih =>
    rw [climb, digest_ref] at htop
    have hpre := hM (hitems _ mem_cons_self) (hT _ (preimage_mem h T)) htop
    have hrest : ∀ p ∈ climbed H key bottom (d + 1) items, p ∈ M :=
      fun p hp => hitems p (mem_cons_of_mem _ hp)
    -- an interior node was hashed, so the tree is one
    cases T with
    | empty | leaf k v =>
      unfold above at hpre
      split at hpre
      · cases hpre
      · cases hpre
    | node l r =>
      have hchildren : (∀ p ∈ preimages H (h - 1) l, p ∈ M) ∧ ∀ p ∈ preimages H (h - 1) r, p ∈ M :=
        ⟨fun p hp => hT p (mem_cons_of_mem _ (mem_append_left _ hp)),
          fun p hp => hT p (mem_cons_of_mem _ (mem_append_right _ hp))⟩
      unfold above at hpre
      rw [length_cons, Tree.follow]
      split at hpre
      next hbit =>
        rw [if_pos hbit]
        exact ih hchildren.2 hrest (Preimage.interior.inj hpre).2
      next hbit =>
        rw [if_neg hbit]
        exact ih hchildren.1 hrest (Preimage.interior.inj hpre).1

/-- A path from a leaf to the root of a tree is the path to this leaf. -/
theorem follow_eq_leaf_of_climb (hM : Set.InjOn H.hash M) {d : Nat} {k : Key} {v : D}
    {height : UInt8}
    (hT : ∀ p ∈ preimages H h T, p ∈ M)
    (hitems : ∀ p ∈ climbed H key (H.leaf k v height) d items, p ∈ M)
    (hleaf : .leaf k v height ∈ M)
    (htop : climb H key (H.leaf k v height) d items = digest H (ref H h T)) :
    T.follow bitIsSet key d items.length = .leaf k v := by
  obtain ⟨h', hbottom, hfollow⟩ := follow_of_climb hM hT hitems htop
  rw [digest_ref] at hbottom
  have hpre := hM (hfollow _ (preimage_mem ..)) hleaf hbottom
  cases htree : T.follow bitIsSet key d items.length with
  | empty | node l r => rw [htree] at hpre; cases hpre
  | leaf k' v' =>
    rw [htree] at hpre
    obtain ⟨rfl, rfl, -⟩ := Preimage.leaf.inj hpre
    rfl

/-- A path from the default leaf to the root of a tree leads to an empty subtree. -/
theorem follow_eq_empty_of_climb (hM : Set.InjOn H.hash M) {d : Nat}
    (hT : ∀ p ∈ preimages H h T, p ∈ M)
    (hitems : ∀ p ∈ climbed H key H.defaultLeaf d items, p ∈ M) (hdefault : .default ∈ M)
    (htop : climb H key H.defaultLeaf d items = digest H (ref H h T)) :
    T.follow bitIsSet key d items.length = .empty := by
  obtain ⟨h', hbottom, hfollow⟩ := follow_of_climb hM hT hitems htop
  rw [digest_ref] at hbottom
  have hpre := hM (hfollow _ (preimage_mem ..)) hdefault hbottom
  cases htree : T.follow bitIsSet key d items.length with
  | empty => rfl
  | leaf k v | node l r => rw [htree] at hpre; cases hpre

end MadNet.Trie
