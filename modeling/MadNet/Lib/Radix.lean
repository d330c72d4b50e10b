import Mathlib

/-!
# Binary radix trees

A tree that branches on the bits of its keys, from a first bit on. A key that is alone in its
subtree is a leaf at the root of it. `Placed` says that each key is where its bits lead to, and
`Compact` that no key is deeper than it has to be; together they make the tree a function of its
entries.
-/

namespace Radix

open List

inductive Tree (κ ν : Type) where
  | empty
  | leaf (k : κ) (v : ν)
  | node (l r : Tree κ ν)
  deriving DecidableEq

namespace Tree

variable {κ ν : Type}

def entries : Tree κ ν → List (κ × ν)
  | empty => []
  | leaf k v => [(k, v)]
  | node l r => l.entries ++ r.entries

def isLeaf : Tree κ ν → Bool
  | leaf _ _ => true
  | _ => false

def isEmpty : Tree κ ν → Bool
  | empty => true
  | _ => false

/-- The left child; a leaf has its key at its own root. -/
def left : Tree κ ν → Tree κ ν
  | node l _ => l
  | _ => empty

def right : Tree κ ν → Tree κ ν
  | node _ r => r
  | _ => empty

/-- The value of a key in a tree that branches on the bits from `d` on. -/
def get [DecidableEq κ] (bit : κ → Nat → Bool) (k : κ) : Nat → Tree κ ν → Option ν
  | _, empty => none
  | _, leaf k' v => if k' = k then some v else none
  | d, node l r => if bit k d then get bit k (d + 1) r else get bit k (d + 1) l

/-- The subtree after the first `n` bits of a key from `d` on; a leaf or an empty tree is where they
end. -/
def follow (bit : κ → Nat → Bool) (k : κ) : Nat → Nat → Tree κ ν → Tree κ ν
  | _, 0, T => T
  | d, n + 1, node l r => if bit k d then follow bit k (d + 1) n r else follow bit k (d + 1) n l
  | _, _ + 1, T => T

def Placed (bit : κ → Nat → Bool) : Nat → Tree κ ν → Prop
  | _, empty => True
  | _, leaf _ _ => True
  | d, node l r => (∀ e ∈ l.entries, bit e.1 d = false) ∧ (∀ e ∈ r.entries, bit e.1 d = true) ∧
    Placed bit (d + 1) l ∧ Placed bit (d + 1) r

/-- No subtree is a node above at most one leaf. -/
def Compact : Tree κ ν → Prop
  | empty => True
  | leaf _ _ => True
  | node l r => (l = empty → r.isEmpty = false ∧ r.isLeaf = false) ∧
    (r = empty → l.isEmpty = false ∧ l.isLeaf = false) ∧ Compact l ∧ Compact r

variable {bit : κ → Nat → Bool} {d : Nat} {T T' : Tree κ ν}

theorem get_eq_some_iff [DecidableEq κ] (h : Placed bit d T) {k : κ} {v : ν} :
    get bit k d T = some v ↔ (k, v) ∈ T.entries := by
  induction T generalizing d with
  | empty => simp [get, entries]
  | leaf k' v' =>
    simp only [get, entries, mem_singleton, Prod.mk.injEq]
    by_cases hk : k' = k
    · simp [hk, eq_comm]
    · simp [hk, Ne.symm hk]
  | node l r ihl ihr =>
    obtain ⟨hl, hr, hpl, hpr⟩ := h
    rw [entries, mem_append, get]
    split
    next hbit =>
      rw [ihr hpr]
      refine ⟨.inr, fun h => h.resolve_left fun hmem => ?_⟩
      exact Bool.false_ne_true ((hl _ hmem).symm.trans hbit)
    next hbit =>
      rw [ihl hpl]
      refine ⟨.inl, fun h => h.resolve_right fun hmem => ?_⟩
      exact hbit (hr _ hmem)

theorem get_follow [DecidableEq κ] (k : κ) (n : Nat) :
    get bit k (d + n) (follow bit k d n T) = get bit k d T := by
  induction n generalizing d T with
  | zero => rfl
  | succ n ih =>
    cases T with
    | empty | leaf k' v => rfl
    | node l r =>
      rw [follow, get, ← Nat.add_assoc, Nat.add_right_comm]
      split
      · exact ih
      · exact ih

/-- Keys with the same bits lead to the same subtree. -/
theorem follow_congr {k k' : κ} {n : Nat} (h : ∀ i, d ≤ i → i < d + n → bit k i = bit k' i) :
    follow bit k d n T = follow bit k' d n T := by
  induction n generalizing d T with
  | zero => rfl
  | succ n ih =>
    cases T with
    | empty | leaf k0 v => rfl
    | node l r =>
      have hrest {T : Tree κ ν} : follow bit k (d + 1) n T = follow bit k' (d + 1) n T :=
        ih fun i h1 h2 => h i (by omega) (by omega)
      rw [follow, follow, h d (Nat.le_refl d) (by omega), hrest, hrest]

theorem Compact.exists_entry (h : Compact T) (hT : T ≠ empty) : ∃ e, e ∈ T.entries := by
  induction T with
  | empty => exact absurd rfl hT
  | leaf k v => exact ⟨_, mem_singleton_self _⟩
  | node l r ihl ihr =>
    by_cases hl : l = empty
    · have hr : r ≠ empty := by
        rintro rfl
        exact absurd (h.1 hl).1 (by simp [isEmpty])
      obtain ⟨e, he⟩ := ihr h.2.2.2 hr
      exact ⟨e, by simp [entries, he]⟩
    · obtain ⟨e, he⟩ := ihl h.2.2.1 hl
      exact ⟨e, by simp [entries, he]⟩

theorem Compact.exists_ne (h : Compact T) (hp : Placed bit d T) (hempty : T.isEmpty = false)
    (hleaf : T.isLeaf = false) : ∃ e ∈ T.entries, ∃ e' ∈ T.entries, e.1 ≠ e'.1 := by
  induction T generalizing d with
  | empty => cases hempty
  | leaf k v => cases hleaf
  | node l r ihl ihr =>
    obtain ⟨hbl, hbr, hpl, hpr⟩ := hp
    by_cases hl : l = empty
    · -- both keys are on the right
      obtain ⟨h1, h2⟩ := h.1 hl
      obtain ⟨e, he, e', he', hne⟩ := ihr h.2.2.2 hpr h1 h2
      exact ⟨e, mem_append_right _ he, e', mem_append_right _ he', hne⟩
    · by_cases hr : r = empty
      · obtain ⟨h1, h2⟩ := h.2.1 hr
        obtain ⟨e, he, e', he', hne⟩ := ihl h.2.2.1 hpl h1 h2
        exact ⟨e, mem_append_left _ he, e', mem_append_left _ he', hne⟩
      · obtain ⟨e, he⟩ := h.2.2.1.exists_entry hl
        obtain ⟨e', he'⟩ := h.2.2.2.exists_entry hr
        refine ⟨e, mem_append_left _ he, e', mem_append_right _ he', fun heq => ?_⟩
        have := hbl e he
        rw [heq, hbr e' he'] at this
        cases this

/-- A compact tree is determined by its entries. -/
theorem ext_entries (hT : Compact T) (hT' : Compact T') (hp : Placed bit d T)
    (hp' : Placed bit d T') (h : ∀ e, e ∈ T.entries ↔ e ∈ T'.entries) : T = T' := by
  induction T generalizing T' d with
  | empty =>
    by_contra hne
    obtain ⟨e, he⟩ := hT'.exists_entry (Ne.symm hne)
    exact absurd ((h e).mpr he) (by simp [entries])
  | leaf k v =>
    cases T' with
    | empty => exact absurd ((h (k, v)).mp (by simp [entries])) (by simp [entries])
    | leaf k' v' =>
      have := (h (k, v)).mp (by simp [entries])
      simp only [entries, mem_singleton, Prod.mk.injEq] at this
      rw [this.1, this.2]
    | node l r =>
      obtain ⟨e, he, e', he', hne⟩ := hT'.exists_ne hp' rfl rfl
      have h1 := (h e).mpr he
      have h2 := (h e').mpr he'
      simp only [entries, mem_singleton] at h1 h2
      exact absurd (by rw [h1, h2]) hne
  | node l r ihl ihr =>
    cases T' with
    | empty =>
      obtain ⟨e, he, -⟩ := hT.exists_ne hp rfl rfl
      exact absurd ((h e).mp he) (by simp [entries])
    | leaf k' v' =>
      obtain ⟨e, he, e', he', hne⟩ := hT.exists_ne hp rfl rfl
      have h1 := (h e).mp he
      have h2 := (h e').mp he'
      simp only [entries, mem_singleton] at h1 h2
      exact absurd (by rw [h1, h2]) hne
    | node l' r' =>
      obtain ⟨hl, hr, hpl, hpr⟩ := hp
      obtain ⟨hl', hr', hpl', hpr'⟩ := hp'
      simp only [entries, mem_append] at h
      -- the bit of a key says on which side it is
      have hleft (e) : e ∈ l.entries ↔ e ∈ l'.entries := by
        refine ⟨fun he => ((h e).mp (.inl he)).resolve_right fun he' => ?_,
          fun he => ((h e).mpr (.inl he)).resolve_right fun he' => ?_⟩
        · exact absurd (hr' e he') (by simp [hl e he])
        · exact absurd (hr e he') (by simp [hl' e he])
      have hright (e) : e ∈ r.entries ↔ e ∈ r'.entries := by
        refine ⟨fun he => ((h e).mp (.inr he)).resolve_left fun he' => ?_,
          fun he => ((h e).mpr (.inr he)).resolve_left fun he' => ?_⟩
        · exact absurd (hl' e he') (by simp [hr e he])
        · exact absurd (hl e he') (by simp [hr' e he])
      rw [ihl hT.2.2.1 hT'.2.2.1 hpl hpl' hleft, ihr hT.2.2.2 hT'.2.2.2 hpr hpr' hright]

end Tree

end Radix
