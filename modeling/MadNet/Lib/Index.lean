import Mathlib

/-!
# Mirrored indexes

An index keeps, for every object, the key that the object is filed under, and for every key the
object that is filed there. The two halves are written separately. They mirror each other if both
are the partial function `entry` from objects to their keys.
-/

namespace Index

open Function (update_self update_of_ne update update_eq_self)

variable {ι κ α : Type} [DecidableEq ι] [DecidableEq κ] {lookup : κ → Option ι}
  {ref entry : ι → Option κ} {i : ι} {k : κ}

structure Mirrors (lookup : κ → Option ι) (ref entry : ι → Option κ) : Prop where
  ref_eq : ref = entry
  lookup_iff : ∀ k i, lookup k = some i ↔ entry i = some k

omit [DecidableEq ι] [DecidableEq κ] in
theorem Mirrors.lookup_eq_none (h : Mirrors lookup ref entry) (hk : ∀ i, entry i ≠ some k) :
    lookup k = none := by
  cases hl : lookup k with
  | none => rfl
  | some i => exact absurd ((h.lookup_iff k i).mp hl) (hk i)

theorem Mirrors.add (h : Mirrors lookup ref entry) (hi : entry i = none) (hk : lookup k = none) :
    Mirrors (update lookup k (some i)) (update ref i (some k))
      (update entry i (some k)) where
  ref_eq := by rw [h.ref_eq]
  lookup_iff k' i' := by
    have hold := h.lookup_iff k' i'
    by_cases hk' : k' = k <;> by_cases hi' : i' = i
    · simp [hk', hi']
    · subst hk'
      simp only [update_self, update_of_ne hi', ← hold, hk, Option.some.injEq]
      exact ⟨fun heq => absurd heq.symm hi', nofun⟩
    · subst hi'
      simp only [update_self, update_of_ne hk', hold, hi, Option.some.injEq]
      exact ⟨nofun, fun heq => absurd heq.symm hk'⟩
    · simpa only [update_of_ne hk', update_of_ne hi'] using hold

theorem Mirrors.drop (h : Mirrors lookup ref entry) (hi : entry i = some k) :
    Mirrors (update lookup k none) (update ref i none)
      (update entry i none) where
  ref_eq := by rw [h.ref_eq]
  lookup_iff k' i' := by
    have hold := h.lookup_iff k' i'
    have hki := (h.lookup_iff k i).mpr hi
    by_cases hk' : k' = k <;> by_cases hi' : i' = i
    · simp [hk', hi']
    · subst hk'
      simp only [update_self, update_of_ne hi', ← hold, hki, Option.some.injEq]
      exact ⟨nofun, fun heq => absurd heq.symm hi'⟩
    · subst hi'
      simp only [update_self, update_of_ne hk', hold, hi, Option.some.injEq]
      exact ⟨fun heq => absurd heq.symm hk', nofun⟩
    · simpa only [update_of_ne hk', update_of_ne hi'] using hold

omit [DecidableEq κ] in
/-- The keys of a family of objects of which one changes. -/
theorem bind_update (f : ι → α → Option κ) (objs : ι → Option α) (i : ι) (x : Option α) :
    (fun j => (update objs i x j).bind (f j)) = update (fun j => (objs j).bind (f j)) i
      (x.bind (f i)) := by
  funext j
  by_cases hj : j = i
  · subst hj
    simp
  · simp [hj]

omit [DecidableEq κ] in
theorem bind_update_of_eq (f : ι → α → Option κ) (objs : ι → Option α) (i : ι) {x : Option α}
    (hx : x.bind (f i) = (objs i).bind (f i)) :
    (fun j => (update objs i x j).bind (f j)) = fun j => (objs j).bind (f j) := by
  rw [bind_update, hx]
  exact update_eq_self i fun j => (objs j).bind (f j)

end Index
