import Mathlib

/-!
# Batches of writes to a finite map

A write sets a key or deletes it. The keys of a batch are distinct, so the batch has done what each
of its writes says, and nothing else.
-/

namespace Batch

open List

variable {κ ν : Type} [DecidableEq κ] {m : AList fun _ : κ => ν} {ws : List (κ × Option ν)} {k : κ}

/-- Set the value of a key; `none` deletes it. -/
def write : (AList fun _ : κ => ν) → κ × Option ν → AList fun _ : κ => ν
  | m, (k, none) => m.erase k
  | m, (k, some v) => m.insert k v

theorem lookup_write_self (v : Option ν) : (write m (k, v)).lookup k = v := by
  cases v with
  | none => exact AList.lookup_erase k m
  | some v => exact AList.lookup_insert m

theorem lookup_write_ne {w : κ × Option ν} (hne : k ≠ w.1) : (write m w).lookup k = m.lookup k := by
  obtain ⟨k', v⟩ := w
  cases v with
  | none => exact AList.lookup_erase_ne hne
  | some v => exact AList.lookup_insert_ne hne

theorem lookup_write (w : κ × Option ν) :
    (write m w).lookup = Function.update m.lookup w.1 w.2 := by
  funext k
  by_cases hk : k = w.1
  · subst hk
    rw [Function.update_self, lookup_write_self]
  · rw [Function.update_of_ne hk, lookup_write_ne hk]

theorem lookup_foldl_of_notMem (hk : k ∉ ws.map Prod.fst) :
    (ws.foldl write m).lookup k = m.lookup k := by
  induction ws generalizing m with
  | nil => rfl
  | cons w ws ih =>
    rw [map_cons, mem_cons, not_or] at hk
    rw [foldl_cons, ih hk.2, lookup_write_ne hk.1]

theorem lookup_foldl_of_mem (hws : (ws.map Prod.fst).Nodup) {v : Option ν} (hk : (k, v) ∈ ws) :
    (ws.foldl write m).lookup k = v := by
  induction ws generalizing m with
  | nil => cases hk
  | cons w ws ih =>
    rw [map_cons, nodup_cons] at hws
    rw [foldl_cons]
    rcases mem_cons.mp hk with rfl | hk
    · rw [lookup_foldl_of_notMem hws.1, lookup_write_self]
    · exact ih hws.2 hk

/-- Deletions only take keys away. -/
theorem lookup_deleted (ks : List κ) :
    ((ks.map (·, none)).foldl write m).lookup k = if k ∈ ks then none else m.lookup k := by
  induction ks generalizing m with
  | nil => simp
  | cons k' ks ih =>
    rw [map_cons, foldl_cons, ih]
    by_cases hk : k = k'
    · subst hk
      simp [lookup_write_self]
    · rw [lookup_write_ne (w := (k', none)) hk]
      simp [hk]

theorem mem_of_mem_deleted {ks : List κ} (hk : k ∈ (ks.map (·, none)).foldl write m) : k ∈ m := by
  rw [← AList.lookup_isSome, lookup_deleted] at hk
  split at hk
  · cases hk
  · exact AList.lookup_isSome.mp hk

end Batch
