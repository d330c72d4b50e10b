import Mathlib

/-!
# Ring buffers without a check of what is read

Items are numbered from one on, and each is written at its number modulo the size. Of the items the
last ones are there; what is read at any other number is one of them, or the initial value.
-/

namespace Ring

variable {α : Type} {k : Nat} [NeZero k]

/-- The place of an item. -/
def index (k : Nat) [NeZero k] (n : Nat) : Fin k := Fin.ofNat k n

theorem index_eq_iff {m n : Nat} : index k m = index k n ↔ m % k = n % k := Fin.ext_iff

/-- The items have been written one after the other. -/
structure Holds (init : α) (items : List α) (a : Fin k → α) : Prop where
  recent : ∀ i (hi : i < items.length), items.length ≤ i + k → a (index k (i + 1)) = items[i]
  blank : ∀ n, (∀ i < items.length, (i + 1) % k ≠ n % k) → a (index k n) = init

variable {init : α} {items : List α} {a : Fin k → α}

theorem holds_nil : Holds init [] fun _ : Fin k => init :=
  ⟨fun _ hi => absurd hi (Nat.not_lt_zero _), fun _ _ => rfl⟩

theorem Holds.push (h : Holds init items a) (x : α) :
    Holds init (items ++ [x]) (Function.update a (index k (items.length + 1)) x) := by
  refine ⟨fun i hi hrecent => ?_, fun n hn => ?_⟩
  · rw [List.length_append, List.length_singleton] at hi hrecent
    rcases Nat.lt_or_eq_of_le (Nat.le_of_lt_succ hi) with hlt | rfl
    · have hne : index k (i + 1) ≠ index k (items.length + 1) := by
        intro heq
        have hmod : i + 1 ≡ items.length + 1 [MOD k] := index_eq_iff.mp heq
        have hdvd : k ∣ items.length + 1 - (i + 1) := (Nat.modEq_iff_dvd' (by omega)).mp hmod
        have := Nat.le_of_dvd (by omega) hdvd
        omega
      rw [Function.update_of_ne hne, h.recent i hlt (by omega), List.getElem_append_left hlt]
    · rw [Function.update_self, List.getElem_append_right (Nat.le_refl _)]
      simp
  · have hlast := hn items.length (by simp)
    rw [Function.update_of_ne fun heq => hlast (index_eq_iff.mp heq.symm)]
    refine h.blank n fun i hi => hn i ?_
    rw [List.length_append]
    exact Nat.lt_add_right _ hi

/-- Where an item was written, one of the last items is read. -/
theorem Holds.exists_recent (h : Holds init items a) {i n : Nat} (hi : i < items.length)
    (hn : (i + 1) % k = n % k) : ∃ m, ∃ hm : m < items.length, items.length ≤ m + k ∧
      (m + 1) % k = n % k ∧
      a (index k n) = items[m] := by
  -- the last item with this place
  let rounds := (items.length - 1 - i) / k
  have hk : 0 < k := Nat.pos_of_neZero k
  have hle : rounds * k ≤ items.length - 1 - i := Nat.div_mul_le_self _ _
  have hlt : items.length - 1 - i < rounds * k + k := Nat.lt_div_mul_add hk
  have hplace : (i + rounds * k + 1) % k = n % k := by
    rw [Nat.add_right_comm, Nat.add_mul_mod_self_right, hn]
  refine ⟨i + rounds * k, by omega, by omega, hplace, ?_⟩
  rw [← h.recent (i + rounds * k) (by omega) (by omega), index_eq_iff.mpr hplace]

end Ring
