import Mathlib

/-!
# Maps that can be enumerated

The values are kept in a list, and for every key its place in the list plus one; zero stands for a
key that is not there. A value is removed by moving the last one into its place.
-/

structure EnumerableMap (κ ν : Type) where
  values : List ν
  indexes : κ → Nat

namespace EnumerableMap

open List

variable {κ ν : Type} (key : ν → κ) (m : EnumerableMap κ ν) (k : κ) (v : ν)

def empty : EnumerableMap κ ν := ⟨[], fun _ => 0⟩

def contains : Bool := m.indexes k != 0

/-- The value of a key. -/
def tryGet : Option ν :=
  match m.indexes k with
  | 0 => none
  | i + 1 => m.values[i]?

/-- The values and the places are mutually inverse. -/
def WellFormed : Prop := ∀ k i, m.indexes k = i + 1 ↔ ∃ v, m.values[i]? = some v ∧ key v = k

section

variable [DecidableEq κ]

def add : EnumerableMap κ ν :=
  if m.contains (key v) then m
  else ⟨m.values ++ [v], Function.update m.indexes (key v) (m.values.length + 1)⟩

/-- The last value takes the place of the one that is removed. -/
def remove : EnumerableMap κ ν :=
  match m.indexes k, m.values.getLast? with
  | i + 1, some last =>
    if m.values.length - 1 ≠ i then
      { values := (m.values.set i last).dropLast
        indexes := Function.update (Function.update m.indexes (key last) (i + 1)) k 0 }
    else { values := m.values.dropLast, indexes := Function.update m.indexes k 0 }
  | _, _ => m

end

variable {key m k v} {i j : Nat} {w : ν}

theorem wellFormed_empty : (empty : EnumerableMap κ ν).WellFormed key := by
  intro k i
  simp [empty]

theorem contains_iff_exists : m.contains k ↔ ∃ i, m.indexes k = i + 1 := by
  unfold contains
  cases m.indexes k <;> simp

namespace WellFormed

theorem lt_length (h : m.WellFormed key) (hk : m.indexes k = i + 1) : i < m.values.length := by
  obtain ⟨v, hv, -⟩ := (h k i).mp hk
  exact (List.getElem?_eq_some_iff.mp hv).1

/-- A key is at one place only. -/
theorem eq_of_key_eq (h : m.WellFormed key) (hi : m.values[i]? = some v)
    (hj : m.values[j]? = some w)
    (hkey : key v = key w) : i = j := by
  have h₁ := (h (key v) i).mpr ⟨v, hi, rfl⟩
  have h₂ := (h (key v) j).mpr ⟨w, hj, hkey.symm⟩
  omega

theorem tryGet_eq_some (h : m.WellFormed key) : m.tryGet k = some v ↔ v ∈ m.values ∧ key v = k := by
  unfold tryGet
  rw [mem_iff_getElem?]
  constructor
  · intro hv
    split at hv
    · cases hv
    next i hi =>
      obtain ⟨w, hw, hkey⟩ := (h k i).mp hi
      rw [hw] at hv
      cases hv
      exact ⟨⟨i, hw⟩, hkey⟩
  · rintro ⟨⟨i, hi⟩, hkey⟩
    rw [(h k i).mpr ⟨v, hi, hkey⟩]
    exact hi

theorem contains_iff (h : m.WellFormed key) : m.contains k ↔ ∃ v ∈ m.values, key v = k := by
  rw [contains_iff_exists]
  constructor
  · rintro ⟨i, hi⟩
    obtain ⟨v, hv, hkey⟩ := (h k i).mp hi
    exact ⟨v, mem_of_getElem? hv, hkey⟩
  · rintro ⟨v, hv, hkey⟩
    obtain ⟨i, hi⟩ := mem_iff_getElem?.mp hv
    exact ⟨i, (h k i).mpr ⟨v, hi, hkey⟩⟩

end WellFormed

variable [DecidableEq κ]

/-! ## Adding -/

theorem mem_add (hv : m.contains (key v) = false) : w ∈ (m.add key v).values ↔
    w ∈ m.values ∨ w = v := by
  simp [add, hv]

theorem WellFormed.add (h : m.WellFormed key) (hv : m.contains (key v) = false) :
    (m.add key v).WellFormed key := by
  intro k i
  rw [EnumerableMap.add, hv]
  simp only [Bool.false_eq_true, if_false]
  have hold := h k i
  have hnone (w : ν) (hw : w ∈ m.values) : key w ≠ key v := by
    intro hkey
    rw [h.contains_iff.mpr ⟨w, hw, hkey⟩] at hv
    cases hv
  by_cases hk : k = key v
  · subst hk
    rw [Function.update_self]
    constructor
    · intro hi
      obtain rfl : m.values.length = i := by omega
      exact ⟨v, by simp, rfl⟩
    · rintro ⟨w, hw, hkey⟩
      rcases Nat.lt_trichotomy i m.values.length with hlt | rfl | hgt
      · rw [getElem?_append_left hlt] at hw
        exact absurd hkey (hnone w (mem_of_getElem? hw))
      · rfl
      · rw [getElem?_eq_none (by simp; omega)] at hw
        cases hw
  · rw [Function.update_of_ne hk, hold]
    refine exists_congr fun w => ?_
    rcases Nat.lt_trichotomy i m.values.length with hlt | rfl | hgt
    · rw [getElem?_append_left hlt]
    · simp only [getElem?_eq_none (Nat.le_refl _), getElem?_concat_length, reduceCtorEq,
        false_and, Option.some.injEq, false_iff, not_and]
      rintro rfl hkey
      exact hk hkey.symm
    · rw [getElem?_eq_none (by omega), getElem?_eq_none (by simp; omega)]

/-! ## Removing -/

/-- The places after a value was removed. -/
theorem WellFormed.remove_eq (h : m.WellFormed key) (hk : m.indexes k = i + 1) :
    ∃ last, m.values[m.values.length - 1]? = some last ∧
      (∀ j, (m.remove key k).values[j]? = if j + 1 < m.values.length then
        if j = i then some last else m.values[j]? else none) ∧
      ∀ k', (m.remove key k).indexes k' =
        if k' = k then 0 else if k' = key last then i + 1 else m.indexes k' := by
  have hlt := h.lt_length hk
  obtain ⟨last, hlast⟩ : ∃ last, m.values.getLast? = some last := by
    cases hnil : m.values.getLast? with
    | some last => exact ⟨last, rfl⟩
    | none =>
      rw [getLast?_eq_none_iff.mp hnil] at hlt
      cases hlt
  have hat : m.values[m.values.length - 1]? = some last := by rwa [← getLast?_eq_getElem?]
  refine ⟨last, hat, ?_⟩
  unfold remove
  rw [hk, hlast]
  dsimp only
  split
  next hne =>
    refine ⟨fun j => ?_, fun k' => ?_⟩
    · rw [getElem?_dropLast, length_set, getElem?_set]
      split <;> split <;> grind
    · simp only [Function.update_apply]
  next heq =>
    -- the last value is the one that is removed
    have hi : m.values.length - 1 = i := by omega
    obtain ⟨v, hv, hkey⟩ := (h k i).mp hk
    rw [hi, hv] at hat
    cases hat
    refine ⟨fun j => ?_, fun k' => ?_⟩
    · rw [getElem?_dropLast]
      split <;> grind
    · simp only [Function.update_apply]
      split
      · rfl
      next hk' => rw [hkey, if_neg hk']

theorem remove_of_not_contains (hk : m.indexes k = 0) : m.remove key k = m := by
  unfold remove
  rw [hk]

theorem WellFormed.mem_remove (h : m.WellFormed key) :
    w ∈ (m.remove key k).values ↔ w ∈ m.values ∧ key w ≠ k := by
  cases hk : m.indexes k with
  | zero =>
    rw [remove_of_not_contains hk]
    refine ⟨fun hw => ⟨hw, fun hkey => ?_⟩, fun hw => hw.1⟩
    have := contains_iff_exists.mp (h.contains_iff.mpr ⟨w, hw, hkey⟩)
    simp [hk] at this
  | succ i =>
    obtain ⟨last, hlast, hvalues, -⟩ := h.remove_eq hk
    obtain ⟨v, hv, hkey⟩ := (h k i).mp hk
    simp only [mem_iff_getElem?, hvalues]
    constructor
    · rintro ⟨j, hj⟩
      split at hj
      next hlt =>
        split at hj
        next hji =>
          cases hj
          refine ⟨⟨_, hlast⟩, fun hlk => ?_⟩
          have := h.eq_of_key_eq hlast hv (hlk.trans hkey.symm)
          omega
        next hji =>
          exact ⟨⟨j, hj⟩, fun hwk => hji (h.eq_of_key_eq hj hv (hwk.trans hkey.symm))⟩
      next => cases hj
    · rintro ⟨⟨j, hj⟩, hwk⟩
      have hjn := (List.getElem?_eq_some_iff.mp hj).1
      have hji : j ≠ i := by
        rintro rfl
        rw [hv] at hj
        exact hwk (Option.some.inj hj ▸ hkey)
      by_cases hend : j = m.values.length - 1
      · -- the last value is found where the removed one was
        have hlt := h.lt_length hk
        rw [hend, hlast] at hj
        cases hj
        exact ⟨i, by rw [if_pos (by omega), if_pos rfl]⟩
      · exact ⟨j, by rw [if_pos (by omega), if_neg hji, hj]⟩

theorem WellFormed.remove (h : m.WellFormed key) (k : κ) : (m.remove key k).WellFormed key := by
  cases hk : m.indexes k with
  | zero => rwa [remove_of_not_contains hk]
  | succ i =>
    obtain ⟨last, hlast, hvalues, hindexes⟩ := h.remove_eq hk
    obtain ⟨v, hv, hkey⟩ := (h k i).mp hk
    have hlt := h.lt_length hk
    intro k' j
    rw [hindexes]
    by_cases hk' : k' = k
    · rw [if_pos hk']
      refine ⟨nofun, ?_⟩
      rintro ⟨w, hw, hwk⟩
      exact absurd (hwk.trans hk') (h.mem_remove.mp (mem_of_getElem? hw)).2
    rw [if_neg hk', hvalues]
    by_cases hl : k' = key last
    · rw [if_pos hl]
      constructor
      · intro hij
        obtain rfl : i = j := by omega
        have hend : i ≠ m.values.length - 1 := by
          rintro rfl
          rw [hlast] at hv
          exact hk' (hl.trans (Option.some.inj hv ▸ hkey))
        exact ⟨last, by rw [if_pos (by omega), if_pos rfl], hl.symm⟩
      · rintro ⟨w, hw, hwk⟩
        split at hw
        next hjn =>
          split at hw
          next hji => omega
          next hji =>
            have := h.eq_of_key_eq hw hlast (hwk.trans hl)
            omega
        next => cases hw
    · rw [if_neg hl, h k' j]
      refine exists_congr fun w => and_congr_left fun hwk => ?_
      constructor
      · intro hw
        have hjn := (List.getElem?_eq_some_iff.mp hw).1
        have hji : j ≠ i := by
          rintro rfl
          rw [hv] at hw
          exact hk' (hwk.symm.trans (Option.some.inj hw ▸ hkey))
        have hend : j ≠ m.values.length - 1 := by
          rintro rfl
          rw [hlast] at hw
          exact hl (hwk.symm.trans (congrArg key (Option.some.inj hw).symm))
        rw [if_pos (by omega), if_neg hji, hw]
      · intro hw
        split at hw
        next =>
          split at hw
          next => exact absurd (hwk.symm.trans (congrArg key (Option.some.inj hw).symm)) hl
          next => exact hw
        next => cases hw

end EnumerableMap
