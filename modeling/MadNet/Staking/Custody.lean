import MadNet.Staking.Effects
import MadNet.Staking.ValidatorPool

/-!
# The pool has custody of the positions it names

Every validator names a position of ValidatorStaking and every validator that leaves a position of
PublicStaking; these are the positions that the pool owns, each named once.
-/

namespace MadNet.Staking

open Function (update_of_ne update_self update)
open Monitor (Address)

/-! ## Custody -/

/-- The entries of the pool and the owners of the positions in ValidatorStaking (`vs`) and
PublicStaking (`ps`) fit together. -/
structure Custody (pool : Address) (m : ValidatorDataMap) (exiting : Address → ExitingValidatorData)
    (vs ps : Nat → Option Address) : Prop where
  wellFormed : m.WellFormed ValidatorData.address
  apart : ∀ v, m.contains v → (exiting v).freeAfter = 0
  validator_owned : ∀ d ∈ m.values, vs d.tokenID = some pool
  validator_inj : ∀ d ∈ m.values, ∀ d' ∈ m.values, d.tokenID = d'.tokenID → d = d'
  validator_named : ∀ id, vs id = some pool → ∃ d ∈ m.values, d.tokenID = id
  exiting_owned : ∀ v, 0 < (exiting v).freeAfter → ps (exiting v).tokenID = some pool
  exiting_inj : ∀ u v, 0 < (exiting u).freeAfter → 0 < (exiting v).freeAfter →
    (exiting u).tokenID = (exiting v).tokenID → u = v
  exiting_named : ∀ id, ps id = some pool → ∃ v, 0 < (exiting v).freeAfter ∧
    (exiting v).tokenID = id

namespace Custody

variable {pool v : Address} {m : ValidatorDataMap} {exiting : Address → ExitingValidatorData}
  {vs vs' ps ps' : Nat → Option Address} {d : ValidatorData} {e : ExitingValidatorData} {id : Nat}

/-- A validator is removed and its position burned. -/
theorem leave (H : Custody pool m exiting vs ps) (hd : d ∈ m.values) :
    Custody pool (m.remove ValidatorData.address d.address) exiting
      (update vs d.tokenID none) ps := by
  have hmem {d' : ValidatorData} (hd' : d' ∈ (m.remove ValidatorData.address d.address).values) :
      d' ∈ m.values ∧ d'.address ≠ d.address := H.wellFormed.mem_remove.mp hd'
  refine ⟨H.wellFormed.remove _, fun v hv => ?_, fun d' hd' => ?_, fun d1 h1 d2 h2 => ?_,
    fun id hid => ?_, H.exiting_owned, H.exiting_inj, H.exiting_named⟩
  · obtain ⟨d', hd', rfl⟩ := (H.wellFormed.remove _).contains_iff.mp hv
    exact H.apart _ (H.wellFormed.contains_iff.mpr ⟨d', (hmem hd').1, rfl⟩)
  · obtain ⟨hd', hne⟩ := hmem hd'
    have htoken : d'.tokenID ≠ d.tokenID := fun h => hne (by rw [H.validator_inj d' hd' d hd h])
    rw [update_of_ne htoken]
    exact H.validator_owned d' hd'
  · exact H.validator_inj d1 (hmem h1).1 d2 (hmem h2).1
  · have hne : id ≠ d.tokenID := by
      rintro rfl
      rw [update_self] at hid
      cases hid
    rw [update_of_ne hne] at hid
    obtain ⟨d', hd', rfl⟩ := H.validator_named id hid
    refine ⟨d', H.wellFormed.mem_remove.mpr ⟨hd', fun haddr => hne ?_⟩, rfl⟩
    have h1 := H.wellFormed.tryGet_eq_some.mpr ⟨hd', haddr⟩
    have h2 := H.wellFormed.tryGet_eq_some.mpr ⟨hd, rfl⟩
    rw [Option.some.inj (h1.symm.trans h2)]

/-- A validator is added with a new position. -/
theorem join (H : Custody pool m exiting vs ps) (hv : m.contains v = false)
    (hx : (exiting v).freeAfter = 0) (hid : vs id = none) :
    Custody pool (m.add ValidatorData.address ⟨v, id⟩) exiting (update vs id (some pool)) ps := by
  have hmem {d' : ValidatorData} :
      d' ∈ (m.add ValidatorData.address ⟨v, id⟩).values ↔ d' ∈ m.values ∨ d' = ⟨v, id⟩ :=
    EnumerableMap.mem_add hv
  have hne {d' : ValidatorData} (hd' : d' ∈ m.values) : d'.tokenID ≠ id := by
    intro h
    have howned := H.validator_owned d' hd'
    rw [h, hid] at howned
    cases howned
  refine ⟨H.wellFormed.add hv, fun u hu => ?_, fun d' hd' => ?_, fun d1 h1 d2 h2 heq => ?_,
    fun j hj => ?_, H.exiting_owned, H.exiting_inj, H.exiting_named⟩
  · obtain ⟨d', hd', rfl⟩ := (H.wellFormed.add hv).contains_iff.mp hu
    rcases hmem.mp hd' with hd' | rfl
    · exact H.apart _ (H.wellFormed.contains_iff.mpr ⟨d', hd', rfl⟩)
    · exact hx
  · rcases hmem.mp hd' with hd' | rfl
    · rw [update_of_ne (hne hd')]
      exact H.validator_owned d' hd'
    · exact update_self _ _ _
  · rcases hmem.mp h1 with h1 | rfl <;> rcases hmem.mp h2 with h2 | rfl
    · exact H.validator_inj d1 h1 d2 h2 heq
    · exact absurd heq (hne h1)
    · exact absurd heq.symm (hne h2)
    · rfl
  · by_cases hj' : j = id
    · exact ⟨_, hmem.mpr (.inr rfl), hj'.symm⟩
    · rw [update_of_ne hj'] at hj
      obtain ⟨d', hd', rfl⟩ := H.validator_named j hj
      exact ⟨d', hmem.mpr (.inl hd'), rfl⟩

/-- The entry of a validator that leaves is removed, and the position is no longer the pool's. -/
theorem dequeue (H : Custody pool m exiting vs ps) (hx : 0 < (exiting v).freeAfter)
    (owner : Option Address) (howner : owner ≠ some pool) :
    Custody pool m (update exiting v .zero) vs
      (update ps (exiting v).tokenID owner) := by
  have hold {u : Address} (hu : 0 < (update exiting v .zero u).freeAfter) : u ≠ v := by
    rintro rfl
    rw [update_self] at hu
    cases hu
  refine ⟨H.wellFormed, fun u hu => ?_, H.validator_owned, H.validator_inj, H.validator_named,
    fun u hu => ?_, fun u1 u2 h1 h2 => ?_, fun id hid => ?_⟩
  · by_cases huv : u = v
    · rw [huv, update_self]
      rfl
    · rw [update_of_ne huv]
      exact H.apart u hu
  · have huv := hold hu
    rw [update_of_ne huv] at hu ⊢
    rw [update_of_ne fun h => huv (H.exiting_inj u v hu hx h)]
    exact H.exiting_owned u hu
  · have hv1 := hold h1
    have hv2 := hold h2
    rw [update_of_ne hv1] at h1 ⊢
    rw [update_of_ne hv2] at h2 ⊢
    exact H.exiting_inj u1 u2 h1 h2
  · have hne : id ≠ (exiting v).tokenID := by
      rintro rfl
      rw [update_self] at hid
      exact howner hid
    rw [update_of_ne hne] at hid
    obtain ⟨u, hu, rfl⟩ := H.exiting_named id hid
    have huv : u ≠ v := fun h => hne (by rw [h])
    refine ⟨u, ?_, ?_⟩
    · rwa [update_of_ne huv]
    · rw [update_of_ne huv]

/-- A validator that leaves gets an entry with a new position. -/
theorem enqueue (H : Custody pool m exiting vs ps) (hv : m.contains v = false)
    (hx : (exiting v).freeAfter = 0) (hid : ps e.tokenID = none) (he : 0 < e.freeAfter) :
    Custody pool m (update exiting v e) vs (update ps e.tokenID (some pool)) := by
  have hne {u : Address} (hu : 0 < (exiting u).freeAfter) : (exiting u).tokenID ≠ e.tokenID := by
    intro h
    have howned := H.exiting_owned u hu
    rw [h, hid] at howned
    cases howned
  have huv {u : Address} (hu : 0 < (exiting u).freeAfter) : u ≠ v := by
    rintro rfl
    omega
  refine ⟨H.wellFormed, fun u hu => ?_, H.validator_owned, H.validator_inj, H.validator_named,
    fun u hu => ?_, fun u1 u2 h1 h2 heq => ?_, fun id hid' => ?_⟩
  · have : u ≠ v := by
      rintro rfl
      rw [hv] at hu
      cases hu
    rw [update_of_ne this]
    exact H.apart u hu
  · by_cases h : u = v
    · rw [h, update_self, update_self]
    · rw [update_of_ne h] at hu ⊢
      rw [update_of_ne (hne hu)]
      exact H.exiting_owned u hu
  · by_cases hv1 : u1 = v <;> by_cases hv2 : u2 = v
    · rw [hv1, hv2]
    · subst hv1
      rw [update_self, update_of_ne hv2] at heq
      rw [update_of_ne hv2] at h2
      exact absurd heq.symm (hne h2)
    · subst hv2
      rw [update_self, update_of_ne hv1] at heq
      rw [update_of_ne hv1] at h1
      exact absurd heq (hne h1)
    · rw [update_of_ne hv1] at h1 heq
      rw [update_of_ne hv2] at h2 heq
      exact H.exiting_inj u1 u2 h1 h2 heq
  · by_cases h : id = e.tokenID
    · refine ⟨v, ?_, ?_⟩ <;> rw [update_self]
      · exact he
      · exact h.symm
    · rw [update_of_ne h] at hid'
      obtain ⟨u, hu, rfl⟩ := H.exiting_named id hid'
      refine ⟨u, ?_, ?_⟩ <;> rw [update_of_ne (huv hu)]
      exact hu

/-- Others change the owners of their own positions. -/
theorem foreign (H : Custody pool m exiting vs ps)
    (hvs : ∀ id, vs' id = some pool ↔ vs id = some pool)
    (hps : ∀ id, ps' id = some pool ↔ ps id = some pool) : Custody pool m exiting vs' ps' :=
  { H with
    validator_owned := fun d hd => (hvs _).mpr (H.validator_owned d hd)
    validator_named := fun id hid => H.validator_named id ((hvs id).mp hid)
    exiting_owned := fun v hv => (hps _).mpr (H.exiting_owned v hv)
    exiting_named := fun id hid => H.exiting_named id ((hps id).mp hid) }

end Custody

end MadNet.Staking
