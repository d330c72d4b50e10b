import MadNet.Application.PendingPool

/-!
# What the operations of the pool's indexes do

Each index has a meaning: the links are a relation between transactions and UTXOs, the order and the
expiry list are sets of transactions. An operation on the index is an operation on its meaning.
-/

namespace MadNet.App

open List EpochConstrainedList RefLinker

variable {ι τ : Type} [DecidableEq ι]

theorem nodup_setKey {α : Type} [DecidableEq α] {k : α} {keys : List α} (h : keys.Nodup) :
    (setKey k keys).Nodup := by
  unfold setKey
  split
  next => exact h
  next hk => exact nodup_cons.mpr ⟨hk, h⟩

/-! ## Counters -/

/-- The counter of a UTXO with `n` consumers. -/
def toCounter (n : Nat) : Option Nat := if n = 0 then none else some n

@[simp] theorem toCounter_getD (n : Nat) : (toCounter n).getD 0 = n := by
  unfold toCounter
  split <;> simp_all

namespace RefCounter

theorem increment_eq {c : ι → Option Nat} {u : ι} {n : Nat} (h : c u = toCounter n) :
    increment c u = (Function.update c u (toCounter (n + 1)), n + 1) := by
  unfold toCounter at h
  split at h
  next hn => simp [increment, h, hn, toCounter]
  next hn => simp [increment, h, toCounter]

theorem decrement_eq {c : ι → Option Nat} {u : ι} {n : Nat} (h : c u = toCounter (n + 1)) :
    decrement c u = Function.update c u (toCounter n) := by
  rw [toCounter, if_neg (Nat.succ_ne_zero n)] at h
  rw [decrement, h]
  rcases Nat.eq_zero_or_pos n with hn | hn
  · simp [hn, toCounter]
  · simp [hn, toCounter, Nat.pos_iff_ne_zero.mp hn]

end RefCounter

/-! ## Links -/

namespace RefLinker

/-- The number of links of a UTXO. -/
def count (rl : RefLinker ι) (u : ι) : Nat := rl.refs.countP (·.2 = u)

/-- The links are `R`, in both directions. The counter of a UTXO is the number of its links, and
`extra` more that are still to be written. -/
structure Counted (extra : ι → Nat) (R : ι → ι → Prop) (rl : RefLinker ι) : Prop where
  nodup : rl.refs.Nodup
  nodup_rev : rl.revRefs.Nodup
  refs : ∀ h u, (h, u) ∈ rl.refs ↔ R h u
  revRefs : ∀ h u, (u, h) ∈ rl.revRefs ↔ R h u
  counter : ∀ u, rl.refCounter u = toCounter (rl.count u + extra u)

variable {extra : ι → Nat} {R R' : ι → ι → Prop} {rl rl' : RefLinker ι}

theorem Counted.congr (h : Counted extra R rl) (hR : ∀ h u, R h u ↔ R' h u) :
    Counted extra R' rl where
  nodup := h.nodup
  nodup_rev := h.nodup_rev
  refs x u := (h.refs x u).trans (hR x u)
  revRefs x u := (h.revRefs x u).trans (hR x u)
  counter := h.counter

theorem Counted.empty : Counted (fun _ => 0) (fun _ _ => False) (empty (ι := ι)) where
  nodup := nodup_nil
  nodup_rev := nodup_nil
  refs _ _ := mem_nil_iff _
  revRefs _ _ := mem_nil_iff _
  counter _ := rfl

/-- The consumers of a UTXO. -/
def consumers (rl : RefLinker ι) (u : ι) : List ι := (rl.refs.filter (·.2 = u)).map Prod.fst

theorem count_eq_length (rl : RefLinker ι) (u : ι) : rl.count u = (rl.consumers u).length := by
  rw [count, countP_eq_length_filter, consumers, length_map]

variable {x u : ι}

theorem Counted.mem_consumers (h : Counted extra R rl) : x ∈ rl.consumers u ↔ R x u := by
  rw [← h.refs]
  simp [consumers]

theorem Counted.nodup_consumers (h : Counted extra R rl) (u : ι) : (rl.consumers u).Nodup := by
  refine List.Nodup.map_on ?_ (h.nodup.filter _)
  intro x hx y hy hxy
  have h1 : x.2 = u := by simpa using (mem_filter.mp hx).2
  have h2 : y.2 = u := by simpa using (mem_filter.mp hy).2
  exact Prod.ext hxy (h1.trans h2.symm)

/-- The links of a UTXO are as many as its consumers. -/
theorem Counted.count_eq {A : List ι} (h : Counted extra R rl) (u : ι) (hA : A.Nodup)
    (hmem : ∀ x, x ∈ A ↔ R x u) : rl.count u = A.length := by
  have hperm : (rl.consumers u).Perm A := by
    rw [perm_ext_iff_of_nodup (h.nodup_consumers u) hA]
    intro x
    rw [hmem, h.mem_consumers]
  rw [count_eq_length, hperm.length_eq]

/-- A link less is one consumer less. -/
theorem count_deleteKeys (hnodup : rl.refs.Nodup) (hx : (x, u) ∈ rl.refs) (v : ι) :
    rl.count v = (rl.deleteKeys x u).count v + if v = u then 1 else 0 := by
  have hperm : rl.refs.Perm ((x, u) :: rl.refs.filter (· ≠ (x, u))) := by
    have herase : rl.refs.erase (x, u) = rl.refs.filter (· ≠ (x, u)) := by
      rw [hnodup.erase_eq_filter]
      exact filter_congr fun _ _ => by
        rw [Bool.eq_iff_iff]
        simp
    rw [← herase]
    exact perm_cons_erase hx
  have heq := hperm.countP_eq (fun p => p.2 = v)
  simp only [count, deleteKeys, heq, countP_cons, decide_eq_true_eq]
  simp [eq_comm]

theorem Counted.deleteLink (h : Counted extra R rl) (hx : R x u) :
    Counted extra (fun y v => R y v ∧ (y, v) ≠ (x, u)) (rl.deleteLink (x, u)) where
  nodup := h.nodup.filter _
  nodup_rev := h.nodup_rev.filter _
  refs y v := by
    simp only [RefLinker.deleteLink, deleteKeys, mem_filter, h.refs, decide_eq_true_eq]
  revRefs y v := by
    simp only [RefLinker.deleteLink, deleteKeys, mem_filter, h.revRefs, decide_eq_true_eq]
    rw [ne_eq, Prod.mk.injEq, and_comm (a := v = u), ← Prod.mk.injEq]
  counter v := by
    have hcount := count_deleteKeys h.nodup ((h.refs x u).mpr hx)
    have hu : rl.refCounter u = toCounter ((rl.deleteKeys x u).count u + extra u + 1) := by
      rw [h.counter, hcount u, if_pos rfl]
      congr 1
      omega
    show RefCounter.decrement rl.refCounter u v = toCounter ((rl.deleteKeys x u).count v + extra v)
    rw [RefCounter.decrement_eq hu]
    by_cases hv : v = u
    · subst hv
      simp
    · rw [Function.update_of_ne hv, h.counter, hcount v, if_neg hv, Nat.add_zero]

theorem Counted.foldl_deleteLink {L : List (ι × ι)} (h : Counted extra R rl) (hnodup : L.Nodup)
    (hL : ∀ p ∈ L, R p.1 p.2) :
    Counted extra (fun y v => R y v ∧ (y, v) ∉ L) (L.foldl RefLinker.deleteLink rl) := by
  induction L generalizing rl R with
  | nil => exact h.congr fun _ _ => by simp
  | cons p L ih =>
    rw [nodup_cons] at hnodup
    refine (ih (h.deleteLink (hL p (by simp))) hnodup.2 ?_).congr ?_
    · intro q hq
      refine ⟨hL q (by simp [hq]), fun heq => hnodup.1 ?_⟩
      have hqp : q = p := heq
      exact hqp ▸ hq
    · intro y v
      rw [mem_cons, not_or, and_assoc]

theorem Counted.delete (h : Counted extra R rl) (x : ι) :
    Counted extra (fun y v => R y v ∧ y ≠ x) (rl.delete x) := by
  have hL : ∀ p, p ∈ rl.refs.filter (·.1 = x) ↔ R p.1 p.2 ∧ p.1 = x := by
    intro p
    simp [← h.refs]
  refine (h.foldl_deleteLink (h.nodup.filter _) fun p hp => ((hL p).mp hp).1).congr ?_
  intro y v
  rw [hL]
  tauto

variable {L us : List ι}

theorem Counted.foldl_delete (h : Counted extra R rl) :
    Counted extra (fun y v => R y v ∧ y ∉ L) (L.foldl RefLinker.delete rl) := by
  induction L generalizing rl R with
  | nil => exact h.congr fun _ _ => by simp
  | cons x L ih =>
    refine (ih (h.delete x)).congr fun y v => ?_
    rw [mem_cons, not_or, and_assoc]

theorem Counted.setKeys (h : Counted (fun v => if v = u then 1 else 0) R rl) (hx : ¬R x u) :
    Counted (fun _ => 0) (fun y v => R y v ∨ (y, v) = (x, u)) (rl.setKeys x u) where
  nodup := nodup_setKey h.nodup
  nodup_rev := nodup_setKey h.nodup_rev
  refs y v := by simp [RefLinker.setKeys, h.refs, or_comm]
  revRefs y v := by simp [RefLinker.setKeys, h.revRefs, or_comm, and_comm]
  counter v := by
    have hmem : (x, u) ∉ rl.refs := mt (h.refs x u).mp hx
    show rl.refCounter v = toCounter ((setKey (x, u) rl.refs).countP (·.2 = v) + 0)
    rw [h.counter, setKey, if_neg hmem, countP_cons]
    congr 1
    simp [count, eq_comm]

/-- No more consumers than the threshold. -/
def Bounded (rl : RefLinker ι) : Prop := ∀ u, rl.count u ≤ threshold

/-- What adding a transaction does to the links `R`: it consumes `us`, and `ev` is evicted. -/
structure Added (R : ι → ι → Prop) (txHash : ι) (us ev : List ι) (rl : RefLinker ι) : Prop where
  bounded : rl.Bounded
  counted : Counted (fun _ => 0) (fun y v => (R y v ∧ y ∉ ev) ∨ (y = txHash ∧ v ∈ us)) rl
  kept : txHash ∉ ev

theorem evictOne_spec (le : ι → ι → Bool) (h : Counted extra R rl) (hu : 0 < rl.count u) :
    ∃ y, R y u ∧ rl.evictOne le u = .ok (rl.delete y, y) := by
  obtain ⟨x, hx⟩ : ∃ x, x ∈ rl.consumers u := exists_mem_of_length_pos (count_eq_length rl u ▸ hu)
  have hrev : x ∈ ((rl.revRefs.filter (·.1 = u)).map Prod.snd).mergeSort le := by
    rw [(mergeSort_perm _ le).mem_iff]
    simpa [h.revRefs] using h.mem_consumers.mp hx
  have hne := ne_nil_of_mem hrev
  refine ⟨(((rl.revRefs.filter (·.1 = u)).map Prod.snd).mergeSort le).head hne, ?_, ?_⟩
  · have hmem := (mergeSort_perm _ le).mem_iff.mp (head_mem hne)
    simpa [h.revRefs] using hmem
  · rw [evictOne, head?_eq_some_head hne]

theorem count_setKeys (hx : (x, u) ∉ rl.refs) (v : ι) :
    (rl.setKeys x u).count v = rl.count v + if v = u then 1 else 0 := by
  simp [count, setKeys, setKey, if_neg hx, countP_cons, eq_comm]

/-- Deleting a transaction leaves the other consumers. -/
theorem Counted.count_delete (h : Counted extra R rl) (y v : ι) :
    (rl.delete y).count v = ((rl.consumers v).filter (· ≠ y)).length := by
  refine (h.delete y).count_eq v ((h.nodup_consumers v).filter _) fun z => ?_
  simp [h.mem_consumers]

theorem Counted.count_delete_le (h : Counted extra R rl) (y v : ι) :
    (rl.delete y).count v ≤ rl.count v := by
  rw [h.count_delete, count_eq_length]
  exact length_filter_le _ _

theorem Counted.count_delete_lt (h : Counted extra R rl) {y v : ι} (hy : R y v) :
    (rl.delete y).count v < rl.count v := by
  rw [h.count_delete, count_eq_length, length_filter_lt_length_iff_exists]
  exact ⟨y, h.mem_consumers.mpr hy, by simp⟩

theorem Counted.bounded_foldl_delete (h : Counted extra R rl) (hb : rl.Bounded) :
    (L.foldl RefLinker.delete rl).Bounded := by
  induction L generalizing rl R with
  | nil => exact hb
  | cons x L ih => exact ih (h.delete x) fun v => (h.count_delete_le x v).trans (hb v)

theorem Counted.increment (h : Counted (fun _ => 0) R rl) :
    (RefCounter.increment rl.refCounter u).2 = rl.count u + 1 ∧ Counted
      (fun v => if v = u then 1 else 0) R
        { rl with refCounter := (RefCounter.increment rl.refCounter u).1 } := by
  have heq := RefCounter.increment_eq (h.counter u)
  rw [heq]
  refine ⟨rfl, h.nodup, h.nodup_rev, h.refs, h.revRefs, fun v => ?_⟩
  show Function.update rl.refCounter u (toCounter (rl.count u + 0 + 1)) v = _
  by_cases hv : v = u
  · subst hv
    simp [count]
  · simp [hv, h.counter, count]

theorem addLink_spec (le : ι → ι → Bool) (h : Counted (fun _ => 0) R rl) (hb : rl.Bounded)
    (hx : ¬R x u) :
    ∃ rl' ev, rl.addLink le x u = .ok (rl', ev) ∧ Added R x [u] ev rl' ∧
      (rl.count u < threshold → ev = []) := by
  obtain ⟨hcount, hinc⟩ := h.increment (u := u)
  by_cases hlt : threshold < rl.count u + 1
  · -- the UTXO has a link, and the first one goes
    obtain ⟨y, hy, hevict⟩ := evictOne_spec le hinc (by
      show 0 < rl.count u
      unfold threshold at hlt
      omega)
    refine ⟨_, [y], by simp only [addLink, hcount, if_pos hlt, hevict]; rfl, ?_, by omega⟩
    have hdel := hinc.delete y
    have hnew : ¬(R x u ∧ x ≠ y) := fun hR => hx hR.1
    refine ⟨fun v => ?_, (hdel.setKeys hnew).congr fun z v => ?_, ?_⟩
    · rw [count_setKeys (mt (hdel.refs x u).mp hnew)]
      have hle := hinc.count_delete_le y v
      have hv := hb v
      split
      next heq =>
        have hless := hinc.count_delete_lt (v := v) (heq ▸ hy)
        exact Nat.le_trans hless hv
      next => exact Nat.le_trans hle hv
    · simp
    · rintro hmem
      rw [mem_singleton] at hmem
      exact hx (hmem ▸ hy)
  · refine ⟨_, [], by simp only [addLink, hcount, if_neg hlt]; rfl, ?_, fun _ => rfl⟩
    refine ⟨fun v => ?_, (hinc.setKeys hx).congr fun z v => by simp, by simp⟩
    rw [count_setKeys (mt (hinc.refs x u).mp hx)]
    split
    next heq =>
      subst heq
      exact Nat.not_lt.mp hlt
    next => exact hb v

theorem add_spec (le : ι → ι → Bool) (hnodup : us.Nodup)
    (h : Counted (fun _ => 0) R rl) (hb : rl.Bounded) (hx : ∀ u ∈ us, ¬R x u) :
    ∃ rl' ev, add le x rl us = .ok (rl', ev) ∧ Added R x us ev rl' ∧
      ((∀ u ∈ us, rl.count u < threshold) → ev = []) := by
  induction us generalizing rl R with
  | nil => exact ⟨rl, [], rfl, ⟨hb, h.congr fun _ _ => by simp, by simp⟩, fun _ => rfl⟩
  | cons u us ih =>
    rw [nodup_cons] at hnodup
    obtain ⟨rl1, ev1, hadd1, h₁, hroom1⟩ := addLink_spec le h hb (hx u (by simp))
    have hx1 : ∀ v ∈ us, ¬((R x v ∧ x ∉ ev1) ∨ (x = x ∧ v ∈ [u])) := by
      rintro v hv (hR | ⟨-, hvu⟩)
      · exact hx v (by simp [hv]) hR.1
      · exact hnodup.1 (mem_singleton.mp hvu ▸ hv)
    obtain ⟨rl2, ev2, hadd2, h₂, hroom2⟩ := ih hnodup.2 h₁.counted h₁.bounded hx1
    refine ⟨rl2, ev1 ++ ev2, by simp only [add, hadd1, hadd2, bind, Except.bind]; rfl, ?_, ?_⟩
    · refine ⟨h₂.bounded, h₂.counted.congr fun y v => ?_, ?_⟩
      · have hkept := h₂.kept
        simp only [mem_append, mem_cons, not_mem_nil, or_false]
        by_cases hy : y = x
        · subst hy
          tauto
        · tauto
      · simp [h₁.kept, h₂.kept]
    · intro hroom
      have hnone := hroom1 (hroom u (by simp))
      -- the other counters have not changed
      have hcount : ∀ v ∈ us, rl1.count v = rl.count v := by
        intro v hv
        rw [count_eq_length rl, h₁.counted.count_eq v (h.nodup_consumers v)]
        intro y
        have hvu : v ≠ u := fun heq => hnodup.1 (heq ▸ hv)
        simp [h.mem_consumers, hnone, hvu]
      rw [hnone, hroom2 fun v hv => hcount v hv ▸ hroom v (by simp [hv])]
      rfl

/-! ### Mined transactions -/

/-- The keys of a UTXO with a single consumer. -/
theorem Counted.revRefs_eq (h : Counted extra R rl) (hx : R x u)
    (hex : ∀ y, R y u → y = x) : (rl.revRefs.filter (·.1 = u)).map Prod.snd = [x] := by
  have hperm : (rl.revRefs.filter (·.1 = u)).Perm [(u, x)] := by
    rw [perm_ext_iff_of_nodup (h.nodup_rev.filter _) (nodup_singleton _)]
    rintro ⟨v, y⟩
    simp only [mem_filter, h.revRefs, decide_eq_true_eq, mem_singleton, Prod.mk.injEq]
    constructor
    · rintro ⟨hy, rfl⟩
      exact ⟨rfl, hex y hy⟩
    · rintro ⟨rfl, rfl⟩
      exact ⟨hx, rfl⟩
  rw [perm_singleton.mp hperm]
  rfl

theorem Counted.foldl_deleteMined (acc : List ι) (h : Counted extra R rl) (hnodup : us.Nodup)
    (hus : ∀ u ∈ us, R x u) (hex : ∀ u ∈ us, ∀ y, R y u → y = x) (hacc : ∀ y ∈ acc, y = x) :
    let r := us.foldl (fun (rl, txHashes) utxoID =>
      (rl.deleteMinedUTXO utxoID, rl.consumersOf txHashes utxoID)) (rl, acc)
    r.1 = (us.map (x, ·)).foldl RefLinker.deleteLink rl ∧ ∀ y ∈ r.2, y = x := by
  induction us generalizing rl R acc with
  | nil => exact ⟨rfl, hacc⟩
  | cons u us ih =>
    rw [nodup_cons] at hnodup
    have hx := hus u (by simp)
    have hrev := h.revRefs_eq hx (hex u (by simp))
    have hdel : rl.deleteMinedUTXO u = rl.deleteLink (x, u) := by
      rw [deleteMinedUTXO, hrev]
      rfl
    have hcons : ∀ y ∈ rl.consumersOf acc u, y = x := by
      intro y hy
      rw [consumersOf, hrev, foldl_cons, foldl_nil] at hy
      split at hy
      next => exact hacc y hy
      next =>
        rcases mem_append.mp hy with hy | hy
        · exact hacc y hy
        · exact mem_singleton.mp hy
    simp only [foldl_cons, map_cons, hdel]
    refine ih _ (h.deleteLink hx) hnodup.2 ?_ ?_ hcons
    · intro v hv
      refine ⟨hus v (by simp [hv]), fun heq => hnodup.1 ?_⟩
      exact (Prod.mk.inj heq).2 ▸ hv
    · exact fun v hv y hy => hex v (by simp [hv]) y hy.1

/-- Where no input is shared, a mined transaction is deleted like any other. -/
theorem Counted.deleteMined_eq (h : Counted extra R rl) (hex : ∀ u, R x u → ∀ y, R y u → y = x) :
    (rl.deleteMined x).1 = rl.delete x ∧ ∀ y ∈ (rl.deleteMined x).2, y = x := by
  have hmem : ∀ p ∈ rl.refs.filter (·.1 = x), R p.1 p.2 ∧ p.1 = x := by
    intro p hp
    rw [mem_filter, decide_eq_true_eq] at hp
    exact ⟨(h.refs p.1 p.2).mp hp.1, hp.2⟩
  have hus : ∀ u ∈ (rl.refs.filter (·.1 = x)).map Prod.snd, R x u := by
    intro u hu
    obtain ⟨p, hp, rfl⟩ := mem_map.mp hu
    exact (hmem p hp).2 ▸ (hmem p hp).1
  have hnodup : ((rl.refs.filter (·.1 = x)).map Prod.snd).Nodup := by
    refine List.Nodup.map_on ?_ (h.nodup.filter _)
    intro p hp q hq hpq
    exact Prod.ext ((hmem p hp).2.trans (hmem q hq).2.symm) hpq
  obtain ⟨heq, hall⟩ := h.foldl_deleteMined [] hnodup hus
    (fun u hu => hex u (hus u hu)) (by simp)
  refine ⟨heq.trans ?_, hall⟩
  have hmap : ((rl.refs.filter (·.1 = x)).map Prod.snd).map (x, ·) = rl.refs.filter (·.1 = x) := by
    rw [map_map]
    refine (map_congr_left fun p hp => ?_).trans (map_id _)
    exact Prod.ext (hmem p hp).2.symm rfl
  rw [hmap]
  rfl

end RefLinker

/-! ## Insertion order -/

namespace InsertionOrderIndexer

/-- The index holds the transactions of `H`, in both directions. -/
structure Orders (H : ι → Prop) (o : InsertionOrderIndexer ι) : Prop where
  rev : ∀ t x, (t, x) ∈ o.idx ↔ o.rev x = some t
  mem : ∀ x, (∃ t, o.rev x = some t) ↔ H x

variable {H H' : ι → Prop} {o : InsertionOrderIndexer ι}

omit [DecidableEq ι] in
theorem Orders.congr (h : Orders H o) (hH : ∀ x, H x ↔ H' x) : Orders H' o :=
  ⟨h.rev, fun x => (h.mem x).trans (hH x)⟩

omit [DecidableEq ι] in
theorem Orders.empty : Orders (fun _ => False) (InsertionOrderIndexer.empty (ι := ι)) where
  rev t x := by simp [InsertionOrderIndexer.empty]
  mem x := by simp [InsertionOrderIndexer.empty]

theorem Orders.add {x : ι} (now : Nat) (h : Orders H o) (hx : ¬H x) :
    Orders (fun y => H y ∨ y = x) (o.add now x) where
  rev t y := by
    simp only [InsertionOrderIndexer.add, mem_setKey, h.rev, Prod.mk.injEq]
    by_cases hy : y = x
    · subst hy
      have hnone : ∀ t, o.rev y ≠ some t := fun t ht => hx ((h.mem y).mp ⟨t, ht⟩)
      simp [hnone, eq_comm]
    · simp [hy]
  mem y := by
    by_cases hy : y = x
    · subst hy
      simp [InsertionOrderIndexer.add]
    · simp [InsertionOrderIndexer.add, hy, h.mem]

theorem Orders.delete (h : Orders H o) (x : ι) : Orders (fun y => H y ∧ y ≠ x) (o.delete x) := by
  cases hrev : o.rev x with
  | none =>
    rw [InsertionOrderIndexer.delete, hrev]
    refine h.congr fun y => ⟨fun hy => ⟨hy, ?_⟩, And.left⟩
    rintro rfl
    obtain ⟨t, ht⟩ := (h.mem y).mpr hy
    rw [hrev] at ht
    cases ht
  | some time =>
    rw [InsertionOrderIndexer.delete, hrev]
    refine ⟨fun t y => ?_, fun y => ?_⟩
    · simp only [mem_filter, h.rev, decide_eq_true_eq, ne_eq, Prod.mk.injEq]
      by_cases hy : y = x
      · subst hy
        simp [hrev, eq_comm]
      · simp [hy]
    · by_cases hy : y = x
      · simp [hy]
      · simp [hy, h.mem]

theorem Orders.foldl_delete {L : List ι} (h : Orders H o) :
    Orders (fun y => H y ∧ y ∉ L) (L.foldl InsertionOrderIndexer.delete o) := by
  induction L generalizing o H with
  | nil => exact h.congr fun _ => by simp
  | cons x L ih =>
    refine (ih (h.delete x)).congr fun y => ?_
    rw [mem_cons, not_or, and_assoc]

end InsertionOrderIndexer

/-! ## Expiry -/

namespace EpochConstrainedList

/-- The keys are `E`, and each of them has its reference key. -/
structure Lists (E : Nat → ι → Prop) (l : EpochConstrainedList ι) : Prop where
  keys : ∀ e x, (e, x) ∈ l.keys ↔ E e x
  ref : ∀ e x, E e x → l.ref x = some e

variable {E E' : Nat → ι → Prop} {l : EpochConstrainedList ι}

omit [DecidableEq ι] in
theorem Lists.congr (h : Lists E l) (hE : ∀ e x, E e x ↔ E' e x) : Lists E' l :=
  ⟨fun e x => (h.keys e x).trans (hE e x), fun e x hx => h.ref e x ((hE e x).mpr hx)⟩

omit [DecidableEq ι] in
theorem Lists.empty : Lists (fun _ _ => False) (empty (ι := ι)) where
  keys _ _ := mem_nil_iff _
  ref _ _ := False.elim

theorem Lists.append {x : ι} {e : Nat} (h : Lists E l) (hx : ∀ e', ¬E e' x) :
    Lists (fun e' y => E e' y ∨ (e' = e ∧ y = x)) (l.append e x) where
  keys e' y := by
    simp only [EpochConstrainedList.append, mem_setKey, h.keys, Prod.mk.injEq]
    exact or_comm
  ref e' y := by
    rintro (hE | ⟨rfl, rfl⟩)
    · have hy : y ≠ x := fun heq => hx e' (heq ▸ hE)
      simpa [EpochConstrainedList.append, hy] using h.ref e' y hE
    · simp [EpochConstrainedList.append]

theorem ref_drop (l : EpochConstrainedList ι) (x : ι) : (l.drop x).ref = l.ref := by
  unfold drop
  split <;> rfl

theorem Lists.drop (h : Lists E l) (x : ι) : Lists (fun e y => E e y ∧ y ≠ x) (l.drop x) where
  keys e y := by
    unfold EpochConstrainedList.drop
    split
    next hnone =>
      rw [h.keys]
      refine ⟨fun hE => ⟨hE, ?_⟩, And.left⟩
      rintro rfl
      rw [h.ref e y hE] at hnone
      cases hnone
    next epoch hsome =>
      simp only [mem_filter, h.keys, decide_eq_true_eq, ne_eq, Prod.mk.injEq]
      refine and_congr_right fun hE => not_congr ⟨And.right, ?_⟩
      rintro rfl
      have heq := h.ref e y hE
      rw [hsome] at heq
      exact ⟨(Option.some.inj heq).symm, rfl⟩
  ref e y hE := by
    rw [ref_drop]
    exact h.ref e y hE.1

theorem Lists.foldl_drop {L : List ι} (h : Lists E l) :
    Lists (fun e y => E e y ∧ y ∉ L) (L.foldl EpochConstrainedList.drop l) := by
  induction L generalizing l E with
  | nil => exact h.congr fun _ _ => by simp
  | cons x L ih =>
    refine (ih (h.drop x)).congr fun e y => ?_
    rw [mem_cons, not_or, and_assoc]

theorem ref_foldl_drop {L : List ι} : (L.foldl drop l).ref = l.ref := by
  induction L generalizing l with
  | nil => rfl
  | cons x L ih => rw [foldl_cons, ih, ref_drop]

omit [DecidableEq ι] in
theorem Lists.dropBefore (h : Lists E l) (epoch : Nat) :
    Lists (fun e y => E e y ∧ ¬e < epoch) (l.dropBefore epoch).1 ∧
      ∀ y, y ∈ (l.dropBefore epoch).2 ↔ ∃ e, E e y ∧ e < epoch := by
  refine ⟨⟨fun e y => ?_, fun e y hE => h.ref e y hE.1⟩, fun y => ?_⟩
  · simp [EpochConstrainedList.dropBefore, h.keys]
  · simp [EpochConstrainedList.dropBefore, h.keys]

end EpochConstrainedList

end MadNet.App
