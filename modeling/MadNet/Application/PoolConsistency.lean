import MadNet.Application.PoolIndexes

/-!
# Consistency of the pending pool

The indexes agree with the stored transactions as long as no mined transaction shares an input with
another pending one: mining takes one consumer off the counter of a UTXO but deletes the links of
all of them. The expiry index keeps the reference key of every transaction that leaves the pool.
-/

namespace MadNet.App

open Function (update update_of_ne update_self)
open List Prog EpochConstrainedList

variable {ι τ : Type} [DecidableEq ι]

namespace PendingTxIndexer

/-- The indexes describe the transactions `txs`. -/
structure Indexes (txs : List (PoolTx ι τ)) (pti : PendingTxIndexer ι) : Prop where
  order : pti.order.Orders fun x => ∃ tx ∈ txs, tx.txHash = x
  links : pti.reflink.Counted (fun _ => 0) fun x u => ∃ tx ∈ txs, tx.txHash = x ∧ u ∈ tx.utxoIDs
  bounded : pti.reflink.Bounded
  expiration : pti.expiration.Lists fun e x => ∃ tx ∈ txs, tx.txHash = x ∧ tx.expEpoch = e

variable {txs : List (PoolTx ι τ)} {pti : PendingTxIndexer ι} {L : List ι}

theorem Indexes.empty : Indexes ([] : List (PoolTx ι τ)) .empty where
  order := InsertionOrderIndexer.Orders.empty.congr fun _ => by simp
  links := RefLinker.Counted.empty.congr fun _ _ => by simp
  bounded _ := Nat.zero_le _
  expiration := EpochConstrainedList.Lists.empty.congr fun _ _ => by simp

theorem foldl_deleteOne (L : List ι) (pti : PendingTxIndexer ι) : L.foldl deleteOne pti =
      { order := L.foldl InsertionOrderIndexer.delete pti.order
        reflink := L.foldl RefLinker.delete pti.reflink
        expiration := L.foldl drop pti.expiration } := by
  induction L generalizing pti with
  | nil => rfl
  | cons x L ih => exact ih (pti.deleteOne x)

theorem exists_filter {P : PoolTx ι τ → Prop} {x : ι} :
    (∃ tx ∈ txs.filter (·.txHash ∉ L), tx.txHash = x ∧ P tx) ↔
      (∃ tx ∈ txs, tx.txHash = x ∧ P tx) ∧ x ∉ L := by
  simp only [mem_filter, decide_eq_true_eq]
  constructor
  · rintro ⟨tx, ⟨htx, hL⟩, rfl, hP⟩
    exact ⟨⟨tx, htx, rfl, hP⟩, hL⟩
  · rintro ⟨⟨tx, htx, rfl, hP⟩, hL⟩
    exact ⟨tx, ⟨htx, hL⟩, rfl, hP⟩

theorem exists_filter_hash {x : ι} :
    (∃ tx ∈ txs.filter (·.txHash ∉ L), tx.txHash = x) ↔ (∃ tx ∈ txs, tx.txHash = x) ∧ x ∉ L := by
  have h := @exists_filter _ _ _ txs L (fun _ => True) x
  simpa only [and_true] using h

/-- The transactions `L` leave the indexes, which describe `txs` but for `L`. -/
theorem Indexes.of_foldl (pti : PendingTxIndexer ι) (L : List ι) {P : ι → Prop}
    {R : ι → ι → Prop} {E : Nat → ι → Prop}
    (order : pti.order.Orders P) (links : pti.reflink.Counted (fun _ => 0) R)
    (bounded : pti.reflink.Bounded) (expiration : pti.expiration.Lists E)
    (hP : ∀ x ∉ L, P x ↔ ∃ tx ∈ txs, tx.txHash = x)
    (hR : ∀ x ∉ L, ∀ u, R x u ↔ ∃ tx ∈ txs, tx.txHash = x ∧ u ∈ tx.utxoIDs)
    (hE : ∀ x ∉ L, ∀ e, E e x ↔ ∃ tx ∈ txs, tx.txHash = x ∧ tx.expEpoch = e) :
    Indexes (txs.filter (·.txHash ∉ L)) (L.foldl deleteOne pti) ∧
      (L.foldl deleteOne pti).expiration.ref = pti.expiration.ref := by
  rw [PendingTxIndexer.foldl_deleteOne]
  refine ⟨?_, ref_foldl_drop⟩
  exact {
    order := order.foldl_delete.congr fun x => (and_congr_left (hP x)).trans exists_filter_hash.symm
    links := links.foldl_delete.congr fun x u =>
      (and_congr_left (hR x · u)).trans exists_filter.symm
    bounded := links.bounded_foldl_delete bounded
    expiration := expiration.foldl_drop.congr fun e x =>
      (and_congr_left (hE x · e)).trans exists_filter.symm }

theorem Indexes.foldl_deleteOne (h : Indexes txs pti) (L : List ι) :
    Indexes (txs.filter (·.txHash ∉ L)) (L.foldl deleteOne pti) ∧
      (L.foldl deleteOne pti).expiration.ref = pti.expiration.ref :=
  Indexes.of_foldl pti L h.order h.links h.bounded h.expiration (fun _ _ => Iff.rfl)
    (fun _ _ _ => Iff.rfl) fun _ _ _ => Iff.rfl

/-- The transactions with a shared input. -/
def Shares (txs : List (PoolTx ι τ)) (x : ι) : Prop :=
  ∃ tx ∈ txs, tx.txHash = x ∧ ∃ tx' ∈ txs, tx'.txHash ≠ x ∧ ¬tx.utxoIDs.Disjoint tx'.utxoIDs

theorem Indexes.deleteMined {x : ι} (h : Indexes txs pti) (hx : ¬Shares txs x) :
    Indexes (txs.filter (·.txHash ≠ x)) (pti.deleteMined x).1 ∧
      (∀ y ∈ (pti.deleteMined x).2, y = x) ∧ x ∈ (pti.deleteMined x).2 ∧
      (pti.deleteMined x).1.expiration.ref = pti.expiration.ref := by
  obtain ⟨hdel, hall⟩ := h.links.deleteMined_eq (x := x) (by
    rintro u ⟨tx, htx, hhash, hu⟩ y ⟨tx', htx', rfl, hu'⟩
    by_contra hne
    exact hx ⟨tx, htx, hhash, tx', htx', hne, fun hdisj => hdisj hu hu'⟩)
  have hmem : ∀ y, y ∈ (pti.reflink.deleteMined x).2 ++ [x] ↔ y = x := by
    intro y
    rw [mem_append, mem_singleton]
    exact ⟨fun hy => hy.elim (hall y) id, .inr⟩
  have hfilter : txs.filter (·.txHash ≠ x) =
      txs.filter (·.txHash ∉ (pti.reflink.deleteMined x).2 ++ [x]) := by
    refine filter_congr fun tx _ => ?_
    simp only [hmem, ne_eq]
  have hbound : (pti.reflink.delete x).Bounded :=
    fun v => (h.links.count_delete_le x v).trans (h.bounded v)
  rw [hfilter]
  obtain ⟨hidx, href⟩ := Indexes.of_foldl
    { pti with reflink := (pti.reflink.deleteMined x).1 }
    ((pti.reflink.deleteMined x).2 ++ [x]) h.order
    (hdel ▸ h.links.delete x) (hdel ▸ hbound) h.expiration (fun _ _ => Iff.rfl)
    (fun y hy _ => and_iff_left fun heq => hy ((hmem y).mpr heq)) fun _ _ _ => Iff.rfl
  exact ⟨hidx, fun y hy => (hmem y).mp hy, (hmem x).mpr rfl, href⟩

theorem Indexes.add (le : ι → ι → Bool) (now : Nat) {tx : PoolTx ι τ} (h : Indexes txs pti)
    (hnew : ∀ tx' ∈ txs, tx'.txHash ≠ tx.txHash) :
    ∃ pti' ev, pti.add le now tx.expEpoch tx.txHash tx.utxoIDs = .ok (pti', ev) ∧
      Indexes (tx :: txs.filter (·.txHash ∉ ev)) pti' ∧ tx.txHash ∉ ev ∧
      pti'.expiration.ref = update pti.expiration.ref tx.txHash (some tx.expEpoch) ∧
      ((∀ u ∈ tx.utxoIDs, pti.reflink.count u < RefLinker.threshold) → ev = []) := by
  obtain ⟨rl, ev, hadd, hadded, hroom⟩ := RefLinker.add_spec le (x := tx.txHash) tx.nodup
    h.links h.bounded (by
      rintro u hu ⟨tx', htx', hhash, -⟩
      exact hnew tx' htx' hhash)
  have horder := h.order.add (x := tx.txHash) now
    (by rintro ⟨tx', htx', hhash⟩; exact hnew tx' htx' hhash)
  have hkept := hadded.kept
  refine ⟨_,
    ev, by simp only [PendingTxIndexer.add, hadd, bind, Except.bind]; rfl, ?_, hkept, ?_, hroom⟩
  · rw [PendingTxIndexer.foldl_deleteOne]
    exact {
      order := by
        refine horder.foldl_delete.congr fun y => ?_
        simp only [mem_cons, exists_eq_or_imp, exists_filter_hash]
        by_cases hy : y = tx.txHash
        · subst hy
          simp [hkept]
        · simp [hy, Ne.symm hy]
      links := by
        refine hadded.counted.foldl_delete.congr fun y u => ?_
        simp only [mem_cons, exists_eq_or_imp, exists_filter]
        by_cases hy : y = tx.txHash
        · subst hy
          simp only [true_and]
          tauto
        · have hy' : tx.txHash ≠ y := Ne.symm hy
          simp only [hy, hy', false_and, or_false, false_or]
          tauto
      bounded := hadded.counted.bounded_foldl_delete hadded.bounded
      expiration := by
        refine (h.expiration.foldl_drop (L := ev)).append (x := tx.txHash) ?_ |>.congr ?_
        · rintro e ⟨⟨tx', htx', hhash, -⟩, -⟩
          exact hnew tx' htx' hhash
        · intro e y
          simp only [mem_cons, exists_eq_or_imp, exists_filter]
          rw [or_comm, and_comm (a := e = tx.expEpoch), eq_comm (a := y), eq_comm (a := e)] }
  · rw [PendingTxIndexer.foldl_deleteOne]
    exact congrArg (update · tx.txHash (some tx.expEpoch))
      ref_foldl_drop

theorem Indexes.dropBefore (h : Indexes txs pti) (epoch : Nat) :
    Indexes (txs.filter (·.txHash ∉ (pti.dropBefore epoch).2)) (pti.dropBefore epoch).1 ∧
      (∀ x, x ∈ (pti.dropBefore epoch).2 ↔ ∃ tx ∈ txs, tx.txHash = x ∧ tx.expEpoch < epoch) ∧
      (pti.dropBefore epoch).1.expiration.ref = pti.expiration.ref := by
  obtain ⟨hlists, hdropped⟩ := h.expiration.dropBefore epoch
  have hmem : ∀ x, x ∈ (pti.dropBefore epoch).2 ↔ ∃ tx ∈ txs, tx.txHash = x ∧
    tx.expEpoch < epoch := by
    intro x
    refine (hdropped x).trans ⟨?_, ?_⟩
    · rintro ⟨e, ⟨tx, htx, hhash, rfl⟩, he⟩
      exact ⟨tx, htx, hhash, he⟩
    · rintro ⟨tx, htx, hhash, he⟩
      exact ⟨_, ⟨tx, htx, hhash, rfl⟩, he⟩
  obtain ⟨hidx, href⟩ := Indexes.of_foldl
    { pti with expiration := (pti.expiration.dropBefore epoch).1 } (pti.dropBefore epoch).2
    h.order h.links
    h.bounded hlists (fun _ _ => Iff.rfl) (fun _ _ _ => Iff.rfl) (by
      -- a hash that is not dropped belongs to a transaction that has not expired
      refine fun y hy e => and_iff_left_of_imp fun ⟨tx, htx, hhash, he⟩ hlt => hy ?_
      exact (hmem y).mpr ⟨tx, htx, hhash, he ▸ hlt⟩)
  exact ⟨hidx, hmem, href⟩

end PendingTxIndexer

namespace Pool

open PendingTxIndexer

/-- The pool holds a transaction once, and its indexes describe what it holds. -/
structure Indexed (p : Pool ι τ) : Prop where
  nodup : p.hashes.Nodup
  indexes : p.indexer.Indexes p.txs

variable {p p' : Pool ι τ} {txs : List (PoolTx ι τ)} {L : List ι}

theorem Indexed.empty : Indexed (Pool.empty (ι := ι) (τ := τ)) := ⟨nodup_nil, Indexes.empty⟩

omit [DecidableEq ι] in
theorem nodup_filter {P : PoolTx ι τ → Bool} (h : (txs.map PoolTx.txHash).Nodup) :
    ((txs.filter P).map PoolTx.txHash).Nodup :=
  h.sublist (filter_sublist.map _)

theorem Indexed.consistent (h : p.Indexed) : p.Consistent := by
  have hcount : ∀ u, p.indexer.reflink.count u = p.consumers u := by
    intro u
    rw [h.indexes.links.count_eq u (nodup_filter (P := (u ∈ ·.utxoIDs)) h.nodup), length_map,
      consumers, countP_eq_length_filter]
    intro x
    simp only [mem_map, mem_filter, decide_eq_true_eq]
    exact ⟨fun ⟨tx, ⟨htx, hu⟩, hhash⟩ => ⟨tx, htx, hhash, hu⟩,
      fun ⟨tx, htx, hhash, hu⟩ => ⟨tx, ⟨htx, hu⟩, hhash⟩⟩
  have hhashes : ∀ x, x ∈ p.hashes ↔ ∃ tx ∈ p.txs, tx.txHash = x := fun x => mem_map
  exact {
    counter := fun u => by rw [h.indexes.links.counter, toCounter_getD, Nat.add_zero, hcount]
    counter_le := fun u => by
      rw [h.indexes.links.counter, toCounter_getD, Nat.add_zero]
      exact h.indexes.bounded u
    order := fun x => by simp only [hhashes, ← h.indexes.order.mem, h.indexes.order.rev]
    order_rev := h.indexes.order.rev
    expiration := fun x => by
      simp only [hhashes, h.indexes.expiration.keys]
      exact ⟨fun ⟨_, tx, htx, hhash, _⟩ => ⟨tx, htx, hhash⟩,
        fun ⟨tx, htx, hhash⟩ => ⟨_, tx, htx, hhash, rfl⟩⟩
    links := fun x => by
      simp only [hhashes, h.indexes.links.refs]
      refine ⟨fun ⟨_, tx, htx, hhash, _⟩ => ⟨tx, htx, hhash⟩, ?_⟩
      rintro ⟨tx, htx, hhash⟩
      obtain ⟨u, hu⟩ := exists_mem_of_ne_nil _ tx.consumes
      exact ⟨u, tx, htx, hhash, hu⟩
    links_rev := fun x u => by rw [h.indexes.links.revRefs, h.indexes.links.refs] }

/-! ## Deletions -/

theorem foldl_deleteTx (L : List ι) (p : Pool ι τ) :
    L.foldl deleteTx p = { p with txs := p.txs.filter (·.txHash ∉ L) } := by
  induction L generalizing p with
  | nil => simp
  | cons x L ih =>
    rw [foldl_cons, ih]
    simp [deleteTx, filter_filter, Bool.and_comm]

theorem foldl_deleteOneInternal (L : List ι) (p : Pool ι τ) :
    L.foldl (deleteOneInternal · · false) p =
      { p with
        indexer := L.foldl PendingTxIndexer.deleteOne p.indexer
        txs := p.txs.filter (·.txHash ∉ L) } := by
  induction L generalizing p with
  | nil => simp
  | cons x L ih =>
    rw [foldl_cons, ih]
    simp [deleteOneInternal, deleteTx, filter_filter, Bool.and_comm]

theorem Indexed.delete (h : p.Indexed) (L : List ι) : (p.delete L).Indexed := by
  rw [Pool.delete, foldl_deleteOneInternal]
  exact ⟨nodup_filter h.nodup, (h.indexes.foldl_deleteOne L).1⟩

variable {S : List (PoolTx ι τ)}

/-- `S` is what the indexes describe, which can be less than what is stored. -/
theorem deleteOneInternal_mined {x : ι} (h : p.indexer.Indexes S) (hx : ¬Shares S x) :
    (p.deleteOneInternal x true).indexer.Indexes (S.filter (·.txHash ≠ x)) ∧
      (p.deleteOneInternal x true).txs = p.txs.filter (·.txHash ≠ x) ∧
      (p.deleteOneInternal x true).indexer.expiration.ref = p.indexer.expiration.ref := by
  obtain ⟨hidx, hall, hmem, href⟩ := h.deleteMined hx
  have heq : p.deleteOneInternal x true =
      { p with indexer := (p.indexer.deleteMined x).1, txs := p.txs.filter (·.txHash ≠ x) } := by
    have hmem' : ∀ y, y ∈ (p.indexer.deleteMined x).2 ↔ y = x :=
      fun y => ⟨hall y, fun heq => heq ▸ hmem⟩
    rw [deleteOneInternal, if_pos rfl]
    show (foldl deleteTx { p with indexer := (p.indexer.deleteMined x).1 }
      (p.indexer.deleteMined x).2).deleteTx x = _
    rw [foldl_deleteTx]
    simp [deleteTx, filter_filter, hmem']
  rw [heq]
  exact ⟨hidx, rfl, href⟩

omit [DecidableEq ι] in
theorem not_shares_filter {x : ι} {P : PoolTx ι τ → Bool} (h : ¬Shares S x) :
    ¬Shares (S.filter P) x := by
  rintro ⟨tx, htx, hhash, tx', htx', hne, hdisj⟩
  exact h ⟨tx, (mem_filter.mp htx).1, hhash, tx', (mem_filter.mp htx').1, hne, hdisj⟩

theorem foldl_setCooldown (L : List ι) (p : Pool ι τ) :
    (L.foldl setCooldown p).indexer = p.indexer ∧ (L.foldl setCooldown p).txs = p.txs := by
  induction L generalizing p with
  | nil => exact ⟨rfl, rfl⟩
  | cons x L ih => exact ih (p.setCooldown x)

/-- The loop over mined or expired transactions, with or without the cooldown. -/
theorem foldl_mined {f : Pool ι τ → ι → Pool ι τ}
    (hf : ∀ p x, (f p x).indexer = (p.deleteOneInternal x true).indexer ∧
      (f p x).txs = (p.deleteOneInternal x true).txs)
    (h : p.indexer.Indexes S) (hL : ∀ x ∈ L, ¬Shares S x) :
    (L.foldl f p).indexer.Indexes (S.filter (·.txHash ∉ L)) ∧
      (L.foldl f p).txs = p.txs.filter (·.txHash ∉ L) ∧
      (L.foldl f p).indexer.expiration.ref = p.indexer.expiration.ref := by
  induction L generalizing p S with
  | nil => simpa using h
  | cons x L ih =>
    obtain ⟨hidx, htxs, href⟩ := deleteOneInternal_mined h (hL x (by simp))
    rw [← (hf p x).1] at hidx href
    rw [← (hf p x).2] at htxs
    obtain ⟨hidx', htxs', href'⟩ := ih hidx fun y hy => not_shares_filter (hL y (by simp [hy]))
    rw [foldl_cons]
    refine ⟨?_, ?_, href'.trans href⟩
    · simpa [filter_filter, Bool.and_comm] using hidx'
    · rw [htxs', htxs]
      simp [filter_filter, Bool.and_comm]

theorem deleteMinedTxs_spec (h : p.Indexed) (hL : ∀ x ∈ L, ¬Shares p.txs x) :
    (p.deleteMinedTxs L).Indexed ∧ (p.deleteMinedTxs L).txs = p.txs.filter (·.txHash ∉ L) ∧
      (p.deleteMinedTxs L).indexer.expiration.ref = p.indexer.expiration.ref := by
  obtain ⟨hcool, hcool'⟩ := foldl_setCooldown L p
  have hindexes : (L.foldl setCooldown p).indexer.Indexes p.txs := hcool ▸ h.indexes
  obtain ⟨hidx, htxs, href⟩ := foldl_mined (f := (deleteOneInternal · · true)) (L := L)
    (fun _ _ => ⟨rfl, rfl⟩) hindexes hL
  rw [hcool'] at htxs
  refine ⟨⟨?_, ?_⟩, htxs, href.trans (by rw [hcool])⟩
  · rw [hashes, deleteMinedTxs, htxs]
    exact nodup_filter h.nodup
  · rw [deleteMinedTxs, htxs]
    exact hidx

theorem deleteExpired_spec (h : p.Indexed) (height : Nat) : (p.deleteExpired height).Indexed ∧
      (p.deleteExpired height).txs = p.txs.filter
      (·.txHash ∉ (p.indexer.dropBefore (epoch height)).2) ∧
      (p.deleteExpired height).indexer.expiration.ref = p.indexer.expiration.ref := by
  obtain ⟨hidx, hmem, href⟩ := h.indexes.dropBefore (epoch height)
  -- the links of the dropped transactions are gone, so that none of them is shared
  have hL : ∀ x ∈ (p.indexer.dropBefore (epoch height)).2,
      ¬Shares (p.txs.filter (·.txHash ∉ (p.indexer.dropBefore (epoch height)).2)) x := by
    rintro x hx ⟨tx, htx, rfl, -⟩
    rw [mem_filter, decide_eq_true_eq] at htx
    exact htx.2 hx
  have hf : ∀ (p : Pool ι τ) x, ((p.setCooldown x).deleteOneInternal x true).indexer =
        (p.deleteOneInternal x true).indexer ∧
      ((p.setCooldown x).deleteOneInternal x true).txs = (p.deleteOneInternal x true).txs := by
    intro p x
    simp [deleteOneInternal, foldl_deleteTx, deleteTx, setCooldown]
  obtain ⟨hidx', htxs, href'⟩ := foldl_mined
    (p := { p with indexer := (p.indexer.dropBefore (epoch height)).1 })
    (f := fun p x => (p.setCooldown x).deleteOneInternal x true)
    hf hidx hL
  refine ⟨⟨?_, ?_⟩, htxs, href'.trans href⟩
  · rw [hashes, show (p.deleteExpired height).txs = _ from htxs]
    exact nodup_filter h.nodup
  · rw [show (p.deleteExpired height).txs = _ from htxs]
    rw [filter_filter] at hidx'
    simp only [Bool.and_self] at hidx'
    exact hidx'

theorem Indexed.deleteMined {height : Nat} (h : p.Indexed) (hL : ∀ x ∈ L, ¬Shares p.txs x) :
    (p.deleteMined height L).Indexed :=
  (deleteExpired_spec (deleteMinedTxs_spec h hL).1 height).1

/-! ## Additions -/

theorem Indexed.not_contained {epoch : Nat} {x : ι} (h : p.Indexed)
    (hx : p.containsOneInternal epoch x = .ok false) : ∀ tx ∈ p.txs, tx.txHash ≠ x := by
  rintro tx htx rfl
  have href := h.indexes.expiration.ref _ _ ⟨tx, htx, rfl, rfl⟩
  have hfind : ∃ tx', p.txs.find? (·.txHash = tx.txHash) = some tx' := by
    rw [← Option.isSome_iff_exists, find?_isSome]
    exact ⟨tx, htx, by simp⟩
  obtain ⟨tx', hfind⟩ := hfind
  rw [containsOneInternal, getOneInternal, getEpoch, href] at hx
  by_cases hlt : tx.expEpoch < epoch
  · simp [hlt] at hx
  · simp [hlt, hfind] at hx

/-- A transaction that is new to the pool displaces `ev`. -/
theorem Indexed.addOneInternal {le : ι → ι → Bool} {now : Nat} {tx : PoolTx ι τ} (h : p.Indexed)
    (hadd : p.addOneInternal le now tx = .ok p') :
    p'.Indexed ∧ (p' = p ∨ ∃ ev, p'.txs = tx :: p.txs.filter (·.txHash ∉ ev) ∧
      p'.indexer.expiration.ref =
        update p.indexer.expiration.ref tx.txHash (some tx.expEpoch) ∧
      ((∀ u ∈ tx.utxoIDs, p.indexer.reflink.count u < RefLinker.threshold) → ev = [])) := by
  obtain ⟨contained, hcontained, hadd⟩ := bind_ok hadd
  cases contained with
  | true =>
    cases hadd
    exact ⟨h, .inl rfl⟩
  | false =>
    have hnew := h.not_contained hcontained
    obtain ⟨pti, ev, hpti, hidx, hkept, href, hroom⟩ := h.indexes.add le now hnew
    simp only [Bool.false_eq_true, if_false, hpti, bind, Except.bind] at hadd
    have hp' : p' = { p with
        indexer := ev.foldl PendingTxIndexer.deleteOne pti
        txs := tx :: p.txs.filter (·.txHash ∉ ev) } := by
      rw [← Except.ok.inj hadd, foldl_deleteOneInternal, setTx, deleteTx]
      congr 2
      rw [filter_filter]
      refine filter_congr fun tx' htx' => ?_
      simp [hnew tx' htx']
    obtain ⟨hidx', href'⟩ := hidx.foldl_deleteOne ev
    have hsame : (tx :: p.txs.filter (·.txHash ∉ ev)).filter (·.txHash ∉ ev) =
        tx :: p.txs.filter (·.txHash ∉ ev) := by
      simp [hkept, filter_filter]
    rw [hsame] at hidx'
    subst hp'
    refine ⟨⟨nodup_cons.mpr ⟨fun hmem => ?_, nodup_filter h.nodup⟩, hidx'⟩,
      .inr ⟨ev, rfl, href'.trans href, hroom⟩⟩
    obtain ⟨tx', htx', hhash⟩ := mem_map.mp hmem
    exact hnew tx' (mem_filter.mp htx').1 hhash

theorem Indexed.addLoop {le : ι → ι → Bool} {poolTx : τ → Except Err (PoolTx ι τ)}
    {new : List (Nat × τ)} (h : p.Indexed) (hadd : addLoop le poolTx p new = .ok p') :
    p'.Indexed := by
  induction new generalizing p with
  | nil =>
    cases hadd
    exact h
  | cons tx new ih =>
    obtain ⟨e, he, hadd⟩ := bind_ok hadd
    split at hadd
    next => cases hadd
    next =>
      obtain ⟨p₁, hp₁, hadd⟩ := bind_ok hadd
      exact ih (h.addOneInternal hp₁).1 hadd

/-! ## Runs -/

variable {le : ι → ι → Bool} {poolTx : τ → Except Err (PoolTx ι τ)}

variable {call : Call ι τ}

theorem Indexed.step (h : p.Indexed) (hcall : p.Exclusive call) :
    (step le poolTx p call).Indexed := by
  cases call with
  | add checked new =>
    rw [Pool.step]
    cases hadd : p.add le poolTx checked new with
    | error e => exact h
    | ok p' =>
      obtain ⟨-, -, hadd⟩ := bind_ok hadd
      exact h.addLoop hadd
  | delete L => exact h.delete L
  | deleteMined height L =>
    refine h.deleteMined fun x hx => ?_
    rintro ⟨tx, htx, rfl, tx', htx', hne, hdisj⟩
    exact hdisj (hcall tx htx hx tx' htx' hne)
  | cooldownOver x => exact ⟨h.nodup, h.indexes⟩

theorem filter_eq_self (hL : ∀ x ∈ L, x ∉ p.hashes) : p.txs.filter (·.txHash ∉ L) = p.txs := by
  refine List.filter_eq_self.mpr fun tx htx => ?_
  rw [decide_eq_true_eq]
  exact fun hx => hL _ hx (mem_map_of_mem htx)

/-- The reference keys stay right when nothing happens to the transactions. -/
theorem ExpirationRefs.of_eq (h : p.ExpirationRefs) (hp : p.Indexed) (hp' : p'.Indexed)
    (htxs : p'.txs = p.txs) (href : p'.indexer.expiration.ref = p.indexer.expiration.ref) :
    p'.ExpirationRefs := by
  intro e x
  rw [href, h e x, hp.indexes.expiration.keys, hp'.indexes.expiration.keys, htxs]

theorem ExpirationRefs.of_cons {tx : PoolTx ι τ} (h : p.ExpirationRefs) (hp : p.Indexed)
    (hp' : p'.Indexed)
    (htxs : p'.txs = tx :: p.txs)
    (href : p'.indexer.expiration.ref = update p.indexer.expiration.ref tx.txHash
      (some tx.expEpoch)) :
    p'.ExpirationRefs := by
  have hnew : ∀ tx' ∈ p.txs, tx'.txHash ≠ tx.txHash := by
    have hnodup := hp'.nodup
    rw [hashes, htxs, map_cons, nodup_cons] at hnodup
    exact fun tx' htx' heq => hnodup.1 (heq ▸ mem_map_of_mem htx')
  intro e x
  rw [href, hp'.indexes.expiration.keys, htxs]
  simp only [mem_cons, exists_eq_or_imp]
  by_cases hx : x = tx.txHash
  · subst hx
    rw [update_self, Option.some.injEq]
    refine ⟨fun heq => .inl ⟨rfl, heq⟩, ?_⟩
    rintro (⟨-, heq⟩ | ⟨tx', htx', hhash, -⟩)
    · exact heq
    · exact absurd hhash (hnew tx' htx')
  · rw [update_of_ne hx, h e x, hp.indexes.expiration.keys]
    simp [Ne.symm hx]

/-- As long as there is room for the new transactions, `Add` evicts nothing. -/
theorem ExpirationRefs.addLoop {new : List (Nat × τ)} (h : p.ExpirationRefs) (hp : p.Indexed)
    (hroom : ∀ u, p.consumers u + (new.filterMap fun tx => (poolTx tx.2).toOption).countP
      (u ∈ ·.utxoIDs) ≤ RefLinker.threshold)
    (hadd : Pool.addLoop le poolTx p new = .ok p') : p'.ExpirationRefs := by
  induction new generalizing p with
  | nil =>
    cases hadd
    exact h
  | cons tx new ih =>
    obtain ⟨e, he, hadd⟩ := bind_ok hadd
    have hroom' : ∀ u, p.consumers u + ((if u ∈ e.utxoIDs then 1 else 0) +
        (new.filterMap fun tx => (poolTx tx.2).toOption).countP (u ∈ ·.utxoIDs)) ≤
          RefLinker.threshold := by
      intro u
      have hu := hroom u
      rw [filterMap_cons_some (by rw [he]; rfl), countP_cons] at hu
      simp only [decide_eq_true_eq] at hu
      omega
    split at hadd
    next => cases hadd
    next =>
      obtain ⟨p₁, hp₁, hrest⟩ := bind_ok hadd
      obtain ⟨hidx, rfl | ⟨ev, htxs, href, hev⟩⟩ := hp.addOneInternal hp₁
      · refine ih h hp (fun u => ?_) hrest
        have hu := hroom' u
        omega
      · have hnone : ev = [] := hev fun u hu => by
          have hcount := hp.consistent.counter u
          rw [hp.indexes.links.counter, toCounter_getD, Nat.add_zero] at hcount
          have hu' := hroom' u
          rw [if_pos hu] at hu'
          omega
        rw [hnone] at htxs
        simp only [not_mem_nil, not_false_eq_true, decide_true, filter_true] at htxs
        refine ih (h.of_cons hp hidx htxs href) hidx (fun u => ?_) hrest
        have hu := hroom' u
        rw [consumers, htxs, countP_cons]
        simp only [decide_eq_true_eq]
        unfold consumers at hu
        omega

theorem ExpirationRefs.step (h : p.ExpirationRefs) (hp : p.Indexed)
    (hcall : p.Keeps poolTx call) : (Pool.step le poolTx p call).ExpirationRefs := by
  cases call with
  | add checked new =>
    rw [Pool.step]
    cases hadd : p.add le poolTx checked new with
    | error e => exact h
    | ok p' =>
      obtain ⟨-, -, hadd⟩ := bind_ok hadd
      exact h.addLoop hp hcall hadd
  | delete L =>
    refine h.of_eq hp (hp.delete L) ?_ ?_
    · rw [Pool.step, Pool.delete, foldl_deleteOneInternal]
      exact filter_eq_self hcall
    · rw [Pool.step, Pool.delete, foldl_deleteOneInternal, PendingTxIndexer.foldl_deleteOne]
      exact ref_foldl_drop
  | deleteMined height L =>
    have hshares : ∀ x ∈ L, ¬Shares p.txs x := by
      rintro x hx ⟨tx, htx, rfl, -⟩
      exact hcall.1 _ hx (mem_map_of_mem htx)
    obtain ⟨hidx, htxs, href⟩ := deleteMinedTxs_spec hp hshares
    obtain ⟨hidx', htxs', href'⟩ := deleteExpired_spec hidx height
    rw [filter_eq_self hcall.1] at htxs
    refine h.of_eq hp hidx' (htxs'.trans ?_) (href'.trans href)
    rw [filter_eq_self, htxs]
    intro x hx hmem
    obtain ⟨tx, htx, -, hlt⟩ := ((hidx.indexes.dropBefore (epoch height)).2.1 x).mp hx
    have hle := hcall.2 tx (htxs ▸ htx)
    omega
  | cooldownOver x => exact h

theorem Keeps.exclusive (h : p.Keeps poolTx call) : p.Exclusive call := by
  cases call with
  | deleteMined height L => exact fun tx htx hL => absurd (mem_map_of_mem htx) (h.1 _ hL)
  | _ => trivial

/-- In a run in which no mined transaction shares an input with another pending transaction, the
indexes agree with the stored transactions. The reference keys of the expiry index agree as well
when nothing pending is removed. -/
theorem consistent_of_exclusive (le : ι → ι → Bool) (poolTx : τ → Except Err (PoolTx ι τ))
    (calls : List (Call ι τ)) (h : Run.Along Exclusive (step le poolTx) .empty calls) :
    (Run.exec (step le poolTx) .empty calls).Consistent ∧
      (Run.Along (Keeps poolTx) (step le poolTx) .empty calls →
        (Run.exec (step le poolTx) .empty calls).ExpirationRefs) := by
  refine ⟨?_, fun hkeeps => ?_⟩
  · exact (Run.invariant Indexed (fun _ _ hp hcall => hp.step hcall) .empty h).consistent
  · refine (Run.invariant (fun p => p.Indexed ∧ p.ExpirationRefs) ?_ ?_ hkeeps).2
    · exact fun p call hp hcall => ⟨hp.1.step hcall.exclusive, hp.2.step hp.1 hcall⟩
    · exact ⟨.empty,
        fun e x => by simp [Pool.empty, PendingTxIndexer.empty, EpochConstrainedList.empty]⟩

/-- After such a run `DeleteMined` removes the mined and the expired transactions, and no other. -/
theorem mem_deleteMined_iff {calls : List (Call ι τ)} {height : Nat} {mined : List ι}
    {tx : PoolTx ι τ}
    (h : Run.Along Exclusive (step le poolTx) .empty calls)
    (hmined : (Run.exec (step le poolTx) .empty calls).Exclusive (.deleteMined height mined)) :
    tx ∈ ((Run.exec (step le poolTx) .empty calls).deleteMined height mined).txs ↔
      tx ∈ (Run.exec (step le poolTx) .empty calls).txs ∧ tx.txHash ∉ mined ∧ epoch
      height ≤ tx.expEpoch := by
  have hp := Run.invariant Indexed (fun _ _ hp hcall => hp.step hcall) .empty h
  generalize Run.exec (step le poolTx) .empty calls = p at hmined hp ⊢
  obtain ⟨hp', htxs, -⟩ := deleteMinedTxs_spec (L := mined) hp (by
    rintro _ hx ⟨tx, htx, rfl, tx', htx', hne, hdisj⟩
    exact hdisj (hmined tx htx hx tx' htx' hne))
  have hmem : tx ∈ (p.deleteMinedTxs mined).txs ↔ tx ∈ p.txs ∧ tx.txHash ∉ mined := by
    rw [htxs, mem_filter, decide_eq_true_eq]
  rw [deleteMined, (deleteExpired_spec hp' height).2.1, mem_filter, decide_eq_true_eq,
    (hp'.indexes.dropBefore (epoch height)).2.1, ← and_assoc, ← hmem]
  refine and_congr_right fun hin => ⟨fun hall => ?_, ?_⟩
  · exact Nat.not_lt.mp fun hlt => hall ⟨tx, hin, rfl, hlt⟩
  · -- a hash is stored once
    rintro hle ⟨tx', htx', hhash, hlt⟩
    rw [inj_on_of_nodup_map hp'.nodup htx' hin hhash] at hlt
    exact absurd hle (Nat.not_le.mpr hlt)

/-- A transaction by its hash and the UTXO that it consumes. -/
def spender (tx : Nat × Nat) : PoolTx Nat (Nat × Nat) where
  tx := tx
  txHash := tx.1
  expEpoch := 5
  utxoIDs := [tx.2]
  consumes := List.cons_ne_nil _ _
  nodup := List.nodup_singleton _

/-- When one of two transactions that consume the UTXO `7` is mined, the UTXO keeps a consumer; when
a transaction is deleted, it keeps its expiry epoch. -/
theorem inconsistent_after_deletion :
    ¬(Run.exec (step (· ≤ ·) (.ok ∘ spender)) .empty
      [.add (.ok ()) [(0, (0, 7)), (1, (1, 7))], .deleteMined 1 [0]]).Consistent ∧
    ¬(Run.exec (step (· ≤ ·) (.ok ∘ spender)) .empty
      [.add (.ok ()) [(0, (0, 7))], .delete [0]]).ExpirationRefs := by
  constructor
  · intro h
    exact absurd (h.counter 7) (by decide)
  · intro h
    exact absurd ((h 5 0).mp rfl) (by decide)

/-- Two transactions with different inputs are added. -/
def addPair : Call Nat (Nat × Nat) := .add (.ok ()) [(0, (0, 7)), (1, (1, 8))]

theorem exclusive_addPair :
    (Run.exec (step (· ≤ ·) (.ok ∘ spender)) .empty [addPair]).Exclusive (.deleteMined 1 [0]) := by
  have htxs : (Run.exec (step (· ≤ ·) (.ok ∘ spender)) .empty [addPair]).txs =
      [spender (1, 8), spender (0, 7)] := rfl
  intro tx htx _ tx' htx' hne
  rw [htxs] at htx htx'
  rcases mem_pair.mp htx with rfl | rfl <;> rcases mem_pair.mp htx' with rfl | rfl
  · exact absurd rfl hne
  · simp [spender]
  · simp [spender]
  · exact absurd rfl hne

/-- The first of the pair is mined, and another transaction that consumes its input is added. -/
theorem consistent_addPair :
    (Run.exec (step (· ≤ ·) (.ok ∘ spender)) .empty
      [addPair, .deleteMined 1 [0], .add (.ok ()) [(2, (2, 7))]]).Consistent ∧
    (Run.exec (step (· ≤ ·) (.ok ∘ spender)) .empty [addPair]).ExpirationRefs := by
  constructor
  · have hrun : Run.Along Exclusive (step (· ≤ ·) (.ok ∘ spender)) .empty
        [addPair, .deleteMined 1 [0], .add (.ok ()) [(2, (2, 7))]] :=
      ⟨trivial, exclusive_addPair, trivial, trivial⟩
    exact (consistent_of_exclusive _ _ _ hrun).1
  · have hrun : Run.Along Exclusive (step (· ≤ ·) (.ok ∘ spender)) .empty [addPair] :=
      ⟨trivial, trivial⟩
    refine (consistent_of_exclusive _ _ _ hrun).2 ⟨fun u => ?_, trivial⟩
    have hnone : (Pool.empty : Pool Nat (Nat × Nat)).consumers u = 0 := rfl
    rw [hnone, Nat.zero_add]
    exact countP_le_length.trans (by decide)

/-- The first of the pair is mined, and only the second one is left. -/
theorem mem_deleteMined_addPair :
    let p := Run.exec (step (· ≤ ·) (.ok ∘ spender)) .empty [addPair]
    spender (0, 7) ∉ (p.deleteMined 1 [0]).txs ∧ spender (1, 8) ∈ (p.deleteMined 1 [0]).txs := by
  intro p
  have hrun : Run.Along Exclusive (step (· ≤ ·) (.ok ∘ spender)) .empty [addPair] :=
    ⟨trivial, trivial⟩
  refine ⟨fun hmem => ?_, ?_⟩
  · have hleft := (mem_deleteMined_iff hrun exclusive_addPair).mp hmem
    exact hleft.2.1 (mem_singleton.mpr rfl)
  · refine (mem_deleteMined_iff hrun exclusive_addPair).mpr ⟨?_, ?_, ?_⟩
    · exact mem_cons_self
    · decide
    · decide

end Pool

end MadNet.App
