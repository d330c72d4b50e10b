import MadNet.Application.Indexes
import MadNet.Application.UTXOTrie
import MadNet.Application.Validity

/-!
# The ledger

What the application is for, without a trie or an index: the ledger knows which outputs have been
generated and not been consumed since, and which deposits have been consumed. The state refines it
(`State.Refines`): the stored UTXOs, the indexes and the trie say what the ledger says. In the trie
presence means unspent for a UTXO and spent for a deposit. A run of blocks keeps to the ledger as
long as no block clashes in the trie (`State.Tracks`).
-/

namespace MadNet.App

open List TxVec AList
open Trie (Key Digest)
open Trie.Digest (hasher collisionFree)

variable {ι : Type} [DecidableEq ι] (S : Scheme ι)

structure Ledger (ι : Type) where
  /-- The outputs that have been generated and not been consumed since. -/
  unspent : AList fun _ : ι => TXOut ι
  /-- The UTXO IDs that have been generated, in order. -/
  generated : List ι
  /-- The UTXO IDs that have been consumed, once for every input. -/
  consumed : List ι
  /-- The IDs of the deposits that have been consumed, once for every input. -/
  spentDeposits : List ι

namespace Ledger

def empty : Ledger ι := { unspent := ∅, generated := [], consumed := [], spentDeposits := [] }

/-- What a block does to the unspent outputs. -/
def writes (txs : List (Tx ι)) : List (ι × Option (TXOut ι)) :=
  (TxVec.consumedUTXOIDNoDeposits S txs).map (·, none) ++
    (TxVec.generatedUTXOs txs).map fun utxo => (utxo.utxoID S, some utxo.stored)

/-- The ledger after a block. -/
def apply (l : Ledger ι) (txs : List (Tx ι)) : Ledger ι where
  unspent := (writes S txs).foldl Batch.write l.unspent
  generated := l.generated ++ (TxVec.generatedUTXOs txs).map (·.utxoID S)
  consumed := l.consumed ++ TxVec.consumedUTXOIDNoDeposits S txs
  spentDeposits := l.spentDeposits ++ TxVec.consumedUTXOIDOnlyDeposits S txs

/-- The keys of the unspent outputs and of the spent deposits. -/
def Present (l : Ledger ι) (key : Key) : Prop :=
  ∃ utxoID, S.key utxoID = key ∧ (utxoID ∈ l.unspent ∨ utxoID ∈ l.spentDeposits)

/-- The map has the hashes of the unspent outputs, an entry for each spent deposit, and no others.
-/
structure Describes (l : Ledger ι) (m : ι → Option (Digest ι)) : Prop where
  unspent : ∀ {utxoID utxo}, l.unspent.lookup utxoID = some utxo →
    m utxoID = some (.value (utxo.preHash S))
  present : ∀ {utxoID}, m utxoID ≠ none ↔ utxoID ∈ l.unspent ∨ utxoID ∈ l.spentDeposits
  disjoint : ∀ utxoID ∈ l.spentDeposits, utxoID ∉ l.unspent

end Ledger

/-- The stored UTXOs and the indexes are those of the unspent outputs, and the trie reads what the
ledger says. -/
structure State.Refines (st : State ι) (l : Ledger ι) : Prop where
  backs : st.Backs S l.unspent
  reads : ∃ m, l.Describes S m ∧
    ∀ utxoID, (st.getCurrentTrie S).get (S.key utxoID) = .ok (m utxoID)

/-- Moreover the trie holds a tree whose entries are those of a map, and these are of UTXO IDs. -/
structure State.Tracks (st : State ι) (l : Ledger ι)
    (x : Radix.Tree Key (Digest ι) × (Key → Option (Digest ι))) : Prop where
  backs : st.Backs S l.unspent
  tracks : Trie.Tracks hasher x
  holds : (st.getCurrentTrie S).Holds hasher x.1
  describes : l.Describes S fun utxoID => x.2 (S.key utxoID)
  range : ∀ k, x.2 k ≠ none → ∃ utxoID, S.key utxoID = k

variable {S} {st st' : State ι} {l : Ledger ι} {txs : List (Tx ι)} {utxoID : ι}

theorem State.backs_empty : (State.empty : State ι).Backs S ∅ := by
  refine ⟨⟨⟨rfl, ?_⟩, ⟨rfl, ?_⟩, rfl, ?_⟩, ?_, ?_⟩ <;>
    simp [State.empty, ValueIndex.empty, DataIndex.empty, ExpSizeIndex.empty]

theorem State.getCurrentTrie_empty : (State.empty : State ι).getCurrentTrie S = .empty := by
  rw [getCurrentTrie, getCurrentStateRoot, State.empty, Option.getD_none, if_pos rfl]
  rfl

namespace State.Tracks

variable {x : Radix.Tree Key (Digest ι) × (Key → Option (Digest ι))}

theorem empty : (State.empty : State ι).Tracks S .empty Trie.emptyTree where
  backs := State.backs_empty
  tracks := Trie.tracks_empty
  holds := by
    rw [getCurrentTrie_empty]
    exact .empty
  describes := ⟨nofun, by simp [Ledger.empty, Trie.emptyTree], nofun⟩
  range k hk := absurd rfl hk

theorem refines (h : st.Tracks S l x) : st.Refines S l where
  backs := h.backs
  reads := ⟨_, h.describes, fun utxoID => by rw [h.holds.get, h.tracks.get]⟩

theorem present_iff (h : st.Tracks S l x) {k : Key} : x.2 k ≠ none ↔ l.Present S k := by
  constructor
  · intro hk
    obtain ⟨utxoID, rfl⟩ := h.range k hk
    exact ⟨utxoID, rfl, h.describes.present.mp hk⟩
  · rintro ⟨utxoID, rfl, hmem⟩
    exact h.describes.present.mpr hmem

end State.Tracks

namespace State.Refines

theorem empty : (State.empty : State ι).Refines S .empty := State.Tracks.empty.refines

theorem disjoint (h : st.Refines S l) (hid : utxoID ∈ l.spentDeposits) : utxoID ∉ l.unspent := by
  obtain ⟨m, hm, -⟩ := h.reads
  exact hm.disjoint utxoID hid

theorem trieContains (h : st.Refines S l) (utxoID : ι) : st.trieContains S utxoID =
    .ok (decide (utxoID ∈ l.unspent ∨ utxoID ∈ l.spentDeposits)) := by
  obtain ⟨m, hm, hreads⟩ := h.reads
  rw [State.trieContains, hreads]
  refine congrArg Except.ok ?_
  rw [Bool.eq_iff_iff, decide_eq_true_iff, ← hm.present, Option.isSome_iff_ne_none]

theorem contains_unspent (h : st.Refines S l) (hmem : utxoID ∈ l.unspent) :
    st.trieContains S utxoID = .ok true := by
  rw [h.trieContains, decide_eq_true (.inl hmem)]

/-- The deposits and the pool are not part of the ledger. -/
theorem congr (h : st.Refines S l) (deposits : AList fun _ : ι => Except Err (TXOut ι))
    (pool : Pool ι (Tx ι)) : { st with deposits, pool }.Refines S l := by
  have hi := h.backs.indexed
  exact ⟨⟨⟨hi.value, hi.data, hi.exp_ref, hi.exp_keys⟩, h.backs.stored, h.backs.swapless⟩, h.reads⟩

end State.Refines

/-! ## The trie -/

namespace UTXOHandler

def depositInputs (txs : List (Tx ι)) : List (TXIn ι) :=
  txs.flatMap fun tx => tx.vin.filter (·.isDeposit)

/-- The keys and values that a block writes to the trie. -/
def trieWrites (S : Scheme ι) (txs : List (Tx ι)) : List (ι × Option ι) :=
  (TxVec.generatedUTXOs txs).map (fun utxo => (utxo.utxoID S, some (utxo.preHash S))) ++
    (depositInputs txs).map (fun txIn => (txIn.utxoID S, some (txIn.preHash S))) ++
    (TxVec.consumedUTXOIDNoDeposits S txs).map (·, none)

section

omit [DecidableEq ι]

theorem consumedUTXOIDOnlyDeposits_eq (txs : List (Tx ι)) :
    consumedUTXOIDOnlyDeposits S txs = (depositInputs txs).map (·.utxoID S) := by
  simp only [consumedUTXOIDOnlyDeposits, Tx.consumedDeposits, depositInputs, map_flatMap]

theorem consumedPreHashOnlyDeposits_eq (txs : List (Tx ι)) :
    consumedPreHashOnlyDeposits S txs = (depositInputs txs).map (·.preHash S) := by
  simp only [consumedPreHashOnlyDeposits, Tx.consumedDepositPreHashes, depositInputs, map_flatMap]

theorem trieKVs_ok {kvs : List (ι × Option ι)} (h : trieKVs S txs = .ok kvs) :
    kvs = trieWrites S txs := by
  obtain ⟨ids, hashes, hids, hhashes, h⟩ := Prog.bind₂_ok h
  rw [← Except.ok.inj h, generatedUTXOID_ok hids, generatedPreHash_ok hhashes,
    consumedUTXOIDOnlyDeposits_eq, consumedPreHashOnlyDeposits_eq, zip_map', zip_map',
    map_map, map_map]
  rfl

end

theorem nextTrie_nodup {root : Root ι} {trie : Trie.SMT (Digest ι)}
    (h : nextTrie S st txs = .ok (root, trie)) :
    ((trieWrites S txs).map fun kv => S.key kv.1).Nodup := by
  rcases nextTrie_ok h with ⟨rfl, -⟩ | ⟨kvs, hkvs, hupdate, -⟩
  · exact nodup_nil
  · rw [← trieKVs_ok hkvs]
    exact (updateTrie_ok hupdate).1

/-! ## `ApplyState` -/

omit [DecidableEq ι] in
theorem updateRoots_ok {height : Nat} {root : Root ι} (h : updateRoots st height root = .ok st') :
    ∃ pending canonical, st' = { st with
      currentRoot := some root, pendingRoot := pending, canonicalRoot := canonical } := by
  unfold updateRoots at h
  dsimp only at h
  split at h
  · exact ⟨_, _, (Except.ok.inj h).symm⟩
  · split at h
    · split at h
      · cases h
      · exact ⟨_, _, (Except.ok.inj h).symm⟩
    · exact ⟨_, _, (Except.ok.inj h).symm⟩

/-- What a successful `ApplyState` has done. -/
structure Applied (S : Scheme ι) (st : State ι) (txs : List (Tx ι)) (root : Root ι)
    (st' : State ι) :
    Prop where
  /-- The UTXOs of the state afterwards are those after the block. -/
  backs : ∀ {m}, st.Backs S m → (∀ utxoID ∈ m, st.trieContains S utxoID = .ok true) →
    st'.Backs S ((Ledger.writes S txs).foldl Batch.write m)
  consumed : ∀ {m}, st.Backs S m → ∀ utxoID ∈ TxVec.consumedUTXOIDNoDeposits S txs, utxoID ∈ m
  fresh : ∀ utxo ∈ TxVec.generatedUTXOs txs, st.trieContains S (utxo.utxoID S) = .ok false
  trie : ∃ trie, nextTrie S st txs = .ok (root, trie) ∧ st'.currentRoot = some root ∧
    st'.nodes = trie.commit.store.db
  deposits : st'.deposits = st.deposits
  pool : st'.pool = st.pool

theorem nextTrie_congr (h : st.SameBase st') (txs : List (Tx ι)) :
    nextTrie S st' txs = nextTrie S st txs := by
  simp only [nextTrie, h.getCurrentStateRoot, h.getCurrentTrie]

omit [DecidableEq ι] in
theorem nodup_of_keys (h : ((trieWrites S txs).map fun kv => S.key kv.1).Nodup) :
    ((trieWrites S txs).map Prod.fst).Nodup := by
  refine Nodup.of_map S.key ?_
  rwa [map_map]

theorem applied_of_applyState {height : Nat} {root : Root ι}
    (h : applyState S st txs height = .ok (root, st')) : Applied S st txs root st' := by
  obtain ⟨st1, st2, hdrop, hadd, h⟩ := Prog.bind₂_ok h
  obtain ⟨⟨root, trie⟩, st3, htrie, hroots, h⟩ := Prog.bind₂_ok h
  cases h
  obtain ⟨pending, canonical, rfl⟩ := updateRoots_ok hroots
  have hbase1 : st.SameBase st1 := dropAll_base hdrop
  obtain ⟨hbase2, hfresh⟩ := addAll_base hadd
  rw [nextTrie_congr (hbase1.trans hbase2)] at htrie
  simp only [hbase1.trieContains] at hfresh
  have hnodup : ((generatedUTXOs txs).map (·.utxoID S)).Nodup := by
    have hkeys := nodup_of_keys (nextTrie_nodup htrie)
    simp only [trieWrites, map_append, map_map] at hkeys
    exact hkeys.of_append_left.of_append_left
  exact {
    backs := fun {m} hm hsub => by
      obtain ⟨hm1, -⟩ := hm.drop_all hdrop
      have hm2 := hm1.add_all hadd hnodup fun utxo hutxo hmem => by
        have htrue := hsub _ (Batch.mem_of_mem_deleted hmem)
        rw [hfresh utxo hutxo] at htrue
        cases htrue
      rw [Ledger.writes, foldl_append]
      have hi := hm2.indexed
      exact ⟨⟨hi.value, hi.data, hi.exp_ref, hi.exp_keys⟩, hm2.stored, hm2.swapless⟩
    consumed := fun hm => (hm.drop_all hdrop).2
    fresh := hfresh
    trie := ⟨trie, htrie, rfl, rfl⟩
    deposits := hbase2.deposits.trans hbase1.deposits
    pool := hbase2.pool.trans hbase1.pool }

/-! ## The refinement -/

omit [DecidableEq ι] in
theorem mem_trieWrites_keys : utxoID ∈ (trieWrites S txs).map Prod.fst ↔
    (∃ utxo ∈ generatedUTXOs txs, utxo.utxoID S = utxoID) ∨ utxoID ∈ consumedUTXOIDOnlyDeposits S
      txs ∨
      utxoID ∈ consumedUTXOIDNoDeposits S txs := by
  rw [consumedUTXOIDOnlyDeposits_eq]
  simp [trieWrites]

omit [DecidableEq ι] in
theorem mem_writes_keys : utxoID ∈ (Ledger.writes S txs).map Prod.fst ↔
    utxoID ∈ consumedUTXOIDNoDeposits S txs ∨ ∃ utxo ∈ generatedUTXOs txs, utxo.utxoID
      S = utxoID := by
  simp [Ledger.writes]

namespace Applied

variable {root : Root ι} (h : Applied S st txs root st')

include h

theorem ids_nodup : ((trieWrites S txs).map Prod.fst).Nodup := by
  obtain ⟨trie, htrie, -⟩ := h.trie
  exact nodup_of_keys (nextTrie_nodup htrie)

theorem writes_nodup : ((Ledger.writes S txs).map Prod.fst).Nodup := by
  have hkeys := h.ids_nodup
  simp only [trieWrites, Ledger.writes, map_append, map_map, nodup_append, mem_append] at hkeys ⊢
  obtain ⟨⟨hgen, -, -⟩, hdel, hdisj⟩ := hkeys
  exact ⟨hdel, hgen, fun a ha b hb hab => hdisj b (.inl hb) a ha hab.symm⟩

/-- The key of a consumed deposit is not written in the ledger of the unspent outputs. -/
theorem deposit_notMem_writes (hid : utxoID ∈ consumedUTXOIDOnlyDeposits S txs) :
    utxoID ∉ (Ledger.writes S txs).map Prod.fst := by
  have hkeys := h.ids_nodup
  simp only [trieWrites, map_append, map_map, nodup_append, mem_append] at hkeys
  obtain ⟨⟨-, -, hgen⟩, -, hdel⟩ := hkeys
  rw [consumedUTXOIDOnlyDeposits_eq] at hid
  rw [mem_writes_keys]
  rintro (hmem | ⟨utxo, hutxo, heq⟩)
  · exact hdel utxoID (.inr hid) utxoID (mem_map.mpr ⟨_, hmem, rfl⟩) rfl
  · exact hgen utxoID (mem_map.mpr ⟨utxo, hutxo, heq⟩) utxoID hid rfl

theorem lookup_generated {utxo : TXOut ι} (hutxo : utxo ∈ generatedUTXOs txs) :
    (l.apply S txs).unspent.lookup (utxo.utxoID S) = some utxo.stored := by
  refine Batch.lookup_foldl_of_mem h.writes_nodup ?_
  simp only [Ledger.writes, mem_append, mem_map]
  exact .inr ⟨utxo, hutxo, rfl⟩

theorem lookup_consumed (hid : utxoID ∈ consumedUTXOIDNoDeposits S txs) :
    (l.apply S txs).unspent.lookup utxoID = none := by
  refine Batch.lookup_foldl_of_mem h.writes_nodup ?_
  simp only [Ledger.writes, mem_append, mem_map]
  exact .inl ⟨utxoID, hid, rfl⟩

end Applied

theorem lookup_other (hid : utxoID ∉ (Ledger.writes S txs).map Prod.fst) :
    (l.apply S txs).unspent.lookup utxoID = l.unspent.lookup utxoID :=
  Batch.lookup_foldl_of_notMem hid

end UTXOHandler

open UTXOHandler

section Applied

variable {root : Root ι} {m m' : ι → Option (Digest ι)}

section

omit [DecidableEq ι]

variable (h : Updated m m' (trieWrites S txs))

include h

theorem Updated.generated {utxo : TXOut ι} (hutxo : utxo ∈ generatedUTXOs txs) :
    m' (utxo.utxoID S) = some (.value (utxo.preHash S)) := by
  refine h.of_mem (v := some (utxo.preHash S)) ?_
  simp only [trieWrites, mem_append, mem_map]
  exact .inl (.inl ⟨utxo, hutxo, rfl⟩)

theorem Updated.consumed (hid : utxoID ∈ consumedUTXOIDNoDeposits S txs) : m' utxoID = none := by
  refine h.of_mem (v := none) ?_
  simp only [trieWrites, mem_append, mem_map]
  exact .inr ⟨utxoID, hid, rfl⟩

theorem Updated.deposit (hid : utxoID ∈ consumedUTXOIDOnlyDeposits S txs) : m' utxoID ≠ none := by
  rw [consumedUTXOIDOnlyDeposits_eq] at hid
  obtain ⟨txIn, htxIn, rfl⟩ := mem_map.mp hid
  have hmem : (txIn.utxoID S, some (txIn.preHash S)) ∈ trieWrites S txs := by
    simp only [trieWrites, mem_append, mem_map]
    exact .inl (.inr ⟨txIn, htxIn, rfl⟩)
  rw [h.of_mem hmem]
  exact Option.some_ne_none _

end

/-- A block that is applied does to the ledger what it does to the map; the deposits that it
consumes must not be spent. -/
theorem Ledger.Describes.applied (h : l.Describes S m) (hr : st.Refines S l)
    (ha : Applied S st txs root st') (hu : Updated m m' (trieWrites S txs))
    (hdep : ∀ utxoID ∈ consumedUTXOIDOnlyDeposits S txs, st.trieContains S utxoID = .ok false) :
    (l.apply S txs).Describes S m' := by
  have hnew {id} (hid : st.trieContains S id = .ok false) : m id = none := by
    rw [hr.trieContains, Except.ok.injEq, decide_eq_false_iff_not, ← h.present, not_not] at hid
    exact hid
  -- a key that neither the ledger nor a deposit writes is not written in the trie
  have hother {id} (hid : id ∉ (Ledger.writes S txs).map Prod.fst) (hmem : m id ≠ none) :
      m' id = m id := by
    refine hu.of_notMem fun hkey => ?_
    rw [mem_writes_keys, not_or] at hid
    rcases mem_trieWrites_keys.mp hkey with hgen | hd | hc
    · exact hid.2 hgen
    · exact hmem (hnew (hdep id hd))
    · exact hid.1 hc
  have hspent {id} (hid : id ∈ l.spentDeposits) : id ∉ (Ledger.writes S txs).map Prod.fst := by
    rw [mem_writes_keys]
    rintro (hc | ⟨utxo, hgen, rfl⟩)
    · exact h.disjoint id hid (ha.consumed hr.backs id hc)
    · exact h.present.mpr (.inr hid) (hnew (ha.fresh utxo hgen))
  constructor
  case unspent =>
    intro id utxo hutxo
    by_cases hid : id ∈ (Ledger.writes S txs).map Prod.fst
    · rcases mem_writes_keys.mp hid with hc | ⟨utxo', hgen, rfl⟩
      · rw [ha.lookup_consumed hc] at hutxo
        cases hutxo
      · rw [ha.lookup_generated hgen] at hutxo
        rw [hu.generated hgen, ← Option.some.inj hutxo, TXOut.preHash_stored]
    · rw [lookup_other hid] at hutxo
      rw [hother hid (by rw [h.unspent hutxo]; exact Option.some_ne_none _), h.unspent hutxo]
  case present =>
    intro id
    by_cases hkey : id ∈ (trieWrites S txs).map Prod.fst
    · rcases mem_trieWrites_keys.mp hkey with ⟨utxo, hgen, rfl⟩ | hd | hc
      · refine iff_of_true ?_ (.inl (lookup_isSome.mp (by rw [ha.lookup_generated hgen]; rfl)))
        rw [hu.generated hgen]
        exact Option.some_ne_none _
      · exact iff_of_true (hu.deposit hd) (.inr (mem_append_right _ hd))
      · refine iff_of_false (not_not.mpr (hu.consumed hc)) (not_or.mpr ⟨?_, fun hd => ?_⟩)
        · exact lookup_eq_none.mp (ha.lookup_consumed hc)
        · have hw := mem_writes_keys.mpr (.inl hc)
          rcases mem_append.mp hd with hd | hd
          · exact hspent hd hw
          · exact ha.deposit_notMem_writes hd hw
    · have hw : id ∉ (Ledger.writes S txs).map Prod.fst := fun hw =>
        hkey (mem_trieWrites_keys.mpr
          ((mem_writes_keys.mp hw).elim (fun hc => .inr (.inr hc)) .inl))
      have hd : id ∉ consumedUTXOIDOnlyDeposits S txs := fun hd =>
        hkey (mem_trieWrites_keys.mpr (.inr (.inl hd)))
      rw [hu.of_notMem hkey, h.present, ← lookup_isSome, ← lookup_isSome, lookup_other hw]
      simp [Ledger.apply, hd]
  case disjoint =>
    intro id hid
    refine lookup_eq_none.mp ?_
    rcases mem_append.mp hid with hid | hid
    · rw [lookup_other (hspent hid)]
      exact lookup_eq_none.mpr (h.disjoint id hid)
    · rw [lookup_other (ha.deposit_notMem_writes hid)]
      exact lookup_eq_none.mpr fun hmem => h.present.mpr (.inl hmem) (hnew (hdep id hid))

variable {x : Radix.Tree Key (Digest ι) × (Key → Option (Digest ι))}

/-- A block that does not clash keeps the trie to the ledger. -/
theorem State.Tracks.applied (hkey : Function.Injective S.key) (h : st.Tracks S l x)
    (ha : Applied S st txs root st')
    (hdep : ∀ utxoID ∈ consumedUTXOIDOnlyDeposits S txs, st.trieContains S utxoID = .ok false)
    (hclash : ¬Trie.Clashes hasher (l.Present S) ((trieWrites S txs).map (trieEntry S))) :
    ∃ x', st'.Tracks S (l.apply S txs) x' := by
  obtain ⟨trie, htrie, hroot, hnodes⟩ := ha.trie
  have hcurrent (hr : (if root = some (.value S.zero) then none else root) = trie.root) :
      st'.getCurrentTrie S = .newSMT trie.commit.root trie.commit.store.db := by
    rw [getCurrentTrie, getCurrentStateRoot, hroot, hnodes, Option.getD_some, hr]
    rfl
  obtain ⟨x', hx', hholds, hu, hrange, hr⟩ : ∃ x', Trie.Tracks hasher x' ∧ trie.Holds hasher x'.1 ∧
      Updated (fun utxoID => x.2 (S.key utxoID)) (fun utxoID => x'.2 (S.key utxoID))
      (trieWrites S txs) ∧
      (∀ k, x'.2 k ≠ none → x.2 k ≠ none ∨ ∃ utxoID, S.key utxoID = k) ∧
      (if root = some (.value S.zero) then none else root) = trie.root := by
    rcases nextTrie_ok htrie with ⟨rfl, rfl, rfl⟩ | ⟨kvs, hkvs, hupdate, rfl⟩
    · exact ⟨x, h.tracks, h.holds, ⟨fun hkv => absurd hkv not_mem_nil, fun _ => rfl⟩,
        fun _ => .inl, rfl⟩
    · obtain rfl := trieKVs_ok hkvs
      obtain ⟨x', hx', hholds, hu, hrange⟩ := updateTrie_tracks hkey h.tracks h.holds hupdate
        (by simpa only [h.present_iff] using hclash)
      exact ⟨x', hx', hholds, hu, hrange, if_neg (root_ne_value hholds S.zero)⟩
  refine ⟨x', ?_, hx', ?_, h.describes.applied h.refines ha hu hdep, fun k hk => ?_⟩
  · exact ha.backs h.backs fun _ => h.refines.contains_unspent
  · rw [hcurrent hr]
    exact hholds.reload
  · exact (hrange k hk).elim (h.range k) id

end Applied

/-! ## Runs of the UTXO handler -/

/-- A block for the UTXO handler, with the deposits that the deposit handler has found. -/
structure UTXOHandler.Block (ι : Type) where
  txs : List (Tx ι)
  height : Nat
  deposits : List (TXOut ι)

/-- A block that `IsValid` accepts is applied. A failed call leaves nothing behind. -/
def UTXOHandler.commit (S : Scheme ι) (c : State ι × Ledger ι) (b : Block ι) : State ι × Ledger ι :=
  match isValid S c.1 b.txs b.height b.deposits with
  | .error _ => c
  | .ok _ =>
    -- `IsValid` has asked the outputs for their UTXO IDs
    let txs := b.txs.map (·.cacheUTXOIDs S)
    match applyState S c.1 txs b.height with
    | .error _ => c
    | .ok (_, st) => (st, c.2.apply S txs)

omit [DecidableEq ι] in
@[simp] theorem TxVec.consumedUTXOIDOnlyDeposits_cacheUTXOIDs (txs : List (Tx ι)) :
    consumedUTXOIDOnlyDeposits S (txs.map (·.cacheUTXOIDs S)) =
      consumedUTXOIDOnlyDeposits S txs := by
  simp only [consumedUTXOIDOnlyDeposits, flatMap_map]
  rfl

/-- A block is accepted and applied, or nothing changes. -/
theorem UTXOHandler.commit_cases (S : Scheme ι) (c : State ι × Ledger ι) (b : Block ι) :
    commit S c b = c ∨ ∃ consumed root st',
      isValid S c.1 b.txs b.height b.deposits = .ok consumed ∧
      applyState S c.1 (b.txs.map (·.cacheUTXOIDs S)) b.height = .ok (root, st') ∧
      commit S c b = (st', c.2.apply S (b.txs.map (·.cacheUTXOIDs S))) := by
  unfold commit
  cases hvalid : isValid S c.1 b.txs b.height b.deposits with
  | error e => exact .inl rfl
  | ok consumed =>
    dsimp only
    cases happly : applyState S c.1 (b.txs.map (·.cacheUTXOIDs S)) b.height with
    | error e => exact .inl rfl
    | ok r => exact .inr ⟨consumed, r.1, r.2, rfl, rfl, rfl⟩

/-- The block is accepted and applied although its update clashes with the keys that the ledger
knows. -/
def UTXOHandler.Block.Clashes (S : Scheme ι) (c : State ι × Ledger ι) (b : Block ι) : Prop :=
  let txs := b.txs.map (·.cacheUTXOIDs S)
  (∃ consumed, isValid S c.1 b.txs b.height b.deposits = .ok consumed) ∧
    (∃ r, applyState S c.1 txs b.height = .ok r) ∧
    Trie.Clashes hasher (c.2.Present S) ((trieWrites S txs).map (trieEntry S))

/-- `IsValid` has found the deposits that the block consumes to be unspent. -/
theorem UTXOHandler.deposits_of_isValid {b : UTXOHandler.Block ι} {consumed : List (TXOut ι)}
    (h : isValid S st b.txs b.height b.deposits = .ok consumed) :
    ∀ utxoID ∈ consumedUTXOIDOnlyDeposits S (b.txs.map (·.cacheUTXOIDs S)),
      st.trieContains S utxoID = .ok false := by
  rw [consumedUTXOIDOnlyDeposits_cacheUTXOIDs]
  exact (valid_of_isValid h).1.deposits

theorem State.Tracks.commit (hkey : Function.Injective S.key) {c : State ι × Ledger ι}
    {b : UTXOHandler.Block ι} (h : ∃ x, c.1.Tracks S c.2 x) (hclash : ¬b.Clashes S c) :
    ∃ x, (UTXOHandler.commit S c b).1.Tracks S (UTXOHandler.commit S c b).2 x := by
  obtain ⟨x, hx⟩ := h
  rcases commit_cases S c b with heq | ⟨consumed, root, st', hvalid, happly, heq⟩
  · rw [heq]
    exact ⟨x, hx⟩
  · rw [heq]
    exact hx.applied hkey (applied_of_applyState happly) (deposits_of_isValid hvalid)
      fun hc => hclash ⟨⟨_, hvalid⟩, ⟨_, happly⟩, hc⟩

/-- The indexes hold exactly the unspent outputs, and so does the trie beside the spent deposits. -/
structure State.IndexesAgree (S : Scheme ι) (st : State ι) (l : Ledger ι) : Prop where
  unspent : ∀ utxoID utxo, l.unspent.lookup utxoID = some utxo →
    st.utxos utxoID = some utxo ∧
      (st.getCurrentTrie S).get (S.key utxoID) = .ok (some (.value (utxo.preHash S)))
  trie : ∀ utxoID, st.trieContains S utxoID =
    .ok (decide (utxoID ∈ l.unspent ∨ utxoID ∈ l.spentDeposits))
  disjoint : ∀ utxoID ∈ l.spentDeposits, utxoID ∉ l.unspent
  value : ∀ owner value utxoID utxoID', st.valueIndex.lookup (owner, value, utxoID) = some utxoID' ↔
      utxoID' = utxoID ∧ ∃ vs, l.unspent.lookup utxoID = some (.valueStore vs) ∧
        vs.preImage.owner = owner ∧ vs.preImage.value = value
  value_ref : ∀ key utxoID, st.valueIndex.lookup key = some utxoID ↔
    st.valueIndex.ref utxoID = some key
  data : ∀ owner index utxoID, st.dataIndex.lookup (owner, index) = some utxoID ↔
    ∃ ds, l.unspent.lookup utxoID = some (.dataStore ds) ∧
      ds.preImage.owner = owner ∧ ds.preImage.index = index
  data_ref : ∀ key utxoID, st.dataIndex.lookup key = some utxoID ↔
    st.dataIndex.ref utxoID = some key
  exp : ∀ expEpoch size utxoID, (expEpoch, size, utxoID) ∈ st.expIndex.keys ↔
    ∃ ds, l.unspent.lookup utxoID = some (.dataStore ds) ∧
      ds.preImage.epochOfExpiration = .ok expEpoch ∧ S.objSize (.dataStore ds) = size
  exp_ref : ∀ expEpoch size utxoID,
    (expEpoch, size, utxoID) ∈ st.expIndex.keys ↔ st.expIndex.ref utxoID = some (expEpoch, size)
  unique : ∀ utxoID utxoID' ds ds', l.unspent.lookup utxoID = some (.dataStore ds) →
    l.unspent.lookup utxoID' = some (.dataStore ds') → ds.preImage.owner = ds'.preImage.owner →
    ds.preImage.index = ds'.preImage.index → utxoID = utxoID'

section

omit [DecidableEq ι]

variable {utxo : TXOut ι}

theorem TXOut.valueKey_eq_some {id : ι} {owner : Owner} {value : Nat} :
    utxo.valueKey id = some (owner, value, utxoID) ↔
      id = utxoID ∧ ∃ vs, utxo = .valueStore vs ∧ vs.preImage.owner = owner ∧
      vs.preImage.value = value := by
  cases utxo with
  | valueStore vs =>
    simp only [valueKey, Option.some.injEq, Prod.mk.injEq, TXOut.valueStore.injEq, exists_eq_left']
    tauto
  | dataStore ds | atomicSwap as => simp [valueKey]

theorem TXOut.dataIndex_eq_some {owner : Owner} {index : ι} : utxo.dataIndex = some (owner, index) ↔
      ∃ ds, utxo = .dataStore ds ∧ ds.preImage.owner = owner ∧ ds.preImage.index = index := by
  cases utxo <;> simp [dataIndex]

theorem TXOut.expKey_eq_some {expEpoch size : Nat} : utxo.expKey S = some (expEpoch, size) ↔
      ∃ ds, utxo = .dataStore ds ∧ ds.preImage.epochOfExpiration = .ok expEpoch ∧
        S.objSize (.dataStore ds) = size := by
  cases utxo with
  | dataStore ds =>
    simp only [expKey, TXOut.dataStore.injEq, exists_eq_left', Option.map_eq_some_iff]
    cases ds.preImage.epochOfExpiration with
    | error e | ok eoe => simp [Except.toOption]
  | valueStore vs | atomicSwap as => simp [expKey]

end

theorem State.Refines.indexesAgree (h : st.Refines S l) : st.IndexesAgree S l := by
  have hi := h.backs.indexed
  have hdata (owner index utxoID) : st.dataIndex.lookup (owner, index) = some utxoID ↔
      ∃ ds, l.unspent.lookup utxoID = some (.dataStore ds) ∧ ds.preImage.owner = owner ∧
        ds.preImage.index = index := by
    simp only [hi.data.lookup_iff, Option.bind_eq_some_iff, TXOut.dataIndex_eq_some]
    constructor
    · rintro ⟨_, hutxo, ds, rfl, hds⟩
      exact ⟨ds, hutxo, hds⟩
    · rintro ⟨ds, hutxo, hds⟩
      exact ⟨_, hutxo, ds, rfl, hds⟩
  constructor
  case unspent =>
    intro utxoID utxo hutxo
    obtain ⟨m, hm, hreads⟩ := h.reads
    exact ⟨h.backs.stored hutxo, by rw [hreads, hm.unspent hutxo]⟩
  case trie => exact h.trieContains
  case disjoint => exact fun utxoID => h.disjoint
  case value =>
    intro owner value utxoID utxoID'
    simp only [hi.value.lookup_iff, Option.bind_eq_some_iff, TXOut.valueKey_eq_some]
    constructor
    · rintro ⟨_, hutxo, rfl, vs, rfl, hvs⟩
      exact ⟨rfl, vs, hutxo, hvs⟩
    · rintro ⟨rfl, vs, hutxo, hvs⟩
      exact ⟨_, hutxo, rfl, vs, rfl, hvs⟩
  case value_ref =>
    intro key utxoID
    rw [hi.value.ref_eq, hi.value.lookup_iff]
  case data => exact hdata
  case data_ref =>
    intro key utxoID
    rw [hi.data.ref_eq, hi.data.lookup_iff]
  case exp =>
    intro expEpoch size utxoID
    simp only [hi.exp_keys, hi.exp_ref, Option.bind_eq_some_iff, TXOut.expKey_eq_some]
    constructor
    · rintro ⟨_, hutxo, ds, rfl, hds⟩
      exact ⟨ds, hutxo, hds⟩
    · rintro ⟨ds, hutxo, hds⟩
      exact ⟨_, hutxo, ds, rfl, hds⟩
  case exp_ref => exact hi.exp_keys
  case unique =>
    intro utxoID utxoID' ds ds' hds hds' howner hindex
    have hlookup := (hdata _ _ utxoID).mpr ⟨ds, hds, rfl, rfl⟩
    have hlookup' := (hdata _ _ utxoID').mpr ⟨ds', hds', howner.symm, hindex.symm⟩
    exact Option.some.inj (hlookup.symm.trans hlookup')

/-- In every run of blocks that `IsValid` accepts and that do not clash in the trie, the indexes and
the trie agree with the ledger. -/
theorem UTXOHandler.indexesAgree_after_run (hkey : Function.Injective S.key)
    {blocks : List (Block ι)}
    (hclash : Run.Along (fun c b => ¬b.Clashes S c) (commit S) (State.empty, Ledger.empty) blocks) :
    (Run.exec (commit S) (State.empty, Ledger.empty) blocks).1.IndexesAgree S
      (Run.exec (commit S) (State.empty, Ledger.empty) blocks).2 := by
  obtain ⟨x, hx⟩ := Run.invariant (fun c : State ι × Ledger ι => ∃ x, c.1.Tracks S c.2 x)
    (fun _ _ h hclash => State.Tracks.commit hkey h hclash) ⟨_, State.Tracks.empty⟩ hclash
  exact hx.refines.indexesAgree

/-! ## What is consumed was generated -/

/-- An output has been consumed as often as it has been generated, or once less while it is unspent,
and no deposit has been consumed twice. -/
structure Ledger.Balanced (l : Ledger ι) : Prop where
  outputs : ∀ utxoID,
    l.generated.count utxoID = l.consumed.count utxoID + if utxoID ∈ l.unspent then 1 else 0
  deposits : l.spentDeposits.Nodup

theorem Ledger.Balanced.applied {root : Root ι} (h : l.Balanced) (hr : st.Refines S l)
    (ha : Applied S st txs root st')
    (hdep : ∀ utxoID ∈ consumedUTXOIDOnlyDeposits S txs, st.trieContains S utxoID = .ok false) :
    (l.apply S txs).Balanced := by
  have hnew {id} (hid : st.trieContains S id = .ok false) :
      ¬(id ∈ l.unspent ∨ id ∈ l.spentDeposits) := by
    rwa [hr.trieContains, Except.ok.injEq, decide_eq_false_iff_not] at hid
  have hkeys := ha.writes_nodup
  simp only [writes, map_append, map_map, Function.comp_def, map_id'] at hkeys
  obtain ⟨hcons, hgen, hdisj⟩ := nodup_append.mp hkeys
  refine ⟨fun utxoID => ?_, ?_⟩
  · have hold := h.outputs utxoID
    change count utxoID (l.generated ++ _) = count utxoID (l.consumed ++ _) +
      if utxoID ∈ (l.apply S txs).unspent then 1 else 0
    rw [count_append, count_append]
    by_cases hc : utxoID ∈ consumedUTXOIDNoDeposits S txs
    · -- it was unspent, and is not generated again
      have hg : utxoID ∉ (generatedUTXOs txs).map (·.utxoID S) := fun hg => hdisj _ hc _ hg rfl
      rw [if_pos (ha.consumed hr.backs utxoID hc)] at hold
      rw [count_eq_zero_of_not_mem hg, count_eq_one_of_mem hcons hc,
        if_neg (lookup_eq_none.mp (ha.lookup_consumed hc))]
      omega
    · rw [count_eq_zero_of_not_mem hc]
      by_cases hg : utxoID ∈ (generatedUTXOs txs).map (·.utxoID S)
      · -- it is new to the trie
        obtain ⟨utxo, hutxo, rfl⟩ := mem_map.mp hg
        rw [if_neg fun hmem => hnew (ha.fresh utxo hutxo) (.inl hmem)] at hold
        rw [count_eq_one_of_mem hgen hg, if_pos (lookup_isSome.mp (by
          rw [ha.lookup_generated hutxo]; rfl))]
        omega
      · have hsame : utxoID ∈ (l.apply S txs).unspent ↔ utxoID ∈ l.unspent := by
          rw [← lookup_isSome, ← lookup_isSome, lookup_other]
          simpa [writes] using ⟨hc, by simpa using hg⟩
        simp only [count_eq_zero_of_not_mem hg, hsame, hold, Nat.add_zero]
  · refine nodup_append.mpr ⟨h.deposits, ?_, ?_⟩
    · have hall := ha.ids_nodup
      simp only [UTXOHandler.trieWrites, map_append, map_map] at hall
      rw [UTXOHandler.consumedUTXOIDOnlyDeposits_eq]
      exact hall.of_append_left.of_append_right
    · rintro utxoID hold _ hid rfl
      exact hnew (hdep utxoID hid) (.inr hold)

/-- In every run of blocks that `IsValid` accepts and that do not clash in the trie, what is
consumed was generated before, each time once, and a deposit is consumed once. -/
theorem UTXOHandler.balanced_after_run (hkey : Function.Injective S.key) {blocks : List (Block ι)}
    (hclash : Run.Along (fun c b => ¬b.Clashes S c) (commit S) (State.empty, Ledger.empty) blocks) :
    (Run.exec (commit S) (State.empty, Ledger.empty) blocks).2.Balanced := by
  have hrun := Run.invariant
    (fun c : State ι × Ledger ι => (∃ x, c.1.Tracks S c.2 x) ∧ c.2.Balanced)
    (fun c b h hclash => ?_)
    ⟨⟨_, State.Tracks.empty⟩, fun _ => rfl, nodup_nil⟩ hclash
  · exact hrun.2
  · refine ⟨State.Tracks.commit hkey h.1 hclash, ?_⟩
    obtain ⟨⟨x, hx⟩, hbalanced⟩ := h
    rcases commit_cases S c b with heq | ⟨consumed, root, st', hvalid, happly, heq⟩
    · rw [heq]
      exact hbalanced
    · rw [heq]
      exact hbalanced.applied hx.refines (applied_of_applyState happly) (deposits_of_isValid hvalid)

/-! ## Blocks that clash -/

namespace Clash

/-- A key by its first five bits. -/
def key (n : Nat) : Key := .ofNat 256 (n * 2 ^ 251)

/-- Hashes that are chosen for the keys they give: the second output of a transaction has a key that
is three larger than that of the first. -/
def scheme : Scheme Key where
  key := id
  zero := 0
  hashNothing := 0
  hashIdx txHash idx := txHash + key (3 * idx)
  preHashIn pi := pi.consumedTxHash
  preHashOut _ := 1
  hashIndex _ index := index
  hashKey _ := 0
  hashNode _ := 0
  recover _ _ sig := .ok sig
  objSize _ := 0

def owner : Owner := { curveSpec := .secp256k1, account := [] }

/-- A transaction with the hash `txHash` that consumes one output and pays `1` to each of its
`outputs` outputs. -/
def tx (consumedTxHash : Nat) (consumedTxIdx : Nat) (txHash : Nat) (outputs : Nat) : Tx Key where
  vin := [{
    linker := {
      preImage := {
        chainID := 1, consumedTxIdx, consumedTxHash := key consumedTxHash
        chainID_ne := by decide }
      txHash := key txHash }
    signature := [] }]
  vout := (List.range outputs).map fun idx => .valueStore {
    preImage := {
      chainID := 1, value := if outputs = 1 then 2 else 1, txOutIdx := idx, owner, fee := 0
      chainID_ne := by decide, value_ne := by split <;> decide }
    txHash := key txHash
    utxoID := none }
  fee := 0
  txHash := none

def deposit (n : Nat) : List (TXOut Key) :=
  (DepositHandler.newDeposit 1 (key n) 2 owner).toOption.toList

/-- The output `10110` is generated; it is consumed when `10101` and `11000` are generated; at last
`11100` is generated. The deposits that are consumed have keys that begin with a `0`. -/
def blocks (others : List (Tx Key)) : List (UTXOHandler.Block Key) :=
  [{ txs := tx 1 maxUint32 22 1 :: others, height := 1, deposits := deposit 1 ++ deposit 2 },
    { txs := [tx 22 0 21 2], height := 2, deposits := [] },
    { txs := [tx 3 maxUint32 28 1], height := 3, deposits := deposit 3 }]

/-- The last output is in the value index, and not in the trie. -/
theorem index_after_clash :
    let c := Run.exec (UTXOHandler.commit scheme) (State.empty, Ledger.empty) (blocks [])
    c.2.generated = [key 22, key 21, key 24, key 28] ∧ c.2.consumed = [key 22] ∧
      c.1.valueIndex.lookup (owner, 2, key 28) = some (key 28) ∧
      c.1.trieContains scheme (key 28) = .ok false := by
  decide +kernel

/-- The output `10111` is generated as well, and is still there when `10110` is consumed. -/
def others : List (Tx Key) := [tx 2 maxUint32 23 1]

theorem along_others : Run.Along (fun c b => ¬b.Clashes scheme c) (UTXOHandler.commit scheme)
    (State.empty, Ledger.empty) (blocks others) := by
  have hpresent : key 23 ∈ (Run.exec (UTXOHandler.commit scheme) (State.empty, Ledger.empty)
      ((blocks others).take 1)).2.unspent := by
    decide +kernel
  exact ⟨fun hc => Trie.not_clashes_of_no_deletion (by decide +kernel) hc.2.2,
    fun hc => Trie.not_clashes_of_between (k := key 23) ⟨key 23, rfl, .inl hpresent⟩
      (by decide +kernel) hc.2.2,
    fun hc => Trie.not_clashes_of_no_deletion (by decide +kernel) hc.2.2, trivial⟩

/-- Then the trie has the last output too. -/
theorem indexesAgree_others :
    let c := Run.exec (UTXOHandler.commit scheme) (State.empty, Ledger.empty) (blocks others)
    c.1.IndexesAgree scheme c.2 ∧ c.2.consumed = [key 22] ∧
      c.1.trieContains scheme (key 28) = .ok true := by
  refine ⟨UTXOHandler.indexesAgree_after_run Function.injective_id along_others, ?_, ?_⟩ <;>
    decide +kernel

theorem balanced_others :
    let c := Run.exec (UTXOHandler.commit scheme) (State.empty, Ledger.empty) (blocks others)
    c.2.Balanced ∧ c.2.consumed = [key 22] := by
  refine ⟨UTXOHandler.balanced_after_run Function.injective_id along_others, ?_⟩
  decide +kernel

end Clash

end MadNet.App
