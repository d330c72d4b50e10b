import MadNet.Application.Ledger
import MadNet.Application.Symbolic

/-!
# Accepted blocks are applied

`ApplyState` makes the checks of `IsValid` again, and then makes some of its own. Where the state
refines a ledger, these are: no output is an AtomicSwap, every transaction can be mined at the
height, and the root of the last epoch is there when an epoch ends. The indexes cause no error,
because the checks have found that what is consumed is in them and what is generated is not.
-/

namespace MadNet.App

open List UTXOHandler TxVec
open Prog (bind₂_ok bind_eq_ok bind_ok)

variable {ι : Type} [DecidableEq ι] {S : Scheme ι} {st st' : State ι} {l : Ledger ι}
  {txs txs' : List (Tx ι)} {utxoID : ι}

def TXOut.isAtomicSwap : TXOut ι → Bool
  | .atomicSwap _ => true
  | _ => false

omit [DecidableEq ι] in
theorem DSPreImage.epochOfExpiration_ok (b : DSPreImage ι) :
    ∃ expEpoch, b.epochOfExpiration = .ok expEpoch := by
  obtain ⟨n, -, hpaid⟩ := validateDeposit_paid b.valid
  refine ⟨(b.issuedAt + n + 1) % 2 ^ 32, ?_⟩
  simp only [epochOfExpiration, hpaid.numEpochs]
  rfl

/-! ## Dropping -/

namespace State.Backs

variable {m : AList fun _ : ι => TXOut ι}

theorem exists_drop (h : st.Backs S m) (hmem : utxoID ∈ m) :
    ∃ st', dropFromIndexes st utxoID = .ok st' := by
  obtain ⟨utxo, hutxo⟩ := Option.isSome_iff_exists.mp (AList.lookup_isSome.mpr hmem)
  cases utxo with
  | atomicSwap as => exact absurd hutxo h.swapless
  | valueStore vs =>
    have href : st.valueIndex.ref utxoID = some (vs.preImage.owner, vs.preImage.value, utxoID) := by
      rw [h.indexed.value.ref_eq]
      simp only [hutxo, Option.bind_some]
      rfl
    simp only [dropFromIndexes, h.stored hutxo, ValueIndex.drop, href]
    exact ⟨_, rfl⟩
  | dataStore ds =>
    have hdata : st.dataIndex.ref utxoID = some (ds.preImage.owner, ds.preImage.index) := by
      rw [h.indexed.data.ref_eq]
      simp only [hutxo, Option.bind_some]
      rfl
    obtain ⟨expEpoch, hexp⟩ := ds.preImage.epochOfExpiration_ok
    have href : st.expIndex.ref utxoID = some (expEpoch, S.objSize (.dataStore ds)) := by
      rw [h.indexed.exp_ref]
      simp only [hutxo, Option.bind_some]
      exact TXOut.expKey_eq_some.mpr ⟨ds, rfl, hexp, rfl⟩
    simp only [dropFromIndexes, h.stored hutxo, ExpSizeIndex.drop, href, DataIndex.drop, hdata]
    exact ⟨_, rfl⟩

theorem exists_drop_all {utxoIDs : List ι} (h : st.Backs S m) (hnodup : utxoIDs.Nodup)
    (hmem : ∀ utxoID ∈ utxoIDs, utxoID ∈ m) :
    ∃ st', utxoIDs.foldlM dropFromIndexes st = .ok st' := by
  induction utxoIDs generalizing st m with
  | nil => exact ⟨st, rfl⟩
  | cons utxoID utxoIDs ih =>
    rw [nodup_cons] at hnodup
    obtain ⟨st₁, hdrop⟩ := h.exists_drop (hmem utxoID (by simp))
    obtain ⟨st', hdrops⟩ := ih (h.drop hdrop).1 hnodup.2 fun id hid =>
      AList.mem_erase.mpr ⟨fun heq => hnodup.1 (heq ▸ hid), hmem id (by simp [hid])⟩
    refine ⟨st', ?_⟩
    rw [foldlM_cons]
    exact bind_eq_ok.mpr ⟨st₁, hdrop, hdrops⟩

end State.Backs

/-! ## Adding -/

theorem DataIndex.exists_add {di : DataIndex ι} {key : DataKey ι} (utxoID : ι)
    (h : di.lookup key = none) : ∃ di', di.add utxoID key = .ok di' ∧
      ∀ key', key' ≠ key → di'.lookup key' = di.lookup key' := by
  simp only [add, h]
  exact ⟨_, rfl, fun key' hne => Function.update_of_ne hne _ _⟩

namespace UTXOHandler

theorem exists_addOne {utxo : TXOut ι} (hswap : utxo.isAtomicSwap = false)
    (hnew : st.trieContains S (utxo.utxoID S) = .ok false)
    (hdata : ∀ key, utxo.dataIndex = some key → st.dataIndex.lookup key = none) :
    ∃ st', addOne S st utxo = .ok st' ∧
      ∀ key, utxo.dataIndex ≠ some key → st'.dataIndex.lookup key = st.dataIndex.lookup key := by
  cases utxo with
  | atomicSwap as => cases hswap
  | valueStore vs =>
    refine ⟨_, bind_eq_ok.mpr ⟨(), (checkTrie_eq_ok S).mpr hnew, rfl⟩, fun key _ => rfl⟩
  | dataStore ds =>
    obtain ⟨expEpoch, hexp⟩ := ds.preImage.epochOfExpiration_ok
    obtain ⟨di, hadd, hsame⟩ := DataIndex.exists_add ((TXOut.dataStore ds).utxoID S) (hdata _ rfl)
    refine ⟨_, bind_eq_ok.mpr ⟨(), (checkTrie_eq_ok S).mpr hnew, bind_eq_ok.mpr
      ⟨expEpoch, hexp, bind_eq_ok.mpr ⟨di, hadd, rfl⟩⟩⟩, fun key hkey => ?_⟩
    exact hsame key fun heq => hkey (by rw [heq]; rfl)

theorem exists_addAll {outs : List (TXOut ι)} (hswap : ∀ utxo ∈ outs, utxo.isAtomicSwap = false)
    (hnew : ∀ utxo ∈ outs, st.trieContains S (utxo.utxoID S) = .ok false)
    (hunique : (outs.filterMap TXOut.dataIndex).Nodup)
    (hdata : ∀ key ∈ outs.filterMap TXOut.dataIndex, st.dataIndex.lookup key = none) :
    ∃ st', outs.foldlM (addOne S) st = .ok st' := by
  induction outs generalizing st with
  | nil => exact ⟨st, rfl⟩
  | cons utxo outs ih =>
    obtain ⟨st₁, hadd, hsame⟩ := exists_addOne (hswap utxo (by simp)) (hnew utxo (by simp))
      fun key hkey => hdata key (mem_filterMap.mpr ⟨utxo, by simp, hkey⟩)
    have hbase := (addOne_base hadd).1
    obtain ⟨st', hadds⟩ := @ih st₁ (fun utxo' h => hswap utxo' (by simp [h]))
      (fun utxo' h => (hbase.trieContains _).trans (hnew utxo' (by simp [h])))
      (hunique.sublist ((sublist_cons_self utxo outs).filterMap _)) fun key hkey => by
        rw [hsame key fun heq => ?_]
        · obtain ⟨utxo', hutxo', hkey'⟩ := mem_filterMap.mp hkey
          exact hdata key (mem_filterMap.mpr ⟨utxo', by simp [hutxo'], hkey'⟩)
        · rw [filterMap_cons_some heq, nodup_cons] at hunique
          exact hunique.1 hkey
    refine ⟨st', ?_⟩
    rw [foldlM_cons]
    exact bind_eq_ok.mpr ⟨st₁, hadd, hadds⟩

omit [DecidableEq ι] in
theorem exists_updateRoots {height : Nat} {root : Root ι}
    (h : height % epochLength = 0 → st.pendingRoot.isSome) :
    ∃ st', updateRoots st height root = .ok st' := by
  unfold updateRoots
  dsimp only
  split
  · exact ⟨_, rfl⟩
  · split
    · rename_i hend
      obtain ⟨pending, hpending⟩ := Option.isSome_iff_exists.mp (h hend)
      rw [hpending]
      exact ⟨_, rfl⟩
    · exact ⟨_, rfl⟩

omit [DecidableEq ι] in
theorem pendingRoot_of_updateRoots {height : Nat} {root : Root ι}
    (h : updateRoots st height root = .ok st') (hend : height % epochLength = 0) :
    st.pendingRoot.isSome := by
  unfold updateRoots at h
  dsimp only at h
  split at h
  · rename_i hone
    simp [hone, epochLength] at hend
  · split at h
    · cases h
    · rename_i hpending
      rw [hpending]
      rfl

theorem pendingRoot_of_applyState {height : Nat} {r : Root ι × State ι}
    (h : applyState S st txs height = .ok r) (hend : height % epochLength = 0) :
    st.pendingRoot.isSome := by
  obtain ⟨st₁, st2, hdrop, hadd, h⟩ := bind₂_ok h
  obtain ⟨trie, st3, -, hroots, -⟩ := bind₂_ok h
  rw [← ((dropAll_base hdrop).trans (addAll_base hadd).1).pendingRoot]
  exact (pendingRoot_of_updateRoots hroots hend :)

/-- A state that has been written holds no AtomicSwap. -/
theorem swapless_of_applied {root : Root ι} (ha : Applied S st txs root st')
    (hst : st.Refines S l) :
    ∀ utxo ∈ generatedUTXOs txs, utxo.isAtomicSwap = false := by
  intro utxo hutxo
  have hlookup := ha.lookup_generated (l := l) hutxo
  have hback := ha.backs hst.backs fun _ => hst.contains_unspent
  cases utxo with
  | atomicSwap as => exact absurd hlookup hback.swapless
  | valueStore vs | dataStore ds => rfl

end UTXOHandler

/-! ## Blocks -/

namespace BlockChecked

variable {storage : Storage} {chainID height : Nat} {deposits : List (TXOut ι)}

/-- After the consumed UTXOs have been dropped, the data index has room for the generated ones. -/
theorem dataIndex_free (h : BlockChecked S storage st chainID height txs txs' deposits)
    (hst : st.Refines S l)
    (hunspent : ∀ utxoID ∈ consumedUTXOIDNoDeposits S txs, utxoID ∈ l.unspent) {st₁ : State ι}
    (h1 : st₁.Backs S (((consumedUTXOIDNoDeposits S txs).map (·, none)).foldl
      Batch.write l.unspent)) :
    ∀ key ∈ (generatedUTXOs txs).filterMap TXOut.dataIndex, st₁.dataIndex.lookup key = none := by
  intro key hkey
  refine h1.indexed.data.lookup_eq_none fun utxoID hentry => ?_
  obtain ⟨utxo, hutxo, hindex⟩ := Option.bind_eq_some_iff.mp hentry
  -- what holds the key has not been consumed
  rw [Batch.lookup_deleted] at hutxo
  split at hutxo
  · cases hutxo
  rename_i hnot
  have hlookup (id) (out : TXOut ι) (hid : l.unspent.lookup id = some out)
      (hout : out.dataIndex = some key) : st.dataIndex.lookup key = some id := by
    rw [hst.backs.indexed.data.lookup_iff]
    simp only [hid, Option.bind_some, hout]
  -- the transaction that writes the key consumes it
  obtain ⟨out, hout, hkey⟩ := mem_filterMap.mp hkey
  obtain ⟨tx, htx, hout⟩ := mem_flatMap.mp hout
  obtain ⟨refs, hvalid⟩ := txValid_of_isValidTx (h.valid.each tx htx)
  obtain ⟨utxoID', hid', utxo', hutxo', hindex'⟩ := hvalid.dataIndex key
    (mem_filterMap.mpr ⟨out, hout, hkey⟩) (by rw [hlookup utxoID utxo hutxo hindex]; rfl)
  have hmem' : utxoID' ∈ consumedUTXOIDNoDeposits S txs := mem_flatMap.mpr ⟨tx, htx, hid'⟩
  obtain ⟨out', hout'⟩ :=
    Option.isSome_iff_exists.mp (AList.lookup_isSome.mpr (hunspent utxoID' hmem'))
  obtain rfl : out' = utxo' := Option.some.inj ((hst.backs.stored hout').symm.trans hutxo')
  have heq := (hlookup utxoID utxo hutxo hindex).symm.trans (hlookup utxoID' out' hout' hindex')
  exact hnot (Option.some.inj heq ▸ hmem')

theorem isAtomicSwap_iff (h : BlockChecked S storage st chainID height txs txs' deposits) :
    (∀ utxo ∈ generatedUTXOs txs', utxo.isAtomicSwap = false) ↔
      ∀ tx ∈ txs, ∀ out ∈ tx.vout, out.isAtomicSwap = false := by
  have hmap := h.map_generatedUTXOs (g := TXOut.isAtomicSwap) (fun out => by cases out <;> rfl)
    fun out _ => by cases out <;> rfl
  have hall (outs : List (TXOut ι)) : (∀ utxo ∈ outs, utxo.isAtomicSwap = false) ↔
      ∀ b ∈ outs.map TXOut.isAtomicSwap, b = false := by simp
  rw [hall, hmap, ← hall]
  simp only [generatedUTXOs, mem_flatMap]
  constructor
  · exact fun h tx htx out hout => h out ⟨tx, htx, hout⟩
  · rintro h out ⟨tx, htx, hout⟩
    exact h tx htx out hout

theorem exists_applyState (h : BlockChecked S storage st chainID height txs txs' deposits)
    (hst : st.Refines S l) (hdec : ∀ tx ∈ txs, tx.Decoded) {root : Root ι}
    {trie : Trie.SMT (Trie.Digest ι)} (htrie : nextTrie S st txs' = .ok (root, trie))
    (hswap : ∀ utxo ∈ generatedUTXOs txs', utxo.isAtomicSwap = false)
    (hpending : height % epochLength = 0 → st.pendingRoot.isSome)
    (hspent : ∀ utxoID ∈ consumedUTXOIDNoDeposits S txs, utxoID ∉ l.spentDeposits) :
    ∃ st', UTXOHandler.applyState S st txs' height = .ok (root, st') := by
  have hunspent : ∀ utxoID ∈ consumedUTXOIDNoDeposits S txs, utxoID ∈ l.unspent := by
    intro utxoID hid
    have hmem := h.valid.consumed utxoID hid
    rw [hst.trieContains, Except.ok.injEq, decide_eq_true_iff] at hmem
    exact hmem.resolve_right (hspent utxoID hid)
  have hnodup : (consumedUTXOIDNoDeposits S txs).Nodup := by
    have hkeys := nodup_of_keys (nextTrie_nodup htrie)
    simp only [trieWrites, map_append, map_map] at hkeys
    rw [← h.consumedNoDeposits_eq]
    simpa [Function.comp_def] using hkeys.of_append_right
  obtain ⟨st₁, hdrop⟩ := hst.backs.exists_drop_all hnodup hunspent
  have hbase1 := dropAll_base hdrop
  have hfresh : ∀ utxo ∈ generatedUTXOs txs', st₁.trieContains S (utxo.utxoID S) = .ok false := by
    intro utxo' hutxo'
    obtain ⟨utxo, hutxo, hid⟩ := h.utxoID_mem hdec utxo' hutxo'
    rw [hbase1.trieContains, hid]
    exact h.valid.generated utxo hutxo
  obtain ⟨set, hset⟩ := h.valid.dataStoreIndexes
  obtain ⟨st2, hadd⟩ := exists_addAll hswap hfresh
    (by rw [h.dataIndex_eq]; exact validateDataStoreIndexes_ok hset)
    (by rw [h.dataIndex_eq]
        exact h.dataIndex_free hst hunspent (hst.backs.drop_all hdrop).1)
  have hbase := hbase1.trans (addAll_base hadd).1
  rw [← nextTrie_congr hbase] at htrie
  obtain ⟨st3, hroots⟩ : ∃ st3, updateRoots st2 height root = .ok st3 :=
    UTXOHandler.exists_updateRoots (by rw [hbase.pendingRoot]; exact hpending)
  exact ⟨_, bind_eq_ok.mpr ⟨st₁, by rwa [h.consumedNoDeposits_eq],
    bind_eq_ok.mpr ⟨st2, hadd, bind_eq_ok.mpr ⟨(root, trie), htrie,
    bind_eq_ok.mpr ⟨st3, hroots, rfl⟩⟩⟩⟩⟩

end BlockChecked

/-! ## Mined transactions -/

omit [DecidableEq ι] in
theorem Tx.validateIssuedAtForMining_congr {tx tx' : Tx ι}
    (h : tx'.vout.map TXOut.mustBeMinedBeforeHeight = tx.vout.map TXOut.mustBeMinedBeforeHeight)
    (height : Nat) :
    tx'.validateIssuedAtForMining height = tx.validateIssuedAtForMining height := by
  have hnil : tx'.vout = [] ↔ tx.vout = [] := by
    rw [← map_eq_nil_iff (f := TXOut.mustBeMinedBeforeHeight), h, map_eq_nil_iff]
  simp only [validateIssuedAtForMining, mustBeMinedBefore, h, check, ne_eq, hnil]

theorem Tx.validateIssuedAtForMining_validateTxHash {tx tx' : Tx ι}
    (h : (tx.cacheUTXOIDs S).validateTxHash S = .ok tx') (height : Nat) :
    tx'.validateIssuedAtForMining height = tx.validateIssuedAtForMining height :=
  validateIssuedAtForMining_congr
    (map_validateTxHash h (fun out => by cases out <;> rfl) fun out _ => by cases out <;> rfl)
    height

variable {height chainID : Nat}

theorem minedTxAdd_iff
    (h : List.Forall₂ (fun tx tx' => (tx.cacheUTXOIDs S).validateTxHash S = .ok tx') txs txs') :
    (∃ txHashes, minedTxAdd S height txs' = .ok txHashes) ↔
      ∀ tx ∈ txs, tx.validateIssuedAtForMining height = .ok () := by
  have hadd {tx tx' : Tx ι} (htx : (tx.cacheUTXOIDs S).validateTxHash S = .ok tx') :
      (∃ txHash, minedTxAddOne S height tx' = .ok txHash) ↔
      tx.validateIssuedAtForMining height = .ok () := by
    obtain ⟨txHash, hhash⟩ := Option.isSome_iff_exists.mp (Tx.txHash_validateTxHash htx)
    have hget : tx'.getTxHash S = .ok (txHash, tx') := by simp only [Tx.getTxHash, hhash]
    rw [← Tx.validateIssuedAtForMining_validateTxHash htx]
    constructor
    · rintro ⟨_, hone⟩
      obtain ⟨r, hr, hone⟩ := bind_ok hone
      obtain rfl := Except.ok.inj (hget.symm.trans hr)
      obtain ⟨_, hissued, -⟩ := bind_ok hone
      exact hissued
    · intro hissued
      exact ⟨txHash, bind_eq_ok.mpr ⟨_, hget, bind_eq_ok.mpr ⟨(), hissued, rfl⟩⟩⟩
  constructor
  · rintro ⟨txHashes, hall⟩ tx htx
    have hall := Prog.mapM_eq_ok hall
    obtain ⟨tx', htx', hhash⟩ := Prog.exists_of_mem_left h htx
    obtain ⟨txHash, -, hone⟩ := Prog.exists_of_mem_left hall htx'
    exact (hadd hhash).mp ⟨txHash, hone⟩
  · intro hall
    refine Prog.exists_mapM_ok fun tx' htx' => ?_
    obtain ⟨tx, htx, hhash⟩ := Prog.exists_of_mem_right h htx'
    exact (hadd hhash).mpr (hall tx htx)

/-! ## `IsValid` and `ApplyState` -/

/-- What `IsValid` has found out. -/
theorem isValid_eq_true {storage : Storage} {stateHash : Root ι}
    (h : isValid S storage st chainID height stateHash txs = .ok true) (htxs : txs ≠ []) :
    ∃ txs' trie, validateBlock S storage st chainID height txs = .ok txs' ∧
      nextTrie S st txs' = .ok (some (stateHash.getD (.value S.zero)), trie) := by
  unfold isValid at h
  rw [if_neg htxs] at h
  obtain ⟨txs', htxs', h⟩ := bind_ok h
  cases hroot : getStateRootForProposal S st txs' with
  | error e => cases e <;> simp [hroot] at h
  | ok stateRoot =>
    simp only [hroot, Except.ok.injEq, decide_eq_true_eq] at h
    obtain ⟨⟨root, trie⟩, htrie, hroot⟩ := bind_ok hroot
    cases hroot
    exact ⟨txs', trie, htxs', by rw [htrie, h]⟩

/-- The root is the state hash, where `nil` counts as 32 zero bytes. -/
def Root.Matches (S : Scheme ι) (root stateHash : Root ι) : Prop :=
  root = stateHash ∨ stateHash = none ∧ root = some (.value S.zero)

/-- The empty block. -/
theorem applyState_nil_iff {storage : Storage} {stateHash : Root ι}
    (hvalid : isValid S storage st chainID height stateHash [] = .ok true) :
    (∃ root st', applyState S storage st chainID height [] = .ok (root, st') ∧
      root.Matches S stateHash) ↔ (height % epochLength = 0 → st.pendingRoot.isSome) := by
  obtain rfl : stateHash = st.getCurrentStateRoot S := of_decide_eq_true (Except.ok.inj hvalid)
  constructor
  · rintro ⟨root, st', h, -⟩ hend
    exact pendingRoot_of_applyState h hend
  · intro hpending
    obtain ⟨st', hroots⟩ : ∃ st', updateRoots st height (st.getCurrentStateRoot S) = .ok st' :=
      exists_updateRoots hpending
    exact ⟨_, _, bind_eq_ok.mpr ⟨st, rfl, bind_eq_ok.mpr ⟨st, rfl, bind_eq_ok.mpr
      ⟨(st.getCurrentStateRoot S, st.getCurrentTrie S), rfl,
        bind_eq_ok.mpr ⟨st', hroots, rfl⟩⟩⟩⟩, .inl rfl⟩

/-- A block that `IsValid` accepts is applied with the root that it was accepted for if and only if
each of its transactions can be mined at the height, it has no AtomicSwap, the root of the last
epoch is there at the end of an epoch, and it does not consume as a UTXO what is a spent deposit. -/
theorem applyState_of_isValid_iff {storage : Storage} {chainID height : Nat}
    {stateHash : Root ι} (hst : st.Refines S l) (hdec : ∀ tx ∈ txs, tx.Decoded)
    (hvalid : isValid S storage st chainID height stateHash txs = .ok true) :
    (∃ root st', applyState S storage st chainID height txs = .ok (root, st') ∧
      root.Matches S stateHash) ↔
      (∀ tx ∈ txs, tx.validateIssuedAtForMining height = .ok ()) ∧
      (∀ tx ∈ txs, ∀ out ∈ tx.vout, out.isAtomicSwap = false) ∧
      (height % epochLength = 0 → st.pendingRoot.isSome) ∧
      ∀ utxoID ∈ TxVec.consumedUTXOIDNoDeposits S txs, utxoID ∉ l.spentDeposits := by
  by_cases htxs : txs = []
  · subst htxs
    rw [applyState_nil_iff hvalid]
    simp [consumedUTXOIDNoDeposits]
  obtain ⟨txs', trie, hblock, htrie⟩ := isValid_eq_true hvalid htxs
  obtain ⟨deposits, hchecked⟩ := checked_of_validateBlock hblock
  rw [← hchecked.isAtomicSwap_iff, ← minedTxAdd_iff hchecked.hashes]
  unfold applyState
  rw [if_neg htxs]
  constructor
  · rintro ⟨root, st', h, -⟩
    obtain ⟨txs'', hblock', h⟩ := bind_ok h
    obtain rfl : txs' = txs'' := Except.ok.inj (hblock.symm.trans hblock')
    obtain ⟨⟨root, st₁⟩, txHashes, happly, hmined, -⟩ := bind₂_ok h
    have ha := applied_of_applyState happly
    refine ⟨⟨txHashes, hmined⟩, swapless_of_applied ha hst,
      pendingRoot_of_applyState happly, fun utxoID hid hspent => ?_⟩
    rw [← hchecked.consumedNoDeposits_eq] at hid
    exact hst.disjoint hspent (ha.consumed hst.backs utxoID hid)
  · rintro ⟨⟨txHashes, hmined⟩, hswap, hpending, hspent⟩
    obtain ⟨st₁, happly⟩ := hchecked.exists_applyState hst hdec htrie hswap hpending hspent
    refine ⟨_, _, bind_eq_ok.mpr ⟨txs', hblock, bind_eq_ok.mpr
      ⟨(_, st₁), happly, bind_eq_ok.mpr ⟨txHashes, hmined, rfl⟩⟩⟩, ?_⟩
    cases stateHash with
    | none => exact .inr ⟨rfl, rfl⟩
    | some d => exact .inl rfl

/-! ## A DataStore of another epoch -/

namespace Storing

def owner : Owner := { curveSpec := .secp256k1, account := [] }

def freeStorage : Storage :=
  { atomicSwapFee := 0, dataStoreEpochFee := 0, valueStoreFee := 0, minTxFee := 0 }

/-- A state with a deposit that pays for one byte in one epoch. -/
def state : State Term :=
  { State.empty with
    deposits := AList.singleton (.atom 7) (DepositHandler.newDeposit 1 (.atom 7) 1131 owner) }

/-- The DataStore of one byte, issued at the first or the second epoch. -/
def preImage (issuedAt : Nat) (h : validateDeposit 1 issuedAt 1131 1 = .ok ()) :
    DSPreImage Term where
  chainID := 1
  index := .atom 3
  issuedAt := issuedAt
  deposit := 1131
  rawData := [0]
  txOutIdx := 0
  owner := owner
  fee := 0
  valid := h

/-- The transaction that consumes the deposit, before it has a hash. -/
def unhashed (issuedAt : Nat) (h : validateDeposit 1 issuedAt 1131 1 = .ok ()) : Tx Term where
  vin := [{ linker := {
    preImage := {
      chainID := 1, consumedTxIdx := maxUint32, consumedTxHash := .atom 7, chainID_ne :=
        Nat.one_ne_zero }
    txHash := .atom 0 }, signature := [] }]
  vout := [.dataStore {
    preImage := preImage issuedAt h
    txHash := .atom 0, signature := { curveSpec := .secp256k1, signature := [] } }]
  fee := 0
  txHash := none

/-- The transaction with its hash in all parts, as it is loaded. -/
def tx (issuedAt : Nat) (h : validateDeposit 1 issuedAt 1131 1 = .ok ()) : Tx Term :=
  (((unhashed issuedAt h).setTxHash symbolic).toOption.getD (unhashed issuedAt h)).stored

def stateHash (tx : Tx Term) : Root Term :=
  (UTXOHandler.getStateRootForProposal symbolic state [tx]).toOption.join

end Storing

open Storing in
/-- `IsValid` accepts a DataStore of the next epoch, and `ApplyState` fails. -/
theorem applyState_fails_out_of_epoch :
    isValid symbolic freeStorage state 1 1 (stateHash (tx 2 rfl)) [tx 2 rfl] = .ok true ∧
      applyState symbolic freeStorage state 1 1 [tx 2 rfl] =
        .error (.invalid "tx.validateIssuedAtForMining: mining out of epoch") :=
  ⟨by decide +kernel, Prog.eq_error_of_errorOf (by decide +kernel)⟩

open Storing in
/-- A DataStore of the current epoch is stored. -/
theorem applyState_in_epoch :
    isValid symbolic freeStorage state 1 1 (stateHash (tx 1 rfl)) [tx 1 rfl] = .ok true ∧
      ∃ root st', applyState symbolic freeStorage state 1 1 [tx 1 rfl] = .ok (root, st') ∧
        root.Matches symbolic (stateHash (tx 1 rfl)) := by
  have hst : state.Refines symbolic .empty := State.Refines.empty.congr _ _
  have hdec : ∀ t ∈ [tx 1 rfl], t.Decoded := by
    intro t ht out hout
    obtain rfl := mem_singleton.mp ht
    obtain rfl := mem_singleton.mp (hout : out ∈ [_])
    rfl
  have hvalid : isValid symbolic freeStorage state 1 1 (stateHash (tx 1 rfl)) [tx 1 rfl] =
    .ok true := by
    decide +kernel
  refine ⟨hvalid, (applyState_of_isValid_iff hst hdec hvalid).mpr ⟨?_, ?_, ?_, ?_⟩⟩
  · intro t ht
    obtain rfl := mem_singleton.mp ht
    decide +kernel
  · intro t ht out hout
    obtain rfl := mem_singleton.mp ht
    obtain rfl := mem_singleton.mp (hout : out ∈ [_])
    rfl
  · decide
  · exact fun _ _ => not_mem_nil

end MadNet.App
