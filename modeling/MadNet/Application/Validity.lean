import MadNet.Application.Handlers

/-!
# What the checks of a block say

One specification for each function that checks transactions: what holds if it returns without an
error.
-/

namespace MadNet.App

open List TxVec
open Prog (bind_ok bind₂_ok)

variable {ι : Type} [DecidableEq ι] {S : Scheme ι} {st : State ι} {txs : List (Tx ι)}

/-! ## Generated ids -/

namespace TxVec

omit [DecidableEq ι] in
/-- What a block generates, by one property of its outputs. -/
theorem flatten_eq {β : Type} {f : Tx ι → Except Err (List β)} {g : TXOut ι → β}
    (hf : ∀ tx ys, f tx = .ok ys → ys = tx.vout.map g) {yss : List (List β)}
    (h : txs.mapM f = .ok yss) : yss.flatten = (generatedUTXOs txs).map g := by
  have hall := Prog.mapM_eq_ok h
  clear h
  induction hall with
  | nil => rfl
  | cons hy _ ih =>
    rw [flatten_cons, ih, hf _ _ hy, generatedUTXOs, generatedUTXOs, flatMap_cons, map_append]

omit [DecidableEq ι] in
theorem generatedUTXOID_ok {ids : List ι} (h : generatedUTXOID S txs = .ok ids) :
    ids = (generatedUTXOs txs).map (·.utxoID S) := by
  obtain ⟨yss, hyss, h⟩ := bind_ok h
  cases h
  refine flatten_eq (fun tx ys hys => ?_) hyss
  obtain ⟨_, -, hys⟩ := bind_ok hys
  exact (Except.ok.inj hys).symm

omit [DecidableEq ι] in
theorem generatedPreHash_ok {hashes : List ι} (h : generatedPreHash S txs = .ok hashes) :
    hashes = (generatedUTXOs txs).map (·.preHash S) := by
  obtain ⟨yss, hyss, h⟩ := bind_ok h
  cases h
  refine flatten_eq (fun tx ys hys => ?_) hyss
  obtain ⟨_, -, hys⟩ := bind_ok hys
  exact (Except.ok.inj hys).symm

end TxVec

/-! ## UTXOs -/

namespace UTXOHandler

omit [DecidableEq ι] in
theorem getMissing_eq_nil {utxoIDs : List ι} :
    getMissing st utxoIDs = [] ↔ ∀ utxoID ∈ utxoIDs, (st.utxos utxoID).isSome := by
  simp [getMissing, filter_eq_nil_iff, Option.isSome_iff_ne_none]

/-- What the loop of `IsValid` has checked for a transaction; `refs` are the deposits that it
consumes. -/
structure TxValid (S : Scheme ι) (st : State ι) (height : Nat) (deposits : List (TXOut ι))
    (tx : Tx ι) (refs : List (TXOut ι)) : Prop where
  stored : ∀ utxoID ∈ tx.consumedNoDeposits S, (st.utxos utxoID).isSome
  refs_ok : depositRefs S deposits (tx.consumedDeposits S) = .ok refs
  equalVinVout : tx.validateEqualVinVout height
    ((refs ++ getFound st (tx.consumedNoDeposits S)).map some) = .ok ()
  dataIndex : ∀ key ∈ tx.vout.filterMap TXOut.dataIndex, (st.dataIndex.lookup key).isSome →
    ∃ utxoID ∈ tx.consumedNoDeposits S, ∃ utxo, st.utxos utxoID = some utxo ∧
    utxo.dataIndex = some key

theorem txValid_of_isValidTx {height : Nat} {deposits : List (TXOut ι)} {tx : Tx ι}
    (h : isValidTx S st height deposits tx = .ok ()) :
    ∃ refs, TxValid S st height deposits tx refs := by
  obtain ⟨_, refs, hstored, hrefs, h⟩ := bind₂_ok h
  obtain ⟨_, hequal, h⟩ := bind_ok h
  refine ⟨refs, getMissing_eq_nil.mp (check_eq_ok.mp hstored), hrefs, hequal,
    fun key hkey hknown => ?_⟩
  obtain ⟨utxo, hutxo, hindex⟩ := mem_filterMap.mp (check_eq_ok.mp h key hkey hknown)
  obtain ⟨utxoID, hid, hget⟩ := mem_filterMap.mp hutxo
  exact ⟨utxoID, hid, utxo, hget, hindex⟩

/-- What `IsValid` has checked. -/
structure Valid (S : Scheme ι) (st : State ι) (txs : List (Tx ι)) (height : Nat)
    (deposits : List (TXOut ι)) : Prop where
  dataStoreIndexes : ∃ set, TxVec.validateDataStoreIndexes S [] txs = .ok set
  each : ∀ tx ∈ txs, isValidTx S st height deposits tx = .ok ()
  deposits : ∀ utxoID ∈ TxVec.consumedUTXOIDOnlyDeposits S txs, st.trieContains S utxoID = .ok false
  generated : ∀ utxo ∈ TxVec.generatedUTXOs txs, st.trieContains S (utxo.utxoID S) = .ok false
  consumed : ∀ utxoID ∈ TxVec.consumedUTXOIDNoDeposits S txs, st.trieContains S utxoID = .ok true
  stored : ∀ utxoID ∈ TxVec.consumedUTXOIDNoDeposits S txs, (st.utxos utxoID).isSome

theorem valid_of_isValid {height : Nat} {deposits consumed : List (TXOut ι)}
    (h : isValid S st txs height deposits = .ok consumed) :
    Valid S st txs height deposits ∧ consumed = getFound st (consumedUTXOIDNoDeposits S txs) := by
  obtain ⟨set, _, hset, heach, h⟩ := bind₂_ok h
  obtain ⟨_, ids, hdeposits, hids, h⟩ := bind₂_ok h
  obtain ⟨_, _, hgenerated, hconsumed, h⟩ := bind₂_ok h
  obtain ⟨_, hstored, h⟩ := bind_ok h
  rw [generatedUTXOID_ok hids] at hgenerated
  have hcontains {present : Bool} {msg : String} {utxoIDs : List ι}
      (hall : utxoIDs.forM (checkTrie S st present msg) = .ok ()) :
      ∀ utxoID ∈ utxoIDs, st.trieContains S utxoID = .ok present :=
    fun utxoID hid => (checkTrie_eq_ok S).mp (Prog.forM_eq_ok hall utxoID hid)
  exact ⟨⟨⟨set, hset⟩, Prog.forM_eq_ok heach, hcontains hdeposits,
    fun utxo hutxo => hcontains hgenerated _ (mem_map_of_mem hutxo), hcontains hconsumed,
    getMissing_eq_nil.mp (check_eq_ok.mp hstored)⟩, (Except.ok.inj h).symm⟩

end UTXOHandler

/-! ## Transactions -/

omit [DecidableEq ι] in
theorem addUnique_ok {α : Type} [DecidableEq α] {msg : String} {set set' xs : List α}
    (h : addUnique msg set xs = .ok set') :
    xs.Nodup ∧ (∀ x ∈ xs, x ∉ set) ∧ set' = xs.reverse ++ set := by
  induction xs generalizing set with
  | nil =>
    cases h
    simp
  | cons x xs ih =>
    unfold addUnique at h
    split at h
    · cases h
    · rename_i hx
      obtain ⟨hnodup, hdisj, rfl⟩ := ih h
      refine ⟨nodup_cons.mpr ⟨fun hxs => hdisj x hxs (by simp), hnodup⟩, fun y hy => ?_, by simp⟩
      rcases mem_cons.mp hy with rfl | hy
      · exact hx
      · exact fun hset => hdisj y hy (by simp [hset])

omit [DecidableEq ι] in
theorem Vout.validateTxOutIdx_ok {vout : List (TXOut ι)} (h : validateTxOutIdx vout = .ok ()) :
    ∀ i < vout.length, ∃ out ∈ vout, out.txOutIdx = i := by
  obtain ⟨idxMap, hidx, h⟩ := bind_ok h
  obtain ⟨-, -, rfl⟩ := addUnique_ok hidx
  intro i hi
  have hmem := check_eq_ok.mp h i (by simpa using hi)
  simpa using hmem

variable {set set' : List ι}

/-- No two DataStores of a block have the same owner and index. -/
theorem TxVec.validateDataStoreIndexes_ok (h : validateDataStoreIndexes S set txs = .ok set') :
    ((generatedUTXOs txs).filterMap TXOut.dataIndex).Nodup := by
  suffices hhash : (((generatedUTXOs txs).filterMap TXOut.dataIndex).map fun key =>
      S.hashIndex key.1 key.2).Nodup ∧ ∀ x ∈ ((generatedUTXOs txs).filterMap TXOut.dataIndex).map
        fun key => S.hashIndex key.1 key.2, x ∉ set from hhash.1.of_map
  induction txs generalizing set with
  | nil => simp [generatedUTXOs]
  | cons tx txs ih =>
    obtain ⟨set₁, htx, h⟩ := bind_ok h
    obtain ⟨hnodup, hdisj, rfl⟩ := addUnique_ok htx
    obtain ⟨hnodup', hdisj'⟩ := ih h
    rw [generatedUTXOs, flatMap_cons, filterMap_append, map_append]
    refine ⟨nodup_append.mpr ⟨hnodup, hnodup', fun x hx y hy hxy => ?_⟩, fun x hx => ?_⟩
    · exact hdisj' y hy (mem_append_left _ (mem_reverse.mpr (hxy ▸ hx)))
    · rcases mem_append.mp hx with hx | hx
      · exact hdisj x hx
      · exact fun hset => hdisj' x hx (mem_append_right _ hset)

/-- What `Tx.Validate` has checked; `tx'` is the transaction afterwards. -/
structure Tx.Checked (S : Scheme ι) (height : Nat) (refUTXOs : List (Option (TXOut ι)))
    (storage : Storage) (tx tx' : Tx ι) : Prop where
  vin_ne : tx.vin ≠ []
  vout_ne : tx.vout ≠ []
  txOutIdx : Vout.validateTxOutIdx tx.vout = .ok ()
  equalVinVout : (tx.cacheUTXOIDs S).validateEqualVinVout height refUTXOs = .ok ()
  fees : (tx.cacheUTXOIDs S).validateFees height refUTXOs storage = .ok ()
  txHash : (tx.cacheUTXOIDs S).validateTxHash S = .ok tx'

variable {storage : Storage}

theorem Tx.checked_of_validate {height : Nat} {refUTXOs : List (Option (TXOut ι))} {tx tx' : Tx ι}
    (h : tx.validate S set height refUTXOs storage = .ok (set', tx')) :
    tx.Checked S height refUTXOs storage tx' := by
  obtain ⟨_, _, hvin, hvout, h⟩ := bind₂_ok h
  obtain ⟨_, _, hidx, -, h⟩ := bind₂_ok h
  obtain ⟨_, _, -, hequal, h⟩ := bind₂_ok h
  obtain ⟨_, tx'', hfees, hhash, h⟩ := bind₂_ok h
  cases h
  exact ⟨check_eq_ok.mp hvin, check_eq_ok.mp hvout, hidx, hequal, hfees, hhash⟩

/-- The outputs that a transaction consumes, as `TxVec.Validate` finds them. -/
def Tx.refUTXOs (S : Scheme ι) (consumedUTXOs : List (TXOut ι)) (tx : Tx ι) :
    List (Option (TXOut ι)) :=
  tx.vin.map fun txIn => TxVec.voutMap S consumedUTXOs (txIn.utxoID S)

theorem TxVec.checked_of_validateFrom {height : Nat} {consumedUTXOs : List (TXOut ι)}
    {txs' : List (Tx ι)}
    (h : validateFrom S height consumedUTXOs storage set txs = .ok txs') :
    List.Forall₂ (fun tx tx' => tx.Checked S height (tx.refUTXOs S consumedUTXOs) storage tx')
      txs txs' := by
  induction txs generalizing set txs' with
  | nil =>
    cases h
    exact .nil
  | cons tx txs ih =>
    obtain ⟨utxoIDs, ⟨set', tx'⟩, hids, htx, h⟩ := bind₂_ok h
    obtain ⟨txs'', htxs, h⟩ := bind_ok h
    cases h
    obtain ⟨_, -, hids⟩ := bind_ok hids
    cases hids
    rw [map_map] at htx
    exact .cons (Tx.checked_of_validate htx) (ih htxs)

/-! ## What the checks leave behind -/

namespace TXOut

variable (out : TXOut ι)

/-- The output has not been asked for its UTXO ID. -/
def Decoded : Prop := out.stored = out

section

omit [DecidableEq ι]

@[simp] theorem utxoID_cacheUTXOID : (out.cacheUTXOID S).utxoID S = out.utxoID S := by
  cases out <;> rfl

@[simp] theorem cacheUTXOID_cacheUTXOID :
    (out.cacheUTXOID S).cacheUTXOID S = out.cacheUTXOID S := by
  cases out <;> rfl

@[simp] theorem txOutIdx_cacheUTXOID : (out.cacheUTXOID S).txOutIdx = out.txOutIdx := by
  cases out <;> rfl

@[simp] theorem txHash_cacheUTXOID : (out.cacheUTXOID S).txHash = out.txHash := by
  cases out <;> rfl

@[simp] theorem txHash_setTxOutIdx (idx : Nat) : (out.setTxOutIdx idx).txHash = out.txHash := by
  cases out <;> rfl

variable {out} in
theorem Decoded.utxoID_eq (h : out.Decoded) :
    out.utxoID S = makeUTXOID S out.txHash out.txOutIdx := by
  rw [← h]
  cases out <;> rfl

/-- A new number changes the UTXO ID of a DataStore only; the others remember theirs. -/
theorem utxoID_setTxOutIdx (idx : Nat) :
    ((out.cacheUTXOID S).setTxOutIdx idx).utxoID S = out.utxoID S ∨
      ((out.cacheUTXOID S).setTxOutIdx idx).utxoID S = makeUTXOID S out.txHash idx := by
  cases out with
  | dataStore ds => exact .inr rfl
  | valueStore vs | atomicSwap as => exact .inl rfl

end

end TXOut

namespace Tx

variable {tx tx' : Tx ι}

/-- The transaction has not been asked for the UTXO IDs of its outputs. -/
def Decoded (tx : Tx ι) : Prop := ∀ out ∈ tx.vout, out.Decoded

omit [DecidableEq ι] in
@[simp] theorem cacheUTXOIDs_cacheUTXOIDs (tx : Tx ι) :
    (tx.cacheUTXOIDs S).cacheUTXOIDs S = tx.cacheUTXOIDs S := by
  simp [cacheUTXOIDs]

/-- `ValidateTxHash` has nothing to do, or it numbers the outputs and finds the hash in all parts.
-/
theorem validateTxHash_cases (h : (tx.cacheUTXOIDs S).validateTxHash S = .ok tx') :
    (tx.txHash.isSome ∧ tx' = tx.cacheUTXOIDs S) ∨
      ∃ txHash, tx.txHash = none ∧ (tx.cacheUTXOIDs S).computeTxHash S = .ok txHash ∧
        (∀ txIn ∈ tx.vin, txIn.txHash = txHash) ∧ (∀ out ∈ tx.vout, out.txHash = txHash) ∧
        tx' = { (tx.cacheUTXOIDs S).setTxOutIdx with txHash := some txHash } := by
  unfold validateTxHash at h
  split at h
  · rename_i txHash hhash
    exact .inl ⟨Option.isSome_iff_exists.mpr ⟨txHash, hhash⟩, (Except.ok.inj h).symm⟩
  · rename_i hnone
    obtain ⟨⟨txHash, tx''⟩, _, hget, hvin, h⟩ := bind₂_ok h
    obtain ⟨_, hvout, h⟩ := bind_ok h
    cases h
    unfold getTxHash at hget
    rw [hnone] at hget
    obtain ⟨_, hcompute, hget⟩ := bind_ok hget
    cases hget
    refine .inr ⟨_, hnone, hcompute, check_eq_ok.mp hvin, fun out hout => ?_, rfl⟩
    have hall := check_eq_ok.mp hvout
    obtain ⟨i, hi, rfl⟩ := mem_iff_getElem.mp hout
    have hmem := hall (((tx.vout.get ⟨i, hi⟩).cacheUTXOID S).setTxOutIdx i) (by
      simp only [setTxOutIdx, Vout.setTxOutIdx, cacheUTXOIDs, mem_mapIdx, length_map,
        getElem_map]
      exact ⟨i, hi, rfl⟩)
    simpa using hmem

theorem vin_validateTxHash (h : (tx.cacheUTXOIDs S).validateTxHash S = .ok tx') :
    tx'.vin = tx.vin := by
  rcases validateTxHash_cases h with ⟨-, rfl⟩ | ⟨_, -, -, -, -, rfl⟩ <;> rfl

theorem txHash_validateTxHash (h : (tx.cacheUTXOIDs S).validateTxHash S = .ok tx') :
    tx'.txHash.isSome := by
  rcases validateTxHash_cases h with ⟨hsome, rfl⟩ | ⟨_, -, -, -, -, rfl⟩
  · exact hsome
  · rfl

/-- What depends neither on the number nor on the remembered ID of an output stays. -/
theorem map_validateTxHash {α : Type} {g : TXOut ι → α}
    (h : (tx.cacheUTXOIDs S).validateTxHash S = .ok tx')
    (hcache : ∀ out, g (out.cacheUTXOID S) = g out)
    (hidx : ∀ out idx, g (out.setTxOutIdx idx) = g out) : tx'.vout.map g = tx.vout.map g := by
  have hcached : (tx.cacheUTXOIDs S).vout.map g = tx.vout.map g := by
    simp [cacheUTXOIDs, Function.comp_def, hcache]
  rcases validateTxHash_cases h with ⟨-, rfl⟩ | ⟨_, -, -, -, -, rfl⟩
  · exact hcached
  · rw [← hcached]
    refine ext_getElem (by simp [setTxOutIdx, Vout.setTxOutIdx]) fun i hi hi' => ?_
    simp [setTxOutIdx, Vout.setTxOutIdx, hidx]

/-- The numbers of the outputs are those of their places, in some order, so no UTXO ID is new. -/
theorem utxoID_validateTxHash (h : (tx.cacheUTXOIDs S).validateTxHash S = .ok tx')
    (hdec : tx.Decoded) (hidx : Vout.validateTxOutIdx (tx.cacheUTXOIDs S).vout = .ok ()) :
    ∀ out' ∈ tx'.vout, ∃ out ∈ tx.vout, out'.utxoID S = out.utxoID S := by
  intro out' hout'
  rcases validateTxHash_cases h with ⟨-, rfl⟩ | ⟨txHash, -, -, -, hall, rfl⟩
  · obtain ⟨out, hout, rfl⟩ := mem_map.mp hout'
    exact ⟨out, hout, out.utxoID_cacheUTXOID⟩
  · simp only [setTxOutIdx, Vout.setTxOutIdx, cacheUTXOIDs, mem_mapIdx, length_map,
      getElem_map] at hout'
    obtain ⟨i, hi, rfl⟩ := hout'
    rcases TXOut.utxoID_setTxOutIdx (S := S) tx.vout[i] i with hid | hid
    · exact ⟨_, getElem_mem hi, hid⟩
    · -- the output that had this number before
      obtain ⟨cached, hcached, hi'⟩ :=
        Vout.validateTxOutIdx_ok hidx i (by simpa [cacheUTXOIDs] using hi)
      obtain ⟨out, hout, rfl⟩ := mem_map.mp hcached
      rw [TXOut.txOutIdx_cacheUTXOID] at hi'
      refine ⟨out, hout, ?_⟩
      rw [hid, (hdec out hout).utxoID_eq, hall _ (getElem_mem hi), hall out hout, hi']

end Tx

/-! ## Blocks -/

theorem DepositHandler.get_ok {utxoIDs : List ι} {r : Lookup ι} (h : get S st utxoIDs = .ok r)
    (hmissing : r.missing = []) (hspent : r.spent = []) :
    List.Forall₂ (fun utxoID utxo => st.deposits.lookup utxoID = some (.ok utxo) ∧
      st.trieContains S utxoID = .ok false) utxoIDs r.found := by
  induction utxoIDs generalizing r with
  | nil =>
    cases h
    exact .nil
  | cons utxoID utxoIDs ih =>
    unfold get at h
    split at h
    · obtain ⟨r', -, h⟩ := bind_ok h
      rw [← Except.ok.inj h] at hmissing
      cases hmissing
    · rename_i loaded hloaded
      obtain ⟨utxo, spent, hutxo, hcontains, h⟩ := bind₂_ok h
      obtain ⟨r', hr', h⟩ := bind_ok h
      cases spent with
      | true =>
        rw [← Except.ok.inj h] at hspent
        cases hspent
      | false =>
        cases h
        exact .cons ⟨hutxo ▸ hloaded, hcontains⟩ (ih hr' hmissing hspent)

theorem DepositHandler.isValid_ok {deposits : List (TXOut ι)}
    (h : isValid S st txs = .ok deposits) :
    List.Forall₂ (fun utxoID utxo => st.deposits.lookup utxoID = some (.ok utxo) ∧
      st.trieContains S utxoID = .ok false) (consumedUTXOIDOnlyDeposits S txs) deposits := by
  obtain ⟨r, _, hr, hmissing, h⟩ := bind₂_ok h
  obtain ⟨_, hspent, h⟩ := bind_ok h
  cases h
  exact get_ok hr (check_eq_ok.mp hmissing) (check_eq_ok.mp hspent)

/-- What the checks that `IsValid` and `ApplyState` share have found; `txs'` are the transactions
afterwards. -/
structure BlockChecked (S : Scheme ι) (storage : Storage) (st : State ι) (chainID height : Nat)
    (txs txs' : List (Tx ι)) (deposits : List (TXOut ι)) : Prop where
  chain : ∀ tx ∈ txs, tx.validateChainID chainID = .ok ()
  found : List.Forall₂ (fun utxoID utxo => st.deposits.lookup utxoID = some (.ok utxo) ∧
    st.trieContains S utxoID = .ok false) (TxVec.consumedUTXOIDOnlyDeposits S txs) deposits
  valid : UTXOHandler.Valid S st txs height deposits
  checked : List.Forall₂ (fun tx tx' => (tx.cacheUTXOIDs S).Checked S height
    (tx.refUTXOs S (deposits ++ UTXOHandler.getFound st (TxVec.consumedUTXOIDNoDeposits S txs)))
    storage tx') txs txs'

theorem checked_of_validateBlock {chainID height : Nat} {txs' : List (Tx ι)}
    (h : validateBlock S storage st chainID height txs = .ok txs') :
    ∃ deposits, BlockChecked S storage st chainID height txs txs' deposits := by
  obtain ⟨_, vout, hchain, hvout, h⟩ := bind₂_ok h
  obtain ⟨deposits, consumed, hdeposits, hconsumed, hvout⟩ := bind₂_ok hvout
  obtain ⟨hvalid, rfl⟩ := UTXOHandler.valid_of_isValid hconsumed
  cases hvout
  refine ⟨deposits, Prog.forM_eq_ok hchain, DepositHandler.isValid_ok hdeposits, hvalid, ?_⟩
  exact forall₂_map_left_iff.mp (checked_of_validateFrom h)

namespace BlockChecked

variable {storage : Storage} {chainID height : Nat} {txs' : List (Tx ι)} {deposits : List (TXOut ι)}
  (h : BlockChecked S storage st chainID height txs txs' deposits)

include h

theorem hashes : List.Forall₂ (fun tx tx' => (tx.cacheUTXOIDs S).validateTxHash S = .ok tx')
    txs txs' := by
  refine h.checked.imp fun tx tx' hc => ?_
  have hhash := hc.txHash
  rwa [Tx.cacheUTXOIDs_cacheUTXOIDs] at hhash

/-- What the checks leave of every transaction they leave of the block. -/
theorem flatMap_eq {α : Type} {f : Tx ι → List α}
    (hf : ∀ tx tx', (tx.cacheUTXOIDs S).validateTxHash S = .ok tx' → f tx' = f tx) :
    txs'.flatMap f = txs.flatMap f := by
  have hall := h.hashes
  clear h
  induction hall with
  | nil => rfl
  | cons htx _ ih => rw [flatMap_cons, flatMap_cons, hf _ _ htx, ih]

theorem consumedNoDeposits_eq : consumedUTXOIDNoDeposits S txs' = consumedUTXOIDNoDeposits S txs :=
  h.flatMap_eq fun tx tx' htx => by simp only [Tx.consumedNoDeposits, Tx.vin_validateTxHash htx]

theorem map_generatedUTXOs {α : Type} {g : TXOut ι → α}
    (hcache : ∀ out, g (out.cacheUTXOID S) = g out)
    (hidx : ∀ out idx, g (out.setTxOutIdx idx) = g out) :
    (generatedUTXOs txs').map g = (generatedUTXOs txs).map g := by
  simp only [generatedUTXOs, map_flatMap]
  exact h.flatMap_eq fun tx tx' htx => Tx.map_validateTxHash htx hcache hidx

theorem dataIndex_eq : (generatedUTXOs txs').filterMap TXOut.dataIndex =
    (generatedUTXOs txs).filterMap TXOut.dataIndex := by
  have hmap := h.map_generatedUTXOs (g := TXOut.dataIndex) (fun out => by cases out <;> rfl)
    fun out _ => by cases out <;> rfl
  have hid (outs : List (TXOut ι)) :
      outs.filterMap TXOut.dataIndex = (outs.map TXOut.dataIndex).filterMap id := by
    rw [filterMap_map]
    rfl
  rw [hid, hid, hmap]

theorem utxoID_mem (hdec : ∀ tx ∈ txs, tx.Decoded) :
    ∀ utxo' ∈ generatedUTXOs txs', ∃ utxo ∈ generatedUTXOs txs, utxo'.utxoID S = utxo.utxoID S := by
  intro utxo' hutxo'
  obtain ⟨tx', htx', hout'⟩ := mem_flatMap.mp hutxo'
  obtain ⟨i, hi, rfl⟩ := mem_iff_getElem.mp htx'
  have hlen := h.checked.length_eq
  have hc := h.checked.get (hlen ▸ hi) hi
  have hhash := hc.txHash
  simp only [get_eq_getElem, Tx.cacheUTXOIDs_cacheUTXOIDs] at hhash
  have htx : txs[i] ∈ txs := getElem_mem _
  obtain ⟨out, hout, hid⟩ := Tx.utxoID_validateTxHash hhash (hdec _ htx) hc.txOutIdx utxo' hout'
  exact ⟨out, mem_flatMap.mpr ⟨_, htx, hout⟩, hid⟩

end BlockChecked

end MadNet.App
